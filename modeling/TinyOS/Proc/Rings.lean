import TinyOS.Proc.Model
import TinyOS.Rlist.Model

/-!
# Processes and threads in memory

`kernel_proc.c` and `kernel_threads.c` with their rings as they are in memory: in each PCB the sentinels of
`children_list`, `exited_list` and `PTCB_List` and the nodes `children_node` and `exited_node`, in each PTCB the node
`PTCB_list_node`. Nothing keeps a node from being spliced into two rings here, or a ring from leading through a PTCB that
has been freed, whose memory may hold anything.

There is no result (`none`) where an assertion fails, where the `pcb` of a node is followed that has none, where a null
pointer is followed or a PTCB is read that is not allocated, and where a loop has not ended within `fuel` rounds.
-/

namespace TinyOS.Proc.Rings

open Rlist Streams

/-- The sentinels. -/
inductive Head
  | childrenList (p : Pid)
  | exitedList (p : Pid)
  | ptcbList (p : Pid)
  deriving DecidableEq

inductive Node
  | childrenNode (p : Pid)
  | exitedNode (p : Pid)
  | ptcbListNode (tid : Tid)
  deriving DecidableEq

abbrev Addr := Head ⊕ Node

/-- The pointer in an rlnode. -/
inductive Obj
  | null
  | pcb (p : Pid)
  | ptcb (tid : Tid)
  deriving DecidableEq

/-- `(PTCB*) tid`. -/
def Obj.ofTid (tid : Tid) : Obj := if tid = nothread then .null else .ptcb tid

/-- The pointer is read as a `PCB*` that is followed. -/
def Obj.toPcb : Obj → Option Pid
  | .pcb p => some p
  | _ => none

def childrenList (p : Pid) : Addr := .inl (.childrenList p)

def exitedList (p : Pid) : Addr := .inl (.exitedList p)

def ptcbList (p : Pid) : Addr := .inl (.ptcbList p)

def childrenNode (p : Pid) : Addr := .inr (.childrenNode p)

def exitedNode (p : Pid) : Addr := .inr (.exitedNode p)

def ptcbListNode (tid : Tid) : Addr := .inr (.ptcbListNode tid)

/-- A PCB, but for its rlnodes. -/
structure Pcb where
  pstate : PidState
  parent : Option Pid
  exitval : Int
  mainThread : Option ThreadId
  mainTask : Option Task
  argl : Int
  args : Args
  fidt : Fidt
  threadCounter : Int

structure State where
  pt : Pid → Pcb
  processCount : Nat
  pcbFreelist : Option Pid
  nodes : Nodes Addr Obj
  /-- The allocated PTCBs. -/
  ptcb : Tid → Option Ptcb
  threads : List Thread
  files : Files

namespace State

def setPcb (s : State) (p : Pid) (x : Pcb) : State := { s with pt := Function.update s.pt p x }

def setPtcb (s : State) (tid : Tid) (x : Option Ptcb) : State := { s with ptcb := Function.update s.ptcb tid x }

def setNodes (s : State) (nodes : Nodes Addr Obj) : State := { s with nodes := nodes }

def view (s : State) (p : Pid) : View := ⟨(s.pt p).fidt, s.files⟩

def setView (s : State) (p : Pid) (v : View) : State :=
  { s.setPcb p { s.pt p with fidt := v.fidt } with files := v.files }

/-! ## Threads -/

def ret (s : State) (i : ThreadId) (v : Int) (out : Option Int) : State :=
  { s with threads := s.threads.modify i fun th => { th with place := .user, ret := v, out := out } }

def setPlace (s : State) (i : ThreadId) (pl : Place) : State :=
  { s with threads := s.threads.modify i fun th => { th with place := pl } }

def wait (s : State) (i : ThreadId) (w : Wait) : State := s.setPlace i (.waiting w false)

def wake (s : State) (on : Thread → Wait → Bool) : State := { s with threads := s.threads.map (Thread.wake on) }

def broadcastExit (s : State) (tid : Tid) : State := s.wake fun _ w => w = .join tid

def broadcastChildExit (s : State) (p : Pid) : State :=
  s.wake fun th w =>
    match w with
    | .join _ => false
    | _ => th.ownerPcb = p

/-- `spawn_thread`, `wakeup`, and a new PTCB at `tid`. -/
def startThread (s : State) (p : Pid) (tid : Tid) (task : Task) (argl : Int) (args : Args) : State :=
  let s := s.setPcb p { s.pt p with threadCounter := (s.pt p).threadCounter + 1 }
  let s := s.setPtcb tid (some ⟨task, argl, args, 0, false, false, 0⟩)
  let s := s.setNodes (rlnodeInit s.nodes (ptcbListNode tid) (.ptcb tid))
  let s := s.setNodes (rlistPushBack s.nodes (ptcbList p) (ptcbListNode tid))
  { s with threads := s.threads ++ [⟨p, tid, .user, 0, none⟩] }

/-! ## `kernel_proc.c` -/

/-- The rlnodes in `initialize_PCB`. -/
def initializePcb (h : Nodes Addr Obj) (p : Pid) : Nodes Addr Obj :=
  let h := rlnodeInit h (childrenList p) .null
  let h := rlnodeInit h (exitedList p) .null
  let h := rlnodeInit h (childrenNode p) (.pcb p)
  let h := rlnodeInit h (exitedNode p) (.pcb p)
  rlnodeInit h (ptcbList p) .null

def acquirePcb (s : State) : Option (Pid × State) :=
  match s.pcbFreelist with
  | none => none
  | some p =>
    some (p, { s.setPcb p { s.pt p with pstate := .alive } with
      pcbFreelist := (s.pt p).parent
      processCount := s.processCount + 1 })

def releasePcb (s : State) (p : Pid) : State :=
  { s.setPcb p { s.pt p with pstate := .free, parent := s.pcbFreelist } with
    pcbFreelist := some p
    processCount := s.processCount - 1 }

def getPcb (s : State) (p : Pid) : Option Pid := if (s.pt p).pstate = .free then none else some p

/-- The new process `p` becomes a child of `cur`, and gets its streams. -/
def inheritFrom (s : State) (cur p : Pid) : State :=
  let s := s.setPcb p { s.pt p with parent := some cur }
  let s := s.setNodes (rlistPushFront s.nodes (childrenList cur) (childrenNode p))
  s.setView p ((s.view p).inherit (s.pt cur).fidt (List.finRange maxFileid))

/-- The PCB of the new process `p`, all but its main thread. -/
def setupProcess (s : State) (cur p : Pid) (call : Option Task) (argl : Int) (args : Args) : State :=
  let s := if p.val ≤ 1 then s.setPcb p { s.pt p with parent := none } else s.inheritFrom cur p
  s.setPcb p { s.pt p with mainTask := call, argl := argl, args := args }

def startMain (s : State) (p : Pid) (tid : Tid) (task : Task) (argl : Int) (args : Args) : State :=
  (s.setPcb p { s.pt p with mainThread := some s.threads.length }).startThread p tid task argl args

def sysExec (s : State) (cur : Pid) (tid : Tid) (call : Option Task) (argl : Int) (args : Args) : Option Pid × State :=
  match s.acquirePcb with
  | none => (none, s)
  | some (p, s) =>
    let s := s.setupProcess cur p call argl args
    (some p, match call with
      | none => s
      | some task => s.startMain p tid task argl args)

def cleanupZombie (s : State) (p : Pid) : State :=
  let s := s.setNodes (rlistRemove s.nodes (childrenNode p)).2
  let s := s.setNodes (rlistRemove s.nodes (exitedNode p)).2
  s.releasePcb p

def reap (s : State) (i : ThreadId) (child : Pid) : State :=
  (s.cleanupZombie child).ret i child.val (some (s.pt child).exitval)

def specificLoop (s : State) (i : ThreadId) (child : Pid) : State :=
  if (s.pt child).pstate = .alive then s.wait i (.specificChild child) else s.reap i child

/-- `&PT[cpid]`, for a legal `cpid`. -/
def pidOf (cpid : Int) : Option Pid :=
  if 0 ≤ cpid then if h : cpid.toNat < maxProc then some ⟨cpid.toNat, h⟩ else none else none

def waitForSpecificChild (s : State) (i : ThreadId) (cur : Pid) (cpid : Int) : State :=
  match (pidOf cpid).bind s.getPcb with
  | none => s.ret i noproc none
  | some child => if (s.pt child).parent ≠ some cur then s.ret i noproc none else s.specificLoop i child

/-- The loop of `wait_for_any_child`. -/
def findExited (s : State) (cur : Pid) : Option Proc.State.Found :=
  if isRlistEmpty s.nodes (childrenList cur) then some .noChildren
  else if isRlistEmpty s.nodes (exitedList cur) then some .wait
  else (s.nodes.obj (s.nodes.next (exitedList cur))).toPcb.map .exited

def waitForAnyChild (s : State) (i : ThreadId) (cur : Pid) : Option State :=
  (s.findExited cur).bind fun
    | .noChildren => some (s.ret i noproc none)
    | .exited child => if (s.pt child).pstate = .zombie then some (s.reap i child) else none
    | .wait => some (s.wait i .anyChild)

def sysWaitChild (s : State) (i : ThreadId) (cur : Pid) (cpid : Int) : Option State :=
  if cpid ≠ noproc then some (s.waitForSpecificChild i cur cpid) else s.waitForAnyChild i cur

/-! ## `kernel_threads.c` -/

/-- Removes a PTCB from its list, and frees it. -/
def freePtcb (s : State) (tid : Tid) : State :=
  (s.setNodes (rlistRemove s.nodes (ptcbListNode tid)).2).setPtcb tid none

def joinLoop (s : State) (i : ThreadId) (tid : Tid) : Option State :=
  (s.ptcb tid).map fun x =>
    if x.detached = false ∧ x.exited = false then s.wait i (.join tid)
    else
      let x := { x with refcount := x.refcount - 1 }
      let s := s.setPtcb tid (some x)
      if x.detached then s.ret i (-1) none
      else
        let s := if x.refcount = 0 then s.freePtcb tid else s
        s.ret i 0 (some x.exitval)

def sysThreadJoin (fuel : Nat) (s : State) (i : ThreadId) (cur : Pid) (own tid : Tid) : Option State := do
  let found ← rlistFind fuel s.nodes (ptcbList cur) (.ofTid tid) none
  if found = none ∨ tid = nothread then some (s.ret i (-1) none)
  else do
    let x ← s.ptcb tid
    if x.detached = true ∨ own = tid then some (s.ret i (-1) none)
    else (s.setPtcb tid (some { x with refcount := x.refcount + 1 })).joinLoop i tid

def sysThreadDetach (fuel : Nat) (s : State) (i : ThreadId) (cur : Pid) (tid : Tid) : Option State :=
  if tid = nothread then some (s.ret i (-1) none)
  else do
    let found ← rlistFind fuel s.nodes (ptcbList cur) (.ofTid tid) none
    if found = none then some (s.ret i (-1) none)
    else do
      let x ← s.ptcb tid
      if x.exited = true then some (s.ret i (-1) none)
      else some (((s.setPtcb tid (some { x with detached := true })).broadcastExit tid).ret i 0 none)

/-- `while(!is_rlist_empty(&curproc->children_list))` in the exit of `p`. -/
def reparentLoop (p : Pid) (initpcb : Option Pid) : Nat → State → Option State
  | 0, _ => none
  | fuel + 1, s =>
    if isRlistEmpty s.nodes (childrenList p) then some s
    else do
      let (child, nodes) := rlistPopFront s.nodes (childrenList p)
      let s := s.setNodes nodes
      let c ← (s.nodes.obj child).toPcb
      let s := s.setPcb c { s.pt c with parent := initpcb }
      let init ← initpcb
      reparentLoop p initpcb fuel (s.setNodes (rlistPushFront s.nodes (childrenList init) child))

/-- The exited children of `p` become exited children of init. -/
def appendExited (s : State) (p : Pid) (initpcb : Option Pid) : Option State :=
  if isRlistEmpty s.nodes (exitedList p) then some s
  else do
    let init ← initpcb
    let s := s.setNodes (rlistAppend s.nodes (exitedList init) (exitedList p))
    some (s.broadcastChildExit init)

/-- `p` reports to its parent. -/
def pushExited (s : State) (p : Pid) : Option State := do
  let q ← (s.pt p).parent
  let s := s.setNodes (rlistPushFront s.nodes (exitedList q) (exitedNode p))
  some (s.broadcastChildExit q)

def bequeath (fuel : Nat) (s : State) (p : Pid) : Option State := do
  let initpcb := s.getPcb initPid
  let s ← reparentLoop p initpcb fuel s
  let s ← s.appendExited p initpcb
  s.pushExited p

/-- `args`, `FIDT`, `main_thread` and `pstate`. -/
def cleanupProcess (s : State) (p : Pid) : State :=
  let s := s.setPcb p { s.pt p with args := none }
  let s := s.setView p ((s.view p).cleanup (List.finRange maxFileid))
  s.setPcb p { s.pt p with mainThread := none, pstate := .zombie }

/-- The assertions, and what follows them. -/
def becomeZombie (s : State) (p : Pid) : Option State :=
  if isRlistEmpty s.nodes (childrenList p) ∧ isRlistEmpty s.nodes (exitedList p) then some (s.cleanupProcess p)
  else none

/-- The exit of the last thread of `p`. -/
def exitProcess (fuel : Nat) (s : State) (p : Pid) : Option State :=
  if p ≠ initPid then (s.bequeath fuel p).bind fun s => s.becomeZombie p else s.becomeZombie p

def sysThreadExit (fuel : Nat) (s : State) (i : ThreadId) (cur : Pid) (own : Tid) (exitval : Int) : Option State :=
  (s.ptcb own).bind fun x =>
    let s := s.setPtcb own (some { x with exitval := exitval, exited := true })
    let s := s.setPcb cur { s.pt cur with threadCounter := (s.pt cur).threadCounter - 1 }
    let s := if x.refcount ≠ 0 then s.broadcastExit own else s
    (if (s.pt cur).threadCounter = 0 then s.exitProcess fuel cur else some s).map fun s => s.setPlace i .exited

/-- `while(sys_WaitChild(NOPROC,NULL) != NOPROC)` in `sys_Exit`, and the exit; `fuel` bounds the loops in it. -/
def exitLoop (fuel : Nat) (i : ThreadId) (cur : Pid) (own : Tid) (exitval : Int) : Nat → State → Option State
  | 0, _ => none
  | n + 1, s =>
    (s.findExited cur).bind fun
      | .noChildren => s.sysThreadExit fuel i cur own exitval
      | .exited child =>
        if (s.pt child).pstate = .zombie then exitLoop fuel i cur own exitval n (s.cleanupZombie child) else none
      | .wait => some (s.wait i (.exitOfInit exitval))

def sysExit (fuel : Nat) (s : State) (i : ThreadId) (cur : Pid) (own : Tid) (exitval : Int) : Option State :=
  let s := s.setPcb cur { s.pt cur with exitval := exitval }
  if cur = initPid then exitLoop fuel i cur own exitval fuel s else s.sysThreadExit fuel i cur own exitval

/-! ## The system -/

def Fresh (s : State) (tid : Tid) : Prop := tid ≠ nothread ∧ (s.ptcb tid).isNone

instance (s : State) (tid : Tid) : Decidable (s.Fresh tid) := inferInstanceAs (Decidable (_ ∧ _))

def perform (fuel : Nat) (s : State) (i : ThreadId) (cur : Pid) (own : Tid) : Call → Option State
  | .exec tid call argl args =>
    if s.Fresh tid then
      let (p, s) := s.sysExec cur tid call argl args
      some (s.ret i (p.elim noproc fun p => p.val) none)
    else none
  | .createThread tid task argl args =>
    if s.Fresh tid then some ((s.startThread cur tid task argl args).ret i tid none) else none
  | .threadJoin tid => s.sysThreadJoin fuel i cur own tid
  | .threadDetach tid => s.sysThreadDetach fuel i cur tid
  | .threadExit exitval => s.sysThreadExit fuel i cur own exitval
  | .exit exitval => s.sysExit fuel i cur own exitval
  | .waitChild cpid => s.sysWaitChild i cur cpid
  | .file c => (c.apply (s.view cur)).map (s.setView cur)

def resume (fuel : Nat) (s : State) (i : ThreadId) (cur : Pid) (own : Tid) : Wait → Option State
  | .specificChild child => some (s.specificLoop i child)
  | .anyChild => s.waitForAnyChild i cur
  | .exitOfInit exitval => exitLoop fuel i cur own exitval fuel s
  | .join tid => s.joinLoop i tid

/-- Other code writes to the memory of the node of `tid`. -/
def overwrite (s : State) (tid : Tid) (obj : Obj) (prev next : Addr) : State :=
  s.setNodes
    { obj := Function.update s.nodes.obj (ptcbListNode tid) obj
      prev := Function.update s.nodes.prev (ptcbListNode tid) prev
      next := Function.update s.nodes.next (ptcbListNode tid) next }

end State

inductive Action
  | sys (a : Proc.Action)
  /-- Memory that is free is written to. -/
  | overwrite (tid : Tid) (obj : Obj) (prev next : Addr)

namespace State

def step (fuel : Nat) (s : State) : Action → Option State
  | .sys (.call i c) =>
    match s.threads[i]? with
    | some ⟨cur, own, .user, _, _⟩ => s.perform fuel i cur own c
    | _ => none
  | .sys (.resume i) =>
    match s.threads[i]? with
    | some ⟨cur, own, .waiting w true, _, _⟩ => s.resume fuel i cur own w
    | _ => none
  | .overwrite tid obj prev next => if (s.ptcb tid).isNone then some (s.overwrite tid obj prev next) else none

/-- The child that a woken thread has waited for. -/
def awaited (s : State) (i : ThreadId) : Option Pid :=
  match s.threads[i]? with
  | some ⟨_, _, .waiting (.specificChild child) true, _, _⟩ => some child
  | _ => none

/-- No thread that goes on in `wait_for_specific_child` finds that the PCB of its child has been released. -/
def Finds (s : State) : Action → Prop
  | .sys (.resume i) => ∀ child ∈ s.awaited i, (s.pt child).pstate ≠ .free
  | _ => True

instance (s : State) : ∀ a, Decidable (s.Finds a)
  | .sys (.resume i) => inferInstanceAs (Decidable (∀ child ∈ s.awaited i, (s.pt child).pstate ≠ .free))
  | .sys (.call _ _) => inferInstanceAs (Decidable True)
  | .overwrite .. => inferInstanceAs (Decidable True)

/-- The tables after the loops of `initialize_processes` and `initialize_files`; `nodes` is what was in memory. -/
def initial (nodes : Nodes Addr Obj) : State where
  pt p :=
    { pstate := .free
      parent := if h : p.val + 1 < maxProc then some ⟨p.val + 1, h⟩ else none
      exitval := 0
      mainThread := none
      mainTask := none
      argl := 0
      args := none
      fidt := fun _ => none
      threadCounter := 0 }
  processCount := 0
  pcbFreelist := some ⟨0, maxProc_pos⟩
  nodes := (List.finRange maxProc).foldl initializePcb nodes
  ptcb _ := none
  threads := []
  files := Files.init

def boot (nodes : Nodes Addr Obj) (tid : Tid) (initTask : Task) (argl : Int) (args : Args) : State :=
  (((initial nodes).sysExec ⟨0, maxProc_pos⟩ tid none 0 none).2.sysExec ⟨0, maxProc_pos⟩ tid (some initTask) argl
    args).2

end State

/-- The system of processes and threads, from a memory that holds `nodes`. -/
def system (fuel : Nat) (nodes : Nodes Addr Obj) : Lts State Action where
  init s := ∃ tid initTask argl args, tid ≠ nothread ∧ s = State.boot nodes tid initTask argl args
  step := State.step fuel

end TinyOS.Proc.Rings
