import TinyOS.Lib.Lts
import TinyOS.Proc.Tree

/-!
# Processes and threads

The system calls of `kernel_proc.c` and `kernel_threads.c`, on the process table, the PTCBs and the threads. The code of
a call up to its next `kernel_wait` is one step, and so is the code from a `kernel_wait` on. A step is `none` if the
thread cannot make it, or if an assertion of the code fails.

`serial` and `reaps` are history: they count how often a PCB has been acquired, and record each `cleanup_zombie`.
-/

namespace TinyOS.Proc

open Streams

/-! ## Data -/

/-- `Tid_t`: the address of a PTCB. -/
abbrev Tid := Nat

def nothread : Tid := 0

def noproc : Int := -1

/-- `Task`: the address of a function. -/
abbrev Task := Nat

/-- `args`, with the bytes it points to. -/
abbrev Args := Option (List UInt8)

/-- An index into the list of threads. -/
abbrev ThreadId := Nat

/-- The fields of a PCB that are not in the tree. -/
structure Pcb where
  exitval : Int
  mainThread : Option ThreadId
  mainTask : Option Task
  argl : Int
  args : Args
  fidt : Fidt
  threadCounter : Int
  ptcbList : List Tid

structure Ptcb where
  task : Task
  argl : Int
  args : Args
  exitval : Int
  exited : Bool
  detached : Bool
  refcount : Nat

/-- The `kernel_wait` at which a thread is suspended. -/
inductive Wait
  /-- in `wait_for_specific_child`, on `child_exit` of the caller -/
  | specificChild (child : Pid)
  /-- in `wait_for_any_child`, on the same -/
  | anyChild
  /-- in `wait_for_any_child` called by `sys_Exit` -/
  | exitOfInit (exitval : Int)
  /-- in `sys_ThreadJoin`, on `exit_cv` of the PTCB -/
  | join (tid : Tid)
  deriving DecidableEq, Repr

/-- Where a thread is; `woken` after a broadcast on what it waits for. -/
inductive Place
  | user
  | waiting (w : Wait) (woken : Bool)
  | exited
  deriving DecidableEq, Repr

/-- A TCB, and what the last system call of the thread returned: its value, and what it stored at its pointer argument. -/
structure Thread where
  ownerPcb : Pid
  ownerPtcb : Tid
  place : Place
  ret : Int
  out : Option Int

/-- A broadcast wakes the thread if `on` holds of it and what it waits for. -/
def Thread.wake (on : Thread → Wait → Bool) (th : Thread) : Thread :=
  match th.place with
  | .waiting w _ => if on th w then { th with place := .waiting w true } else th
  | _ => th

/-- One `cleanup_zombie(child)` by a thread of `caller`: what it found in the PCB, which incarnation of it. -/
structure Reap where
  caller : Pid
  child : Pid
  serial : Nat
  pstate : PidState
  parent : Option Pid
  deriving DecidableEq

structure State where
  tree : Tree
  pcb : Pid → Pcb
  /-- The allocated PTCBs. -/
  ptcb : Tid → Option Ptcb
  threads : List Thread
  files : Files
  serial : Pid → Nat
  reaps : List Reap

namespace State

def setPcb (s : State) (p : Pid) (x : Pcb) : State := { s with pcb := Function.update s.pcb p x }

def setPtcb (s : State) (tid : Tid) (x : Option Ptcb) : State := { s with ptcb := Function.update s.ptcb tid x }

/-- The file table of `p`, with the blocks. -/
def view (s : State) (p : Pid) : View := ⟨(s.pcb p).fidt, s.files⟩

def setView (s : State) (p : Pid) (v : View) : State :=
  { s.setPcb p { s.pcb p with fidt := v.fidt } with files := v.files }

/-! ## Threads -/

/-- The call that thread `i` is in returns to the user. -/
def ret (s : State) (i : ThreadId) (v : Int) (out : Option Int) : State :=
  { s with threads := s.threads.modify i fun th => { th with place := .user, ret := v, out := out } }

def setPlace (s : State) (i : ThreadId) (pl : Place) : State :=
  { s with threads := s.threads.modify i fun th => { th with place := pl } }

/-- `kernel_wait`. -/
def wait (s : State) (i : ThreadId) (w : Wait) : State := s.setPlace i (.waiting w false)

/-- Wakes the threads whose place satisfies `on`. -/
def wake (s : State) (on : Thread → Wait → Bool) : State := { s with threads := s.threads.map (Thread.wake on) }

/-- `kernel_broadcast(&ptcb->exit_cv)`. -/
def broadcastExit (s : State) (tid : Tid) : State := s.wake fun _ w => w = .join tid

/-- `kernel_broadcast(&pcb->child_exit)`. -/
def broadcastChildExit (s : State) (p : Pid) : State :=
  s.wake fun th w =>
    match w with
    | .join _ => false
    | _ => th.ownerPcb = p

/-- `spawn_thread`, `wakeup`, and a new PTCB at `tid`, pushed to the `PTCB_List` of `p`. -/
def startThread (s : State) (p : Pid) (tid : Tid) (task : Task) (argl : Int) (args : Args) : State :=
  let x := s.pcb p
  { (s.setPcb p { x with threadCounter := x.threadCounter + 1, ptcbList := x.ptcbList ++ [tid] }).setPtcb tid
      (some ⟨task, argl, args, 0, false, false, 0⟩) with
    threads := s.threads ++ [⟨p, tid, .user, 0, none⟩] }

/-! ## `sys_Exec` -/

/-- The loop of `sys_Exec` that gives `p` the streams of `cur`. -/
def inheritFidt (s : State) (cur p : Pid) : State :=
  s.setView p ((s.view p).inherit (s.pcb cur).fidt (List.finRange maxFileid))

/-- The PCB of the new process `p`, all but its main thread; `t` is the tree with `p` in it. -/
def setupProcess (s : State) (cur p : Pid) (t : Tree) (call : Option Task) (argl : Int) (args : Args) : State :=
  let s := { s with tree := t, serial := Function.update s.serial p (s.serial p + 1) }
  let s := if p.val ≤ 1 then s else s.inheritFidt cur p
  s.setPcb p { s.pcb p with mainTask := call, argl := argl, args := args }

def startMain (s : State) (p : Pid) (tid : Tid) (task : Task) (argl : Int) (args : Args) : State :=
  (s.setPcb p { s.pcb p with mainThread := some s.threads.length }).startThread p tid task argl args

/-- `sys_Exec` by `cur`; a main thread gets the PTCB `tid`. -/
def sysExec (s : State) (cur : Pid) (tid : Tid) (call : Option Task) (argl : Int) (args : Args) : Option Pid × State :=
  match s.tree.exec cur with
  | none => (none, s)
  | some (p, t) =>
    let s := s.setupProcess cur p t call argl args
    (some p, match call with
      | none => s
      | some task => s.startMain p tid task argl args)

/-! ## `kernel_threads.c` -/

/-- Removes a PTCB from the `PTCB_List` of `cur`, and frees it. -/
def freePtcb (s : State) (cur : Pid) (tid : Tid) : State :=
  (s.setPcb cur { s.pcb cur with ptcbList := (s.pcb cur).ptcbList.erase tid }).setPtcb tid none

/-- The loop of `sys_ThreadJoin` and what follows it. -/
def joinLoop (s : State) (i : ThreadId) (cur : Pid) (tid : Tid) : Option State :=
  (s.ptcb tid).map fun x =>
    if x.detached = false ∧ x.exited = false then s.wait i (.join tid)
    else
      let x := { x with refcount := x.refcount - 1 }
      let s := s.setPtcb tid (some x)
      if x.detached then s.ret i (-1) none
      else
        let s := if x.refcount = 0 then s.freePtcb cur tid else s
        s.ret i 0 (some x.exitval)

/-- `own` is `owner_ptcb` of the caller. -/
def sysThreadJoin (s : State) (i : ThreadId) (cur : Pid) (own tid : Tid) : Option State :=
  match s.ptcb tid with
  | none => some (s.ret i (-1) none)
  | some x =>
    if tid ∉ (s.pcb cur).ptcbList ∨ tid = nothread ∨ x.detached = true ∨ own = tid then some (s.ret i (-1) none)
    else (s.setPtcb tid (some { x with refcount := x.refcount + 1 })).joinLoop i cur tid

def sysThreadDetach (s : State) (i : ThreadId) (cur : Pid) (tid : Tid) : State :=
  match s.ptcb tid with
  | none => s.ret i (-1) none
  | some x =>
    if tid = nothread ∨ tid ∉ (s.pcb cur).ptcbList ∨ x.exited = true then s.ret i (-1) none
    else ((s.setPtcb tid (some { x with detached := true })).broadcastExit tid).ret i 0 none

/-- The broadcasts of the last thread of `p` to init and to the parent of `p`; `t` is the tree after the exit. -/
def reportExit (s : State) (p : Pid) (t : Tree) : State :=
  -- `curproc->exited_list` is tested before it is appended
  let s := if s.tree.exitedList p = [] then s else s.broadcastChildExit initPid
  match t.parent p with
  | some q => s.broadcastChildExit q
  | none => s

/-- `args`, `FIDT` and `main_thread` of a process that exits. -/
def cleanupProcess (s : State) (p : Pid) : State :=
  (s.setPcb p { s.pcb p with args := none, mainThread := none }).setView p
    ((s.view p).cleanup (List.finRange maxFileid))

/-- What the exit of the last thread of `p` does; `none` if an assertion fails. -/
def exitProcess (s : State) (p : Pid) : Option State :=
  (s.tree.exit p).map fun t =>
    let s := if p ≠ initPid then s.reportExit p t else s
    { s.cleanupProcess p with tree := t }

def sysThreadExit (s : State) (i : ThreadId) (cur : Pid) (own : Tid) (exitval : Int) : Option State :=
  (s.ptcb own).bind fun x =>
    let s := s.setPtcb own (some { x with exitval := exitval, exited := true })
    let s := s.setPcb cur { s.pcb cur with threadCounter := (s.pcb cur).threadCounter - 1 }
    let s := if x.refcount ≠ 0 then s.broadcastExit own else s
    (if (s.pcb cur).threadCounter = 0 then s.exitProcess cur else some s).map fun s => s.setPlace i .exited

/-! ## `sys_WaitChild` and `sys_Exit` -/

/-- `cleanup_zombie` by a thread of `cur`. -/
def cleanupZombie (s : State) (cur child : Pid) : State :=
  { s with
    tree := s.tree.cleanupZombie child
    reaps := ⟨cur, child, s.serial child, s.tree.pstate child, s.tree.parent child⟩ :: s.reaps }

/-- `cleanup_zombie` at the end of `sys_WaitChild`, and the return. -/
def reap (s : State) (i : ThreadId) (cur child : Pid) : State :=
  (s.cleanupZombie cur child).ret i child.val (some (s.pcb child).exitval)

/-- The loop of `wait_for_specific_child` and what follows it. -/
def specificLoop (s : State) (i : ThreadId) (cur child : Pid) : State :=
  if s.tree.pstate child = .alive then s.wait i (.specificChild child) else s.reap i cur child

/-- `get_pcb`. -/
def getPcb (s : State) (cpid : Int) : Option Pid :=
  if h : 0 ≤ cpid ∧ cpid.toNat < maxProc then
    if s.tree.pstate ⟨cpid.toNat, h.2⟩ = .free then none else some ⟨cpid.toNat, h.2⟩
  else none

def waitForSpecificChild (s : State) (i : ThreadId) (cur : Pid) (cpid : Int) : State :=
  match s.getPcb cpid with
  | none => s.ret i noproc none
  | some child =>
    if s.tree.parent child ≠ some cur then s.ret i noproc none else s.specificLoop i cur child

/-- What the loop of `wait_for_any_child` finds. -/
inductive Found
  | noChildren
  | exited (child : Pid)
  | wait

def findExited (s : State) (cur : Pid) : Found :=
  match s.tree.childrenList cur, s.tree.exitedList cur with
  | [], _ => .noChildren
  | _ :: _, child :: _ => .exited child
  | _ :: _, [] => .wait

/-- `wait_for_any_child`; `none` if its assertion fails. -/
def waitForAnyChild (s : State) (i : ThreadId) (cur : Pid) : Option State :=
  match s.findExited cur with
  | .noChildren => some (s.ret i noproc none)
  | .exited child => if s.tree.pstate child = .zombie then some (s.reap i cur child) else none
  | .wait => some (s.wait i .anyChild)

def sysWaitChild (s : State) (i : ThreadId) (cur : Pid) (cpid : Int) : Option State :=
  if cpid ≠ noproc then some (s.waitForSpecificChild i cur cpid) else s.waitForAnyChild i cur

/-- The loop of `sys_Exit` in init, at most `n` rounds, and the exit. -/
def exitLoop (s : State) (i : ThreadId) (cur : Pid) (own : Tid) (exitval : Int) : Nat → Option State
  | 0 => none
  | n + 1 =>
    match s.findExited cur with
    | .noChildren => s.sysThreadExit i cur own exitval
    | .exited child =>
      if s.tree.pstate child = .zombie then (s.cleanupZombie cur child).exitLoop i cur own exitval n else none
    | .wait => some (s.wait i (.exitOfInit exitval))

/-- Each round of the loop takes a child off `exited_list`. -/
def exitOfInit (s : State) (i : ThreadId) (cur : Pid) (own : Tid) (exitval : Int) : Option State :=
  s.exitLoop i cur own exitval ((s.tree.exitedList cur).length + 1)

def sysExit (s : State) (i : ThreadId) (cur : Pid) (own : Tid) (exitval : Int) : Option State :=
  let s := s.setPcb cur { s.pcb cur with exitval := exitval }
  if cur = initPid then s.exitOfInit i cur own exitval else s.sysThreadExit i cur own exitval

end State

/-! ## Runs -/

/-- The system calls; `tid` is the address that `xmalloc` returns. -/
inductive Call
  | exec (tid : Tid) (call : Option Task) (argl : Int) (args : Args)
  | createThread (tid : Tid) (task : Task) (argl : Int) (args : Args)
  | threadJoin (tid : Tid)
  | threadDetach (tid : Tid)
  | threadExit (exitval : Int)
  | exit (exitval : Int)
  | waitChild (cpid : Int)
  | file (call : FileCall)

inductive Action
  | call (i : ThreadId) (c : Call)
  /-- A woken thread goes on after its `kernel_wait`. -/
  | resume (i : ThreadId)

namespace State

/-- `xmalloc` may return `tid`. -/
def Fresh (s : State) (tid : Tid) : Prop := tid ≠ nothread ∧ (s.ptcb tid).isNone

instance (s : State) (tid : Tid) : Decidable (s.Fresh tid) := inferInstanceAs (Decidable (_ ∧ _))

/-- A call by thread `i` of `cur`. -/
def perform (s : State) (i : ThreadId) (cur : Pid) (own : Tid) : Call → Option State
  | .exec tid call argl args =>
    if s.Fresh tid then
      let (p, s) := s.sysExec cur tid call argl args
      some (s.ret i (p.elim noproc fun p => p.val) none)
    else none
  | .createThread tid task argl args =>
    if s.Fresh tid then some ((s.startThread cur tid task argl args).ret i tid none) else none
  | .threadJoin tid => s.sysThreadJoin i cur own tid
  | .threadDetach tid => some (s.sysThreadDetach i cur tid)
  | .threadExit exitval => s.sysThreadExit i cur own exitval
  | .exit exitval => s.sysExit i cur own exitval
  | .waitChild cpid => s.sysWaitChild i cur cpid
  | .file c => (c.apply (s.view cur)).map (s.setView cur)

/-- Thread `i` of `cur` goes on after its `kernel_wait`. -/
def resume (s : State) (i : ThreadId) (cur : Pid) (own : Tid) : Wait → Option State
  | .specificChild child => some (s.specificLoop i cur child)
  | .anyChild => s.waitForAnyChild i cur
  | .exitOfInit exitval => s.exitOfInit i cur own exitval
  | .join tid => s.joinLoop i cur tid

def step (s : State) : Action → Option State
  | .call i c =>
    match s.threads[i]? with
    | some ⟨cur, own, .user, _, _⟩ => s.perform i cur own c
    | _ => none
  | .resume i =>
    match s.threads[i]? with
    | some ⟨cur, own, .waiting w true, _, _⟩ => s.resume i cur own w
    | _ => none

/-- A step is a system call of a thread, or a woken thread goes on. -/
theorem step_cases {s s' : State} {a : Action} (h : s.step a = some s') :
    (∃ i c th, a = .call i c ∧ s.threads[i]? = some th ∧ th.place = .user ∧
      s.perform i th.ownerPcb th.ownerPtcb c = some s') ∨
    (∃ i w th, a = .resume i ∧ s.threads[i]? = some th ∧ th.place = .waiting w true ∧
      s.resume i th.ownerPcb th.ownerPtcb w = some s') := by
  cases a with
  | call i c =>
    simp only [step] at h
    split at h
    · rename_i hi
      exact .inl ⟨i, c, _, rfl, hi, rfl, h⟩
    · cases h
  | resume i =>
    simp only [step] at h
    split at h
    · rename_i hi
      exact .inr ⟨i, _, _, rfl, hi, rfl, h⟩
    · cases h

/-- The tables after the loops of `initialize_processes` and `initialize_files`. -/
def initial : State where
  tree := Tree.initial
  pcb := fun _ => ⟨0, none, none, 0, none, fun _ => none, 0, []⟩
  ptcb := fun _ => none
  threads := []
  files := Files.init
  serial := fun _ => 0
  reaps := []

/-- `initialize_processes` executes the null process, and the boot code then executes init. -/
def boot (tid : Tid) (initTask : Task) (argl : Int) (args : Args) : State :=
  ((initial.sysExec ⟨0, maxProc_pos⟩ tid none 0 none).2.sysExec ⟨0, maxProc_pos⟩ tid (some initTask) argl args).2

end State

/-- The system of processes and threads. -/
def system : Lts State Action where
  init s := ∃ tid initTask argl args, tid ≠ nothread ∧ s = State.boot tid initTask argl args
  step := State.step

end TinyOS.Proc
