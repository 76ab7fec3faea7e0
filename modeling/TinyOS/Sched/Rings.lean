import TinyOS.Rlist.Model
import TinyOS.Sched.Model

/-!
# The scheduler in memory

`kernel_sched.c` with its rings as they are in memory: the sentinels `SCHED[i]` and `TIMEOUT_LIST`, and in each TCB the
one `sched_node` that both kinds of ring are threaded through. Nothing keeps a node from being spliced into two rings
here, or a ring from leading through memory that has been freed, which other code may have written to.

There is no result (`none`) where an assertion fails, where the `tcb` of a sentinel is followed, where `SCHED` is indexed
out of bounds, and where a loop has not ended within `fuel` rounds.
-/

namespace TinyOS.Sched.Rings

open Rlist

/-- The sentinels. -/
inductive Head
  /-- `&SCHED[i]`. -/
  | sched (i : Fin maxPriorities)
  /-- `&TIMEOUT_LIST`. -/
  | timeoutList
  deriving DecidableEq

/-- An rlnode: a sentinel, or the `sched_node` of a TCB. -/
abbrev Addr (nc : Nat) := Head ⊕ Ptr nc

variable {nc : Nat}

structure State (nc : Nat) where
  tcb : Ptr nc → Tcb
  /-- Their keys are the `tcb` fields, `NULL` in the sentinels. -/
  nodes : Nodes (Addr nc) (Option (Ptr nc))
  current : Fin nc → Ptr nc
  previous : Fin nc → Option (Ptr nc)
  pc : Fin nc → Pc
  numofYields : Int
  activeThreads : Nat
  spawned : Nat
  released : List (Ptr nc)

def timeoutList : Addr nc := .inl .timeoutList

def schedNode (t : Ptr nc) : Addr nc := .inr t

/-- `&SCHED[i]`. -/
def sched (i : Nat) : Option (Addr nc) := if h : i < maxPriorities then some (.inl (.sched ⟨i, h⟩)) else none

namespace State

def setTcb (s : State nc) (t : Ptr nc) (x : Tcb) : State nc := { s with tcb := Function.update s.tcb t x }

def schedQueueAdd (s : State nc) (t : Ptr nc) : Option (State nc) := do
  let list ← sched (s.tcb t).priority
  pure { s with nodes := rlistPushBack s.nodes list (schedNode t) }

/-- `for(; n!=&TIMEOUT_LIST; n=n->next)`, up to the node that wakes up later. -/
def laterLoop (s : State nc) (t : Ptr nc) : Nat → Addr nc → Option (Addr nc)
  | 0, _ => none
  | fuel + 1, n =>
    if n ≠ timeoutList then do
      let u ← s.nodes.obj n
      if (s.tcb t).wakeupTime < (s.tcb u).wakeupTime then pure n else laterLoop s t fuel (s.nodes.next n)
    else some n

def schedRegisterTimeout (fuel : Nat) (s : State nc) (t : Ptr nc) (timeout clock : Nat) : Option (State nc) :=
  if timeout ≠ noTimeout then do
    let s := s.setTcb t { s.tcb t with wakeupTime := (clock + timeout) % 2 ^ 64 }
    let n ← s.laterLoop t fuel (s.nodes.next timeoutList)
    pure { s with nodes := (rlSplice s.nodes (s.nodes.prev n) (schedNode t)).2 }
  else some s

def schedMakeReady (s : State nc) (t : Ptr nc) : Option (State nc) := do
  guard ((s.tcb t).state = .stopped ∨ (s.tcb t).state = .init)
  let s ←
    if (s.tcb t).wakeupTime ≠ noTimeout then do
      guard (s.nodes.next (schedNode t) ≠ schedNode t ∧ (s.tcb t).state = .stopped)
      let s := { s with nodes := (rlistRemove s.nodes (schedNode t)).2 }
      pure (s.setTcb t { s.tcb t with wakeupTime := noTimeout })
    else pure s
  let s := s.setTcb t { s.tcb t with state := .ready }
  if (s.tcb t).phase = .ctxClean then s.schedQueueAdd t else pure s

/-- The loop of `sched_wakeup_expired_timeouts`. -/
def wakeupExpiredLoop (curtime : Nat) : Nat → State nc → Option (State nc)
  | 0, _ => none
  | fuel + 1, s =>
    if isRlistEmpty s.nodes timeoutList then some s
    else do
      let t ← s.nodes.obj (s.nodes.next timeoutList)
      if curtime < (s.tcb t).wakeupTime then pure s else (s.schedMakeReady t).bind (wakeupExpiredLoop curtime fuel)

def schedWakeupExpiredTimeouts (fuel : Nat) (s : State nc) (clock : Nat) : Option (State nc) :=
  wakeupExpiredLoop clock fuel s

/-- `for(i=MAX_PRIORITIES-1; i>=0; i--)`; the inner `none` is `i == -1`. -/
def topLoop (nodes : Nodes (Addr nc) (Option (Ptr nc))) : Nat → Option (Option Nat)
  | 0 => some none
  | i + 1 => do
    let list ← sched i
    if isRlistEmpty nodes list then topLoop nodes i else pure (some i)

def schedQueueSelect (s : State nc) (c : Fin nc) (cur : Ptr nc) : Option (Ptr nc × State nc) := do
  let (nextThread, s) ←
    match ← topLoop s.nodes maxPriorities with
    | some i => do
      let list ← sched i
      let (sel, nodes) := rlistPopFront s.nodes list
      pure (nodes.obj sel, { s with nodes := nodes })
    | none => pure (none, s)
  let next :=
    match nextThread with
    | some t => t
    | none => if (s.tcb cur).state = ThreadState.ready then cur else .idle c
  pure (next, s.setTcb next { s.tcb next with its := quantum })

/-! ## The boost -/

/-- `while(!is_rlist_empty(&SCHED[i]))`; `list` and `above` are `&SCHED[i]` and `&SCHED[i+1]`. -/
def boostLoop (list above : Addr nc) : Nat → State nc → Option (State nc)
  | 0, _ => none
  | fuel + 1, s =>
    if isRlistEmpty s.nodes list then some s
    else do
      let (node, nodes) := rlistPopFront s.nodes list
      let t ← nodes.obj node
      let s := { s with nodes := nodes }
      let s := s.setTcb t { s.tcb t with priority := (s.tcb t).priority + 1 }
      boostLoop list above fuel { s with nodes := rlistPushFront s.nodes above node }

def boostLevels (fuel : Nat) : Nat → State nc → Option (State nc)
  | 0, s => some s
  | i + 1, s => do
    let list ← sched i
    let above ← sched (i + 1)
    let s ← boostLoop list above fuel s
    boostLevels fuel i s

def boost (fuel : Nat) (s : State nc) : Option (State nc) :=
  if s.numofYields = maxYields then boostLevels fuel (maxPriorities - 1) { s with numofYields := 0 } else some s

/-! ## The sections -/

def spawnThread (s : State nc) : State nc :=
  { s.setTcb (.thread s.spawned)
      { type := .normalThread, state := .init, phase := .ctxClean, priority := maxPriorities - 1,
        wakeupTime := noTimeout, its := quantum, rts := quantum, currCause := .schedIdle, lastCause := .schedIdle } with
    nodes := rlnodeInit s.nodes (schedNode (.thread s.spawned)) (some (.thread s.spawned))
    spawned := s.spawned + 1
    activeThreads := s.activeThreads + 1 }

def releaseTcb (s : State nc) (t : Ptr nc) : State nc :=
  { s with released := t :: s.released, activeThreads := s.activeThreads - 1 }

def wakeup (s : State nc) (t : Ptr nc) : Option (Bool × State nc) :=
  if (s.tcb t).state = .stopped ∨ (s.tcb t).state = .init then (s.schedMakeReady t).map (true, ·) else some (false, s)

def sleepReleasing (fuel : Nat) (s : State nc) (c : Fin nc) (state : ThreadState) (cause : Cause)
    (timeout clock : Nat) : Option (State nc) := do
  guard (state = .stopped ∨ state = .exited)
  let t := s.current c
  let s := s.setTcb t { s.tcb t with state := state }
  let s ← if state ≠ .exited then s.schedRegisterTimeout fuel t timeout clock else pure s
  pure { s with pc := Function.update s.pc c (.slept cause) }

def yieldSection (fuel : Nat) (s : State nc) (c : Fin nc) (cause : Cause) (remaining clock : Nat) :
    Option (State nc) := do
  let cur := s.current c
  let s := s.setTcb cur { s.tcb cur with priority := State.adjustPriority cause (s.tcb cur) }
  let s ← s.boost fuel
  let s := s.setTcb cur (State.leaveCurrent cause remaining (s.tcb cur))
  let s ← s.schedWakeupExpiredTimeouts fuel clock
  let (next, s) ← s.schedQueueSelect c cur
  pure { s with
    previous := Function.update s.previous c (some cur)
    current := Function.update s.current c next
    pc := Function.update s.pc c .switching }

def gainCurrent (s : State nc) (c : Fin nc) : State nc :=
  let cur := s.tcb (s.current c)
  { s.setTcb (s.current c) { cur with state := .running, phase := .ctxDirty, rts := cur.its } with
    pc := Function.update s.pc c .running }

def gainPrevious (s : State nc) (prev : Ptr nc) : Option (State nc) :=
  let s := s.setTcb prev { s.tcb prev with phase := .ctxClean }
  match (s.tcb prev).state with
  | .ready => if (s.tcb prev).type ≠ .idleThread then s.schedQueueAdd prev else some s
  | .exited => some (s.releaseTcb prev)
  | .stopped => some s
  | .init | .running => none

def gain (s : State nc) (c : Fin nc) : Option (State nc) :=
  match s.previous c with
  | none => none
  | some prev => if s.current c ≠ prev then (s.gainCurrent c).gainPrevious prev else some (s.gainCurrent c)

/-! ## The system -/

/-- The memory of the node of `t` is free. -/
def Free (s : State nc) : Ptr nc → Prop
  | .idle _ => False
  | .thread n => s.spawned ≤ n ∨ .thread n ∈ s.released

instance (s : State nc) : ∀ t, Decidable (s.Free t)
  | .idle _ => inferInstanceAs (Decidable False)
  | .thread n => inferInstanceAs (Decidable (s.spawned ≤ n ∨ .thread n ∈ s.released))

/-- Other code writes to the node of `t`. -/
def overwrite (s : State nc) (t : Ptr nc) (obj : Option (Ptr nc)) (prev next : Addr nc) : State nc :=
  { s with
    nodes :=
      { obj := Function.update s.nodes.obj (schedNode t) obj
        prev := Function.update s.nodes.prev (schedNode t) prev
        next := Function.update s.nodes.next (schedNode t) next } }

end State

inductive Action (nc : Nat)
  | sched (a : Sched.Action nc)
  /-- Memory that is free is written to. -/
  | overwrite (t : Ptr nc) (obj : Option (Ptr nc)) (prev next : Addr nc)

namespace State

/-- As for the lists. -/
def Enabled (s : State nc) : Action nc → Prop
  | .sched .spawn => True
  | .sched (.wakeup (.idle _)) => True
  | .sched (.wakeup (.thread n)) => n < s.spawned
  | .sched (.sleep c state _ timeout clock) => s.pc c = .running ∧ s.current c ≠ .idle c ∧
      (state = .stopped ∨ state = .exited) ∧ (timeout = noTimeout ∨ clock + timeout < noTimeout)
  | .sched (.yield c cause) => s.pc c = .running ∨ s.pc c = .slept cause
  | .sched (.yieldSection c _ _) => (s.pc c).isYielding
  | .sched (.gain c) => s.pc c = .switching
  | .overwrite t .. => s.Free t

instance (s : State nc) : ∀ a, Decidable (s.Enabled a)
  | .sched .spawn => inferInstanceAs (Decidable True)
  | .sched (.wakeup (.idle _)) => inferInstanceAs (Decidable True)
  | .sched (.wakeup (.thread n)) => inferInstanceAs (Decidable (n < s.spawned))
  | .sched (.sleep c state _ timeout clock) => inferInstanceAs (Decidable (s.pc c = .running ∧
      s.current c ≠ .idle c ∧ (state = .stopped ∨ state = .exited) ∧
      (timeout = noTimeout ∨ clock + timeout < noTimeout)))
  | .sched (.yield c cause) => inferInstanceAs (Decidable (s.pc c = .running ∨ s.pc c = .slept cause))
  | .sched (.yieldSection c _ _) => inferInstanceAs (Decidable ((s.pc c).isYielding = true))
  | .sched (.gain c) => inferInstanceAs (Decidable (s.pc c = .switching))
  | .overwrite t .. => inferInstanceAs (Decidable (s.Free t))

def exec (fuel : Nat) (s : State nc) : Action nc → Option (State nc)
  | .sched .spawn => some s.spawnThread
  | .sched (.wakeup t) => (s.wakeup t).map Prod.snd
  | .sched (.sleep c state cause timeout clock) => s.sleepReleasing fuel c state cause timeout clock
  | .sched (.yield c cause) =>
    some { s with numofYields := s.numofYields + 1, pc := Function.update s.pc c (.yielding cause) }
  | .sched (.yieldSection c remaining clock) =>
    match s.pc c with
    | .yielding cause => s.yieldSection fuel c cause remaining clock
    | _ => none
  | .sched (.gain c) => s.gain c
  | .overwrite t obj prev next => some (s.overwrite t obj prev next)

/-! ## Boot -/

/-- `initialize_scheduler`, which initializes the sentinels. -/
def initializeScheduler (nodes : Nodes (Addr nc) (Option (Ptr nc))) : Nodes (Addr nc) (Option (Ptr nc)) :=
  let nodes := (List.finRange maxPriorities).foldl (fun h i => rlnodeInit h (.inl (.sched i)) none) nodes
  rlnodeInit nodes timeoutList none

/-- The idle threads in `run_scheduler`. -/
def initializeIdle (nodes : Nodes (Addr nc) (Option (Ptr nc))) : Nodes (Addr nc) (Option (Ptr nc)) :=
  (List.finRange nc).foldl (fun h c => rlnodeInit h (schedNode (.idle c)) (some (.idle c))) nodes

/-- Every core runs its idle thread; `nodes` is what was in memory. -/
def boot (nodes : Nodes (Addr nc) (Option (Ptr nc))) : State nc where
  tcb := Sched.State.bootTcb
  nodes := initializeIdle (initializeScheduler nodes)
  current := .idle
  previous := fun _ => none
  pc := fun _ => .running
  numofYields := 0
  activeThreads := 0
  spawned := 0
  released := []

end State

/-- The scheduler on `nc` cores, from a memory that holds `nodes`. -/
def sys (nc fuel : Nat) (nodes : Nodes (Addr nc) (Option (Ptr nc))) : Lts (State nc) (Action nc) :=
  ⟨(· = State.boot nodes), fun s a => if s.Enabled a then s.exec fuel a else none⟩

end TinyOS.Sched.Rings
