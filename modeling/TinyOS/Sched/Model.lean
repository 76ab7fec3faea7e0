import Mathlib.Algebra.Group.Nat.Defs
import Mathlib.Data.Option.Basic
import Mathlib.Logic.Function.Basic
import TinyOS.Lib.Lts

/-!
# The scheduler

`kernel_sched.c` for any number of cores. Every section under `sched_spinlock` is one step: `wakeup`,
`sleep_releasing`, `yield` up to the context switch, and `gain`; so are `spawn_thread` and the increment of
`numofYields` at the start of `yield`, which the spinlock does not cover.

The rings `SCHED[i]` and `TIMEOUT_LIST` are lists of threads, the node after the sentinel first. Both are threaded
through the one `sched_node` of a TCB, so splicing in a node that is already linked would merge two rings: the model
has no result (`none`) there, as it has none where an assertion fails.
-/

namespace TinyOS.Sched

/-! ## Threads and cores -/

def maxPriorities : Nat := 1000

def maxYields : Int := 2000

/-- `NO_TIMEOUT`, the largest `TimerDuration`. -/
def noTimeout : Nat := 2 ^ 64 - 1

def quantum : Nat := 10000

inductive ThreadState
  | init
  | ready
  | running
  | stopped
  | exited
  deriving DecidableEq, Repr

inductive ThreadPhase
  | ctxClean
  | ctxDirty
  deriving DecidableEq, Repr

inductive ThreadType
  | idleThread
  | normalThread
  deriving DecidableEq, Repr

inductive Cause
  | schedQuantum
  | schedIo
  | schedMutex
  | schedPipe
  | schedPoll
  | schedIdle
  | schedUser
  deriving DecidableEq, Repr

/-- A TCB: the idle thread in the CCB of a core, or the `n`-th thread that `spawn_thread` allocated. -/
inductive Ptr (nc : Nat)
  | idle (c : Fin nc)
  | thread (n : Nat)
  deriving DecidableEq, Repr

/-- Named, for membership in the lists of threads. -/
instance (nc : Nat) : LawfulBEq (Ptr nc) := inferInstance

structure Tcb where
  type : ThreadType
  state : ThreadState
  phase : ThreadPhase
  priority : Nat
  wakeupTime : Nat
  its : Nat
  rts : Nat
  currCause : Cause
  lastCause : Cause
  deriving DecidableEq, Repr

/-- Where a core is with respect to the scheduler. -/
inductive Pc
  /-- Executing its current thread. -/
  | running
  /-- Between the section of `sleep_releasing` and its call of `yield`. -/
  | slept (cause : Cause)
  /-- In `yield`, before the section. -/
  | yielding (cause : Cause)
  /-- Switching from the previous to the current thread, before the section of `gain`. -/
  | switching
  deriving DecidableEq, Repr

def Pc.isYielding : Pc → Bool
  | .yielding _ => true
  | _ => false

structure State (nc : Nat) where
  tcb : Ptr nc → Tcb
  /-- `SCHED`. -/
  queue : Nat → List (Ptr nc)
  timeoutList : List (Ptr nc)
  current : Fin nc → Ptr nc
  previous : Fin nc → Option (Ptr nc)
  pc : Fin nc → Pc
  numofYields : Int
  activeThreads : Nat
  /-- The number of calls of `spawn_thread`. -/
  spawned : Nat
  /-- The TCBs passed to `release_TCB`, latest first. -/
  released : List (Ptr nc)

variable {nc : Nat}

namespace State

def setTcb (s : State nc) (t : Ptr nc) (x : Tcb) : State nc := { s with tcb := Function.update s.tcb t x }

/-! ## The rings -/

/-- `sched_node` is in some ring. -/
def Linked (s : State nc) (t : Ptr nc) : Prop := t ∈ s.timeoutList ∨ ∃ i < maxPriorities, t ∈ s.queue i

instance (s : State nc) (t : Ptr nc) : Decidable (s.Linked t) := by unfold Linked; infer_instance

/-- `rlist_remove(&tcb->sched_node)`. -/
def unlink (s : State nc) (t : Ptr nc) : State nc :=
  { s with timeoutList := s.timeoutList.erase t, queue := fun i => (s.queue i).erase t }

def schedQueueAdd (s : State nc) (t : Ptr nc) : Option (State nc) :=
  let p := (s.tcb t).priority
  if s.Linked t then none else some { s with queue := Function.update s.queue p (s.queue p ++ [t]) }

/-- Insert `t` before the first entry that wakes up later. -/
def insertTimeout (wakeupTime : Ptr nc → Nat) (t : Ptr nc) : List (Ptr nc) → List (Ptr nc)
  | [] => [t]
  | n :: l => if wakeupTime t < wakeupTime n then t :: n :: l else n :: insertTimeout wakeupTime t l

def schedRegisterTimeout (s : State nc) (t : Ptr nc) (timeout clock : Nat) : Option (State nc) :=
  if timeout ≠ noTimeout then
    let s := s.setTcb t { s.tcb t with wakeupTime := (clock + timeout) % 2 ^ 64 }
    if s.Linked t then none
    else some { s with timeoutList := insertTimeout (fun u => (s.tcb u).wakeupTime) t s.timeoutList }
  else some s

def schedMakeReady (s : State nc) (t : Ptr nc) : Option (State nc) := do
  guard ((s.tcb t).state = .stopped ∨ (s.tcb t).state = .init)
  let s ←
    if (s.tcb t).wakeupTime ≠ noTimeout then do
      guard (s.Linked t ∧ (s.tcb t).state = .stopped)
      pure ((s.unlink t).setTcb t { s.tcb t with wakeupTime := noTimeout })
    else pure s
  let s := s.setTcb t { s.tcb t with state := .ready }
  if (s.tcb t).phase = .ctxClean then s.schedQueueAdd t else pure s

/-- The loop of `sched_wakeup_expired_timeouts`, at most `n` rounds. -/
def wakeupExpiredLoop (clock : Nat) : Nat → State nc → Option (State nc)
  | 0, s => some s
  | n + 1, s =>
    match s.timeoutList with
    | [] => some s
    | t :: _ => if clock < (s.tcb t).wakeupTime then some s else (s.schedMakeReady t).bind (wakeupExpiredLoop clock n)

/-- Every round takes the head off `TIMEOUT_LIST`, so its length bounds the rounds. -/
def schedWakeupExpiredTimeouts (s : State nc) (clock : Nat) : Option (State nc) :=
  wakeupExpiredLoop clock s.timeoutList.length s

/-- The highest non-empty level below `n`. -/
def topLevel (queue : Nat → List (Ptr nc)) : Nat → Option Nat
  | 0 => none
  | n + 1 => if queue n ≠ [] then some n else topLevel queue n

/-- The thread that core `c` runs next, and the state without it. -/
def schedQueueSelect (s : State nc) (c : Fin nc) (cur : Ptr nc) : Ptr nc × State nc :=
  let (next, s) :=
    match topLevel s.queue maxPriorities with
    | some i =>
      match s.queue i with
      | t :: rest => (t, { s with queue := Function.update s.queue i rest })
      | [] => (cur, s)
    | none => (if (s.tcb cur).state = ThreadState.ready then cur else .idle c, s)
  (next, s.setTcb next { s.tcb next with its := quantum })

/-! ## The boost -/

/-- `while(!is_rlist_empty(&SCHED[i]))`: the head of level `i` becomes the head of level `i + 1`, at most `n` times. -/
def boostLoop (i : Nat) : Nat → State nc → State nc
  | 0, s => s
  | n + 1, s =>
    match s.queue i with
    | [] => s
    | t :: rest =>
      let s := { s with queue := Function.update s.queue i rest }
      let s := s.setTcb t { s.tcb t with priority := (s.tcb t).priority + 1 }
      boostLoop i n { s with queue := Function.update s.queue (i + 1) (t :: s.queue (i + 1)) }

/-- The levels `n - 1` down to 0, each emptied into the one above. -/
def boostLevels : Nat → State nc → State nc
  | 0, s => s
  | i + 1, s => boostLevels i (boostLoop i (s.queue i).length s)

def boost (s : State nc) : State nc :=
  if s.numofYields = maxYields then boostLevels (maxPriorities - 1) { s with numofYields := 0 } else s

/-! ## The sections -/

def spawnThread (s : State nc) : State nc :=
  { s.setTcb (.thread s.spawned)
      { type := .normalThread, state := .init, phase := .ctxClean, priority := maxPriorities - 1,
        wakeupTime := noTimeout, its := quantum, rts := quantum, currCause := .schedIdle, lastCause := .schedIdle } with
    spawned := s.spawned + 1
    activeThreads := s.activeThreads + 1 }

def releaseTcb (s : State nc) (t : Ptr nc) : State nc :=
  { s with released := t :: s.released, activeThreads := s.activeThreads - 1 }

/-- The result of `wakeup` and the state after it. -/
def wakeup (s : State nc) (t : Ptr nc) : Option (Bool × State nc) :=
  if (s.tcb t).state = .stopped ∨ (s.tcb t).state = .init then (s.schedMakeReady t).map (true, ·) else some (false, s)

def sleepReleasing (s : State nc) (c : Fin nc) (state : ThreadState) (cause : Cause) (timeout clock : Nat) :
    Option (State nc) := do
  guard (state = .stopped ∨ state = .exited)
  let t := s.current c
  let s := s.setTcb t { s.tcb t with state := state }
  let s ← if state ≠ .exited then s.schedRegisterTimeout t timeout clock else pure s
  pure { s with pc := Function.update s.pc c (.slept cause) }

/-- The `switch` of `yield`, where a case without `break` falls into the next one. -/
def adjustPriority (cause : Cause) (x : Tcb) : Nat :=
  let mutex := if x.lastCause = .schedMutex ∧ 0 < x.priority then x.priority - 1 else x.priority
  let io := if x.priority < maxPriorities - 1 then x.priority + 1 else mutex
  match cause with
  | .schedQuantum => if 0 < x.priority then x.priority - 1 else io
  | .schedIo => io
  | .schedMutex => mutex
  | _ => x.priority

/-- `if(current->state == RUNNING) current->state = READY` and the scheduler data of the current thread. -/
def leaveCurrent (cause : Cause) (remaining : Nat) (x : Tcb) : Tcb :=
  { x with
    state := if x.state = .running then .ready else x.state
    rts := remaining
    lastCause := x.currCause
    currCause := cause }

/-- The section of `yield`, and the switch to the thread it selects. -/
def yieldSection (s : State nc) (c : Fin nc) (cause : Cause) (remaining clock : Nat) : Option (State nc) := do
  let cur := s.current c
  let s := s.setTcb cur { s.tcb cur with priority := adjustPriority cause (s.tcb cur) }
  let s := s.boost
  let s := s.setTcb cur (leaveCurrent cause remaining (s.tcb cur))
  let s ← s.schedWakeupExpiredTimeouts clock
  let (next, s) := s.schedQueueSelect c cur
  pure { s with
    previous := Function.update s.previous c (some cur)
    current := Function.update s.current c next
    pc := Function.update s.pc c .switching }

/-- `gain` marks its current thread. -/
def gainCurrent (s : State nc) (c : Fin nc) : State nc :=
  let cur := s.tcb (s.current c)
  { s.setTcb (s.current c) { cur with state := .running, phase := .ctxDirty, rts := cur.its } with
    pc := Function.update s.pc c .running }

/-- `gain` takes care of the previous thread. -/
def gainPrevious (s : State nc) (prev : Ptr nc) : Option (State nc) :=
  let s := s.setTcb prev { s.tcb prev with phase := .ctxClean }
  match (s.tcb prev).state with
  | .ready => if (s.tcb prev).type ≠ .idleThread then s.schedQueueAdd prev else some s
  | .exited => some (s.releaseTcb prev)
  | .stopped => some s
  | .init | .running => none

def gain (s : State nc) (c : Fin nc) : Option (State nc) :=
  match s.previous c with
  | none => none
  | some prev => if s.current c ≠ prev then (s.gainCurrent c).gainPrevious prev else some (s.gainCurrent c)

end State

/-! ## The system -/

inductive Action (nc : Nat)
  | spawn
  | wakeup (t : Ptr nc)
  | sleep (c : Fin nc) (state : ThreadState) (cause : Cause) (timeout clock : Nat)
  /-- The start of `yield`: `numofYields++`. -/
  | yield (c : Fin nc) (cause : Cause)
  | yieldSection (c : Fin nc) (remaining clock : Nat)
  | gain (c : Fin nc)
  deriving DecidableEq, Repr

namespace State

/-- `spawn_thread` has allocated the TCB, or it is an idle thread. -/
def Allocated (s : State nc) : Ptr nc → Prop
  | .idle _ => True
  | .thread n => n < s.spawned

instance (s : State nc) : ∀ t, Decidable (s.Allocated t)
  | .idle _ => inferInstanceAs (Decidable True)
  | .thread n => inferInstanceAs (Decidable (n < s.spawned))

/-- Idle threads do not sleep, and `clock + timeout` stays below `NO_TIMEOUT`. -/
def Enabled (s : State nc) : Action nc → Prop
  | .spawn => True
  | .wakeup t => s.Allocated t
  | .sleep c state _ timeout clock => s.pc c = .running ∧ s.current c ≠ .idle c ∧
      (state = .stopped ∨ state = .exited) ∧ (timeout = noTimeout ∨ clock + timeout < noTimeout)
  | .yield c cause => s.pc c = .running ∨ s.pc c = .slept cause
  | .yieldSection c _ _ => (s.pc c).isYielding
  | .gain c => s.pc c = .switching

/-- What an enabled action does; `none` if an assertion fails or a linked node is spliced in again. -/
def exec (s : State nc) : Action nc → Option (State nc)
  | .spawn => some s.spawnThread
  | .wakeup t => (s.wakeup t).map Prod.snd
  | .sleep c state cause timeout clock => s.sleepReleasing c state cause timeout clock
  | .yield c cause =>
    some { s with numofYields := s.numofYields + 1, pc := Function.update s.pc c (.yielding cause) }
  | .yieldSection c remaining clock =>
    match s.pc c with
    | .yielding cause => s.yieldSection c cause remaining clock
    | _ => none
  | .gain c => s.gain c

instance (s : State nc) : ∀ a, Decidable (s.Enabled a)
  | .spawn => inferInstanceAs (Decidable True)
  | .wakeup t => inferInstanceAs (Decidable (s.Allocated t))
  | .sleep c state _ timeout clock => inferInstanceAs (Decidable (s.pc c = .running ∧ s.current c ≠ .idle c ∧
      (state = .stopped ∨ state = .exited) ∧ (timeout = noTimeout ∨ clock + timeout < noTimeout)))
  | .yield c cause => inferInstanceAs (Decidable (s.pc c = .running ∨ s.pc c = .slept cause))
  | .yieldSection c _ _ => inferInstanceAs (Decidable ((s.pc c).isYielding = true))
  | .gain c => inferInstanceAs (Decidable (s.pc c = .switching))

/-- What `run_scheduler` leaves in the TCB of an idle thread, and a TCB before its allocation. -/
def bootTcb : Ptr nc → Tcb
  | .idle _ =>
    { type := .idleThread, state := .running, phase := .ctxDirty, priority := 0, wakeupTime := noTimeout,
      its := quantum, rts := quantum, currCause := .schedIdle, lastCause := .schedIdle }
  | .thread _ =>
    { type := .normalThread, state := .init, phase := .ctxClean, priority := 0, wakeupTime := noTimeout,
      its := 0, rts := 0, currCause := .schedIdle, lastCause := .schedIdle }

/-- Every core runs its idle thread. -/
def boot (nc : Nat) : State nc where
  tcb := bootTcb
  queue := fun _ => []
  timeoutList := []
  current := .idle
  previous := fun _ => none
  pc := fun _ => .running
  numofYields := 0
  activeThreads := 0
  spawned := 0
  released := []

end State

/-- The scheduler on `nc` cores. -/
def sys (nc : Nat) : Lts (State nc) (Action nc) :=
  ⟨(· = State.boot nc), fun s a => if s.Enabled a then s.exec a else none⟩

end TinyOS.Sched
