import TinyOS.Sched.Sleep

/-!
# Condition variables

`cv_wait`, `Cond_Signal` and `Cond_Broadcast` of `kernel_cc.c` on one `CondVar`, for any threads and any mutexes. A
step is one statement, or the statements under `waitset_lock` that no other thread can come between; a thread makes
its steps only while the scheduler runs it. Timeouts expire at any time, also between the removal of a waiter and the
call of `wakeup` for it.

A waiter lives on the stack of its thread, so it is kept with the thread.
-/

namespace TinyOS.CondVar

open Sched

/-- `signalled` and `removed` of a `__cv_waiter`. -/
structure Waiter where
  signalled : Bool
  removed : Bool
  deriving DecidableEq, Repr

/-- What ended the last sleep of a thread in `cv_wait`. -/
inductive Waker
  | nobody
  | signal
  | timeout
  deriving DecidableEq, Repr

variable (T M : Type)

/-- A call of `Cond_Signal` or `Cond_Broadcast`, with what it has done so far. -/
structure Signal where
  broadcast : Bool
  /-- The ring when the call took `waitset_lock`. -/
  ring : List T
  /-- The waiters it removed, in order, with the result of `wakeup`. -/
  tried : List (T × Bool)
  deriving DecidableEq, Repr

inductive Pc
  /-- Outside the functions of the condition variable. -/
  | task
  /-- `cv_wait`, at `Mutex_Lock(&(cv->waitset_lock))`. -/
  | waitLock (m : M) (timeout : Nat)
  /-- In the ring, at `Mutex_Unlock(mutex)`. -/
  | enqueued (m : M) (timeout : Nat)
  /-- At the section of `sleep_releasing`. -/
  | releasing (m : M) (timeout : Nat)
  /-- Asleep, or awake and at the second `Mutex_Lock(&(cv->waitset_lock))`. -/
  | asleep (m : M)
  /-- The waiter is tidied up, at `Mutex_Unlock(&(cv->waitset_lock))`. -/
  | tidied (m : M)
  /-- At `Mutex_Lock(mutex)`, before the return. -/
  | relock (m : M)
  /-- `Cond_Signal` or `Cond_Broadcast`, at `Mutex_Lock(&(cv->waitset_lock))`. -/
  | sigLock (broadcast : Bool)
  /-- At a test of `cv->waitset`. -/
  | sigTest (f : Signal T)
  /-- At `wakeup(waiter->thread)`. -/
  | sigWakeup (f : Signal T) (w : T)
  /-- At `waiter->signalled = 1`. -/
  | sigMark (f : Signal T) (w : T)
  /-- At `Mutex_Unlock(&(cv->waitset_lock))`. -/
  | sigUnlock (f : Signal T)
  deriving DecidableEq, Repr

structure Thread where
  sched : Sleeper
  pc : Pc T M
  waiter : Waiter
  wokenBy : Waker
  deriving DecidableEq, Repr

/-- A return from `cv_wait`: its result, and what had ended the sleep. -/
structure Return where
  thread : T
  result : Bool
  wokenBy : Waker
  deriving DecidableEq, Repr

/-- A return from `Cond_Signal` or `Cond_Broadcast`: the call, and at its end the ring and the threads of the first
ring that are still stopped. -/
structure Done where
  call : Signal T
  left : List T
  stopped : List T
  deriving DecidableEq, Repr

structure State where
  thread : T → Thread T M
  /-- The ring of waiters, from `cv->waitset` on. -/
  waitset : List T
  /-- The thread that has `waitset_lock`. -/
  waitsetLock : Option T
  locked : M → Bool
  /-- The calls that have returned, latest first. -/
  returns : List (Return T)
  signals : List (Done T)

variable {T M} [DecidableEq T] [DecidableEq M]

namespace State

def setThread (s : State T M) (t : T) (x : Thread T M) : State T M :=
  { s with thread := Function.update s.thread t x }

def setPc (s : State T M) (t : T) (pc : Pc T M) : State T M := s.setThread t { s.thread t with pc := pc }

/-! ## `cv_wait` -/

def enqueue (s : State T M) (t : T) : State T M := { s with waitset := s.waitset ++ [t] }

/-- `remove_from_ring`. -/
def removeFromRing (s : State T M) (t : T) : State T M := { s with waitset := s.waitset.erase t }

def sleepReleasing (s : State T M) (t : T) (m : M) (timeout : Nat) : State T M :=
  { s.setThread t { s.thread t with
      sched := (s.thread t).sched.sleep timeout, pc := .asleep m, wokenBy := .nobody } with
    waitsetLock := none }

/-- What `cv_wait` does with its waiter after the sleep; `none` if its assertion fails. -/
def tidy (s : State T M) (t : T) : Option (State T M) :=
  if (s.thread t).waiter.removed then some s
  else if (s.thread t).waiter.signalled then none
  else some (s.removeFromRing t)

/-- `return waiter.signalled`. -/
def waitReturns (s : State T M) (t : T) : State T M :=
  { s.setPc t .task with returns := ⟨t, (s.thread t).waiter.signalled, (s.thread t).wokenBy⟩ :: s.returns }

/-! ## `cv_signal` -/

/-- The waiter `w`, which was first in the ring, is taken out of it. -/
def pop (s : State T M) (w : T) : State T M :=
  { s.setThread w { s.thread w with waiter := { (s.thread w).waiter with removed := true } } with
    waitset := s.waitset.tail }

/-- `wakeup(waiter->thread)`. -/
def wakeup (s : State T M) (w : T) : Bool × State T M :=
  match (s.thread w).sched.wakeup with
  | (true, x) => (true, s.setThread w { s.thread w with sched := x, wokenBy := .signal })
  | (false, _) => (false, s)

def mark (s : State T M) (w : T) : State T M :=
  s.setThread w { s.thread w with waiter := { (s.thread w).waiter with signalled := true } }

def signalReturns (s : State T M) (t : T) (f : Signal T) : State T M :=
  { s.setPc t .task with
    waitsetLock := none
    signals := ⟨f, s.waitset, f.ring.filter fun w => (s.thread w).sched.state = .stopped⟩ :: s.signals }

/-! ## The system -/

/-- The next step of thread `t`; `none` where it spins on a lock, or its assertion fails. -/
def runThread (s : State T M) (t : T) : Option (State T M) :=
  match (s.thread t).pc with
  | .task => none
  | .waitLock m timeout =>
    if s.waitsetLock = none then some ({ s.enqueue t with waitsetLock := some t }.setPc t (.enqueued m timeout))
    else none
  | .enqueued m timeout =>
    some ({ s with locked := Function.update s.locked m false }.setPc t (.releasing m timeout))
  | .releasing m timeout => some (s.sleepReleasing t m timeout)
  | .asleep m =>
    if s.waitsetLock = none then ({ s with waitsetLock := some t }.setPc t (.tidied m)).tidy t else none
  | .tidied m => some ({ s with waitsetLock := none }.setPc t (.relock m))
  | .relock m =>
    if s.locked m = false then some ({ s with locked := Function.update s.locked m true }.waitReturns t) else none
  | .sigLock broadcast =>
    if s.waitsetLock = none then
      some ({ s with waitsetLock := some t }.setPc t (.sigTest ⟨broadcast, s.waitset, []⟩))
    else none
  | .sigTest f =>
    match s.waitset with
    | [] => some (s.setPc t (.sigUnlock f))
    | w :: _ => some ((s.pop w).setPc t (.sigWakeup f w))
  | .sigWakeup f w =>
    let (woken, s) := s.wakeup w
    let f := { f with tried := f.tried ++ [(w, woken)] }
    some (s.setPc t (if woken then .sigMark f w else .sigTest f))
  -- `cv_signal` returns: `Cond_Broadcast` tests `cv->waitset` again, `Cond_Signal` is done
  | .sigMark f w => some ((s.mark w).setPc t (if f.broadcast then .sigTest f else .sigUnlock f))
  | .sigUnlock f => some (s.signalReturns t f)

end State

variable (T M) in
inductive Action
  /-- The scheduler runs a ready thread. -/
  | dispatch (t : T)
  | preempt (t : T)
  /-- A timeout expires. -/
  | expire (t : T)
  | mutexLock (t : T) (m : M)
  | mutexUnlock (t : T) (m : M)
  /-- A call of `cv_wait`. -/
  | wait (t : T) (m : M) (timeout : Nat)
  /-- A call of `Cond_Signal` or `Cond_Broadcast`. -/
  | signal (t : T) (broadcast : Bool)
  /-- A thread in one of these calls makes its next step. -/
  | run (t : T)
  deriving DecidableEq, Repr

namespace State

/-- Thread `t` spins in a `Mutex_Lock`. -/
def Spins (s : State T M) (t : T) : Prop :=
  match (s.thread t).pc with
  | .waitLock .. | .asleep _ | .sigLock _ => s.waitsetLock ≠ none
  | .relock m => s.locked m = true
  | _ => False

def Running (s : State T M) (t : T) : Prop := (s.thread t).sched.state = .running

def Enabled (s : State T M) : Action T M → Prop
  | .dispatch t => (s.thread t).sched.state = .ready
  | .preempt t => s.Running t
  | .expire t => (s.thread t).sched.Expirable
  | .mutexLock t m => s.Running t ∧ (s.thread t).pc = .task ∧ s.locked m = false
  | .mutexUnlock t _ | .wait t _ _ | .signal t _ => s.Running t ∧ (s.thread t).pc = .task
  | .run t => s.Running t ∧ (s.thread t).pc ≠ .task ∧ ¬s.Spins t

def setSched (s : State T M) (t : T) (x : Sleeper) : State T M := s.setThread t { s.thread t with sched := x }

/-- What an enabled action does; `none` if an assertion fails. -/
def exec (s : State T M) : Action T M → Option (State T M)
  | .dispatch t => some (s.setSched t { (s.thread t).sched with state := .running })
  | .preempt t => some (s.setSched t { (s.thread t).sched with state := .ready })
  | .expire t =>
    some (s.setThread t { s.thread t with sched := (s.thread t).sched.makeReady, wokenBy := .timeout })
  | .mutexLock _ m => some { s with locked := Function.update s.locked m true }
  | .mutexUnlock _ m => some { s with locked := Function.update s.locked m false }
  | .wait t m timeout => some (s.setThread t { s.thread t with pc := .waitLock m timeout, waiter := ⟨false, false⟩ })
  | .signal t broadcast => some (s.setPc t (.sigLock broadcast))
  | .run t => s.runThread t

instance (s : State T M) (t : T) : Decidable (s.Running t) := inferInstanceAs (Decidable (_ = _))

instance (s : State T M) (t : T) : Decidable (s.Spins t) := by unfold Spins; split <;> infer_instance

instance (s : State T M) : ∀ a, Decidable (s.Enabled a)
  | .dispatch t => inferInstanceAs (Decidable ((s.thread t).sched.state = .ready))
  | .preempt t => inferInstanceAs (Decidable (s.Running t))
  | .expire t => inferInstanceAs (Decidable (s.thread t).sched.Expirable)
  | .mutexLock t m => inferInstanceAs (Decidable (s.Running t ∧ (s.thread t).pc = .task ∧ s.locked m = false))
  | .mutexUnlock t _ | .wait t _ _ | .signal t _ =>
    inferInstanceAs (Decidable (s.Running t ∧ (s.thread t).pc = .task))
  | .run t => inferInstanceAs (Decidable (s.Running t ∧ (s.thread t).pc ≠ .task ∧ ¬s.Spins t))

/-- No thread is in one of the calls, and `cv` is as `COND_INIT` leaves it. -/
structure Initial (s : State T M) : Prop where
  pc : ∀ t, (s.thread t).pc = .task
  waitset : s.waitset = []
  waitsetLock : s.waitsetLock = none
  returns : s.returns = []
  signals : s.signals = []

end State

variable (T M) in
/-- One condition variable. -/
def sys : Lts (State T M) (Action T M) :=
  ⟨State.Initial, fun s a => if s.Enabled a then s.exec a else none⟩

end TinyOS.CondVar
