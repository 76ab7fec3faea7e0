import TinyOS.CondVar.Model
import TinyOS.Lib.Monitor

/-!
# Monitors on condition variables

A program of the library of monitors, run with what `kernel_cc.c` has for it: a `Mutex` and `CondVar`s whose mutex it
is. Between `Mutex_Lock(mutex)` and the `Mutex_Unlock(mutex)` of a thread (which may be the one in `cv_wait`), its
section changes the data and calls `Cond_Signal` and `Cond_Broadcast`; each of these calls, and `cv_wait`, goes through
its own steps, as in the model of one condition variable. A timeout may be set for a wait, and expires at any time.

The data is changed when the thread gets the mutex, as nobody else looks at it before the thread has left.
-/

namespace TinyOS.Monitors

open Sched CondVar Monitor
open Function (update)

variable (T K D P : Type)

/-- What a section has still to do: its calls of `Cond_Signal` and `Cond_Broadcast`, and then it waits or leaves. -/
structure Rest where
  wakes : List (Wake K)
  next : P
  wait : Option K

inductive Pc
  /-- At `Mutex_Lock(mutex)`, if there is a section to run; also in `cv_wait`, before its return. -/
  | outside (p : P)
  /-- At the lock of the next call, or at the first one of `cv_wait`, or at `Mutex_Unlock(mutex)`. -/
  | inside (r : Rest K P)
  /-- In a call, at a test of `cv->waitset`. -/
  | sigTest (w : Wake K) (r : Rest K P)
  /-- At `wakeup(waiter->thread)`. -/
  | sigWakeup (w : Wake K) (x : T) (r : Rest K P)
  /-- At `waiter->signalled = 1`. -/
  | sigMark (w : Wake K) (x : T) (r : Rest K P)
  /-- At `Mutex_Unlock(&(cv->waitset_lock))`. -/
  | sigUnlock (w : Wake K) (r : Rest K P)
  /-- `cv_wait`, in the ring, at `Mutex_Unlock(mutex)`. -/
  | enqueued (k : K) (p : P)
  /-- At the section of `sleep_releasing`. -/
  | releasing (k : K) (p : P)
  /-- Asleep, or awake and at the second `Mutex_Lock(&(cv->waitset_lock))`. -/
  | asleep (k : K) (p : P)
  /-- At the second `Mutex_Unlock(&(cv->waitset_lock))`. -/
  | tidied (k : K) (p : P)

structure State where
  data : D
  /-- The thread that has the mutex. -/
  mutex : Option T
  pc : T → Pc T K P
  sched : T → Sleeper
  waiter : T → Waiter
  /-- The ring of waiters of each condition variable, from `cv->waitset` on. -/
  waitset : K → List T
  /-- The thread that has its `waitset_lock`. -/
  waitsetLock : K → Option T

variable {T K D P} [DecidableEq T] [DecidableEq K]

namespace State

def setPc (s : State T K D P) (t : T) (pc : Pc T K P) : State T K D P := { s with pc := update s.pc t pc }

/-- `Mutex_Lock(&(cv->waitset_lock))`. -/
def lock (s : State T K D P) (k : K) (t : T) : State T K D P :=
  { s with waitsetLock := update s.waitsetLock k (some t) }

def unlock (s : State T K D P) (k : K) : State T K D P := { s with waitsetLock := update s.waitsetLock k none }

def setSched (s : State T K D P) (t : T) (x : Sleeper) : State T K D P := { s with sched := update s.sched t x }

/-! ## `cv_wait` -/

def enqueue (s : State T K D P) (t : T) (k : K) : State T K D P :=
  { s with
    waiter := update s.waiter t ⟨false, false⟩
    waitset := update s.waitset k (s.waitset k ++ [t]) }

/-- `remove_from_ring`. -/
def removeFromRing (s : State T K D P) (t : T) (k : K) : State T K D P :=
  { s with waitset := update s.waitset k ((s.waitset k).erase t) }

/-- What `cv_wait` does with its waiter after the sleep; `none` if its assertion fails. -/
def tidy (s : State T K D P) (t : T) (k : K) : Option (State T K D P) :=
  if (s.waiter t).removed then some s
  else if (s.waiter t).signalled then none
  else some (s.removeFromRing t k)

/-! ## `cv_signal` -/

/-- The waiter `x`, which was first in the ring, is taken out of it. -/
def pop (s : State T K D P) (k : K) (x : T) : State T K D P :=
  { s with
    waiter := update s.waiter x { s.waiter x with removed := true }
    waitset := update s.waitset k (s.waitset k).tail }

def mark (s : State T K D P) (x : T) : State T K D P :=
  { s with waiter := update s.waiter x { s.waiter x with signalled := true } }

variable (M : Program T K D P) (timeout : P → Nat)

/-- The next step of thread `t`; `none` where it spins on a lock, has no section to run, or an assertion fails. -/
def runThread (s : State T K D P) (t : T) : Option (State T K D P) :=
  match s.pc t with
  | .outside p =>
    if M.ready p = true ∧ s.mutex = none then
      (M.sect t p s.data).map fun o =>
        { s with data := o.data, mutex := some t }.setPc t (.inside ⟨o.wakes, o.next, o.wait⟩)
    else none
  | .inside ⟨w :: wakes, next, wait⟩ =>
    if s.waitsetLock w.cond = none then some ((s.lock w.cond t).setPc t (.sigTest w ⟨wakes, next, wait⟩)) else none
  | .inside ⟨[], next, some k⟩ =>
    if s.waitsetLock k = none then some (((s.lock k t).enqueue t k).setPc t (.enqueued k next)) else none
  | .inside ⟨[], next, none⟩ => some ({ s with mutex := none }.setPc t (.outside next))
  | .sigTest w r =>
    match s.waitset w.cond with
    | [] => some (s.setPc t (.sigUnlock w r))
    | x :: _ => some ((s.pop w.cond x).setPc t (.sigWakeup w x r))
  | .sigWakeup w x r =>
    match (s.sched x).wakeup with
    | (true, y) => some ((s.setSched x y).setPc t (.sigMark w x r))
    | (false, _) => some (s.setPc t (.sigTest w r))
  -- `Cond_Broadcast` tests `cv->waitset` again, `Cond_Signal` is done
  | .sigMark w x r => some ((s.mark x).setPc t (if w.isBroadcast then .sigTest w r else .sigUnlock w r))
  | .sigUnlock w r => some ((s.unlock w.cond).setPc t (.inside r))
  | .enqueued k p => some ({ s with mutex := none }.setPc t (.releasing k p))
  | .releasing k p => some (((s.setSched t ((s.sched t).sleep (timeout p))).unlock k).setPc t (.asleep k p))
  | .asleep k p => if s.waitsetLock k = none then ((s.lock k t).setPc t (.tidied k p)).tidy t k else none
  | .tidied k p => some ((s.unlock k).setPc t (.outside p))

end State

variable (T) in
inductive Action
  /-- The scheduler runs a ready thread. -/
  | dispatch (t : T)
  | preempt (t : T)
  /-- A timeout expires. -/
  | expire (t : T)
  /-- A running thread makes its next step. -/
  | run (t : T)
  deriving DecidableEq, Repr

namespace State

variable (M : Program T K D P) (timeout : P → Nat)

def step (s : State T K D P) : Action T → Option (State T K D P)
  | .dispatch t =>
    if (s.sched t).state = .ready then some (s.setSched t { s.sched t with state := .running }) else none
  | .preempt t =>
    if (s.sched t).state = .running then some (s.setSched t { s.sched t with state := .ready }) else none
  | .expire t => if (s.sched t).Expirable then some (s.setSched t (s.sched t).makeReady) else none
  | .run t => if (s.sched t).state = .running then s.runThread M timeout t else none

/-- Nobody is in a section, and the locks and condition variables are as `MUTEX_INIT` and `COND_INIT` leave them. -/
structure Initial (data : D) (place : T → P) (s : State T K D P) : Prop where
  data : s.data = data
  mutex : s.mutex = none
  pc : ∀ t, s.pc t = .outside (place t)
  waitset : ∀ k, s.waitset k = []
  waitsetLock : ∀ k, s.waitsetLock k = none

end State

/-- The runs of a program, whose waits at a place have that timeout. -/
def sys (M : Program T K D P) (timeout : P → Nat) (data : D) (place : T → P) : Lts (State T K D P) (Action T) :=
  ⟨State.Initial data place, State.step M timeout⟩

end TinyOS.Monitors
