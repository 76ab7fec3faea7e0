import TinyOS.Sched.Model

/-!
# A thread as the scheduler sees it

What the rest of the kernel knows about a thread: its state, and whether it is in `TIMEOUT_LIST`. Each step of the
scheduler changes this view of a thread by one of the moves below, or not at all.
-/

namespace TinyOS.Sched

/-- The state of a thread, and whether a timeout will wake it up. -/
structure Sleeper where
  state : ThreadState
  timed : Bool
  deriving DecidableEq, Repr

namespace Sleeper

/-- The effect of `sched_make_ready`. -/
def makeReady (_ : Sleeper) : Sleeper := ⟨.ready, false⟩

/-- `wakeup`: its result, and the thread after it. -/
def wakeup (x : Sleeper) : Bool × Sleeper :=
  if x.state = .stopped ∨ x.state = .init then (true, x.makeReady) else (false, x)

/-- `sleep_releasing(STOPPED, ..)`. -/
def sleep (_ : Sleeper) (timeout : Nat) : Sleeper := ⟨.stopped, timeout ≠ noTimeout⟩

/-- Ready or running. -/
def Awake (x : Sleeper) : Prop := x.state = .ready ∨ x.state = .running

/-- The timeout of a sleeping thread can expire. -/
def Expirable (x : Sleeper) : Prop := x.state = .stopped ∧ x.timed

instance (x : Sleeper) : Decidable x.Expirable := by unfold Expirable; infer_instance

end Sleeper

end TinyOS.Sched
