import Mathlib.Data.List.Nodup
import Mathlib.Order.Fin.Basic
import TinyOS.CondVar.Monitors

/-!
# The steps of a monitor on condition variables

What a step of a thread can be, and the invariant of the locks, the rings and the waiters.

- `reaches_inv`: it holds in every state;
- `locks_progress`: so a thread that has a `waitset_lock` never spins, the one with the mutex spins on such a lock only,
  the assertion in `cv_wait` holds, and a thread that sleeps is in the ring or about to be woken up.
-/

namespace TinyOS.Monitors

open Sched CondVar Monitor
open Function (update)

variable {T K D P : Type}

namespace Pc

def hasMutex : Pc T K P → Bool
  | .inside _ | .sigTest .. | .sigWakeup .. | .sigMark .. | .sigUnlock .. | .enqueued .. => true
  | _ => false

/-- The condition variable whose `waitset_lock` the thread has. -/
def lock : Pc T K P → Option K
  | .sigTest w _ | .sigWakeup w _ _ | .sigMark w _ _ | .sigUnlock w _ => some w.cond
  | .enqueued k _ | .releasing k _ | .tidied k _ => some k
  | _ => none

/-- The condition variable that the thread waits on; its waiter has been put into the ring, and not yet tidied up. -/
def queue : Pc T K P → Option K
  | .enqueued k _ | .releasing k _ | .asleep k _ => some k
  | _ => none

/-- The waiter that a call has removed and not yet marked. -/
def target : Pc T K P → Option (K × T)
  | .sigWakeup w x _ | .sigMark w x _ => some (w.cond, x)
  | _ => none

end Pc

variable [DecidableEq T] [DecidableEq K] {M : Program T K D P} {timeout : P → Nat} {s s' : State T K D P} {t u x : T}
  {k : K} {p : P} {r : Rest K P} {w : Wake K}

/-! ## The steps of a thread -/

/-- What a step of thread `t` makes of `s`. -/
inductive Step (M : Program T K D P) (timeout : P → Nat) (s : State T K D P) (t : T) : State T K D P → Prop
  | begin {p : P} {o : Outcome K D P} (hp : s.pc t = .outside p) (hready : M.ready p = true) (hm : s.mutex = none)
    (ho : M.sect t p s.data = some o) :
    Step M timeout s t ({ s with data := o.data, mutex := some t }.setPc t (.inside ⟨o.wakes, o.next, o.wait⟩))
  | call {w : Wake K} {r : Rest K P} (hp : s.pc t = .inside { r with wakes := w :: r.wakes })
    (hl : s.waitsetLock w.cond = none) : Step M timeout s t ((s.lock w.cond t).setPc t (.sigTest w r))
  | enqueue {p : P} {k : K} (hp : s.pc t = .inside ⟨[], p, some k⟩) (hl : s.waitsetLock k = none) :
    Step M timeout s t (((s.lock k t).enqueue t k).setPc t (.enqueued k p))
  | leave {p : P} (hp : s.pc t = .inside ⟨[], p, none⟩) :
    Step M timeout s t ({ s with mutex := none }.setPc t (.outside p))
  | nobody {w : Wake K} {r : Rest K P} (hp : s.pc t = .sigTest w r) (hw : s.waitset w.cond = []) :
    Step M timeout s t (s.setPc t (.sigUnlock w r))
  | pop {w : Wake K} {r : Rest K P} {x : T} {l : List T} (hp : s.pc t = .sigTest w r)
    (hw : s.waitset w.cond = x :: l) : Step M timeout s t ((s.pop w.cond x).setPc t (.sigWakeup w x r))
  | wake {w : Wake K} {x : T} {r : Rest K P} (hp : s.pc t = .sigWakeup w x r)
    (hx : (s.sched x).state = .stopped ∨ (s.sched x).state = .init) :
    Step M timeout s t ((s.setSched x (s.sched x).makeReady).setPc t (.sigMark w x r))
  | pass {w : Wake K} {x : T} {r : Rest K P} (hp : s.pc t = .sigWakeup w x r)
    (hx : ¬((s.sched x).state = .stopped ∨ (s.sched x).state = .init)) :
    Step M timeout s t (s.setPc t (.sigTest w r))
  | markLast {w : Wake K} {x : T} {r : Rest K P} (hp : s.pc t = .sigMark w x r) (hw : w.isBroadcast = false) :
    Step M timeout s t ((s.mark x).setPc t (.sigUnlock w r))
  | mark {w : Wake K} {x : T} {r : Rest K P} (hp : s.pc t = .sigMark w x r) (hw : w.isBroadcast = true) :
    Step M timeout s t ((s.mark x).setPc t (.sigTest w r))
  | unlock {w : Wake K} {r : Rest K P} (hp : s.pc t = .sigUnlock w r) :
    Step M timeout s t ((s.unlock w.cond).setPc t (.inside r))
  | release {p : P} {k : K} (hp : s.pc t = .enqueued k p) :
    Step M timeout s t ({ s with mutex := none }.setPc t (.releasing k p))
  | sleep {p : P} {k : K} (hp : s.pc t = .releasing k p) :
    Step M timeout s t
      (((s.setSched t ((s.sched t).sleep (timeout p))).unlock k).setPc t (.asleep k p))
  | removed {p : P} {k : K} (hp : s.pc t = .asleep k p) (hl : s.waitsetLock k = none)
    (hr : (s.waiter t).removed = true) : Step M timeout s t ((s.lock k t).setPc t (.tidied k p))
  | tidy {p : P} {k : K} (hp : s.pc t = .asleep k p) (hl : s.waitsetLock k = none)
    (hr : (s.waiter t).removed = false) (hs : (s.waiter t).signalled = false) :
    Step M timeout s t (((s.lock k t).setPc t (.tidied k p)).removeFromRing t k)
  | tidied {p : P} {k : K} (hp : s.pc t = .tidied k p) :
    Step M timeout s t ((s.unlock k).setPc t (.outside p))

theorem step_of_runThread (h : s.runThread M timeout t = some s') : Step M timeout s t s' := by
  unfold State.runThread at h
  split at h
  case h_1 p hp =>
    rw [Option.ite_none_right_eq_some] at h
    obtain ⟨⟨hready, hm⟩, h⟩ := h
    obtain ⟨o, ho, rfl⟩ := Option.map_eq_some_iff.1 h
    exact .begin hp hready hm ho
  case h_2 w wakes next wait hp =>
    rw [Option.ite_none_right_eq_some, Option.some.injEq] at h
    obtain ⟨hl, rfl⟩ := h
    exact .call (r := ⟨wakes, next, wait⟩) hp hl
  case h_3 next k hp =>
    rw [Option.ite_none_right_eq_some, Option.some.injEq] at h
    obtain ⟨hl, rfl⟩ := h
    exact .enqueue hp hl
  case h_4 next hp =>
    obtain rfl := Option.some.inj h
    exact .leave hp
  case h_5 w r hp =>
    split at h
    · rename_i hw
      obtain rfl := Option.some.inj h
      exact .nobody hp hw
    · rename_i x l hw
      obtain rfl := Option.some.inj h
      exact .pop hp hw
  case h_6 w x r hp =>
    unfold Sleeper.wakeup at h
    by_cases hx : (s.sched x).state = .stopped ∨ (s.sched x).state = .init
    · rw [if_pos hx] at h
      obtain rfl := Option.some.inj h
      exact .wake hp hx
    · rw [if_neg hx] at h
      obtain rfl := Option.some.inj h
      exact .pass hp hx
  case h_7 w x r hp =>
    obtain rfl := Option.some.inj h
    cases hw : w.isBroadcast with
    | false => exact .markLast hp hw
    | true => exact .mark hp hw
  case h_8 w r hp =>
    obtain rfl := Option.some.inj h
    exact .unlock hp
  case h_9 k p hp =>
    obtain rfl := Option.some.inj h
    exact .release hp
  case h_10 k p hp =>
    obtain rfl := Option.some.inj h
    exact .sleep hp
  case h_11 k p hp =>
    rw [Option.ite_none_right_eq_some] at h
    obtain ⟨hl, h⟩ := h
    unfold State.tidy at h
    split at h
    · rename_i hr
      obtain rfl := Option.some.inj h
      exact .removed hp hl hr
    · rename_i hr
      split at h
      · cases h
      · rename_i hs
        obtain rfl := Option.some.inj h
        exact .tidy hp hl (Bool.eq_false_iff.2 hr) (Bool.eq_false_iff.2 hs)
  case h_12 k p hp =>
    obtain rfl := Option.some.inj h
    exact .tidied hp

/-! ## The invariant -/

/-- The invariant of the locks, the rings and the waiters. -/
structure Inv (s : State T K D P) : Prop where
  mutex : ∀ t, s.mutex = some t ↔ (s.pc t).hasMutex = true
  lock : ∀ t k, s.waitsetLock k = some t ↔ (s.pc t).lock = some k
  nodup : ∀ k, (s.waitset k).Nodup
  ring : ∀ t k, t ∈ s.waitset k ↔ (s.pc t).queue = some k ∧ (s.waiter t).removed = false
  waiter : ∀ t k, (s.pc t).queue = some k → (s.waiter t).signalled = true → (s.waiter t).removed = true
  fresh : ∀ t k, (s.pc t).queue = some k → (s.pc t).lock = some k → (s.waiter t).removed = false
  target : ∀ t k x, (s.pc t).target = some (k, x) → (∃ p, s.pc x = .asleep k p) ∧ (s.waiter x).removed = true
  asleep : ∀ t k p, s.pc t = .asleep k p →
    Sleeper.Awake (s.sched t) ∨
      (s.sched t).state = .stopped ∧ ((s.waiter t).removed = true → ∃ u w r, s.pc u = .sigWakeup w t r)
  awake : ∀ t, (s.pc t).hasMutex = true ∨ (s.pc t).lock ≠ none → Sleeper.Awake (s.sched t)

omit [DecidableEq T] [DecidableEq K] in
/-- A call that has a target has the lock. -/
theorem Inv.lock_of_target (h : Inv s) (ht : (s.pc t).target = some (k, x)) : s.waitsetLock k = some t := by
  rw [h.lock]
  cases hp : s.pc t <;> simp_all [Pc.target, Pc.lock]

omit [DecidableEq T] [DecidableEq K] in
/-- A thread that waits is asleep while another one has the lock. -/
theorem Inv.asleep_of_queue (h : Inv s) (ht : s.waitsetLock k = some t) (hu : (s.pc u).queue = some k) (hne : u ≠ t) :
    ∃ p, s.pc u = .asleep k p := by
  have hlock := h.lock u k
  rw [ht] at hlock
  cases hp : s.pc u <;> simp_all [Pc.queue, Pc.lock]

omit [DecidableEq T] [DecidableEq K] in
/-- The waiter that a call removes is that of a thread that is asleep. -/
theorem Inv.asleep_of_first {l : List T} (h : Inv s) (hp : s.pc t = .sigTest w r) (hw : s.waitset w.cond = x :: l) :
    x ≠ t ∧ ∃ p, s.pc x = .asleep w.cond p := by
  have hx : (s.pc x).queue = some w.cond := ((h.ring x w.cond).1 (hw ▸ List.mem_cons_self)).1
  have hne : x ≠ t := fun he => by
    rw [he, hp] at hx
    cases hx
  exact ⟨hne, h.asleep_of_queue ((h.lock t _).2 (by rw [hp]; rfl)) hx hne⟩

theorem Inv.step_locks (h : Inv s) (he : Step M timeout s t s') :
    (∀ u, s'.mutex = some u ↔ (s'.pc u).hasMutex = true) ∧
    ∀ u k, s'.waitsetLock k = some u ↔ (s'.pc u).lock = some k := by
  have hmutex := h.mutex
  have hlock := h.lock
  have ht : ∀ k, (s.pc t).lock = some k → s.waitsetLock k = some t := fun k => (h.lock t k).2
  cases he
  all_goals
    rw [‹s.pc t = _›] at ht
    simp only [State.lock, State.enqueue, State.setPc, State.unlock, State.setSched, State.pop, State.mark,
      State.removeFromRing, Function.update_apply]
    exact ⟨by grind [Pc.hasMutex], by grind [Pc.lock]⟩

theorem Inv.step_rings (h : Inv s) (he : Step M timeout s t s') :
    (∀ k, (s'.waitset k).Nodup) ∧
    (∀ u k, u ∈ s'.waitset k ↔ (s'.pc u).queue = some k ∧ (s'.waiter u).removed = false) ∧
    ∀ u k, (s'.pc u).queue = some k → (s'.waiter u).signalled = true → (s'.waiter u).removed = true := by
  have hnodup := h.nodup
  have hring := h.ring
  have hwaiter := h.waiter
  have hmark : ∀ w x r, s.pc t = .sigMark w x r → (s.waiter x).removed = true := fun w x r hp =>
    (h.target t w.cond x (by rw [hp]; rfl)).2
  have hfirst : ∀ k x l, s.waitset k = x :: l → (s.pc x).queue = some k := fun k x l hl =>
    ((h.ring x k).1 (hl ▸ List.mem_cons_self)).1
  cases he
  all_goals
    simp only [State.lock, State.enqueue, State.setPc, State.unlock, State.setSched, State.pop, State.mark,
      State.removeFromRing, Function.update_apply]
    exact ⟨by grind [Pc.queue], by grind [Pc.queue], by grind [Pc.queue]⟩

theorem Inv.step_fresh (h : Inv s) (he : Step M timeout s t s') (hq : (s'.pc u).queue = some k)
    (hl : (s'.pc u).lock = some k) : (s'.waiter u).removed = false := by
  have hold := h.fresh u k
  have hfirst : ∀ w r y l, s.pc t = .sigTest w r → s.waitset w.cond = y :: l → ∃ p, s.pc y = .asleep w.cond p :=
    fun w r y l hp hw => (h.asleep_of_first hp hw).2
  cases he
  all_goals
    simp only [State.lock, State.enqueue, State.setPc, State.unlock, State.setSched, State.pop, State.mark,
      State.removeFromRing, Function.update_apply] at hq hl ⊢
    grind [Pc.queue, Pc.lock]

theorem Inv.step_target (h : Inv s) (he : Step M timeout s t s') (hu : (s'.pc u).target = some (k, x)) :
    (∃ p, s'.pc x = .asleep k p) ∧ (s'.waiter x).removed = true := by
  have hold := h.target u k x
  have hlock : (s.pc u).target = some (k, x) → s.waitsetLock k = some u := h.lock_of_target
  have hfirst : ∀ w r y l, s.pc t = .sigTest w r → s.waitset w.cond = y :: l → y ≠ t ∧ ∃ p, s.pc y = .asleep w.cond p :=
    fun w r y l => h.asleep_of_first
  cases he
  all_goals
    simp only [State.lock, State.enqueue, State.setPc, State.unlock, State.setSched, State.pop, State.mark,
      State.removeFromRing, Function.update_apply] at hu ⊢
    grind [Pc.target]

theorem Inv.step_asleep (h : Inv s) (he : Step M timeout s t s') (hu : s'.pc u = .asleep k p) :
    Sleeper.Awake (s'.sched u) ∨
      (s'.sched u).state = .stopped ∧ ((s'.waiter u).removed = true → ∃ v w r, s'.pc v = .sigWakeup w u r) := by
  have hold := h.asleep u k p
  have hfresh := h.fresh u k
  cases he
  case pop w r x l hp hw =>
    by_cases hx : u = x
    · subst hx
      have hne := (h.asleep_of_first hp hw).1
      have hu' : s.pc u = .asleep k p := by simpa [State.setPc, State.pop, hne] using hu
      refine (hold hu').imp_right fun hs => ⟨hs.1, fun _ => ⟨t, w, r, ?_⟩⟩
      simp [State.setPc]
    · simp only [State.setPc, State.pop, Function.update_apply] at hu ⊢
      grind
  all_goals
    simp only [State.lock, State.enqueue, State.setPc, State.unlock, State.setSched, State.mark,
      State.removeFromRing, Sleeper.makeReady, Sleeper.sleep, Function.update_apply] at hu ⊢
    grind [Pc.queue, Pc.lock, Sleeper.Awake]

theorem Inv.step_awake (h : Inv s) (hrun : (s.sched t).state = .running) (he : Step M timeout s t s')
    (hu : (s'.pc u).hasMutex = true ∨ (s'.pc u).lock ≠ none) : Sleeper.Awake (s'.sched u) := by
  have hold := h.awake u
  have ht : Sleeper.Awake (s.sched t) := .inr hrun
  cases he
  all_goals
    simp only [State.lock, State.enqueue, State.setPc, State.unlock, State.setSched, State.pop, State.mark,
      State.removeFromRing, Sleeper.makeReady, Sleeper.sleep, Function.update_apply] at hu ⊢
    grind [Pc.hasMutex, Pc.lock, Sleeper.Awake]

theorem Inv.run (h : Inv s) (hrun : (s.sched t).state = .running) (he : Step M timeout s t s') : Inv s' where
  mutex := (h.step_locks he).1
  lock := (h.step_locks he).2
  nodup := (h.step_rings he).1
  ring := (h.step_rings he).2.1
  waiter := (h.step_rings he).2.2
  fresh _ _ := h.step_fresh he
  target _ _ _ := h.step_target he
  asleep _ _ _ := h.step_asleep he
  awake _ := h.step_awake hrun he

omit [DecidableEq K] in
/-- The scheduler moves a thread, or a timeout wakes it up. -/
theorem Inv.setSched {y : Sleeper} (h : Inv s) (hy : Sleeper.Awake y) : Inv (s.setSched t y) where
  mutex := h.mutex
  lock := h.lock
  nodup := h.nodup
  ring := h.ring
  waiter := h.waiter
  fresh := h.fresh
  target := h.target
  asleep u k p hu := by
    by_cases hut : u = t
    · subst hut
      left
      simpa [State.setSched] using hy
    · simpa [State.setSched, hut] using h.asleep u k p hu
  awake u hu := by
    by_cases hut : u = t
    · subst hut
      simpa [State.setSched] using hy
    · simpa [State.setSched, hut] using h.awake u hu

omit [DecidableEq T] [DecidableEq K] in
theorem State.Initial.inv {data : D} {place : T → P} (h : s.Initial data place) : Inv s := by
  constructor
  all_goals simp [h.pc, h.mutex, h.waitset, h.waitsetLock, Pc.hasMutex, Pc.lock, Pc.queue, Pc.target]

/-- What an action does to the scheduler's view of a thread, or the step of a running thread. -/
theorem step_cases {a : Action T} (h : s.step M timeout a = some s') :
    (∃ t y, s' = s.setSched t y ∧ Sleeper.Awake y ∧ Sleeper.Awake (s.sched t)) ∨
    (∃ t, a = .expire t ∧ (s.sched t).state = .stopped ∧ s' = s.setSched t (s.sched t).makeReady) ∨
    ∃ t, a = .run t ∧ (s.sched t).state = .running ∧ Step M timeout s t s' := by
  cases a with
  | dispatch t =>
    simp only [State.step, Option.ite_none_right_eq_some, Option.some.injEq] at h
    exact .inl ⟨t, _, h.2.symm, .inr rfl, .inl h.1⟩
  | preempt t =>
    simp only [State.step, Option.ite_none_right_eq_some, Option.some.injEq] at h
    exact .inl ⟨t, _, h.2.symm, .inl rfl, .inr h.1⟩
  | expire t =>
    simp only [State.step, Option.ite_none_right_eq_some, Option.some.injEq] at h
    exact .inr (.inl ⟨t, rfl, h.1.1, h.2.symm⟩)
  | run t =>
    simp only [State.step, Option.ite_none_right_eq_some] at h
    exact .inr (.inr ⟨t, rfl, h.1, step_of_runThread h.2⟩)

theorem Inv.step {a : Action T} (h : Inv s) (he : s.step M timeout a = some s') : Inv s' := by
  rcases step_cases he with ⟨t, y, rfl, hy, -⟩ | ⟨t, -, -, rfl⟩ | ⟨t, -, hrun, ht⟩
  · exact h.setSched hy
  · exact h.setSched (.inl rfl)
  · exact h.run hrun ht

theorem reaches_inv {data : D} {place : T → P} (h : (sys M timeout data place).Reaches s) : Inv s :=
  Lts.Reaches.invariant (I := Inv) (fun _ => State.Initial.inv) (fun _ _ _ hs he => hs.step he) h

/-! ## Nobody is stuck with a lock -/

/-- The thread makes its next step as soon as a core runs it. -/
def State.CanStep (M : Program T K D P) (timeout : P → Nat) (s : State T K D P) (t : T) : Prop :=
  Sleeper.Awake (s.sched t) ∧ ∃ s', s.runThread M timeout t = some s'

theorem Inv.canStep_of_lock (h : Inv s) (hl : s.waitsetLock k = some t) : s.CanStep M timeout t := by
  have hlock : (s.pc t).lock = some k := (h.lock t k).1 hl
  refine ⟨h.awake t (.inr (by rw [hlock]; exact Option.some_ne_none k)), ?_⟩
  rw [State.runThread.eq_def]
  cases hp : s.pc t with
  | sigTest w r =>
    dsimp only
    split <;> exact ⟨_, rfl⟩
  | sigWakeup w x r =>
    dsimp only
    split <;> exact ⟨_, rfl⟩
  | sigMark w x r => exact ⟨_, rfl⟩
  | sigUnlock w r => exact ⟨_, rfl⟩
  | enqueued k p => exact ⟨_, rfl⟩
  | releasing k p => exact ⟨_, rfl⟩
  | tidied k p => exact ⟨_, rfl⟩
  | outside p =>
    rw [hp] at hlock
    cases hlock
  | inside r =>
    rw [hp] at hlock
    cases hlock
  | asleep k p =>
    rw [hp] at hlock
    cases hlock

theorem Inv.canStep_of_mutex (h : Inv s) (hm : s.mutex = some t) :
    s.CanStep M timeout t ∨ ∃ k u, s.waitsetLock k = some u ∧ s.CanStep M timeout u := by
  have hhas : (s.pc t).hasMutex = true := (h.mutex t).1 hm
  cases hl : (s.pc t).lock with
  | some k => exact .inl (h.canStep_of_lock ((h.lock t k).2 hl))
  | none =>
    obtain ⟨r, hp⟩ : ∃ r, s.pc t = .inside r := by
      cases hp : s.pc t <;> simp_all [Pc.hasMutex, Pc.lock]
    -- the lock of its next call, or of its wait
    have hspin : ∀ k, (s.waitsetLock k = none → s.CanStep M timeout t) →
        s.CanStep M timeout t ∨ ∃ k u, s.waitsetLock k = some u ∧ s.CanStep M timeout u := by
      intro k hk
      cases hu : s.waitsetLock k with
      | none => exact .inl (hk hu)
      | some u => exact .inr ⟨k, u, hu, h.canStep_of_lock hu⟩
    have hawake := h.awake t (.inl hhas)
    obtain ⟨wakes, next, wait⟩ := r
    cases wakes with
    | cons w wakes =>
      refine hspin w.cond fun hk => ⟨hawake, ?_⟩
      rw [State.runThread.eq_def, hp]
      exact ⟨_, if_pos hk⟩
    | nil =>
      cases wait with
      | none =>
        refine .inl ⟨hawake, ?_⟩
        rw [State.runThread.eq_def, hp]
        exact ⟨_, rfl⟩
      | some k =>
        refine hspin k fun hk => ⟨hawake, ?_⟩
        rw [State.runThread.eq_def, hp]
        exact ⟨_, if_pos hk⟩

/-- The assertion in `cv_wait` holds. -/
theorem Inv.asleep_runs (h : Inv s) (hp : s.pc t = .asleep k p) (hk : s.waitsetLock k = none) :
    ∃ s', s.runThread M timeout t = some s' := by
  rw [State.runThread.eq_def, hp]
  simp only [hk, if_true]
  unfold State.tidy
  split
  · exact ⟨_, rfl⟩
  · rename_i hr
    split
    · rename_i hs
      exact absurd (h.waiter t k (by rw [hp]; rfl) hs) hr
    · exact ⟨_, rfl⟩

/-- **No lock is held for ever.** -/
theorem locks_progress {data : D} {place : T → P} (h : (sys M timeout data place).Reaches s) :
    (∀ k t, s.waitsetLock k = some t → s.CanStep M timeout t) ∧
    (∀ t, s.mutex = some t →
      s.CanStep M timeout t ∨ ∃ k u, s.waitsetLock k = some u ∧ s.CanStep M timeout u) ∧
    (∀ t k p, s.pc t = .asleep k p → s.waitsetLock k = none → ∃ s', s.runThread M timeout t = some s') ∧
    ∀ t k p, s.pc t = .asleep k p → (s.sched t).state = .stopped →
      t ∈ s.waitset k ∨ ∃ u w r, s.pc u = .sigWakeup w t r := by
  have hi := reaches_inv h
  refine ⟨fun k t => hi.canStep_of_lock, fun t => hi.canStep_of_mutex, fun t k p => hi.asleep_runs,
    fun t k p hp hs => ?_⟩
  rcases hi.asleep t k p hp with ha | ⟨-, hr⟩
  · rcases ha with ha | ha <;> rw [hs] at ha <;> cases ha
  · cases hrem : (s.waiter t).removed with
    | true => exact .inr (hr hrem)
    | false => exact .inl ((hi.ring t k).2 ⟨by rw [hp]; rfl, hrem⟩)

/-- Thread 0 waits for a flag, which thread 1 sets. -/
def flag : Program (Fin 2) Unit Bool Bool where
  ready left := !left
  sect t _ set :=
    if t.val = 0 then some (if set then ⟨set, [], true, none⟩ else ⟨set, [], false, some ()⟩)
    else some ⟨true, [.signal ()], true, none⟩

/-- Both threads run. -/
def flagDown : State (Fin 2) Unit Bool Bool where
  data := false
  mutex := none
  pc _ := .outside false
  sched _ := ⟨.running, false⟩
  waiter _ := ⟨false, false⟩
  waitset _ := []
  waitsetLock _ := none

theorem flagDown_initial : flagDown.Initial false fun _ => false :=
  ⟨rfl, rfl, fun _ => rfl, fun _ => rfl, fun _ => rfl⟩

/-- Thread 1 is about to wake up thread 0. -/
theorem locks_progress_flag : ∃ s, (sys flag (fun _ => noTimeout) false fun _ => false).Reaches s ∧
    (s.mutex = some 1 ∧ s.waitsetLock () = some 1 ∧ (s.sched 0).state = .stopped ∧ s.waitset () = []) ∧
    (∀ k t, s.waitsetLock k = some t → s.CanStep flag (fun _ => noTimeout) t) ∧
    (∀ t, s.mutex = some t → s.CanStep flag (fun _ => noTimeout) t ∨
      ∃ k u, s.waitsetLock k = some u ∧ s.CanStep flag (fun _ => noTimeout) u) ∧
    (∀ t k p, s.pc t = .asleep k p → s.waitsetLock k = none →
      ∃ s', s.runThread flag (fun _ => noTimeout) t = some s') ∧
    ∀ t k p, s.pc t = .asleep k p → (s.sched t).state = .stopped →
      t ∈ s.waitset k ∨ ∃ u w r, s.pc u = .sigWakeup w t r := by
  have hrun : ∃ s, (sys flag (fun _ => noTimeout) false fun _ => false).run flagDown
      ([0, 0, 0, 0, 1, 1, 1].map .run) = some s ∧ s.mutex = some 1 ∧ s.waitsetLock () = some 1 ∧
      (s.sched 0).state = .stopped ∧ s.waitset () = [] := ⟨_, rfl, by decide⟩
  obtain ⟨s, hs, hfacts⟩ := hrun
  have h := Lts.reaches_of_run (.init flagDown_initial) hs
  exact ⟨s, h, hfacts, locks_progress h⟩

end TinyOS.Monitors
