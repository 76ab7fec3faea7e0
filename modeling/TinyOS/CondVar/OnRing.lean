import TinyOS.CondVar.Model
import TinyOS.CondVar.WaiterRing

/-!
# The waitset on its ring

The list of waiters in the model of the condition variable is the queue of the ring in memory: each of its steps is
followed by at most one operation on the ring, with a waiter for each thread.

- `reaches_onRing`: so in every state the ring is that of the threads in the list.
-/

namespace TinyOS.CondVar

open WaiterRing (Stage Refines fifo)

variable {T M : Type}

/-- Where the waiter of a thread is. -/
def Pc.stage : Pc T M → Stage
  | .waitLock .. => .fresh
  | .enqueued .. | .releasing .. | .asleep _ => .waiting
  | .tidied _ | .relock _ => .tidied
  | .task | .sigLock _ | .sigTest _ | .sigWakeup .. | .sigMark .. | .sigUnlock _ => .outside

/-- The ring is that of the waiters in the list, and agrees with the threads. -/
structure OnRing (s : State T M) (r : WaiterRing.State T) : Prop where
  queue : Refines r s.waitset
  stage : ∀ t, r.stage t = (s.thread t).pc.stage
  removed : ∀ t, (s.thread t).pc.stage ≠ .outside → r.removed t = (s.thread t).waiter.removed

variable [DecidableEq T] [DecidableEq M] {s s' : State T M} {r : WaiterRing.State T} {t : T}

namespace OnRing

omit [DecidableEq T] [DecidableEq M] in
/-- A step that leaves the ring alone. -/
theorem same (h : OnRing s r) (hset : s'.waitset = s.waitset)
    (hthread : ∀ u, (s'.thread u).pc.stage = (s.thread u).pc.stage ∧
      (s'.thread u).waiter.removed = (s.thread u).waiter.removed) : OnRing s' r := by
  refine ⟨hset ▸ h.queue, fun u => (h.stage u).trans (hthread u).1.symm, fun u hu => ?_⟩
  rw [(hthread u).2]
  exact h.removed u ((hthread u).1 ▸ hu)

omit [DecidableEq M] in
/-- A step of one thread that leaves the ring alone. -/
theorem setThread (h : OnRing s r) {x : Thread T M} (hx : x.pc.stage = (s.thread t).pc.stage)
    (hrem : x.waiter.removed = (s.thread t).waiter.removed) : OnRing (s.setThread t x) r := by
  refine h.same rfl fun u => ?_
  by_cases hu : u = t
  · subst hu
    simp [State.setThread, hx, hrem]
  · simp [State.setThread, hu]

omit [DecidableEq M] in
theorem setPc (h : OnRing s r) {pc : Pc T M} (hpc : pc.stage = (s.thread t).pc.stage) : OnRing (s.setPc t pc) r :=
  h.setThread hpc rfl

omit [DecidableEq M] in
/-- An operation on the ring. -/
theorem action (h : OnRing s r) (hr : (WaiterRing.sys T).Reaches r) (a : WaiterRing.Action T) (hen : r.Enabled a)
    (hset : s'.waitset = a.onQueue s.waitset) (hstage : ∀ u, (r.exec a).stage u = (s'.thread u).pc.stage)
    (hremoved : ∀ u, (s'.thread u).pc.stage ≠ .outside → (r.exec a).removed u = (s'.thread u).waiter.removed) :
    ∃ r', (WaiterRing.sys T).Reaches r' ∧ OnRing s' r' := by
  have hs : (WaiterRing.sys T).step r a = some (r.exec a) := if_pos hen
  obtain ⟨q, hq, hR⟩ := WaiterRing.step_refines r s.waitset a (r.exec a) h.queue hs
  obtain rfl : a.onQueue s.waitset = q := Option.some.inj hq
  exact ⟨r.exec a, hr.step hs, hset ▸ hR, hstage, hremoved⟩

omit [DecidableEq M] in
/-- An operation on the waiter of one thread. -/
theorem actionOn (h : OnRing s r) (hr : (WaiterRing.sys T).Reaches r) (a : WaiterRing.Action T) (hen : r.Enabled a)
    (hset : s'.waitset = a.onQueue s.waitset) (t : T)
    (hself : (r.exec a).stage t = (s'.thread t).pc.stage ∧
      ((s'.thread t).pc.stage ≠ .outside → (r.exec a).removed t = (s'.thread t).waiter.removed))
    (hother : ∀ u ≠ t, (r.exec a).stage u = r.stage u ∧ (r.exec a).removed u = r.removed u ∧
      s'.thread u = s.thread u) : ∃ r', (WaiterRing.sys T).Reaches r' ∧ OnRing s' r' := by
  refine h.action hr a hen hset (fun u => ?_) fun u hu => ?_
  · by_cases hut : u = t
    · exact hut ▸ hself.1
    · rw [(hother u hut).1, (hother u hut).2.2, h.stage]
  · by_cases hut : u = t
    · subst hut
      exact hself.2 hu
    · rw [(hother u hut).2.2] at hu ⊢
      rw [(hother u hut).2.1, h.removed u hu]

omit [DecidableEq M] in
/-- A thread takes the first waiter out of the ring. -/
theorem pop (h : OnRing s r) (hr : (WaiterRing.sys T).Reaches r) {w : T} {rest : List T} (hw : s.waitset = w :: rest)
    {pc : Pc T M} (hpc : pc.stage = (s.thread t).pc.stage) :
    ∃ r', (WaiterRing.sys T).Reaches r' ∧ OnRing ((s.pop w).setPc t pc) r' := by
  have hhead : r.waitset = some w := by rw [h.queue.head, hw]; rfl
  have hstage : (r.exec .pop).stage = r.stage := by
    simp [WaiterRing.State.exec, WaiterRing.State.pop, WaiterRing.State.setRemoved, hhead]
  have hremoved : (r.exec .pop).removed = Function.update r.removed w true := by
    simp [WaiterRing.State.exec, WaiterRing.State.pop, WaiterRing.State.setRemoved, hhead]
  have hthread : ∀ u, (((s.pop w).setPc t pc).thread u).pc.stage = (s.thread u).pc.stage ∧
      (((s.pop w).setPc t pc).thread u).waiter.removed = if u = w then true else (s.thread u).waiter.removed := by
    intro u
    simp only [State.setPc, State.pop, State.setThread, Function.update_apply]
    split_ifs <;> simp_all
  refine h.action hr .pop trivial rfl (fun u => ?_) fun u hu => ?_
  · rw [hstage, (hthread u).1, h.stage]
  · rw [(hthread u).1] at hu
    rw [hremoved, Function.update_apply, (hthread u).2, h.removed u hu]

theorem runThread (h : OnRing s r) (hr : (WaiterRing.sys T).Reaches r) (hs : s.runThread t = some s') :
    ∃ r', (WaiterRing.sys T).Reaches r' ∧ OnRing s' r' := by
  have hst := h.stage t
  cases hpc : (s.thread t).pc with
  | task => simp [State.runThread, hpc] at hs
  | waitLock m timeout =>
    simp only [State.runThread, hpc, Option.ite_none_right_eq_some, Option.some.injEq] at hs
    obtain ⟨-, rfl⟩ := hs
    rw [hpc] at hst
    have hrem := h.removed t (by simp [hpc, Pc.stage])
    refine h.actionOn hr (.enqueue t) hst rfl t ?_ fun u hu => ?_
    · simp [WaiterRing.State.exec, State.setPc, State.setThread, State.enqueue, Pc.stage, hrem]
    · simp [WaiterRing.State.exec, State.setPc, State.setThread, State.enqueue, hu]
  | enqueued m timeout =>
    simp only [State.runThread, hpc, Option.some.injEq] at hs
    subst hs
    have h' : OnRing { s with locked := Function.update s.locked m false } r := h.same rfl fun _ => ⟨rfl, rfl⟩
    exact ⟨r, hr, h'.setPc (by simp [hpc, Pc.stage])⟩
  | releasing m timeout =>
    simp only [State.runThread, hpc, Option.some.injEq] at hs
    subst hs
    refine ⟨r, hr, h.same rfl fun u => ?_⟩
    by_cases hu : u = t
    · subst hu
      simp [State.sleepReleasing, State.setThread, hpc, Pc.stage]
    · simp [State.sleepReleasing, State.setThread, hu]
  | asleep m =>
    simp only [State.runThread, hpc, Option.ite_none_right_eq_some] at hs
    rw [hpc] at hst
    have hrem := h.removed t (by simp [hpc, Pc.stage])
    obtain ⟨-, hs⟩ := hs
    have htidy : s'.waitset = s.waitset.erase t ∧ (s'.thread t).pc = .tidied m ∧
        (s'.thread t).waiter = (s.thread t).waiter ∧ ∀ u ≠ t, s'.thread u = s.thread u := by
      unfold State.tidy at hs
      split_ifs at hs with hremoved hsignalled
      · obtain rfl := Option.some.inj hs
        have hw : t ∉ s.waitset := fun hm => by
          have hfalse := (h.queue.queued t hm).2.1
          simp [State.setPc, State.setThread] at hremoved
          exact absurd (hrem.trans hremoved) (by simp [hfalse])
        rw [List.erase_of_not_mem hw]
        exact ⟨rfl, by simp [State.setPc, State.setThread], by simp [State.setPc, State.setThread],
          fun u hu => by simp [State.setPc, State.setThread, hu]⟩
      · obtain rfl := Option.some.inj hs
        exact ⟨rfl, by simp [State.removeFromRing, State.setPc, State.setThread],
          by simp [State.removeFromRing, State.setPc, State.setThread],
          fun u hu => by simp [State.removeFromRing, State.setPc, State.setThread, hu]⟩
    obtain ⟨hset, hpc', hwaiter, hother⟩ := htidy
    refine h.actionOn hr (.tidy t) hst hset t ?_ fun u hu => ?_
    · simp [WaiterRing.State.exec, hpc', hwaiter, hrem, Pc.stage]
    · simp [WaiterRing.State.exec, hu, hother u hu]
  | tidied m =>
    simp only [State.runThread, hpc, Option.some.injEq] at hs
    subst hs
    have h' : OnRing { s with waitsetLock := none } r := h.same rfl fun _ => ⟨rfl, rfl⟩
    exact ⟨r, hr, h'.setPc (by simp [hpc, Pc.stage])⟩
  | relock m =>
    simp only [State.runThread, hpc, Option.ite_none_right_eq_some, Option.some.injEq] at hs
    obtain ⟨-, rfl⟩ := hs
    rw [hpc] at hst
    refine h.actionOn hr (.returns t) hst rfl t ?_ fun u hu => ?_
    · simp [WaiterRing.State.exec, WaiterRing.State.setStage, State.waitReturns, State.setPc, State.setThread, Pc.stage]
    · simp [WaiterRing.State.exec, WaiterRing.State.setStage, State.waitReturns, State.setPc, State.setThread, hu]
  | sigLock broadcast =>
    simp only [State.runThread, hpc, Option.ite_none_right_eq_some, Option.some.injEq] at hs
    obtain ⟨-, rfl⟩ := hs
    have h' : OnRing { s with waitsetLock := some t } r := h.same rfl fun _ => ⟨rfl, rfl⟩
    exact ⟨r, hr, h'.setPc (by simp [hpc, Pc.stage])⟩
  | sigTest f =>
    cases hw : s.waitset with
    | nil =>
      simp only [State.runThread, hpc, hw, Option.some.injEq] at hs
      subst hs
      exact ⟨r, hr, h.setPc (by simp [hpc, Pc.stage])⟩
    | cons w rest =>
      simp only [State.runThread, hpc, hw, Option.some.injEq] at hs
      subst hs
      exact h.pop hr hw (by simp [hpc, Pc.stage])
  | sigWakeup f w =>
    simp only [State.runThread, hpc, Option.some.injEq] at hs
    subst hs
    unfold State.wakeup
    obtain ⟨woken, x⟩ := (s.thread w).sched.wakeup
    cases woken with
    | true =>
      have h' := h.setThread (t := w) (x := { s.thread w with sched := x, wokenBy := .signal }) rfl rfl
      exact ⟨r, hr, h'.setPc (by rw [← h'.stage, hst, hpc]; rfl)⟩
    | false => exact ⟨r, hr, h.setPc (by rw [hpc]; rfl)⟩
  | sigMark f w =>
    simp only [State.runThread, hpc, Option.some.injEq] at hs
    subst hs
    have h' : OnRing (s.mark w) r := h.setThread rfl rfl
    refine ⟨r, hr, h'.setPc ?_⟩
    rw [← h'.stage, hst, hpc]
    split_ifs <;> rfl
  | sigUnlock f =>
    simp only [State.runThread, hpc, Option.some.injEq] at hs
    subst hs
    refine ⟨r, hr, (h.setPc (by simp [hpc, Pc.stage]) : OnRing (s.setPc t .task) r).same rfl fun _ => ⟨rfl, rfl⟩⟩

theorem exec (h : OnRing s r) (hr : (WaiterRing.sys T).Reaches r) : ∀ {a : Action T M}, s.Enabled a →
    s.exec a = some s' → ∃ r', (WaiterRing.sys T).Reaches r' ∧ OnRing s' r'
  | .dispatch t, _, hs => by
    obtain rfl := Option.some.inj hs
    exact ⟨r, hr, h.setThread rfl rfl⟩
  | .preempt t, _, hs => by
    obtain rfl := Option.some.inj hs
    exact ⟨r, hr, h.setThread rfl rfl⟩
  | .expire t, _, hs => by
    obtain rfl := Option.some.inj hs
    exact ⟨r, hr, h.setThread rfl rfl⟩
  | .mutexLock t m, _, hs => by
    obtain rfl := Option.some.inj hs
    exact ⟨r, hr, h.same rfl fun _ => ⟨rfl, rfl⟩⟩
  | .mutexUnlock t m, _, hs => by
    obtain rfl := Option.some.inj hs
    exact ⟨r, hr, h.same rfl fun _ => ⟨rfl, rfl⟩⟩
  | .wait t m timeout, hen, hs => by
    obtain rfl := Option.some.inj hs
    have hst : r.stage t = .outside := by rw [h.stage, hen.2]; rfl
    refine h.actionOn hr (.start t) hst rfl t ?_ fun u hu => ?_
    · simp [WaiterRing.State.exec, WaiterRing.State.start, WaiterRing.State.setStage, WaiterRing.State.setRemoved,
        State.setThread, Pc.stage]
    · simp [WaiterRing.State.exec, WaiterRing.State.start, WaiterRing.State.setStage, WaiterRing.State.setRemoved,
        State.setThread, hu]
  | .signal t broadcast, hen, hs => by
    obtain rfl := Option.some.inj hs
    exact ⟨r, hr, h.setPc (by rw [hen.2]; rfl)⟩
  | .run t, _, hs => h.runThread hr hs

end OnRing

/-- In every state there is a ring in memory for the list of waiters, which the operations of `kernel_cc.c` have
made. -/
theorem reaches_onRing (hs : (sys T M).Reaches s) : ∃ r, (WaiterRing.sys T).Reaches r ∧ OnRing s r := by
  refine Lts.Reaches.invariant (I := fun s => ∃ r, (WaiterRing.sys T).Reaches r ∧ OnRing s r) ?_ ?_ hs
  · intro s h
    have hr : WaiterRing.State.Initial (⟨none, ⟨id, id, id⟩, fun _ => false, fun _ => .outside, [], []⟩ :
        WaiterRing.State T) := ⟨rfl, fun _ => rfl, rfl, rfl⟩
    refine ⟨_, .init hr, h.waitset ▸ WaiterRing.initial_refines hr, fun t => ?_, fun t ht => ?_⟩
    · rw [h.pc]
      rfl
    · rw [h.pc] at ht
      exact absurd rfl ht
  · rintro s a s' ⟨r, hr, h⟩ hs
    obtain ⟨hen, hs⟩ := Option.ite_none_right_eq_some.1 hs
    exact h.exec hr hen hs

end TinyOS.CondVar
