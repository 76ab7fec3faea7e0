import Mathlib.Data.List.Induction
import Mathlib.Logic.Function.Iterate
import TinyOS.Sched.Boost
import TinyOS.Sched.TimedWaits

/-!
# Priorities of one thread

What the yields of a thread make of its priority, in any run without a boost and from any state. Nothing but its own
yields changes the priority of a thread and the causes in its TCB (`step_feedback`, `run_feedback`).

- `feedback_iff`: used up quanta lower the priority down to 0 and waits for I/O raise it up to the top, exactly when no
  quantum is used up at priority 0, and there is no wait for I/O at the top with `last_cause` at `SCHED_MUTEX`;
- `mutex_feedback_iff`: `last_cause` is the cause of the yield before the preceding one.
-/

namespace TinyOS.Sched

open State

variable {nc : Nat}

namespace Tcb

/-- What `yield` reads and writes to adjust the priority. -/
def feedback (x : Tcb) : Nat × Cause × Cause := (x.priority, x.currCause, x.lastCause)

/-- The TCB after a yield. -/
def yielded (x : Tcb) (k : Cause) : Tcb :=
  { x with
    priority := adjustPriority k x
    lastCause := x.currCause
    currCause := k }

variable {x y : Tcb}

theorem feedback_yielded (h : x.feedback = y.feedback) (k : Cause) : (x.yielded k).feedback = (y.yielded k).feedback := by
  simp only [feedback, Prod.mk.injEq] at h
  obtain ⟨hp, hcurr, hlast⟩ := h
  simp only [feedback, yielded, adjustPriority, hp, hcurr, hlast]

theorem feedback_foldl (h : x.feedback = y.feedback) (ks : List Cause) :
    (ks.foldl yielded x).feedback = (ks.foldl yielded y).feedback := by
  induction ks generalizing x y with
  | nil => exact h
  | cons k ks ih => exact ih (feedback_yielded h k)

end Tcb

namespace State

variable {s s' s₁ s₂ : State nc} {t u : Ptr nc} {c : Fin nc} {k : Cause} {a : Action nc} {as : List (Action nc)}
  {remaining clock timeout : Nat}

theorem run_freeSys (hr : (sys nc).run s as = some s') : (freeSys nc).run s as = some s' := by
  induction as generalizing s with
  | nil => exact hr
  | cons a as ih =>
    obtain ⟨s₁, hs₁, hr⟩ := Lts.run_cons hr
    obtain ⟨hen, he⟩ := step_eq_some.1 hs₁
    have hpossible : s.Possible a := by
      cases a with
      | sleep c st k timeout clock => exact ⟨hen.1, hen.2.1, hen.2.2.1⟩
      | _ => exact hen
    rw [Lts.run, freeSys_step.2 ⟨hpossible, he⟩]
    exact ih hr

/-! ## The parts of a step -/

/-- The priorities and the causes of all threads are as they were. -/
structure SameFeedback (s s' : State nc) : Prop where
  spawned : s'.spawned = s.spawned
  feedback : ∀ u, (s'.tcb u).feedback = (s.tcb u).feedback

theorem SameFeedback.refl (s : State nc) : SameFeedback s s := ⟨rfl, fun _ => rfl⟩

theorem SameFeedback.trans (h : SameFeedback s s₁) (h' : SameFeedback s₁ s') : SameFeedback s s' :=
  ⟨h'.spawned.trans h.spawned, fun u => (h'.feedback u).trans (h.feedback u)⟩

theorem sameFeedback_setTcb {x : Tcb} (hx : x.feedback = (s.tcb t).feedback) : SameFeedback s (s.setTcb t x) := by
  refine ⟨rfl, fun u => ?_⟩
  by_cases hu : u = t
  · subst hu
    rw [setTcb_self, hx]
  · rw [setTcb_other x hu]

theorem sameFeedback_schedQueueAdd (he : s.schedQueueAdd t = some s') : SameFeedback s s' := by
  obtain ⟨queue, rfl⟩ := schedQueueAdd_eq he
  exact ⟨rfl, fun _ => rfl⟩

theorem sameFeedback_schedMakeReady (he : s.schedMakeReady t = some s') : SameFeedback s s' := by
  obtain ⟨w, l, queue, rfl⟩ := schedMakeReady_eq he
  have h : SameFeedback s (s.setTcb t { s.tcb t with state := .ready, wakeupTime := w }) := sameFeedback_setTcb rfl
  exact ⟨h.spawned, h.feedback⟩

theorem sameFeedback_wakeupExpiredLoop {n : Nat} (he : wakeupExpiredLoop clock n s = some s') : SameFeedback s s' := by
  induction n generalizing s with
  | zero =>
    cases he
    exact .refl _
  | succ n ih =>
    unfold wakeupExpiredLoop at he
    split at he
    · cases he
      exact .refl _
    · split at he
      · cases he
        exact .refl _
      · obtain ⟨s₁, hs₁, he⟩ := Option.bind_eq_some_iff.1 he
        exact (sameFeedback_schedMakeReady hs₁).trans (ih he)

theorem sameFeedback_schedQueueSelect (s : State nc) (c : Fin nc) (cur : Ptr nc) :
    SameFeedback s (s.schedQueueSelect c cur).2 := by
  have hset : ∀ (next : Ptr nc) (s₁ : State nc), SameFeedback s s₁ →
      SameFeedback s (s₁.setTcb next { s₁.tcb next with its := quantum }) := fun next s₁ h₁ =>
    h₁.trans (sameFeedback_setTcb rfl)
  unfold schedQueueSelect
  dsimp only
  split
  · split
    · exact hset _ _ ⟨rfl, fun _ => rfl⟩
    · exact hset _ _ (.refl s)
  · exact hset _ _ (.refl s)

theorem sameFeedback_gain (he : s.gain c = some s') : SameFeedback s s' := by
  have hcurrent : SameFeedback s (s.gainCurrent c) := by
    have h : SameFeedback s (s.setTcb (s.current c) { s.tcb (s.current c) with
        state := .running, phase := .ctxDirty, rts := (s.tcb (s.current c)).its }) := sameFeedback_setTcb rfl
    exact ⟨h.spawned, h.feedback⟩
  have hprevious : ∀ {s₁ prev}, gainPrevious s₁ prev = some s' → SameFeedback s₁ s' := by
    intro s₁ prev he
    have h : SameFeedback s₁ (s₁.setTcb prev { s₁.tcb prev with phase := .ctxClean }) := sameFeedback_setTcb rfl
    unfold gainPrevious at he
    dsimp only at he
    split at he
    · split at he
      · exact h.trans (sameFeedback_schedQueueAdd he)
      · cases he
        exact h
    · cases he
      exact ⟨h.spawned, h.feedback⟩
    · cases he
      exact h
    · cases he
    · cases he
  unfold gain at he
  split at he
  · cases he
  · split at he
    · exact hcurrent.trans (hprevious he)
    · cases he
      exact hcurrent

theorem sameFeedback_sleepReleasing {st : ThreadState} (he : s.sleepReleasing c st k timeout clock = some s') :
    SameFeedback s s' := by
  have hslept : ∀ w l, SameFeedback s (s.slept c st k w l) := by
    intro w l
    have h : SameFeedback s (s.setTcb (s.current c) { s.tcb (s.current c) with state := st, wakeupTime := w }) :=
      sameFeedback_setTcb rfl
    exact ⟨h.spawned, h.feedback⟩
  obtain ⟨-, ⟨-, rfl⟩ | ⟨-, -, rfl⟩⟩ := sleepReleasing_spec he
  · exact hslept _ _
  · exact hslept _ _

/-- The section of `yield`, when there is no boost. -/
theorem yieldSection_feedback (hb : s.numofYields ≠ maxYields) (he : s.yieldSection c k remaining clock = some s') :
    s'.spawned = s.spawned ∧ ∀ u, (s'.tcb u).feedback =
      (if u = s.current c then (s.tcb u).yielded k else s.tcb u).feedback := by
  have hleft : s.left c k remaining = (s.adjusted c k).setTcb (s.current c)
      (leaveCurrent k remaining ((s.adjusted c k).tcb (s.current c))) := by
    have hboost : (s.adjusted c k).boost = s.adjusted c k := if_neg hb
    rw [left, hboost]
  rw [yieldSection_eq, Option.map_eq_some_iff] at he
  obtain ⟨s₁, hs₁, rfl⟩ := he
  have hscan := sameFeedback_wakeupExpiredLoop hs₁
  have hselect := hscan.trans (sameFeedback_schedQueueSelect s₁ c (s.current c))
  rw [hleft] at hselect
  refine ⟨hselect.spawned, fun u => (hselect.feedback u).trans ?_⟩
  by_cases hu : u = s.current c
  · subst hu
    rw [setTcb_self, if_pos rfl, adjusted, setTcb_self]
    rfl
  · rw [setTcb_other _ hu, if_neg hu, adjusted, setTcb_other _ hu]

/-! ## Steps and runs -/

/-- The cause of the yield of `t` whose section the action runs. -/
def yieldOf (s : State nc) (t : Ptr nc) : Action nc → Option Cause
  | .yieldSection c _ _ =>
    if s.current c = t then
      match s.pc c with
      | .yielding k => some k
      | _ => none
    else none
  | _ => none

/-- The action runs a section of `yield` with the boost. -/
def Boosts (s : State nc) : Action nc → Prop
  | .yieldSection .. => s.numofYields = maxYields
  | _ => False

instance (s : State nc) : ∀ a, Decidable (s.Boosts a)
  | .yieldSection .. => inferInstanceAs (Decidable (_ = _))
  | .spawn | .wakeup _ | .sleep .. | .yield .. | .gain _ => inferInstanceAs (Decidable False)

/-- The causes of the yields of `t` in a run, in their order. -/
def causes (t : Ptr nc) : State nc → List (Action nc) → List Cause
  | _, [] => []
  | s, a :: as =>
    (s.yieldOf t a).toList ++ match (freeSys nc).step s a with
      | some s' => causes t s' as
      | none => []

/-- The step lemma. -/
theorem step_feedback (hs : (freeSys nc).step s a = some s') (ht : s.Allocated t) (hb : ¬s.Boosts a) :
    s'.Allocated t ∧ (s'.tcb t).feedback = ((s.yieldOf t a).toList.foldl Tcb.yielded (s.tcb t)).feedback := by
  have hsame : SameFeedback s s' → s'.Allocated t ∧ (s'.tcb t).feedback = (s.tcb t).feedback := fun h => by
    refine ⟨?_, h.feedback t⟩
    cases t with
    | idle c => trivial
    | thread n =>
      show n < s'.spawned
      rw [h.spawned]
      exact ht
  obtain ⟨-, he⟩ := freeSys_step.1 hs
  cases a with
  | spawn =>
    cases he
    have hne : t ≠ .thread s.spawned := by
      rintro rfl
      exact Nat.lt_irrefl _ ht
    refine ⟨?_, congrArg Tcb.feedback (setTcb_other _ hne)⟩
    cases t with
    | idle c => trivial
    | thread n => exact Nat.lt_succ_of_lt ht
  | wakeup u =>
    rcases exec_wakeup he with rfl | hready
    · exact hsame (.refl _)
    · exact hsame (sameFeedback_schedMakeReady hready)
  | sleep c st k timeout clock => exact hsame (sameFeedback_sleepReleasing he)
  | yield c k =>
    cases he
    exact hsame ⟨rfl, fun _ => rfl⟩
  | yieldSection c remaining clock =>
    simp only [State.exec] at he
    split at he
    · rename_i k hpc
      obtain ⟨hspawned, hfeedback⟩ := yieldSection_feedback hb he
      refine ⟨?_, ?_⟩
      · cases t with
        | idle c => trivial
        | thread n =>
          show n < s'.spawned
          rw [hspawned]
          exact ht
      · rw [hfeedback t, yieldOf, hpc]
        by_cases hcur : s.current c = t
        · rw [if_pos hcur, if_pos hcur.symm]
          rfl
        · rw [if_neg hcur, if_neg fun h => hcur h.symm]
          rfl
    · cases he
  | gain c => exact hsame (sameFeedback_gain he)

theorem causes_cons (hs : (freeSys nc).step s a = some s') (as : List (Action nc)) :
    causes t s (a :: as) = (s.yieldOf t a).toList ++ causes t s' as := by
  rw [causes, hs]

/-- The run lemma. -/
theorem run_feedback (hr : (freeSys nc).run s as = some s') (ht : s.Allocated t)
    (hb : (freeSys nc).AllSteps (fun s a => ¬s.Boosts a) s as) :
    s'.Allocated t ∧ (s'.tcb t).feedback = ((causes t s as).foldl Tcb.yielded (s.tcb t)).feedback := by
  induction as generalizing s with
  | nil =>
    cases hr
    exact ⟨ht, rfl⟩
  | cons a as ih =>
    obtain ⟨s₁, hs₁, hr⟩ := Lts.run_cons hr
    obtain ⟨ht₁, hstep⟩ := step_feedback hs₁ ht hb.1
    obtain ⟨ht', hrun⟩ := ih hr ht₁ (hb.2 s₁ hs₁)
    refine ⟨ht', ?_⟩
    rw [hrun, causes_cons hs₁, List.foldl_append]
    exact Tcb.feedback_foldl hstep _

/-! ## Each yield of a thread -/

/-- `P` holds of each yield of `t` in the run of `as` from `s`: of the causes of its yields before it, the TCB before it,
its cause, and the priority after it. -/
def EachYield (t : Ptr nc) (P : List Cause → Tcb → Cause → Nat → Prop) (s : State nc) (as : List (Action nc)) : Prop :=
  ∀ as₁ a as₂ s₁ s₂ k, as = as₁ ++ a :: as₂ → (freeSys nc).run s as₁ = some s₁ → (freeSys nc).step s₁ a = some s₂ →
    s₁.yieldOf t a = some k → P (causes t s as₁) (s₁.tcb t) k (s₂.tcb t).priority

/-- In a run without a boost each yield does what the `switch` says. -/
theorem eachYield_iff {P Q : List Cause → Tcb → Cause → Nat → Prop} (ht : s.Allocated t)
    (hb : (freeSys nc).AllSteps (fun s a => ¬s.Boosts a) s as)
    (h : ∀ ks x k, x.feedback = (ks.foldl Tcb.yielded (s.tcb t)).feedback →
      (P ks x k (adjustPriority k x) ↔ Q ks x k (adjustPriority k x))) :
    EachYield t P s as ↔ EachYield t Q s as := by
  refine forall_congr' fun as₁ => forall_congr' fun a => forall_congr' fun as₂ => forall_congr' fun s₁ =>
    forall_congr' fun s₂ => forall_congr' fun k => forall_congr' fun has => forall_congr' fun hr =>
    forall_congr' fun hs => forall_congr' fun hk => ?_
  subst has
  obtain ⟨hall, hnb⟩ := hb.append hr
  obtain ⟨ht₁, hfeedback⟩ := run_feedback hr ht hall
  obtain ⟨-, hstep⟩ := step_feedback hs ht₁ hnb
  rw [hk] at hstep
  have hp : (s₂.tcb t).priority = adjustPriority k (s₁.tcb t) := congrArg Prod.fst hstep
  rw [hp]
  exact h _ _ _ hfeedback

theorem EachYield.tail {P : Tcb → Cause → Nat → Prop} (h : EachYield t (fun _ => P) s (a :: as))
    (hs : (freeSys nc).step s a = some s₁) : EachYield t (fun _ => P) s₁ as := by
  intro as₁ b as₂ u u' k has hr hb hk
  refine h (a :: as₁) b as₂ u u' k (by rw [has]; rfl) ?_ hb hk
  rw [Lts.run, hs]
  exact hr

/-- A thread that only yields with one cause, which changes its priority by `f`. -/
theorem priority_iterate {f : Nat → Nat} (ht : s.Allocated t)
    (hb : (freeSys nc).AllSteps (fun s a => ¬s.Boosts a) s as)
    (hf : EachYield t (fun _ x k' p => k' = k → p = f x.priority) s as) (hk : ∀ k' ∈ causes t s as, k' = k)
    (hr : (freeSys nc).run s as = some s') : (s'.tcb t).priority = f^[(causes t s as).length] (s.tcb t).priority := by
  induction as generalizing s with
  | nil =>
    cases hr
    rfl
  | cons a as ih =>
    obtain ⟨s₁, hs₁, hr⟩ := Lts.run_cons hr
    obtain ⟨ht₁, hstep⟩ := step_feedback hs₁ ht hb.1
    rw [causes_cons hs₁] at hk ⊢
    rw [ih ht₁ (hb.2 s₁ hs₁) (hf.tail hs₁) (fun k' hk' => hk k' (List.mem_append_right _ hk')) hr]
    cases hy : s.yieldOf t a with
    | none =>
      rw [hy] at hstep
      have hp : (s₁.tcb t).priority = (s.tcb t).priority := congrArg Prod.fst hstep
      rw [hp]
      rfl
    | some k' =>
      have hk' : k' = k := hk k' (List.mem_append_left _ (by rw [hy]; exact List.mem_singleton_self k'))
      rw [hf [] a as s s₁ k' rfl rfl hs₁ hy hk']
      exact (Function.iterate_succ_apply f _ _).symm

end State

/-! ## Quanta and input -/

theorem adjustPriority_lt {x : Tcb} (hx : x.priority < maxPriorities) (k : Cause) :
    adjustPriority k x < maxPriorities := by
  unfold maxPriorities at *
  cases k with
  | schedQuantum | schedIo | schedMutex =>
    simp only [adjustPriority, maxPriorities]
    grind
  | schedPipe | schedPoll | schedIdle | schedUser => exact hx

theorem priority_foldl_lt {x : Tcb} (hx : x.priority < maxPriorities) (ks : List Cause) :
    (ks.foldl Tcb.yielded x).priority < maxPriorities := by
  induction ks generalizing x with
  | nil => exact hx
  | cons k ks ih => exact ih (adjustPriority_lt hx k)

/-- The law for one yield: a quantum that is used up, and a wait for I/O. -/
def Law (x : Tcb) (k : Cause) (p : Nat) : Prop :=
  (k = .schedQuantum → p = x.priority - 1) ∧ (k = .schedIo → p = min (x.priority + 1) (maxPriorities - 1))

/-- No quantum is used up at priority 0; a wait for I/O at the top does not find `SCHED_MUTEX` in `last_cause`. -/
def Inside (x : Tcb) (k : Cause) : Prop :=
  (k = .schedQuantum → 0 < x.priority) ∧
    (k = .schedIo → x.priority < maxPriorities - 1 ∨ x.lastCause ≠ .schedMutex)

theorem law_iff {x : Tcb} (hx : x.priority < maxPriorities) (k : Cause) :
    Law x k (adjustPriority k x) ↔ Inside x k := by
  unfold maxPriorities at hx
  cases k with
  | schedQuantum =>
    simp only [Law, Inside, adjustPriority, maxPriorities, reduceCtorEq, false_imp_iff, and_true, true_imp_iff]
    grind
  | schedIo =>
    simp only [Law, Inside, adjustPriority, maxPriorities, reduceCtorEq, false_imp_iff, true_and, true_imp_iff]
    grind
  | _ => simp [Law, Inside]

structure GoesRight (t : Ptr nc) (s : State nc) (as : List (Action nc)) : Prop where
  each : EachYield t (fun _ => Law) s as
  /-- A thread that only uses up its quanta goes down to 0, and stays there. -/
  sinks : (∀ k ∈ causes t s as, k = .schedQuantum) → ∀ s', (freeSys nc).run s as = some s' →
    (s'.tcb t).priority = (s.tcb t).priority - (causes t s as).length
  /-- A thread that only waits for I/O goes up to the top, and stays there. -/
  rises : (∀ k ∈ causes t s as, k = .schedIo) → ∀ s', (freeSys nc).run s as = some s' →
    (s'.tcb t).priority = min ((s.tcb t).priority + (causes t s as).length) (maxPriorities - 1)

theorem iterate_down (n p : Nat) : (fun p => p - 1)^[n] p = p - n := by
  induction n generalizing p with
  | zero => rfl
  | succ n ih =>
    rw [Function.iterate_succ_apply, ih]
    omega

theorem iterate_up {m : Nat} (n : Nat) {p : Nat} (hp : p ≤ m) : (fun p => min (p + 1) m)^[n] p = min (p + n) m := by
  induction n generalizing p with
  | zero => exact (Nat.min_eq_left hp).symm
  | succ n ih =>
    rw [Function.iterate_succ_apply, ih (Nat.min_le_right _ _)]
    omega

variable {s : State nc} {t : Ptr nc} {as : List (Action nc)}

/-- **Quantum and I/O feedback** go the right way exactly as long as the `switch` does not fall through at a bound. -/
theorem feedback_iff (ht : s.Allocated t) (hp : (s.tcb t).priority < maxPriorities)
    (hb : (freeSys nc).AllSteps (fun s a => ¬s.Boosts a) s as) :
    GoesRight t s as ↔ EachYield t (fun _ x k _ => Inside x k) s as := by
  have heach : EachYield t (fun _ => Law) s as ↔ EachYield t (fun _ x k _ => Inside x k) s as := by
    refine eachYield_iff ht hb fun ks x k hx => law_iff ?_ k
    have hpx : x.priority = (ks.foldl Tcb.yielded (s.tcb t)).priority := congrArg Prod.fst hx
    rw [hpx]
    exact priority_foldl_lt hp ks
  refine ⟨fun h => heach.1 h.each, fun h => ⟨heach.2 h, fun hk s' hr => ?_, fun hk s' hr => ?_⟩⟩
  · have hlaw : EachYield t (fun _ x k p => k = .schedQuantum → p = x.priority - 1) s as :=
      fun as₁ a as₂ s₁ s₂ k has hr hs hk => (heach.2 h as₁ a as₂ s₁ s₂ k has hr hs hk).1
    rw [priority_iterate (f := fun p => p - 1) ht hb hlaw hk hr, iterate_down]
  · have hlaw : EachYield t (fun _ x k p => k = .schedIo → p = min (x.priority + 1) (maxPriorities - 1)) s as :=
      fun as₁ a as₂ s₁ s₂ k has hr hs hk => (heach.2 h as₁ a as₂ s₁ s₂ k has hr hs hk).2
    rw [priority_iterate (f := fun p => min (p + 1) (maxPriorities - 1)) ht hb hlaw hk hr, iterate_up _ (by omega)]

/-- The idle thread lets a new thread run. -/
def start : List (Action 1) := [.wakeup (.thread 0), .yield 0 .schedIdle, .yieldSection 0 0 0, .gain 0]

/-- A new thread uses up a quantum. -/
theorem feedback_iff_new : GoesRight (.thread 0) (State.boot 1).spawnThread
      (start ++ [.yield 0 .schedQuantum, .yieldSection 0 0 0]) ↔
    EachYield (.thread 0) (fun _ x k _ => Inside x k) (State.boot 1).spawnThread
      (start ++ [.yield 0 .schedQuantum, .yieldSection 0 0 0]) :=
  feedback_iff (by decide) (by decide) (by decide +kernel)

/-! ## Priority 0 -/

/-- Core `c` runs `t`, and there is no other thread to be run. -/
structure Alone (s : State nc) (c : Fin nc) (t : Ptr nc) : Prop where
  pc : s.pc c = .running
  current : s.current c = t
  running : (s.tcb t).state = .running
  queue : ∀ i, s.queue i = []
  timeoutList : s.timeoutList = []

/-- The yield of a thread that is alone. -/
def round (c : Fin nc) (k : Cause) : List (Action nc) := [.yield c k, .yieldSection c 0 0, .gain c]

variable {c : Fin nc} {k : Cause}

theorem Alone.round (h : Alone s c t) (k : Cause) (hb : s.numofYields + 1 ≠ maxYields) :
    ∃ s', (sys nc).run s (round c k) = some s' ∧ Alone s' c t ∧ s'.numofYields = s.numofYields + 1 ∧
      (s'.tcb t).priority = adjustPriority k (s.tcb t) := by
  obtain ⟨hpc, rfl, hst, hq, htl⟩ := h
  set s₁ : State nc := { s with
    numofYields := s.numofYields + 1
    pc := Function.update s.pc c (.yielding k) } with hs₁
  have hpc₁ : s₁.pc c = .yielding k := Function.update_self _ _ _
  have hstep₁ : (sys nc).step s (.yield c k) = some s₁ := step_eq_some.2 ⟨.inl hpc, rfl⟩
  -- the section finds no other thread
  set y : Tcb := leaveCurrent k 0 { s.tcb (s.current c) with priority := adjustPriority k (s.tcb (s.current c)) } with hy
  have hready : y.state = .ready := by simp [hy, leaveCurrent, hst]
  have hleft : s₁.left c k 0 = s₁.setTcb (s.current c) y := by
    have hboost : (s₁.adjusted c k).boost = s₁.adjusted c k := if_neg hb
    rw [left, hboost]
    simp [adjusted, setTcb, hs₁, hy]
  have hscan : s₁.atSelect c k 0 0 = some (s₁.setTcb (s.current c) y) := by
    rw [atSelect, hleft, schedWakeupExpiredTimeouts]
    have hlen : (s₁.setTcb (s.current c) y).timeoutList.length = 0 := by simp [setTcb, hs₁, htl]
    rw [hlen]
    rfl
  have hselect : (s₁.setTcb (s.current c) y).schedQueueSelect c (s.current c) =
      (s.current c, s₁.setTcb (s.current c) { y with its := quantum }) := by
    have htop : topLevel (s₁.setTcb (s.current c) y).queue maxPriorities = none := topLevel_eq_none fun i _ => hq i
    simp only [schedQueueSelect, htop, setTcb_self, hready, if_true]
    simp [setTcb]
  set s₂ : State nc := { s₁.setTcb (s.current c) { y with its := quantum } with
    previous := Function.update s₁.previous c (some (s.current c))
    current := Function.update s₁.current c (s.current c)
    pc := Function.update s₁.pc c .switching } with hs₂
  have hstep₂ : (sys nc).step s₁ (.yieldSection c 0 0) = some s₂ := by
    refine step_eq_some.2 ⟨by simp [Enabled, hpc₁, Pc.isYielding], ?_⟩
    have hcur : s₁.current c = s.current c := rfl
    simp only [State.exec, hpc₁]
    rw [yieldSection_eq, hscan, Option.map_some, hcur, hselect]
    rfl
  have hcur₂ : s₂.current c = s.current c := Function.update_self _ _ _
  have hstep₃ : (sys nc).step s₂ (.gain c) = some (s₂.gainCurrent c) := by
    refine step_eq_some.2 ⟨Function.update_self _ _ _, ?_⟩
    have hprev : s₂.previous c = some (s.current c) := Function.update_self _ _ _
    simp [State.exec, State.gain, hprev, hcur₂]
  have htcb : (s₂.gainCurrent c).tcb (s.current c) =
      { y with its := quantum, state := .running, phase := .ctxDirty, rts := quantum } := by
    rw [gainCurrent_tcb, hcur₂, if_pos rfl]
    simp [hs₂]
  refine ⟨s₂.gainCurrent c, ?_, ⟨Function.update_self _ _ _, hcur₂, by rw [htcb], hq, htl⟩, rfl, by rw [htcb]; rfl⟩
  simp only [Sched.round, Lts.run, hstep₁, hstep₂, hstep₃, Option.bind_some]

theorem Alone.causes (h : Alone s c t) (k : Cause) : causes t s (Sched.round c k) = [k] := by
  have hstep : (freeSys nc).step s (.yield c k) = some { s with
      numofYields := s.numofYields + 1
      pc := Function.update s.pc c (.yielding k) } := freeSys_step.2 ⟨.inl h.pc, rfl⟩
  rw [Sched.round, causes_cons hstep, State.causes]
  simp only [yieldOf, h.current, if_true, Function.update_self, Option.toList_none, List.nil_append, Option.toList_some]
  split
  · simp only [State.causes, yieldOf, Option.toList_none, List.nil_append]
    split <;> rfl
  · rfl

/-- It uses up `n` quanta. -/
theorem Alone.sink (h : Alone s c t) (n : Nat) (hn : n ≤ (s.tcb t).priority)
    (hb : s.numofYields + n < maxYields) (hs : (sys nc).Reaches s) :
    ∃ s', (sys nc).Reaches s' ∧ Alone s' c t ∧ s'.numofYields = s.numofYields + n ∧
      (s'.tcb t).priority = (s.tcb t).priority - n := by
  induction n with
  | zero => exact ⟨s, hs, h, by simp, by simp⟩
  | succ n ih =>
    obtain ⟨s₁, hs₁, h₁, hnum, hp⟩ := ih (by omega) (by omega)
    obtain ⟨s₂, hr, h₂, hnum₂, hp₂⟩ := h₁.round .schedQuantum (by omega)
    refine ⟨s₂, Lts.reaches_of_run hs₁ hr, h₂, by omega, ?_⟩
    have hpos : 0 < (s₁.tcb t).priority := by omega
    rw [hp₂, adjustPriority, if_pos hpos]
    omega

/-- A new thread on one core that runs. -/
theorem exists_alone : ∃ s : State 1, (sys 1).Reaches s ∧ Alone s 0 (.thread 0) ∧ s.numofYields = 1 ∧
    s.Allocated (.thread 0) ∧ (s.tcb (.thread 0)).priority = 999 := by
  have hrun : ((sys 1).run (State.boot 1) (.spawn :: start)).map (fun s => ((s.pc 0, s.current 0, s.timeoutList),
      (s.numofYields, s.spawned), ((s.tcb (.thread 0)).state, (s.tcb (.thread 0)).priority))) =
      some ((.running, .thread 0, []), ((1 : Int), 1), (.running, 999)) := by
    decide +kernel
  obtain ⟨s, hs, he⟩ := Option.map_eq_some_iff.1 hrun
  simp only [Prod.mk.injEq] at he
  obtain ⟨⟨hpc, hcur, htl⟩, ⟨hnum, hspawned⟩, hst, hp⟩ := he
  have hr : (sys 1).Reaches s := Lts.reaches_of_run (.init rfl) hs
  have hinv := reaches_inv hr
  refine ⟨s, hr, ⟨hpc, hcur, hst, fun i => ?_, htl⟩, hnum, ?_, hp⟩
  · rw [List.eq_nil_iff_forall_not_mem]
    intro u hu
    obtain ⟨-, ⟨n, rfl⟩, hready, -⟩ := hinv.mem_queue.1 hu
    rcases Nat.eq_zero_or_pos n with rfl | hn
    · rw [hst] at hready
      cases hready
    · rw [hinv.fresh (by omega)] at hready
      cases hready
  · show 0 < s.spawned
    omega

/-- A thread has used up 999 quanta and is at priority 0: the next one raises it to 1. -/
theorem rises_from_zero : ∃ s : State 1, (sys 1).Reaches s ∧ s.Allocated (.thread 0) ∧ (s.tcb (.thread 0)).priority = 0 ∧
    (freeSys 1).AllSteps (fun s a => ¬s.Boosts a) s (round 0 .schedQuantum) ∧
    ¬GoesRight (.thread 0) s (round 0 .schedQuantum) := by
  obtain ⟨s₀, hs₀, halone, hnum₀, hspawned, hp₀⟩ := exists_alone
  obtain ⟨s, hs, halone, hnum, hp⟩ := halone.sink 999 (by omega) (by rw [hnum₀]; decide) hs₀
  have hb : s.numofYields + 1 ≠ maxYields := by
    rw [hnum, hnum₀]
    decide
  obtain ⟨s', hr, -, -, hp'⟩ := halone.round .schedQuantum hb
  have hzero : (s.tcb (.thread 0)).priority = 0 := by omega
  refine ⟨s, hs, halone.current ▸ (reaches_inv hs).allocated (by rw [halone.current, halone.running]; simp), hzero, ?_, ?_⟩
  · refine ⟨id, fun s₁ hs₁ => ⟨?_, fun s₂ hs₂ => ⟨id, fun _ _ => trivial⟩⟩⟩
    obtain ⟨-, he⟩ := freeSys_step.1 hs₁
    cases he
    exact hb
  · intro h
    have hsink := h.sinks (by rw [halone.causes]; simp) s' (run_freeSys hr)
    rw [hp', adjustPriority, hzero] at hsink
    simp [maxPriorities] at hsink

/-! ## The history of causes -/

/-- The TCB of `t` has just been initialised. -/
inductive Created : State nc → Ptr nc → Prop
  | boot (c : Fin nc) : Created (State.boot nc) (.idle c)
  | spawn (s : State nc) : Created s.spawnThread (.thread s.spawned)

theorem Created.allocated (h : Created s t) : s.Allocated t := by
  cases h with
  | boot c => trivial
  | spawn s => exact Nat.lt_succ_self _

theorem Created.feedback (h : Created s t) : (s.tcb t).priority < maxPriorities ∧
    (s.tcb t).currCause = .schedIdle ∧ (s.tcb t).lastCause = .schedIdle := by
  cases h with
  | boot c =>
    have htcb : (State.boot nc).tcb (.idle c) = bootTcb (.idle c) := rfl
    rw [htcb]
    exact ⟨Nat.zero_lt_succ _, rfl, rfl⟩
  | spawn s =>
    have htcb : s.spawnThread.tcb (.thread s.spawned) = _ := setTcb_self _
    rw [htcb]
    exact ⟨by decide, rfl, rfl⟩

/-- The cause before the last one. -/
def beforeLast (ks : List Cause) : Option Cause := ks.dropLast.getLast?

/-- `curr_cause` is the cause of the last yield, and `last_cause` that of the one before. -/
theorem foldl_causes {x : Tcb} (hcurr : x.currCause = .schedIdle) (hlast : x.lastCause = .schedIdle)
    (ks : List Cause) : (ks.foldl Tcb.yielded x).currCause = ks.getLast?.getD .schedIdle ∧
      (ks.foldl Tcb.yielded x).lastCause = (beforeLast ks).getD .schedIdle := by
  induction ks using List.reverseRecOn with
  | nil => exact ⟨hcurr, hlast⟩
  | append_singleton ks k ih =>
    rw [List.foldl_append, beforeLast, List.dropLast_concat, List.getLast?_concat]
    exact ⟨rfl, ih.1⟩

/-- The law for a yield after others with causes `ks`. -/
def MutexLaw (ks : List Cause) (x : Tcb) (k : Cause) (p : Nat) : Prop :=
  (k = .schedMutex → p = if ks.getLast? = some .schedMutex then x.priority - 1 else x.priority) ∧
    (k ≠ .schedQuantum → k ≠ .schedMutex → x.priority ≤ p)

/-- A mutex yield above priority 0 comes after a mutex yield if and only if the yield before that one is a mutex yield;
a wait for I/O at the top does not come two yields after a mutex yield. -/
def MutexInside (ks : List Cause) (x : Tcb) (k : Cause) : Prop :=
  (k = .schedMutex → 0 < x.priority → (ks.getLast? = some .schedMutex ↔ beforeLast ks = some .schedMutex)) ∧
    (k = .schedIo → x.priority < maxPriorities - 1 ∨ beforeLast ks ≠ some .schedMutex)

theorem mutexLaw_iff {ks : List Cause} {x : Tcb} (hx : x.priority < maxPriorities)
    (hlast : x.lastCause = .schedMutex ↔ beforeLast ks = some .schedMutex) (k : Cause) :
    MutexLaw ks x k (adjustPriority k x) ↔ MutexInside ks x k := by
  unfold maxPriorities at hx
  cases k with
  | schedMutex =>
    simp only [MutexLaw, MutexInside, adjustPriority, hlast, reduceCtorEq, true_imp_iff, false_imp_iff, and_true]
    grind
  | schedIo =>
    simp only [MutexLaw, MutexInside, adjustPriority, hlast, reduceCtorEq, true_imp_iff, false_imp_iff, true_and,
      maxPriorities]
    grind
  | _ => simp [MutexLaw, MutexInside, adjustPriority]

/-- **Mutex demotion** looks at the preceding yield exactly where that one and the one before it are both mutex yields or
both not, and the thread is not lowered for I/O. -/
theorem mutex_feedback_iff (hc : Created s t) (hb : (freeSys nc).AllSteps (fun s a => ¬s.Boosts a) s as) :
    EachYield t MutexLaw s as ↔ EachYield t (fun ks x k _ => MutexInside ks x k) s as := by
  obtain ⟨hp, hcurr, hlast⟩ := hc.feedback
  refine eachYield_iff hc.allocated hb fun ks x k hx => ?_
  simp only [Tcb.feedback, Prod.mk.injEq] at hx
  obtain ⟨hpx, -, hlx⟩ := hx
  refine mutexLaw_iff (hpx ▸ priority_foldl_lt hp ks) ?_ k
  rw [hlx, (foldl_causes hcurr hlast ks).2]
  cases beforeLast ks <;> simp

/-- Two mutex yields of a new thread. -/
def contend : List (Action 1) := start ++ round 0 .schedMutex ++ [.yield 0 .schedMutex, .yieldSection 0 0 0]

/-- A new thread yields twice on mutexes; the third mutex yield would lower it. -/
theorem mutex_feedback_iff_new : EachYield (.thread 0) MutexLaw (State.boot 1).spawnThread contend ↔
    EachYield (.thread 0) (fun ks x k _ => MutexInside ks x k) (State.boot 1).spawnThread contend :=
  mutex_feedback_iff (.spawn (State.boot 1)) (by decide +kernel)

/-- The second one leaves it at 999. -/
theorem second_mutex_keeps : ¬EachYield (.thread 0) MutexLaw (State.boot 1).spawnThread contend := by
  intro h
  have hrun : ((freeSys 1).run (State.boot 1).spawnThread (start ++ round 0 .schedMutex ++ [.yield 0 .schedMutex])).bind
      (fun s => ((freeSys 1).step s (.yieldSection 0 0 0)).map fun s' => (s.yieldOf (.thread 0) (.yieldSection 0 0 0),
        (s.tcb (.thread 0)).priority, (s'.tcb (.thread 0)).priority)) = some (some .schedMutex, 999, 999) := by
    decide +kernel
  have hcauses : (causes (.thread 0) (State.boot 1).spawnThread
      (start ++ round 0 .schedMutex ++ [.yield 0 .schedMutex])).getLast? = some .schedMutex := by
    decide +kernel
  obtain ⟨s, hs, he⟩ := Option.bind_eq_some_iff.1 hrun
  obtain ⟨s', hs', he⟩ := Option.map_eq_some_iff.1 he
  simp only [Prod.mk.injEq] at he
  obtain ⟨hk, hp, hp'⟩ := he
  have hlaw := (h _ _ [] s s' _ rfl hs hs' hk).1 rfl
  rw [hcauses, hp, hp'] at hlaw
  simp at hlaw

end TinyOS.Sched
