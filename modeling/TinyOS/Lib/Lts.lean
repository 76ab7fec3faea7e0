import Mathlib.Tactic.Common

/-!
# Labelled transition systems

A system is a predicate on initial states and a partial step function; `none` means that the action cannot happen in
that state. `ReachesBy ok` collects the states of the runs all of whose steps meet `ok`; `Reaches` puts no condition
on the steps.

A system can be restricted to the steps that stay in a set of states (`within`), and can be given a record of its run
(`record`).

- `ReachesBy.invariant`: what holds at the start and is kept by every step holds in every state reached;
- `allStates_iff_allSteps`: where the steps that meet `ok` keep a property and the others break it, the property
  holds all along a run exactly when every step of the run meets `ok`.
-/

universe u v w

/-- Initial states, and what an action makes of a state. -/
structure Lts (σ : Type u) (α : Type v) where
  init : σ → Prop
  step : σ → α → Option σ

namespace Lts

variable {σ : Type u} {α : Type v} (M : Lts σ α)

/-! ## Reachability -/

/-- The states reached by the runs all of whose steps meet `ok`. -/
inductive ReachesBy (ok : σ → α → Prop) : σ → Prop
  | init {s : σ} : M.init s → ReachesBy ok s
  | step {s s' : σ} {a : α} : ReachesBy ok s → ok s a → M.step s a = some s' → ReachesBy ok s'

/-- The states reached by any run. -/
def Reaches : σ → Prop := M.ReachesBy fun _ _ => True

variable {M} {ok ok' : σ → α → Prop}

/-- What holds at the start and is kept by the steps that meet `ok` holds in every state they reach. -/
theorem ReachesBy.invariant {I : σ → Prop} (hinit : ∀ s, M.init s → I s)
    (hstep : ∀ s a s', I s → ok s a → M.step s a = some s' → I s') {s : σ} (h : M.ReachesBy ok s) : I s := by
  induction h with
  | init h => exact hinit _ h
  | step _ hok hs ih => exact hstep _ _ _ ih hok hs

/-- The same with no condition on the steps. -/
theorem Reaches.invariant {I : σ → Prop} (hinit : ∀ s, M.init s → I s)
    (hstep : ∀ s a s', I s → M.step s a = some s' → I s') {s : σ} (h : M.Reaches s) : I s :=
  ReachesBy.invariant hinit (fun s a s' hI _ hs => hstep s a s' hI hs) h

theorem Reaches.init {s : σ} (h : M.init s) : M.Reaches s := ReachesBy.init h

theorem Reaches.step {s s' : σ} {a : α} (h : M.Reaches s) (hs : M.step s a = some s') : M.Reaches s' :=
  ReachesBy.step h trivial hs

/-! ## Records -/

section Record

variable {β : Type w} (h₀ : σ → β) (f : σ → α → σ → β → β)

/-- The states of `M` with a record of the run: `h₀` at its start, and what `f` makes of each step. -/
def record (M : Lts σ α) : Lts (σ × β) α where
  init x := M.init x.1 ∧ x.2 = h₀ x.1
  step x a := (M.step x.1 a).map fun s' => (s', f x.1 a s' x.2)

variable {h₀ f}

theorem record_step {x y : σ × β} {a : α} :
    (M.record h₀ f).step x a = some y ↔ M.step x.1 a = some y.1 ∧ y.2 = f x.1 a y.1 x.2 := by
  obtain ⟨s', b⟩ := y
  simp only [record, Option.map_eq_some_iff, Prod.mk.injEq]
  constructor
  · rintro ⟨t, ht, rfl, rfl⟩
    exact ⟨ht, rfl⟩
  · rintro ⟨hs, rfl⟩
    exact ⟨s', hs, rfl, rfl⟩

theorem Reaches.record {s s' : σ} {b : β} {a : α} (h : (M.record h₀ f).Reaches (s, b)) (hs : M.step s a = some s') :
    (M.record h₀ f).Reaches (s', f s a s' b) :=
  h.step (record_step.2 ⟨hs, rfl⟩)

/-- Every run can be recorded. -/
theorem Reaches.exists_record {s : σ} (h : M.Reaches s) : ∃ b, (M.record h₀ f).Reaches (s, b) := by
  induction h with
  | init h => exact ⟨h₀ _, .init ⟨h, rfl⟩⟩
  | step _ _ hs ih =>
    obtain ⟨b, hb⟩ := ih
    exact ⟨_, hb.record hs⟩

end Record

/-! ## Restriction -/

/-- The steps of `M` that stay in `P`. -/
def within (M : Lts σ α) (P : σ → Prop) [DecidablePred P] : Lts σ α where
  init := M.init
  step s a := (M.step s a).filter fun s' => P s'

theorem within_step {P : σ → Prop} [DecidablePred P] {s s' : σ} {a : α} :
    (M.within P).step s a = some s' ↔ M.step s a = some s' ∧ P s' := by
  simp [within, Option.filter_eq_some_iff]

/-! ## Runs -/

variable (M)

/-- The state after a sequence of actions. -/
def run : σ → List α → Option σ
  | s, [] => some s
  | s, a :: as => (M.step s a).bind fun s' => run s' as

/-- `P` holds in every state of the run of `as` from `s`, the first and the last included. -/
def AllStates (P : σ → Prop) : σ → List α → Prop
  | s, [] => P s
  | s, a :: as => P s ∧ ∀ s' ∈ M.step s a, AllStates P s' as

/-- Every step of the run of `as` from `s` meets `ok`. -/
def AllSteps (ok : σ → α → Prop) : σ → List α → Prop
  | _, [] => True
  | s, a :: as => ok s a ∧ ∀ s' ∈ M.step s a, AllSteps ok s' as

instance decidableAllStates (P : σ → Prop) [DecidablePred P] : ∀ s as, Decidable (M.AllStates P s as)
  | _, [] => inferInstanceAs (Decidable (P _))
  | s, a :: as =>
    have := fun s' => decidableAllStates P s' as
    inferInstanceAs (Decidable (P s ∧ ∀ s' ∈ M.step s a, M.AllStates P s' as))

instance decidableAllSteps (ok : σ → α → Prop) [∀ s a, Decidable (ok s a)] :
    ∀ s as, Decidable (M.AllSteps ok s as)
  | _, [] => inferInstanceAs (Decidable True)
  | s, a :: as =>
    have := fun s' => decidableAllSteps ok s' as
    inferInstanceAs (Decidable (ok s a ∧ ∀ s' ∈ M.step s a, M.AllSteps ok s' as))

variable {M}

theorem run_cons {s s' : σ} {a : α} {as : List α} (h : M.run s (a :: as) = some s') :
    ∃ t, M.step s a = some t ∧ M.run t as = some s' := Option.bind_eq_some_iff.mp h

/-- A run reaches its last state. -/
theorem reaches_of_run {s s' : σ} (h : M.Reaches s) {as : List α} (hr : M.run s as = some s') : M.Reaches s' := by
  induction as generalizing s with
  | nil => cases hr; exact h
  | cons a as ih =>
    obtain ⟨t, ht, hr⟩ := run_cons hr
    exact ih (h.step ht) hr

/-- What the steps that meet `ok` keep holds after a run of such steps. -/
theorem run_invariant {I : σ → Prop} (hstep : ∀ s a s', I s → ok s a → M.step s a = some s' → I s') {s s' : σ}
    (hI : I s) {as : List α} (hok : M.AllSteps ok s as) (hr : M.run s as = some s') : I s' := by
  induction as generalizing s with
  | nil => cases hr; exact hI
  | cons a as ih =>
    obtain ⟨t, ht, hr⟩ := run_cons hr
    exact ih (hstep s a t hI hok.1 ht) (hok.2 t ht) hr

/-- What every step keeps holds after a run. -/
theorem run_keeps {I : σ → Prop} (hstep : ∀ s a s', I s → M.step s a = some s' → I s') {s s' : σ} (hI : I s)
    {as : List α} (hr : M.run s as = some s') : I s' := by
  induction as generalizing s with
  | nil => cases hr; exact hI
  | cons a as ih =>
    obtain ⟨t, ht, hr⟩ := run_cons hr
    exact ih (hstep s a t hI ht) hr

/-- Where each step of `M` is matched by a step of `N`, so is each run. -/
theorem run_simulates {τ : Type w} {N : Lts τ α} {R : σ → τ → Prop}
    (hstep : ∀ s t a s', R s t → M.step s a = some s' → ∃ t', N.step t a = some t' ∧ R s' t') {s s' : σ} {t : τ}
    (hR : R s t) {as : List α} (hr : M.run s as = some s') : ∃ t', N.run t as = some t' ∧ R s' t' := by
  induction as generalizing s t with
  | nil =>
    cases hr
    exact ⟨t, rfl, hR⟩
  | cons a as ih =>
    obtain ⟨s₁, hs₁, hr⟩ := run_cons hr
    obtain ⟨t₁, ht₁, hR₁⟩ := hstep s t a s₁ hR hs₁
    obtain ⟨t', ht', hR'⟩ := ih hR₁ hr
    exact ⟨t', by rw [run, ht₁]; exact ht', hR'⟩

theorem AllSteps.and {s : σ} {as : List α} (h : M.AllSteps ok s as) (h' : M.AllSteps ok' s as) :
    M.AllSteps (fun s a => ok s a ∧ ok' s a) s as := by
  induction as generalizing s with
  | nil => trivial
  | cons a as ih => exact ⟨⟨h.1, h'.1⟩, fun t ht => ih (h.2 t ht) (h'.2 t ht)⟩

/-- What an inductive invariant gives for the steps that meet `ok` holds of all steps of a run of such steps. -/
theorem allSteps_of_allSteps {I : σ → Prop} (hstep : ∀ s a s', I s → ok s a → M.step s a = some s' → I s')
    (himp : ∀ s a, I s → ok s a → ok' s a) {s : σ} (hI : I s) {as : List α} (hok : M.AllSteps ok s as) :
    M.AllSteps ok' s as := by
  induction as generalizing s with
  | nil => trivial
  | cons a as ih => exact ⟨himp s a hI hok.1, fun t ht => ih (hstep s a t hI hok.1 ht) (hok.2 t ht)⟩

/-- And it holds of all states of such a run. -/
theorem allStates_of_allSteps {I P : σ → Prop} (hstep : ∀ s a s', I s → ok s a → M.step s a = some s' → I s')
    (hP : ∀ s, I s → P s) {s : σ} (hI : I s) {as : List α} (hok : M.AllSteps ok s as) : M.AllStates P s as := by
  induction as generalizing s with
  | nil => exact hP s hI
  | cons a as ih => exact ⟨hP s hI, fun t ht => ih (hstep s a t hI hok.1 ht) (hok.2 t ht)⟩

theorem allSteps_of_forall_mem {as : List α} (h : ∀ a ∈ as, ∀ s, ok s a) (s : σ) : M.AllSteps ok s as := by
  induction as generalizing s with
  | nil => trivial
  | cons a as ih => exact ⟨h a List.mem_cons_self s, fun t _ => ih (fun b hb => h b (List.mem_cons_of_mem a hb)) t⟩

/-- The steps of the first part of a run, and the one after it. -/
theorem AllSteps.append {s s' : σ} {as bs : List α} {a : α} (h : M.AllSteps ok s (as ++ a :: bs))
    (hr : M.run s as = some s') : M.AllSteps ok s as ∧ ok s' a := by
  induction as generalizing s with
  | nil =>
    cases hr
    exact ⟨trivial, h.1⟩
  | cons b as ih =>
    obtain ⟨t, ht, hr⟩ := run_cons hr
    obtain ⟨hall, hok⟩ := ih (h.2 t ht) hr
    refine ⟨⟨h.1, fun t' ht' => ?_⟩, hok⟩
    cases ht.symm.trans ht'
    exact hall

/-- What does not hold at the start of a run and holds at its end has been made true by a step. -/
theorem exists_change {P : σ → Prop} {s s' : σ} (hP : ¬P s) (hP' : P s') {as : List α} (hr : M.run s as = some s') :
    ∃ as₁ a as₂ s₁ s₂, as = as₁ ++ a :: as₂ ∧ M.run s as₁ = some s₁ ∧ ¬P s₁ ∧ M.step s₁ a = some s₂ ∧ P s₂ := by
  induction as generalizing s with
  | nil =>
    cases hr
    exact absurd hP' hP
  | cons a as ih =>
    obtain ⟨t, ht, hr⟩ := run_cons hr
    by_cases hPt : P t
    · exact ⟨[], a, as, s, t, rfl, rfl, hP, ht, hPt⟩
    · obtain ⟨as₁, b, as₂, s₁, s₂, rfl, hr₁, hP₁, hs₂, hP₂⟩ := ih hPt hr
      exact ⟨a :: as₁, b, as₂, s₁, s₂, rfl, by rw [run, ht]; exact hr₁, hP₁, hs₂, hP₂⟩

theorem AllStates.head {P : σ → Prop} {s : σ} {as : List α} (h : M.AllStates P s as) : P s := by
  cases as with
  | nil => exact h
  | cons => exact h.1

/-- A property that an inductive invariant supports holds all along a run exactly when every step meets `ok`; `I n` is
the invariant with `n` steps to go. -/
theorem allStates_iff_allSteps_countdown {I : Nat → σ → Prop} {P : σ → Prop} (hP : ∀ n s, I n s → P s)
    (hgood : ∀ n s a s', I (n + 1) s → ok s a → M.step s a = some s' → I n s')
    (hbad : ∀ n s a s', I (n + 1) s → ¬ok s a → M.step s a = some s' → ¬P s')
    {s s' : σ} {as : List α} (hI : I as.length s) (hr : M.run s as = some s') :
    M.AllStates P s as ↔ M.AllSteps ok s as := by
  induction as generalizing s with
  | nil => exact ⟨fun _ => trivial, fun _ => hP _ s hI⟩
  | cons a as ih =>
    obtain ⟨t, ht, hr⟩ := run_cons hr
    constructor
    · rintro ⟨_, hall⟩
      have hok : ok s a := by
        by_contra hn
        exact hbad _ s a t hI hn ht (hall t ht).head
      refine ⟨hok, fun t' ht' => ?_⟩
      cases ht.symm.trans ht'
      exact (ih (hgood _ s a t hI hok ht) hr).1 (hall t ht)
    · rintro ⟨hok, hall⟩
      refine ⟨hP _ s hI, fun t' ht' => ?_⟩
      cases ht.symm.trans ht'
      exact (ih (hgood _ s a t hI hok ht) hr).2 (hall t ht)

/-- The same with an invariant that does not depend on the steps to go. -/
theorem allStates_iff_allSteps {I P : σ → Prop} (hP : ∀ s, I s → P s)
    (hgood : ∀ s a s', I s → ok s a → M.step s a = some s' → I s')
    (hbad : ∀ s a s', I s → ¬ok s a → M.step s a = some s' → ¬P s')
    {s s' : σ} (hI : I s) {as : List α} (hr : M.run s as = some s') :
    M.AllStates P s as ↔ M.AllSteps ok s as :=
  allStates_iff_allSteps_countdown (I := fun _ => I) (fun _ => hP) (fun _ => hgood) (fun _ => hbad) hI hr

end Lts
