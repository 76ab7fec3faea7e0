import Mathlib.Logic.Relation

/-!
# Programs among others

A program makes calls on a state that it shares. A call is one step; between the calls, and after the last one, the others
change the state as they like, within bounds that may depend on the calls made so far. `Runs ok` are the runs all of whose
calls meet `ok`.

- `Triple`: what holds of the history and the state before a program, and what then holds after every run of it; with a
  rule for each construct, where the precondition must be one that the others keep;
- `Feasible`: from where a program can run to its end.
-/

universe u v w x

namespace Interference

variable {σ : Type u} {C : Type v} {R : C → Type w} {α : Type x}

/-- A call, with its result and the states around it. -/
structure Event (σ : Type u) (C : Type v) (R : C → Type w) where
  before : σ
  call : C
  ret : R call
  after : σ

inductive Prog (C : Type v) (R : C → Type w) (α : Type x)
  | ret (a : α)
  /-- An assertion fails. -/
  | abort
  | call (c : C) (k : R c → Prog C R α)

structure World (σ : Type u) (C : Type v) (R : C → Type w) where
  does : σ → (c : C) → R c → σ → Prop
  /-- A step of the others, after these calls. -/
  others : List (Event σ C R) → σ → σ → Prop

namespace World

variable (W : World σ C R) (ok : σ → C → Prop)

/-- From a history and a state to the history and the state at the end; the result is `none` if an assertion fails. -/
inductive Runs : List (Event σ C R) → Prog C R α → σ → List (Event σ C R) → Option α → σ → Prop
  | ret {h a s s'} : Relation.ReflTransGen (W.others h) s s' → Runs h (.ret a) s h (some a) s'
  | abort {h s} : Runs h .abort s h none s
  | call {h c k s t r u h' a s'} : Relation.ReflTransGen (W.others h) s t → ok t c → W.does t c r u →
      Runs (h ++ [⟨t, c, r, u⟩]) (k r) u h' a s' → Runs h (.call c k) s h' a s'

/-- The others keep `P`. -/
def Stable (P : List (Event σ C R) → σ → Prop) : Prop := ∀ h s s', P h s → W.others h s s' → P h s'

/-- What holds after every run of `p` that begins with `P`. -/
def Triple (P : List (Event σ C R) → σ → Prop) (p : Prog C R α) (Q : List (Event σ C R) → Option α → σ → Prop) : Prop :=
  ∀ h s h' a s', P h s → W.Runs ok h p s h' a s' → Q h' a s'

variable {W ok} {P P' : List (Event σ C R) → σ → Prop} {Q : List (Event σ C R) → Option α → σ → Prop} {p : Prog C R α}

theorem Stable.star (hP : W.Stable P) {h : List (Event σ C R)} {s s' : σ} (hs : P h s)
    (hr : Relation.ReflTransGen (W.others h) s s') : P h s' := by
  induction hr with
  | refl => exact hs
  | tail _ ht ih => exact hP _ _ _ ih ht

theorem Triple.pre (hp : W.Triple ok P p Q) (himp : ∀ h s, P' h s → P h s) : W.Triple ok P' p Q :=
  fun h s h' a s' hs hr => hp h s h' a s' (himp h s hs) hr

theorem Triple.ret {a : α} (hP : W.Stable P) (hQ : ∀ h s, P h s → Q h (some a) s) : W.Triple ok P (.ret a) Q := by
  intro h s h' b s' hs hr
  cases hr with
  | ret ht => exact hQ h s' (hP.star hs ht)

/-- The rule for calls: what the call makes of `P` is the precondition of the rest. -/
theorem Triple.call {c : C} {k : R c → Prog C R α} (hP : W.Stable P) (P' : R c → List (Event σ C R) → σ → Prop)
    (hcall : ∀ h t r u, P h t → ok t c → W.does t c r u → P' r (h ++ [⟨t, c, r, u⟩]) u)
    (hk : ∀ r, W.Triple ok (P' r) (k r) Q) : W.Triple ok P (.call c k) Q := by
  intro h s h' a s' hs hr
  cases hr with
  | call ht hok hd hrest => exact hk _ _ _ _ _ _ (hcall h _ _ _ (hP.star hs ht) hok hd) hrest

/-- From every state that satisfies `P` there is a run of `p` to its end. -/
def Feasible (W : World σ C R) (ok : σ → C → Prop) (P : List (Event σ C R) → σ → Prop) (p : Prog C R α) : Prop :=
  ∀ h s, P h s → ∃ h' a s', W.Runs ok h p s h' a s'

theorem Feasible.ret {a : α} : W.Feasible ok P (.ret a) := fun h s _ => ⟨h, some a, s, .ret .refl⟩

theorem Feasible.call {c : C} {k : R c → Prog C R α} (P' : R c → List (Event σ C R) → σ → Prop)
    (hcall : ∀ h t, P h t → ok t c ∧ ∃ r u, W.does t c r u ∧ P' r (h ++ [⟨t, c, r, u⟩]) u)
    (hk : ∀ r, W.Feasible ok (P' r) (k r)) : W.Feasible ok P (.call c k) := by
  intro h s hs
  obtain ⟨hok, r, u, hd, hu⟩ := hcall h s hs
  obtain ⟨h', a, s', hr⟩ := hk r _ u hu
  exact ⟨h', a, s', .call .refl hok hd hr⟩

end World

end Interference
