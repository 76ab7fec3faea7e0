import Mathlib.Data.List.Nodup
import Mathlib.Logic.Function.Basic

/-!
# Linked chains

A link field `next : α → Option α` threads nodes together. `Chain next start l` says that the nodes from `start` on
are those of `l`; `Ends next root a` that the links from `a` lead to a root.

- `Chain.push`, `Chain.pop`: a chain used as a stack;
- `Ends.redirect`: links may be turned to nodes that lead to a root.
-/

universe u

variable {α : Type u} {next next' : α → Option α} {start : Option α} {a b : α} {l : List α}

/-! ## Chains -/

inductive Chain (next : α → Option α) : Option α → List α → Prop
  | nil : Chain next none []
  | cons {a : α} {l : List α} : Chain next (next a) l → Chain next (some a) (a :: l)

namespace Chain

/-- A chain depends on the links of its nodes only. -/
theorem congr (h : Chain next start l) (hn : ∀ a ∈ l, next' a = next a) : Chain next' start l := by
  induction h with
  | nil => exact .nil
  | @cons a l _ ih =>
    refine .cons ?_
    rw [hn a List.mem_cons_self]
    exact ih fun b hb => hn b (List.mem_cons_of_mem a hb)

variable [DecidableEq α]

/-- A new node in front of the chain. -/
theorem push (h : Chain next start l) (ha : a ∉ l) : Chain (Function.update next a start) (some a) (a :: l) := by
  refine .cons ?_
  rw [Function.update_self]
  exact h.congr fun b hb => Function.update_of_ne (by rintro rfl; exact ha hb) _ _

/-- The first node leaves the chain, and its link may change. -/
theorem pop (h : Chain next (some a) l) (hn : l.Nodup) (x : Option α) :
    ∃ rest, l = a :: rest ∧ Chain (Function.update next a x) (next a) rest := by
  cases h with
  | @cons _ rest h =>
    refine ⟨rest, rfl, h.congr fun b hb => Function.update_of_ne ?_ _ _⟩
    rintro rfl
    exact (List.nodup_cons.1 hn).1 hb

end Chain

/-! ## Following links to a root -/

inductive Ends (next : α → Option α) (root : α → Prop) : α → Prop
  | root {a : α} : root a → Ends next root a
  | step {a b : α} : next a = some b → Ends next root b → Ends next root a

namespace Ends

variable {root root' : α → Prop}

/-- On a set that is closed under the links, they may change as long as each one still leads to a root. -/
theorem redirect {S : α → Prop} (h : Ends next root a) (ha : S a) (hS : ∀ a b, S a → next a = some b → S b)
    (hroot : ∀ a, S a → root a → Ends next' root' a)
    (hstep : ∀ a b, S a → next a = some b → Ends next' root' b → Ends next' root' a) : Ends next' root' a := by
  induction h with
  | root h => exact hroot _ ha h
  | step hn _ ih => exact hstep _ _ ha hn (ih (hS _ _ ha hn))

/-- Nothing that leads to a root links to itself. -/
theorem ne_self (h : Ends next root a) (hroot : ∀ a, root a → next a = none) : next a ≠ some a := by
  induction h with
  | root h => simp [hroot _ h]
  | @step a b hn _ ih =>
    intro he
    obtain rfl : b = a := Option.some.inj (hn.symm.trans he)
    exact ih he

end Ends
