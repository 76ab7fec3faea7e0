import Mathlib.Logic.Function.Basic
import Mathlib.Tactic.Common

/-!
# Heaps

Blocks are numbered in the order of their allocation, and the number of a freed block is not used again; so a pointer to
a freed block is told from a pointer to a newer one.

- `get_alloc`, `get_modify`, `get_free`: what is at an address after each operation;
- `Alike`, `Keeps`: changes of blocks that a function of their contents does not show.
-/

universe u

/-- The blocks of one type. -/
structure Heap (α : Type u) where
  get : Nat → Option α
  next : Nat
  fresh : ∀ a, next ≤ a → get a = none

namespace Heap

variable {α : Type u} {h : Heap α} {a b : Nat} {x y : α} {f : α → α}

def empty : Heap α := ⟨fun _ => none, 0, fun _ _ => rfl⟩

/-- A new block, at `h.next`. -/
def alloc (h : Heap α) (x : α) : Heap α where
  get := Function.update h.get h.next (some x)
  next := h.next + 1
  fresh a ha := by
    rw [Function.update_of_ne (by omega)]
    exact h.fresh a (by omega)

def modify (h : Heap α) (a : Nat) (f : α → α) : Heap α where
  get := Function.update h.get a ((h.get a).map f)
  next := h.next
  fresh b hb := by
    by_cases hba : b = a
    · subst hba
      rw [Function.update_self, h.fresh b hb]
      rfl
    · rw [Function.update_of_ne hba]
      exact h.fresh b hb

def free (h : Heap α) (a : Nat) : Heap α where
  get := Function.update h.get a none
  next := h.next
  fresh b hb := by
    by_cases hba : b = a
    · subst hba
      rw [Function.update_self]
    · rw [Function.update_of_ne hba]
      exact h.fresh b hb

@[simp] theorem get_empty (a : Nat) : (empty : Heap α).get a = none := rfl

theorem lt_next (hx : h.get a = some x) : a < h.next := by
  by_contra hn
  rw [h.fresh a (by omega)] at hx
  cases hx

@[simp] theorem get_next : h.get h.next = none := h.fresh h.next (Nat.le_refl _)

theorem get_alloc : (h.alloc x).get a = if a = h.next then some x else h.get a := Function.update_apply _ _ _ _

theorem get_modify : (h.modify b f).get a = if a = b then (h.get a).map f else h.get a := by
  refine (Function.update_apply _ _ _ _).trans ?_
  split
  · rename_i hab
    rw [hab]
  · rfl

theorem get_free : (h.free b).get a = if a = b then none else h.get a := Function.update_apply _ _ _ _

@[simp] theorem get_alloc_self : (h.alloc x).get h.next = some x := Function.update_self _ _ _

@[simp] theorem get_modify_self : (h.modify a f).get a = (h.get a).map f := Function.update_self _ _ _

@[simp] theorem get_free_self : (h.free a).get a = none := Function.update_self _ _ _

@[simp] theorem get_modify_of_ne (hab : a ≠ b) : (h.modify b f).get a = h.get a := Function.update_of_ne hab _ _

@[simp] theorem get_free_of_ne (hab : a ≠ b) : (h.free b).get a = h.get a := Function.update_of_ne hab _ _

/-- A new block does not touch those that are there. -/
theorem get_alloc_of_some (hy : h.get a = some y) : (h.alloc x).get a = some y := by
  rw [get_alloc, if_neg, hy]
  have := lt_next hy
  omega

theorem get_alloc_eq_some : (h.alloc x).get a = some y ↔ (a = h.next ∧ y = x) ∨ h.get a = some y := by
  rw [get_alloc]
  split
  · rename_i ha
    subst ha
    simp [eq_comm]
  · rename_i ha
    simp [ha]

theorem get_modify_eq_some :
    (h.modify b f).get a = some y ↔ ∃ x, h.get a = some x ∧ y = if a = b then f x else x := by
  rw [get_modify]
  split <;> cases h.get a <;> simp [eq_comm]

theorem get_free_eq_some : (h.free b).get a = some y ↔ a ≠ b ∧ h.get a = some y := by
  rw [get_free]
  split <;> simp_all

/-! ## Changes that do not show -/

universe v

variable {β : Type v} {g : α → β} {k k' : Heap α}

/-- The blocks of `h` and `k` are the same as far as `g` shows. -/
structure Alike (g : α → β) (h k : Heap α) : Prop where
  next : k.next = h.next
  same : ∀ a, (k.get a).map g = (h.get a).map g

theorem Alike.refl (g : α → β) (h : Heap α) : h.Alike g h := ⟨rfl, fun _ => rfl⟩

theorem Alike.trans (hk : Alike g h k) (hk' : Alike g k k') : Alike g h k' :=
  ⟨hk'.next.trans hk.next, fun a => (hk'.same a).trans (hk.same a)⟩

theorem Alike.modify (hk : Alike g h k) (a : Nat) (hf : ∀ x, k.get a = some x → g (f x) = g x) :
    Alike g h (k.modify a f) := by
  refine hk.trans ⟨rfl, fun b => ?_⟩
  rw [get_modify]
  split
  · rename_i hba
    subst hba
    cases hx : k.get b with
    | none => rfl
    | some x => exact congrArg some (hf x hx)
  · rfl

theorem Alike.get (hk : Alike g h k) (hx : h.get a = some x) : ∃ y, k.get a = some y ∧ g y = g x := by
  have := hk.same a
  rw [hx] at this
  exact Option.map_eq_some_iff.1 this

/-- From `h` to `k` blocks are freed and changed, and `g` of those that are left is what it was. -/
structure Keeps (g : α → β) (h k : Heap α) : Prop where
  next : k.next = h.next
  kept : ∀ a y, k.get a = some y → ∃ x, h.get a = some x ∧ g y = g x

theorem Alike.keeps (hk : Alike g h k) : Keeps g h k := by
  refine ⟨hk.next, fun a y hy => ?_⟩
  have := hk.same a
  rw [hy] at this
  obtain ⟨x, hx, hxy⟩ := Option.map_eq_some_iff.1 this.symm
  exact ⟨x, hx, hxy.symm⟩

theorem Keeps.refl (g : α → β) (h : Heap α) : h.Keeps g h := (Alike.refl g h).keeps

theorem Keeps.trans (hk : Keeps g h k) (hk' : Keeps g k k') : Keeps g h k' := by
  refine ⟨hk'.next.trans hk.next, fun a z hz => ?_⟩
  obtain ⟨y, hy, hzy⟩ := hk'.kept a z hz
  obtain ⟨x, hx, hyx⟩ := hk.kept a y hy
  exact ⟨x, hx, hzy.trans hyx⟩

theorem Keeps.free (hk : Keeps g h k) (a : Nat) : Keeps g h (k.free a) :=
  hk.trans ⟨rfl, fun _ y hy => ⟨y, (get_free_eq_some.1 hy).2, rfl⟩⟩

end Heap
