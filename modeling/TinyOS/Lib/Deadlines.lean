import Mathlib.Data.List.Basic
import Mathlib.Order.Lattice

/-!
# Lists in order of deadlines

A list of entries, each with a key, in order of the keys, where equal keys stand in order of a stamp. A new entry goes
before the first one with a greater key; it has the greatest stamp.

- `Ordered.add`: the insertion keeps the order;
- `Ordered.expired_of_lt`: up to a bound that is below the first key there is nothing.
-/

universe u v

namespace Deadlines

variable {α : Type u} {β : Type v} [LinearOrder β] {key key' : α → β} {stamp stamp' : α → Nat} {l l' : List α} {x : α}

/-- Insert `x` before the first entry with a greater key. -/
def add (key : α → β) (x : α) : List α → List α
  | [] => [x]
  | y :: l => if key x < key y then x :: y :: l else y :: add key x l

/-- In order of the keys, and of the stamps where the keys are equal. -/
def Ordered (key : α → β) (stamp : α → Nat) (l : List α) : Prop :=
  l.Pairwise fun x y => key x < key y ∨ key x = key y ∧ stamp x < stamp y

theorem Ordered.sublist (h : Ordered key stamp l) (hl : l'.Sublist l) : Ordered key stamp l' := List.Pairwise.sublist hl h

theorem Ordered.congr (h : Ordered key stamp l) (hkey : ∀ x ∈ l, key' x = key x) (hstamp : ∀ x ∈ l, stamp' x = stamp x) :
    Ordered key' stamp' l := by
  refine List.Pairwise.imp_of_mem (fun {x y} hx hy hxy => ?_) h
  rw [hkey x hx, hkey y hy, hstamp x hx, hstamp y hy]
  exact hxy

/-- The first key is the least. -/
theorem Ordered.head_le (h : Ordered key stamp (x :: l)) : ∀ y ∈ l, key x ≤ key y := fun y hy => by
  rcases List.rel_of_pairwise_cons h hy with hlt | ⟨he, -⟩
  · exact hlt.le
  · exact he.le

theorem mem_add {y : α} : y ∈ add key x l ↔ y = x ∨ y ∈ l := by
  induction l with
  | nil => simp [add]
  | cons z l ih =>
    unfold add
    split
    · exact List.mem_cons
    · rw [List.mem_cons, ih, List.mem_cons]
      tauto

theorem Ordered.add (h : Ordered key stamp l) (hnew : ∀ y ∈ l, stamp y < stamp x) :
    Ordered key stamp (Deadlines.add key x l) := by
  induction l with
  | nil => exact List.pairwise_singleton _ _
  | cons y l ih =>
    unfold Deadlines.add
    split
    · rename_i hlt
      refine List.pairwise_cons.2 ⟨fun z hz => .inl ?_, h⟩
      rcases List.mem_cons.1 hz with rfl | hz
      · exact hlt
      · exact hlt.trans_le (h.head_le z hz)
    · rename_i hge
      obtain ⟨hy, hl⟩ := List.pairwise_cons.1 h
      refine List.pairwise_cons.2 ⟨fun z hz => ?_, ih hl fun z hz => hnew z (List.mem_cons_of_mem y hz)⟩
      rcases mem_add.1 hz with rfl | hz
      · rcases (not_lt.1 hge).lt_or_eq with hlt | he
        · exact .inl hlt
        · exact .inr ⟨he, hnew y List.mem_cons_self⟩
      · exact hy z hz

/-- Nothing has expired at `c`. -/
theorem Ordered.expired_of_lt (h : Ordered key stamp (x :: l)) {c : β} (hc : c < key x) :
    (x :: l).filter (fun y => key y ≤ c) = [] := by
  refine List.filter_eq_nil_iff.2 fun y hy => ?_
  rw [decide_eq_true_eq, not_le]
  rcases List.mem_cons.1 hy with rfl | hy
  · exact hc
  · exact hc.trans_le (h.head_le y hy)

end Deadlines
