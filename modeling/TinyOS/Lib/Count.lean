import Mathlib.Data.Fintype.Card
import Mathlib.Data.List.Count
import Mathlib.Tactic.Common

/-!
# Counting

How the number of elements of a list that satisfy a predicate changes when one of them is replaced
(`List.countP_modify_add`), and the number of arguments of a function when one value is (`countArgs_update`).
-/

universe u

variable {α : Type u} {p : α → Bool} {l : List α} {a : α} {i : Nat}

namespace List

/-- The element that is replaced leaves the count, and its replacement joins it. -/
theorem countP_modify_add (f : α → α) (h : l[i]? = some a) :
    (l.modify i f).countP p + (if p a then 1 else 0) = l.countP p + (if p (f a) then 1 else 0) := by
  induction l generalizing i with
  | nil => simp at h
  | cons b l ih =>
    cases i with
    | zero =>
      obtain rfl : b = a := by simpa using h
      simp only [modify_zero_cons, countP_cons]
      omega
    | succ i =>
      have := ih (i := i) (by simpa using h)
      simp only [modify_succ_cons, countP_cons]
      omega

/-- A replacement that agrees with the element does not change the count. -/
theorem countP_modify_of_eq (f : α → α) (h : l[i]? = some a) (hp : p (f a) = p a) :
    (l.modify i f).countP p = l.countP p := by
  have := countP_modify_add (p := p) f h
  rw [hp] at this
  omega

/-- The element that is taken out leaves the count. -/
theorem countP_eraseIdx_add (h : l[i]? = some a) : (l.eraseIdx i).countP p + (if p a then 1 else 0) = l.countP p := by
  induction l generalizing i with
  | nil => simp at h
  | cons b l ih =>
    cases i with
    | zero =>
      obtain rfl : b = a := by simpa using h
      simp only [eraseIdx_zero, tail_cons, countP_cons]
    | succ i =>
      have := ih (i := i) (by simpa using h)
      simp only [eraseIdx_cons_succ, countP_cons]
      omega

/-- A count by indices. -/
theorem countP_range_getElem? (p : α → Bool) (l : List α) :
    (range l.length).countP (fun i => (l[i]?).any p) = l.countP p := by
  induction l with
  | nil => rfl
  | cons a l ih =>
    rw [length_cons, range_succ_eq_map, countP_cons, countP_map, countP_cons]
    congr 1

/-- A count that splits element by element. -/
theorem countP_eq_add {q r : α → Bool} (h : ∀ a, (p a).toNat = (q a).toNat + (r a).toNat) (l : List α) :
    l.countP p = l.countP q + l.countP r := by
  induction l with
  | nil => rfl
  | cons a l ih =>
    have := h a
    simp only [countP_cons, ih]
    cases hp : p a <;> cases hq : q a <;> cases hr : r a <;> simp_all <;> omega

end List

/-! ## Counting the arguments of a function -/

universe v

variable {ι : Type u} {β : Type v} [Fintype ι]

/-- How many arguments `f` sends to a value that satisfies `p`. -/
def countArgs (f : ι → β) (p : β → Bool) : Nat := (Finset.univ.filter fun i => p (f i)).card

theorem countArgs_pos {f : ι → β} {p : β → Bool} : 0 < countArgs f p ↔ ∃ i, p (f i) := by
  simp [countArgs, Finset.card_pos, Finset.Nonempty]

theorem countArgs_eq_zero {f : ι → β} {p : β → Bool} : countArgs f p = 0 ↔ ∀ i, ¬p (f i) := by
  simp [countArgs, Finset.filter_eq_empty_iff]

theorem countArgs_eq_card {f : ι → β} {p : β → Bool} : countArgs f p = Fintype.card ι ↔ ∀ i, p (f i) := by
  rw [countArgs, Finset.card_eq_iff_eq_univ, Finset.filter_eq_self]
  simp

theorem countArgs_lt_card {f : ι → β} {p : β → Bool} {i : ι} (h : ¬p (f i)) : countArgs f p < Fintype.card ι :=
  lt_of_le_of_ne (Finset.card_le_univ _) fun he => h (countArgs_eq_card.1 he i)

/-- The old value leaves the count, and the new one joins it. -/
theorem countArgs_update [DecidableEq ι] (f : ι → β) (p : β → Bool) (i : ι) (b : β) :
    countArgs (Function.update f i b) p + (if p (f i) then 1 else 0) = countArgs f p + (if p b then 1 else 0) := by
  have hsplit : ∀ g : ι → β, countArgs g p =
      (if p (g i) then 1 else 0) + ((Finset.univ.erase i).filter fun j => p (g j)).card := by
    intro g
    unfold countArgs
    conv_lhs => rw [← Finset.insert_erase (Finset.mem_univ i), Finset.filter_insert]
    split
    · rw [Finset.card_insert_of_notMem (by simp), Nat.add_comm]
    · rw [Nat.zero_add]
  have hrest : ((Finset.univ.erase i).filter fun j => p (Function.update f i b j)) =
      (Finset.univ.erase i).filter fun j => p (f j) :=
    Finset.filter_congr fun j hj => by rw [Function.update_of_ne (Finset.ne_of_mem_erase hj)]
  rw [hsplit, hsplit f, hrest, Function.update_self]
  omega
