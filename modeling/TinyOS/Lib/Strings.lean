import Mathlib.Algebra.Group.Int.Defs
import Mathlib.Data.List.TakeWhile
import Mathlib.Tactic.Common

/-!
# Functions of the C library on strings

A pointer into a string is the rest of the string from there on.

- `strtok`, and `tokens`: what its successive calls give, which are the nonempty pieces between the delimiters
  (`tokens_eq`);
- `strtol`: decimal, for a `long` of 64 bits.
-/

namespace Strings

open scoped List

variable {delim : UInt8} {s t : List UInt8}

/-! ## Tokens -/

/-- A token, and where the next call goes on; `none` for `NULL`. -/
def strtok (delim : UInt8) (s : List UInt8) : Option (List UInt8 × List UInt8) :=
  match s.dropWhile (· = delim) with
  | [] => none
  | c :: t => some (c :: t.takeWhile (· ≠ delim), (t.dropWhile (· ≠ delim)).tail)

/-- The tokens of at most so many calls. -/
def strtokCalls (delim : UInt8) : Nat → List UInt8 → List (List UInt8)
  | 0, _ => []
  | n + 1, s =>
    match strtok delim s with
    | none => []
    | some (token, rest) => token :: strtokCalls delim n rest

/-- Every token takes a character, so there are no more calls than that. -/
def tokens (delim : UInt8) (s : List UInt8) : List (List UInt8) := strtokCalls delim s.length s

/-- The nonempty pieces of a string between the delimiters. -/
def pieces (delim : UInt8) (s : List UInt8) : List (List UInt8) := (s.splitOn delim).filter (· ≠ [])

theorem head_of_dropWhile {p : UInt8 → Bool} {c : UInt8} (h : s.dropWhile p = c :: t) : p c = false := by
  have hhead := List.head?_dropWhile_not p s
  rwa [h] at hhead

/-- A delimiter at the beginning starts no piece. -/
theorem pieces_delim (delim : UInt8) (s : List UInt8) : pieces delim (delim :: s) = pieces delim s := by
  have hsplit : (delim :: s).splitOn delim = [] :: s.splitOn delim :=
    List.splitOn_append_cons_self_of_not_mem List.not_mem_nil s
  simp [pieces, hsplit]

theorem pieces_dropWhile (delim : UInt8) (s : List UInt8) :
    pieces delim (s.dropWhile (· = delim)) = pieces delim s := by
  induction s with
  | nil => rfl
  | cons c s ih =>
    by_cases hc : c = delim
    · subst hc
      rw [List.dropWhile_cons_of_pos (by simp), ih, pieces_delim]
    · rw [List.dropWhile_cons_of_neg (by simpa using hc)]

theorem pieces_cons {c : UInt8} (hc : c ≠ delim) (t : List UInt8) :
    pieces delim (c :: t) = (c :: t.takeWhile (· ≠ delim)) :: pieces delim (t.dropWhile (· ≠ delim)).tail := by
  have hpiece : delim ∉ c :: t.takeWhile (· ≠ delim) := by
    intro hm
    rcases List.mem_cons.1 hm with he | hm
    · exact hc he.symm
    · simpa using List.mem_takeWhile_imp hm
  have hsplit : c :: t = c :: t.takeWhile (· ≠ delim) ++ t.dropWhile (· ≠ delim) := by
    rw [List.cons_append, List.takeWhile_append_dropWhile]
  unfold pieces
  rw [hsplit]
  cases hd : t.dropWhile (· ≠ delim) with
  | nil =>
    rw [List.append_nil, List.splitOn_eq_singleton hpiece]
    rfl
  | cons d rest =>
    obtain rfl : d = delim := by simpa using head_of_dropWhile hd
    rw [List.splitOn_append_cons_self_of_not_mem hpiece]
    simp

theorem strtokCalls_eq {n : Nat} (hn : s.length ≤ n) : strtokCalls delim n s = pieces delim s := by
  induction n generalizing s with
  | zero =>
    obtain rfl := List.length_eq_zero_iff.1 (Nat.le_zero.1 hn)
    rfl
  | succ n ih =>
    rw [← pieces_dropWhile, strtokCalls, strtok]
    have hlen := (List.dropWhile_sublist (· = delim) : s.dropWhile (· = delim) <+ s).length_le
    cases hd : s.dropWhile (· = delim) with
    | nil => rfl
    | cons c t =>
      have hc : c ≠ delim := by simpa using head_of_dropWhile hd
      have htail : (t.dropWhile (· ≠ delim)).tail.length ≤ t.length :=
        ((List.tail_sublist _).trans (List.dropWhile_sublist _)).length_le
      rw [hd, List.length_cons] at hlen
      rw [pieces_cons hc, ← ih (Nat.le_of_lt_succ (by omega))]

theorem tokens_eq (delim : UInt8) (s : List UInt8) : tokens delim s = pieces delim s := strtokCalls_eq (Nat.le_refl _)

/-! ## Numbers -/

def isspace (c : UInt8) : Bool := c = 32 || (9 ≤ c && c ≤ 13)

def isdigit (c : UInt8) : Bool := 48 ≤ c && c ≤ 57

def LONG_MIN : Int := -2 ^ 63

def LONG_MAX : Int := 2 ^ 63 - 1

/-- The value of some digits. -/
def ofDigits (ds : List UInt8) : Nat := ds.foldl (fun n c => n * 10 + (c.toNat - 48)) 0

/-- `strtol(s, &endptr, 10)`: the value, and `endptr`, which is `s` if there is no number. -/
def strtol (s : List UInt8) : Int × List UInt8 :=
  let t := s.dropWhile isspace
  let (negative, t) : Bool × List UInt8 :=
    match t with
    | 45 :: t => (true, t)
    | 43 :: t => (false, t)
    | t => (false, t)
  match t.takeWhile isdigit with
  | [] => (0, s)
  | ds =>
    let n : Int := ofDigits ds
    (max LONG_MIN (min LONG_MAX (if negative then -n else n)), t.dropWhile isdigit)

example : strtol [32, 45, 52, 50, 120] = (-42, [120]) := by decide

end Strings
