import Mathlib.Data.Int.Interval
import Mathlib.Data.List.Dedup
import Mathlib.Data.List.Sort
import TinyOS.Lib.Bytes
import TinyOS.Lib.Strings

/-!
# Lists of numbers on the command line

`parse_int_list` of `unit_testing.c`. `none` is undefined behaviour: a write past the end of `args`, a read past the
end of `nlist`, or a length of `args` that is not positive or no `int`.

A value is looked up in `nlist`, that is in what the caller had there before, and not in `args`. `keep` are the values
that are then stored.

- `parseLoop_eq`: what the loop does, with the bound of `args`;
- `keep_good_iff`: when the values stored are the distinct values;
- `fresh_iff`: when more are stored than `args` can hold;
- `parseIntList_meets_iff`: so this is when the function does what its comment says.
-/

namespace TinyOS.ParseIntList

open Strings
open scoped List

/-! ## `parse_int_list` -/

/-- A `long` as an `int`. -/
def toInt (v : Int) : Int := v.bmod (2 ^ 32)

/-- Where the loop over `nlist` ends, which looks at its first entries. -/
def lookup (num : Int) : Nat → List Int → Option Nat
  | 0, _ => some 0
  | _ + 1, [] => none
  | i + 1, x :: nlist => if num = x then some 0 else (lookup num i nlist).map (· + 1)

/-- The loop over the tokens: `some none` if it returns 0, and else the contents of `args`. -/
def parseLoop (nlist : List Int) (lo hi : Int) : List (List UInt8) → List Int → Option (Option (List Int))
  | [], args => some (some args)
  | token :: rest, args =>
    let (v, endptr) := strtol token
    let num := toInt v
    if endptr = token ∨ endptr ≠ [] then some none
    else if num < lo ∨ num > hi then some none
    else
      (lookup num args.length nlist).bind fun j =>
        if j < args.length then parseLoop nlist lo hi rest args
        else if args.length < (hi - lo + 1).toNat then parseLoop nlist lo hi rest (args ++ [num])
        else none

/-- The result, `*nlen` and `nlist`, for the bounds `lo` and `hi` (`from` and `to`). -/
def parseIntList (arg : CString) (nlen : Int) (nlist : List Int) (lo hi : Int) : Option (Bool × Int × List Int) :=
  if 0 < hi - lo + 1 ∧ hi - lo + 1 < 2 ^ 31 then
    (parseLoop nlist lo hi (tokens 44 arg.chars) []).map fun
      | none => (false, nlen, nlist)
      | some args =>
        let args := args.insertionSort (· ≤ ·)
        let nlen : Int := args.length
        (nlen > 0, nlen, args ++ nlist.drop args.length)
  else none

/-! ## Its contract -/

/-- The whole token is a number. -/
def IsNumber (token : List UInt8) : Prop := (strtol token).2 ≠ token ∧ (strtol token).2 = []

/-- The comma-separated pieces of the string. -/
def listed (arg : CString) : List (List UInt8) := pieces 44 arg.chars

/-- A nonempty list of numbers within the bounds. -/
def Valid (arg : CString) (lo hi : Int) : Prop :=
  listed arg ≠ [] ∧ ∀ token ∈ listed arg, IsNumber token ∧ lo ≤ (strtol token).1 ∧ (strtol token).1 ≤ hi

/-- The function succeeds exactly on the valid lists, and stores the distinct values, sorted; otherwise it changes
nothing. -/
def Meets (arg : CString) (nlen : Int) (nlist : List Int) (lo hi : Int) : Prop :=
  ∃ result nlen' nlist', parseIntList arg nlen nlist lo hi = some (result, nlen', nlist') ∧
    (result = true ↔ Valid arg lo hi) ∧
    (result = true → ∃ values : List Int, values.Pairwise (· < ·) ∧
      (∀ v, v ∈ values ↔ ∃ token ∈ listed arg, (strtol token).1 = v) ∧
      nlen' = values.length ∧ nlist' = values ++ nlist.drop values.length) ∧
    (result = false → nlen' = nlen ∧ nlist' = nlist)

variable {nlist args vals w : List Int} {lo hi num : Int} {tokens : List (List UInt8)}

/-! ## The loop -/

/-- The tests on a token, which come after its conversion to `int`. -/
def Accepted (lo hi : Int) (token : List UInt8) : Prop :=
  IsNumber token ∧ lo ≤ toInt (strtol token).1 ∧ toInt (strtol token).1 ≤ hi

instance (token : List UInt8) : Decidable (IsNumber token) := inferInstanceAs (Decidable (_ ∧ _))

instance (token : List UInt8) : Decidable (Accepted lo hi token) := inferInstanceAs (Decidable (_ ∧ _))

/-- The `int`s of some tokens. -/
def ints (tokens : List (List UInt8)) : List Int := tokens.map fun token => toInt (strtol token).1

def keepStep (nlist args : List Int) (v : Int) : List Int := if v ∈ nlist.take args.length then args else args ++ [v]

/-- The values in `args` after some more, if it holds any number of them. -/
def keep (nlist args vals : List Int) : List Int := vals.foldl (keepStep nlist) args

theorem lookup_eq {i : Nat} (hi : i ≤ nlist.length) :
    ∃ j, lookup num i nlist = some j ∧ (j < i ↔ num ∈ nlist.take i) := by
  induction i generalizing nlist with
  | zero => exact ⟨0, by cases nlist <;> rfl, by simp⟩
  | succ i ih =>
    cases nlist with
    | nil => simp at hi
    | cons x nlist =>
      by_cases hx : num = x
      · exact ⟨0, by simp [lookup, hx], by simp [hx]⟩
      · obtain ⟨j, hj, hmem⟩ := ih (by simpa using hi)
        exact ⟨j + 1, by simp [lookup, hx, hj], by simp [hx, hmem]⟩

theorem length_le_keepStep (args : List Int) (v : Int) : args.length ≤ (keepStep nlist args v).length := by
  unfold keepStep
  split_ifs <;> simp

theorem length_le_keep (args vals : List Int) : args.length ≤ (keep nlist args vals).length := by
  induction vals generalizing args with
  | nil => exact Nat.le_refl _
  | cons v vals ih => exact (length_le_keepStep args v).trans (ih _)

theorem parseLoop_rejected {token : List UInt8} (h : ¬Accepted lo hi token) :
    parseLoop nlist lo hi (token :: tokens) args = some none := by
  rw [parseLoop]
  by_cases hend : (strtol token).2 = token ∨ (strtol token).2 ≠ []
  · simp only [hend, if_true]
  · have hbounds : toInt (strtol token).1 < lo ∨ toInt (strtol token).1 > hi := by
      by_contra hb
      exact h ⟨by simpa [IsNumber] using hend, by omega⟩
    simp only [hend, hbounds, if_false, if_true]

theorem parseLoop_accepted {token : List UInt8} (h : Accepted lo hi token) (ha : args.length ≤ nlist.length) :
    parseLoop nlist lo hi (token :: tokens) args =
      if toInt (strtol token).1 ∈ nlist.take args.length then parseLoop nlist lo hi tokens args
      else if args.length < (hi - lo + 1).toNat then parseLoop nlist lo hi tokens (args ++ [toInt (strtol token).1])
      else none := by
  obtain ⟨hnumber, hlo, hhi⟩ := h
  have hend : ¬((strtol token).2 = token ∨ (strtol token).2 ≠ []) := by simpa [IsNumber] using hnumber
  have hbounds : ¬(toInt (strtol token).1 < lo ∨ toInt (strtol token).1 > hi) := by omega
  obtain ⟨j, hj, hmem⟩ : ∃ j, lookup (toInt (strtol token).1) args.length nlist = some j ∧ _ := lookup_eq ha
  rw [parseLoop]
  simp only [hend, hbounds, hj, if_false, Option.bind_some, hmem]

/-- The loop stores the kept values up to the first token that fails the tests, as long as `args` can hold them. -/
theorem parseLoop_eq (hn : nlist.length = (hi - lo + 1).toNat) (ha : args.length ≤ nlist.length) :
    parseLoop nlist lo hi tokens args =
      if (keep nlist args (ints (tokens.takeWhile (Accepted lo hi)))).length ≤ nlist.length then
        some (if ∀ token ∈ tokens, Accepted lo hi token then some (keep nlist args (ints tokens)) else none)
      else none := by
  induction tokens generalizing args with
  | nil => simp [parseLoop, keep, ints, ha]
  | cons token tokens ih =>
    by_cases hacc : Accepted lo hi token
    · rw [parseLoop_accepted hacc ha, List.takeWhile_cons_of_pos (by simpa using hacc)]
      simp only [List.forall_mem_cons, hacc, true_and, ints, List.map_cons, keep, List.foldl_cons]
      by_cases hmem : toInt (strtol token).1 ∈ nlist.take args.length
      · rw [if_pos hmem, ih ha, keepStep, if_pos hmem]
        rfl
      · rw [if_neg hmem, keepStep, if_neg hmem, ← hn]
        by_cases hlt : args.length < nlist.length
        · rw [if_pos hlt, ih (by rw [List.length_append]; exact hlt)]
          rfl
        · rw [if_neg hlt, if_neg]
          intro hle
          have hge : _ ≤ (keep nlist _ _).length :=
            length_le_keep (args ++ [toInt (strtol token).1]) (ints (tokens.takeWhile (Accepted lo hi)))
          simp only [keep, ints, List.length_append, List.length_singleton] at hge hle
          omega
    · rw [parseLoop_rejected hacc, List.takeWhile_cons_of_neg (by simpa using hacc)]
      simp [ints, keep, ha, hacc]

/-! ## How many values are kept -/

/-- Each value, in turn, is not among the first entries of `nlist`, one more each time. -/
def Fresh (nlist : List Int) : Nat → List Int → Prop
  | _, [] => True
  | i, v :: w => v ∉ nlist.take i ∧ Fresh nlist (i + 1) w

theorem exists_fresh_of_keep (nlist args vals : List Int) :
    ∃ w, w <+ vals ∧ Fresh nlist args.length w ∧ keep nlist args vals = args ++ w := by
  induction vals generalizing args with
  | nil => exact ⟨[], .slnil, trivial, (List.append_nil args).symm⟩
  | cons v vals ih =>
    by_cases hv : v ∈ nlist.take args.length
    · obtain ⟨w, hw, hfresh, hkeep⟩ := ih args
      refine ⟨w, hw.cons v, hfresh, ?_⟩
      rw [← hkeep, keep, List.foldl_cons, keepStep, if_pos hv, keep]
    · obtain ⟨w, hw, hfresh, hkeep⟩ := ih (args ++ [v])
      refine ⟨v :: w, hw.cons_cons v, ⟨hv, by simpa using hfresh⟩, ?_⟩
      rw [List.append_cons, ← hkeep, keep, List.foldl_cons, keepStep, if_neg hv, keep]

/-- No other choice of values gets ahead. -/
theorem length_le_keep_of_fresh {i : Nat} (hw : w <+ vals) (hfresh : Fresh nlist i w) (hi : i ≤ args.length) :
    i + w.length ≤ (keep nlist args vals).length := by
  induction hw generalizing i args with
  | slnil => exact hi
  | cons v _ ih =>
    rw [keep, List.foldl_cons]
    exact ih hfresh (hi.trans (length_le_keepStep args v))
  | @cons_cons w _ v _ ih =>
    have hstep : i + 1 ≤ (keepStep nlist args v).length := by
      rcases hi.lt_or_eq with hlt | rfl
      · exact (Nat.succ_le_of_lt hlt).trans (length_le_keepStep args v)
      · rw [keepStep, if_neg hfresh.1, List.length_append]
        exact Nat.le_refl _
    have hle := ih hfresh.2 hstep
    rw [keep, List.foldl_cons, List.length_cons]
    rw [keep] at hle
    omega

/-! ## Which values are kept -/

theorem keep_concat (vals : List Int) (v : Int) :
    keep nlist args (vals ++ [v]) = keepStep nlist (keep nlist args vals) v := by
  rw [keep, List.foldl_concat]
  rfl

/-- What is said of all splits of a list, from its last entry on. -/
theorem forall_split_concat {P : List Int → Int → Prop} {v : Int} :
    (∀ pre x post, vals ++ [v] = pre ++ x :: post → P pre x) ↔
      (∀ pre x post, vals = pre ++ x :: post → P pre x) ∧ P vals v := by
  constructor
  · intro h
    refine ⟨fun pre x post he => h pre x (post ++ [v]) (by rw [he]; simp), h vals v [] rfl⟩
  · rintro ⟨h, hv⟩ pre x post he
    rcases List.eq_nil_or_concat post with rfl | ⟨post, y, rfl⟩
    · obtain ⟨rfl, hx⟩ := List.append_inj' he rfl
      obtain rfl := List.singleton_inj.1 hx
      exact hv
    · rw [List.concat_eq_append, ← List.cons_append, ← List.append_assoc] at he
      exact h pre x post (List.append_inj' he rfl).1

/-- A value that was dropped would be dropped again. -/
theorem mem_keep_or {v : Int} (hv : v ∈ vals) :
    v ∈ keep nlist [] vals ∨ v ∈ nlist.take (keep nlist [] vals).length := by
  induction vals using List.reverseRecOn with
  | nil => simp at hv
  | append_singleton vals x ih =>
    rw [keep_concat, keepStep]
    rw [List.mem_append, List.mem_singleton] at hv
    split_ifs with hx
    · rcases hv with hv | rfl
      · exact ih hv
      · exact .inr hx
    · rw [List.length_append]
      rcases hv with hv | rfl
      · exact (ih hv).imp (List.mem_append_left _) fun hm => List.take_subset_take_left nlist (Nat.le_succ _) hm
      · exact .inl (List.mem_append_right _ List.mem_cons_self)

theorem mem_of_mem_keep {v : Int} (hv : v ∈ keep nlist [] vals) : v ∈ vals := by
  obtain ⟨w, hw, -, hkeep⟩ := exists_fresh_of_keep nlist [] vals
  rw [hkeep, List.nil_append] at hv
  exact hw.subset hv

/-- The kept values are the distinct values exactly when the old entries of `nlist` say of each value whether it was
there before. -/
theorem keep_good_iff :
    ((keep nlist [] vals).Nodup ∧ ∀ v, v ∈ keep nlist [] vals ↔ v ∈ vals) ↔
      ∀ pre v post, vals = pre ++ v :: post → (v ∈ nlist.take pre.dedup.length ↔ v ∈ pre) := by
  induction vals using List.reverseRecOn with
  | nil => simp [keep]
  | append_singleton vals v ih =>
    rw [forall_split_concat, ← ih, keep_concat]
    have hlen : (keep nlist [] vals).Nodup → (∀ x, x ∈ keep nlist [] vals ↔ x ∈ vals) →
        (keep nlist [] vals).length = vals.dedup.length := fun hn hm =>
      ((List.perm_ext_iff_of_nodup hn vals.nodup_dedup).2 fun x => by rw [hm, List.mem_dedup]).length_eq
    constructor
    · rintro ⟨hn, hm⟩
      by_cases hv : v ∈ nlist.take (keep nlist [] vals).length
      · rw [keepStep, if_pos hv] at hn hm
        have hm' : ∀ x, x ∈ keep nlist [] vals ↔ x ∈ vals := fun x =>
          ⟨mem_of_mem_keep, fun hx => (hm x).2 (List.mem_append_left _ hx)⟩
        have hvv : v ∈ vals := mem_of_mem_keep ((hm v).2 (List.mem_append_right _ List.mem_cons_self))
        exact ⟨⟨hn, hm'⟩, iff_of_true (hlen hn hm' ▸ hv) hvv⟩
      · rw [keepStep, if_neg hv] at hn hm
        obtain ⟨hn, -, hd⟩ := List.nodup_append'.1 hn
        have hm' : ∀ x, x ∈ keep nlist [] vals ↔ x ∈ vals := fun x => by
          refine ⟨mem_of_mem_keep, fun hx => ?_⟩
          rcases mem_keep_or hx with hk | ht
          · exact hk
          · have hk := (hm x).2 (List.mem_append_left _ hx)
            rw [List.mem_append, List.mem_singleton] at hk
            exact hk.resolve_right fun he => hv (he ▸ ht)
        have hvv : v ∉ vals := fun h => List.disjoint_singleton.1 hd ((hm' v).2 h)
        exact ⟨⟨hn, hm'⟩, iff_of_false (hlen hn hm' ▸ hv) hvv⟩
    · rintro ⟨⟨hn, hm⟩, hv⟩
      rw [← hlen hn hm] at hv
      by_cases hvv : v ∈ vals
      · rw [keepStep, if_pos (hv.2 hvv)]
        refine ⟨hn, fun x => ?_⟩
        rw [hm, List.mem_append, List.mem_singleton]
        exact ⟨.inl, fun h => h.elim id fun he => he ▸ hvv⟩
      · rw [keepStep, if_neg fun h => hvv (hv.1 h)]
        refine ⟨List.nodup_append'.2 ⟨hn, List.nodup_singleton v, ?_⟩, fun x => by simp [hm]⟩
        exact List.disjoint_singleton.2 fun h => hvv ((hm v).1 h)

/-! ## When the contract is met -/

/-- What the contract takes: bounds whose distance is an `int`; without any token, an empty list before; if all tokens
pass the tests, no number that changes as it becomes an `int`, and old entries of `nlist` that tell the values seen
before from the others; and if not, no more values than `args` can hold before the first token that fails. -/
structure Fits (arg : CString) (nlen : Int) (nlist : List Int) (lo hi : Int) : Prop where
  size : hi - lo + 1 < 2 ^ 31
  empty : listed arg = [] → nlen = 0
  accepted : (∀ token ∈ listed arg, Accepted lo hi token) →
    (∀ token ∈ listed arg, toInt (strtol token).1 = (strtol token).1) ∧
      ∀ pre v post, ints (listed arg) = pre ++ v :: post → (v ∈ nlist.take pre.dedup.length ↔ v ∈ pre)
  rejected : (∃ token ∈ listed arg, ¬Accepted lo hi token) →
    ∀ w, w <+ ints ((listed arg).takeWhile (Accepted lo hi)) → Fresh nlist 0 w → w.length ≤ nlist.length

theorem fresh_iff : (∀ w, w <+ vals → Fresh nlist 0 w → w.length ≤ nlist.length) ↔
    (keep nlist [] vals).length ≤ nlist.length := by
  constructor
  · intro h
    obtain ⟨w, hw, hfresh, hkeep⟩ := exists_fresh_of_keep nlist [] vals
    rw [hkeep]
    exact h w hw hfresh
  · intro h w hw hfresh
    have hle := length_le_keep_of_fresh hw hfresh (Nat.le_refl ([] : List Int).length)
    omega

theorem insertionSort_pairwise_iff : (args.insertionSort (· ≤ ·)).Pairwise (· < ·) ↔ args.Nodup := by
  rw [← List.sortedLT_iff_pairwise, List.sortedLT_iff_nodup_and_sortedLE,
    (List.perm_insertionSort _ args).nodup_iff]
  exact and_iff_left List.sortedLE_insertionSort

/-- Distinct values within the bounds fit in `args`. -/
theorem length_le_of_nodup (hn : args.Nodup) (hb : ∀ v ∈ args, lo ≤ v ∧ v ≤ hi) :
    args.length ≤ (hi - lo + 1).toNat := by
  have hsub : args.toFinset ⊆ Finset.Icc lo hi := fun v hv => Finset.mem_Icc.2 (hb v (List.mem_toFinset.1 hv))
  have hcard := Finset.card_le_card hsub
  rw [List.toFinset_card_of_nodup hn, Int.card_Icc] at hcard
  omega

theorem keep_eq_nil_iff : keep nlist [] vals = [] ↔ vals = [] := by
  cases vals with
  | nil => exact iff_of_true rfl rfl
  | cons v vals =>
    have hle : _ ≤ (keep nlist [v] vals).length := length_le_keep [v] vals
    have hkeep : keep nlist [] (v :: vals) = keep nlist [v] vals := by simp [keep, keepStep]
    rw [hkeep]
    refine iff_of_false (fun he => ?_) (List.cons_ne_nil v vals)
    rw [he] at hle
    exact absurd hle (Nat.not_succ_le_zero 0)

/-- The values stored, if every token passes the tests. -/
def stored (arg : CString) (nlist : List Int) : List Int := keep nlist [] (ints (listed arg))

theorem parseIntList_eq (arg : CString) (nlen : Int) (hle : lo ≤ hi) (hn : nlist.length = (hi - lo + 1).toNat)
    (hsize : hi - lo + 1 < 2 ^ 31) :
    parseIntList arg nlen nlist lo hi =
      if (keep nlist [] (ints ((listed arg).takeWhile (Accepted lo hi)))).length ≤ nlist.length then
        if ∀ token ∈ listed arg, Accepted lo hi token then
          some (decide (((stored arg nlist).length : Int) > 0), ((stored arg nlist).length : Int),
            (stored arg nlist).insertionSort (· ≤ ·) ++ nlist.drop (stored arg nlist).length)
        else some (false, nlen, nlist)
      else none := by
  unfold parseIntList
  rw [if_pos ⟨by omega, hsize⟩, tokens_eq, ← listed, parseLoop_eq hn (Nat.zero_le _)]
  split_ifs with hfit hall
  · simp only [Option.map_some, List.length_insertionSort]
    rfl
  · rfl
  · rfl

theorem toInt_eq {v : Int} (hlo : -2 ^ 31 ≤ v) (hhi : v < 2 ^ 31) : toInt v = v :=
  Int.bmod_eq_of_le_mul_two (by omega) (by omega)

/-- A number within the bounds passes the tests. -/
theorem accepted_of_bounds {token : List UInt8} (hlo : -2 ^ 31 ≤ lo) (hhi : hi < 2 ^ 31) (hnumber : IsNumber token)
    (hb : lo ≤ (strtol token).1 ∧ (strtol token).1 ≤ hi) :
    Accepted lo hi token ∧ toInt (strtol token).1 = (strtol token).1 := by
  have he : toInt (strtol token).1 = (strtol token).1 := toInt_eq (by omega) (by omega)
  exact ⟨⟨hnumber, he.symm ▸ hb⟩, he⟩

theorem meets_of_rejected (arg : CString) (nlen : Int) (hle : lo ≤ hi) (hlo : -2 ^ 31 ≤ lo) (hhi : hi < 2 ^ 31)
    (hn : nlist.length = (hi - lo + 1).toNat) (hsize : hi - lo + 1 < 2 ^ 31)
    (hrej : ¬∀ token ∈ listed arg, Accepted lo hi token) :
    Meets arg nlen nlist lo hi ↔ Fits arg nlen nlist lo hi := by
  have hvalid : ¬Valid arg lo hi := fun hv =>
    hrej fun token ht => (accepted_of_bounds hlo hhi (hv.2 token ht).1 (hv.2 token ht).2).1
  have hex : ∃ token ∈ listed arg, ¬Accepted lo hi token := by
    by_contra hne
    exact hrej fun token ht => by_contra fun h => hne ⟨token, ht, h⟩
  have hrun := parseIntList_eq arg nlen hle hn hsize
  constructor
  · rintro ⟨result, nlen', nlist', hres, -⟩
    rw [hrun] at hres
    split_ifs at hres with hfit
    refine ⟨hsize, fun he => ?_, fun hacc => absurd hacc hrej, fun _ => fresh_iff.2 hfit⟩
    obtain ⟨token, ht, -⟩ := hex
    rw [he] at ht
    exact absurd ht List.not_mem_nil
  · intro hfits
    refine ⟨false, nlen, nlist, ?_, iff_of_false Bool.false_ne_true hvalid, fun h => absurd h Bool.false_ne_true,
      fun _ => ⟨rfl, rfl⟩⟩
    rw [hrun, if_pos (fresh_iff.1 (hfits.rejected hex)), if_neg hrej]

theorem mem_ints {v : Int} (hint : ∀ token ∈ tokens, toInt (strtol token).1 = (strtol token).1) :
    v ∈ ints tokens ↔ ∃ token ∈ tokens, (strtol token).1 = v := by
  rw [ints, List.map_congr_left hint, List.mem_map]

theorem stored_pos_iff {arg : CString} : ((stored arg nlist).length : Int) > 0 ↔ listed arg ≠ [] := by
  rw [gt_iff_lt, Int.natCast_pos, List.length_pos_iff, stored, ne_eq, keep_eq_nil_iff, ints, List.map_eq_nil_iff]

theorem meets_of_accepted (arg : CString) (nlen : Int) (hle : lo ≤ hi) (hlo : -2 ^ 31 ≤ lo) (hhi : hi < 2 ^ 31)
    (hn : nlist.length = (hi - lo + 1).toNat) (hsize : hi - lo + 1 < 2 ^ 31)
    (hacc : ∀ token ∈ listed arg, Accepted lo hi token) :
    Meets arg nlen nlist lo hi ↔ Fits arg nlen nlist lo hi := by
  have htake : (listed arg).takeWhile (Accepted lo hi) = listed arg :=
    List.takeWhile_eq_self_iff.2 fun token ht => by simpa using hacc token ht
  have hrun := parseIntList_eq arg nlen hle hn hsize
  rw [htake, if_pos hacc, ← stored] at hrun
  constructor
  · rintro ⟨result, nlen', nlist', hres, hiff, hok, hfail⟩
    rw [hrun] at hres
    split_ifs at hres with hfit
    simp only [Option.some.injEq, Prod.mk.injEq] at hres
    obtain ⟨rfl, rfl, rfl⟩ := hres
    refine ⟨hsize, fun he => ?_, fun _ => ?_, fun ⟨token, ht, h⟩ => absurd (hacc token ht) h⟩
    · have hpos : ¬((stored arg nlist).length : Int) > 0 := fun h => stored_pos_iff.1 h he
      have hnlen := (hfail (decide_eq_false hpos)).1
      omega
    · by_cases he : listed arg = []
      · simp [he, ints]
      · have hpos : ((stored arg nlist).length : Int) > 0 := stored_pos_iff.2 he
        have hvalid := hiff.1 (decide_eq_true hpos)
        have hint : ∀ token ∈ listed arg, toInt (strtol token).1 = (strtol token).1 := fun token ht =>
          (accepted_of_bounds hlo hhi (hvalid.2 token ht).1 (hvalid.2 token ht).2).2
        obtain ⟨values, hlt, hmem, hlen, hlist⟩ := hok (decide_eq_true hpos)
        have hlen : (stored arg nlist).length = values.length := Int.natCast_inj.1 hlen
        have hvalues := (List.append_inj hlist (by rw [List.length_insertionSort, hlen])).1
        refine ⟨hint, keep_good_iff.1 ⟨insertionSort_pairwise_iff.1 (hvalues ▸ hlt), fun v => ?_⟩⟩
        rw [mem_ints hint, ← hmem, ← hvalues, List.mem_insertionSort, stored]
  · intro hfits
    obtain ⟨hint, hsplit⟩ := hfits.accepted hacc
    obtain ⟨hnodup, hmem⟩ := keep_good_iff.2 hsplit
    rw [← stored] at hnodup
    have hmem : ∀ v, v ∈ stored arg nlist ↔ ∃ token ∈ listed arg, (strtol token).1 = v := fun v =>
      (hmem v).trans (mem_ints hint)
    have hbounds : ∀ token ∈ listed arg, lo ≤ (strtol token).1 ∧ (strtol token).1 ≤ hi := fun token ht =>
      hint token ht ▸ (hacc token ht).2
    have hfit : (stored arg nlist).length ≤ nlist.length := by
      rw [hn]
      refine length_le_of_nodup hnodup fun v hv => ?_
      obtain ⟨token, ht, rfl⟩ := (hmem v).1 hv
      exact hbounds token ht
    refine ⟨_, _, _, hrun.trans (if_pos hfit), ?_, fun _ => ?_, fun hf => ?_⟩
    · rw [decide_eq_true_iff, stored_pos_iff]
      exact ⟨fun hne => ⟨hne, fun token ht => ⟨(hacc token ht).1, hbounds token ht⟩⟩, fun hv => hv.1⟩
    · refine ⟨_, insertionSort_pairwise_iff.2 hnodup, fun v => ?_, ?_, ?_⟩
      · rw [List.mem_insertionSort, hmem]
      · rw [List.length_insertionSort]
      · rw [List.length_insertionSort]
    · have he : listed arg = [] := by
        by_contra hne
        exact of_decide_eq_false hf (stored_pos_iff.2 hne)
      have hnil : stored arg nlist = [] := by rw [stored, he]; rfl
      rw [hnil, hfits.empty he]
      exact ⟨rfl, rfl⟩

/-- The contract is met exactly when the string, the bounds and the old contents are what it takes. -/
theorem parseIntList_meets_iff (arg : CString) (nlen : Int) (nlist : List Int) (lo hi : Int)
    (hle : lo ≤ hi) (hlo : -2 ^ 31 ≤ lo) (hhi : hi < 2 ^ 31) (hn : nlist.length = (hi - lo + 1).toNat) :
    Meets arg nlen nlist lo hi ↔ Fits arg nlen nlist lo hi := by
  by_cases hsize : hi - lo + 1 < 2 ^ 31
  · by_cases hacc : ∀ token ∈ listed arg, Accepted lo hi token
    · exact meets_of_accepted arg nlen hle hlo hhi hn hsize hacc
    · exact meets_of_rejected arg nlen hle hlo hhi hn hsize hacc
  · refine iff_of_false ?_ fun h => hsize h.size
    rintro ⟨result, nlen', nlist', hrun, -⟩
    unfold parseIntList at hrun
    rw [if_neg fun h => hsize h.2] at hrun
    cases hrun

/-- `3,1` over a cleared list of cores. -/
theorem parseIntList_meets_cleared : Meets ⟨[51, 44, 49], by decide⟩ 0 [0, 0, 0] 1 3 := by
  refine (parseIntList_meets_iff ⟨[51, 44, 49], by decide⟩ 0 [0, 0, 0] 1 3 (by decide) (by decide) (by decide)
    (by decide)).2 ?_
  refine ⟨by decide, fun h => absurd h (by decide), fun _ => ⟨by decide, ?_⟩, fun h => absurd h (by decide)⟩
  exact keep_good_iff.1 ⟨by decide, fun v => Iff.rfl⟩

/-- `1,2,2`, over the list of cores that the program starts with: the second 2 is not found in it. -/
theorem parseIntList_keeps_duplicate : ¬Meets ⟨[49, 44, 50, 44, 50], by decide⟩ 1 (1 :: List.replicate 31 0) 1 32 := by
  rintro ⟨result, nlen', nlist', hrun, -, hok, -⟩
  have hres : parseIntList ⟨[49, 44, 50, 44, 50], by decide⟩ 1 (1 :: List.replicate 31 0) 1 32 =
      some (true, 3, [1, 2, 2] ++ List.replicate 29 0) := by decide
  rw [hres, Option.some.injEq, Prod.mk.injEq, Prod.mk.injEq] at hrun
  obtain ⟨rfl, rfl, rfl⟩ := hrun
  obtain ⟨values, hlt, -, hlen, hlist⟩ := hok rfl
  have hlen : [1, 2, 2].length = values.length := Int.natCast_inj.1 hlen
  obtain rfl : [1, 2, 2] = values := (List.append_inj hlist hlen).1
  exact absurd hlt (by decide)

end TinyOS.ParseIntList
