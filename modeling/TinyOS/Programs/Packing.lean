import Mathlib.Algebra.Group.Nat.Defs
import Mathlib.Data.Set.Function
import TinyOS.Programs.Execute

/-!
# Packing of arguments

The loops of `argvlen`, `argvpack`, `argscount` and `argvunpack` of `util.h`. The buffer to be written is a memory, and
the strings are not in it; a read past the end of a string or a buffer, or an overflow of the `int` of `argvpack`, is
undefined (`none`).

- `argvlen_refines`, `argvpack_refines`, `argscount_refines`: they compute the functions of `Programs.Execute`;
- `argvunpack_pointers`: the pointers that are unpacked;
- `packing_bijective`: strings and buffers with a zero at the end, packed and unpacked.
-/

namespace TinyOS.Packing

open CString (packed)
open Execute (Ptr argvunpack)

def intMax : Nat := 2 ^ 31 - 1

def strlen : Ptr → Option Nat
  | [] => none
  | b :: s => if b = 0 then some 0 else (strlen s).map (· + 1)

/-- The loop of `argvlen`. -/
def lenLoop : List Ptr → Nat → Option Nat
  | [], l => some l
  | s :: argv, l => (strlen s).bind fun n => lenLoop argv ((l + (n + 1)) % 2 ^ 64)

def argvlen (argv : List Ptr) : Option Nat := lenLoop argv 0

/-- The variables of `argvpack`. -/
structure Packer where
  args : Memory
  pos : Nat
  argl : Nat

/-- `while(( *pos++ = *s++ )) argl++;` -/
def copyLoop : Ptr → Packer → Option Packer
  | [], _ => none
  | b :: s, st =>
    let st := { st with args := st.args.write st.pos [b], pos := st.pos + 1 }
    if b = 0 then some st
    else if st.argl < intMax then copyLoop s { st with argl := st.argl + 1 }
    else none

/-- The loop of `argvpack`. -/
def packLoop : List Ptr → Packer → Option Packer
  | [], st => some st
  | s :: argv, st => (copyLoop s st).bind (packLoop argv)

/-- The buffer, and the result. -/
def argvpack (args : Memory) (argv : List Ptr) : Option (Memory × Nat) :=
  (packLoop argv ⟨args, 0, 0⟩).map fun st => (st.args, (st.argl + argv.length) % 2 ^ 64)

/-- The loop of `argscount`, with this many bytes to go. -/
def countLoop : Nat → Ptr → Nat → Option Nat
  | 0, _, n => some n
  | _ + 1, [], _ => none
  | k + 1, b :: a, n => countLoop k a (if b = 0 then n + 1 else n)

def argscount (argl : Int) (args : Ptr) : Option Nat := countLoop argl.toNat args 0

/-- `p` points to the string. -/
def Points (p : Ptr) (s : CString) : Prop := s.stored <+: p

/-! ## Lengths -/

variable {s : CString} {ss : List CString} {p : Ptr} {argv : List Ptr} {st : Packer}

theorem strlen_append {l : List UInt8} (h : 0 ∉ l) (rest : List UInt8) : strlen (l ++ 0 :: rest) = some l.length := by
  induction l with
  | nil => rfl
  | cons b l ih =>
    have hb : b ≠ 0 := fun hb => h (List.mem_cons.2 (.inl hb.symm))
    rw [List.cons_append, strlen, if_neg hb, ih fun hl => h (List.mem_cons_of_mem b hl)]
    rfl

theorem strlen_eq (h : Points p s) : strlen p = some s.chars.length := by
  obtain ⟨rest, rfl⟩ := h
  rw [CString.stored, List.append_assoc]
  exact strlen_append s.nonzero rest

theorem lenLoop_eq {l : Nat} (h : List.Forall₂ Points argv ss) (hl : l + (packed ss).length < 2 ^ 64) :
    lenLoop argv l = some (l + (packed ss).length) := by
  induction h generalizing l with
  | nil => rfl
  | cons hp _ ih =>
    rw [CString.packed_cons, List.length_append, CString.length_stored] at hl ⊢
    rw [lenLoop, strlen_eq hp, Option.bind_some, Nat.mod_eq_of_lt (by omega), ih (by omega), Nat.add_assoc l]

theorem argvlen_refines (h : List.Forall₂ Points argv ss) (hlen : (packed ss).length < 2 ^ 64) :
    argvlen argv = some (Execute.argvlen ss) := by
  rw [argvlen, lenLoop_eq h (by omega), Execute.argvlen_eq, Nat.zero_add]

/-! ## Packing -/

/-- What the inner loop does with a string. -/
def Packer.copied (st : Packer) (s : CString) : Packer :=
  ⟨st.args.write st.pos s.stored, st.pos + s.stored.length, st.argl + s.chars.length⟩

theorem copyLoop_append {l : List UInt8} (h : 0 ∉ l) (hargl : st.argl + l.length ≤ intMax) (rest : List UInt8) :
    copyLoop (l ++ 0 :: rest) st =
      some ⟨st.args.write st.pos (l ++ [0]), st.pos + (l ++ [0]).length, st.argl + l.length⟩ := by
  induction l generalizing st with
  | nil => rfl
  | cons b l ih =>
    have hb : b ≠ 0 := fun hb => h (List.mem_cons.2 (.inl hb.symm))
    rw [List.length_cons] at hargl
    have hnext := @ih ⟨st.args.write st.pos [b], st.pos + 1, st.argl + 1⟩ (fun hl => h (List.mem_cons_of_mem b hl))
      (by simp only; omega)
    have hwrite := Memory.write_append st.args st.pos [b] (l ++ [0])
    rw [List.length_singleton] at hwrite
    rw [List.cons_append, copyLoop]
    simp only [if_neg hb, if_pos (show st.argl < intMax by omega)]
    rw [hnext, hwrite]
    simp only [List.cons_append, List.nil_append, List.length_cons, Option.some.injEq, Packer.mk.injEq, true_and]
    omega

theorem copyLoop_eq (h : Points p s) (hargl : st.argl + s.chars.length ≤ intMax) :
    copyLoop p st = some (st.copied s) := by
  obtain ⟨rest, rfl⟩ := h
  rw [CString.stored, List.append_assoc]
  exact copyLoop_append s.nonzero hargl rest

/-- The outer loop writes the strings one after the other, and counts their characters. -/
theorem packLoop_eq (h : List.Forall₂ Points argv ss) (st : Packer)
    (hargl : st.argl + (packed ss).length ≤ intMax + ss.length) :
    ∃ st', packLoop argv st = some st' ∧ st'.args = st.args.write st.pos (packed ss) ∧
      st'.argl + ss.length = st.argl + (packed ss).length := by
  induction h generalizing st with
  | nil =>
    refine ⟨st, rfl, ?_, rfl⟩
    funext i
    exact (Memory.write_outside (by rw [CString.packed_nil, List.length_nil]; omega)).symm
  | @cons p s argv ss hp _ ih =>
    have hss := CString.length_le_packed ss
    rw [CString.packed_cons, List.length_append, CString.length_stored, List.length_cons] at hargl
    obtain ⟨st', hloop, hargs, hargl'⟩ := ih (st.copied s) (by simp only [Packer.copied]; omega)
    simp only [Packer.copied, Memory.write_append] at hargs hargl'
    refine ⟨st', ?_, by rw [hargs, CString.packed_cons], ?_⟩
    · rw [packLoop, copyLoop_eq hp (by omega), Option.bind_some, hloop]
    · rw [CString.packed_cons, List.length_append, CString.length_stored, List.length_cons]
      omega

theorem argvpack_refines (h : List.Forall₂ Points argv ss) (hlen : (packed ss).length ≤ intMax) (args : Memory) :
    argvpack args argv = some (args.write 0 (Execute.argvpack ss).1, (Execute.argvpack ss).2) := by
  obtain ⟨st', hloop, hargs, hargl⟩ := packLoop_eq h ⟨args, 0, 0⟩ (by simp only; omega)
  have hmax : intMax < 2 ^ 64 := by decide
  have hargc := h.length_eq
  have hret : (st'.argl + argv.length) % 2 ^ 64 = (packed ss).length := by
    rw [hargc, hargl, Nat.mod_eq_of_lt] <;> simp only <;> omega
  rw [argvpack, hloop, Option.map_some, hargs, hret, Execute.argvpack_eq, Execute.argvlen_eq]

/-! ## Unpacking -/

theorem countLoop_eq {k n : Nat} {a : Ptr} (hk : k ≤ a.length) : countLoop k a n = some (n + (a.take k).count 0) := by
  induction k generalizing a n with
  | zero => rfl
  | succ k ih =>
    cases a with
    | nil => cases hk
    | cons b a =>
      rw [countLoop, ih (Nat.le_of_succ_le_succ hk), List.take_succ_cons, List.count_cons]
      by_cases hb : b = 0
      · simp [hb]
        omega
      · simp [hb]

theorem argscount_refines {argl : Int} {args : Ptr} (h : argl.toNat ≤ args.length) :
    argscount argl args = some (Execute.argscount argl args) := by
  rw [argscount, countLoop_eq h, Nat.zero_add, Execute.argscount]

/-- The pointers to the strings, one after the other in memory before `rest`. -/
def pointers : List CString → List UInt8 → List Ptr
  | [], _ => []
  | s :: ss, rest => (packed (s :: ss) ++ rest) :: pointers ss rest

theorem pointers_point (ss : List CString) (rest : List UInt8) : List.Forall₂ Points (pointers ss rest) ss := by
  induction ss with
  | nil => exact .nil
  | cons s ss ih => exact .cons ⟨packed ss ++ rest, by rw [CString.packed_cons, List.append_assoc]⟩ ih

/-- `argvunpack` stops after the last string. -/
theorem argvunpack_pointers (ss : List CString) (rest : List UInt8) :
    argvunpack ss.length (packed ss ++ rest) = some (pointers ss rest, rest) := by
  induction ss with
  | nil => rfl
  | cons s ss ih =>
    rw [CString.packed_cons, List.append_assoc, List.length_cons, argvunpack, CString.skip_stored, Option.bind_some, ih,
      pointers, CString.packed_cons, List.append_assoc]
    rfl

/-! ## Both ways -/

/-- The packed buffers are those with a zero at the end, and the empty one. -/
theorem packed_bijOn : Set.BijOn packed Set.univ {buf | ∀ hne : buf ≠ [], buf.getLast hne = 0} := by
  refine ⟨fun ss _ => CString.getLast_packed ss, CString.packed_injective.injOn, fun buf hbuf => ?_⟩
  obtain ⟨ss, tail, rfl, htail⟩ := CString.exists_packed buf
  exact ⟨ss, trivial, by rw [CString.tail_eq_nil htail hbuf, List.append_nil]⟩

/-- The strings `ss` that `argv` points to can be packed anywhere: `argvlen` bytes are written, and unpacking them gives
the same strings, up to the end of these bytes. -/
def PacksAndUnpacks (ss : List CString) (argv : List Ptr) : Prop :=
  ∃ argl buf, argvlen argv = some argl ∧ buf.length = argl ∧
    (∀ args : Memory, argvpack args argv = some (args.write 0 buf, argl)) ∧
    argscount argl buf = some ss.length ∧ ∃ argv', argvunpack ss.length buf = some (argv', []) ∧
      List.Forall₂ Points argv' ss

/-- The buffer of `argl` bytes can be unpacked without reading a byte after it; if it ends with a zero, packing what is
unpacked gives it back. -/
def UnpacksAndPacks (argl : BitVec 32) (buf : List UInt8) : Prop :=
  ∃ argc argv last, argscount argl.toInt buf = some argc ∧ argvunpack argc buf = some (argv, last) ∧
    ∀ hne : buf ≠ [], buf.getLast hne = 0 →
      ∀ args : Memory, argvpack args argv = some (args.write 0 buf, buf.length)

theorem packsAndUnpacks (h : List.Forall₂ Points argv ss) (hlen : (packed ss).length < intMax) :
    PacksAndUnpacks ss argv := by
  have hmax : intMax < 2 ^ 64 := by decide
  have hcount := Execute.argscount_packed ss []
  have hunpack := argvunpack_pointers ss []
  rw [List.append_nil] at hcount hunpack
  refine ⟨Execute.argvlen ss, packed ss, argvlen_refines h (by omega), (Execute.argvlen_eq ss).symm, fun args => ?_, ?_,
    pointers ss [], hunpack, pointers_point ss []⟩
  · rw [argvpack_refines h hlen.le, Execute.argvpack_eq]
  · rw [argscount_refines, hcount]
    rw [Int.toNat_natCast, Execute.argvlen_eq]

theorem unpacksAndPacks {argl : BitVec 32} {buf : List UInt8} (hlen : buf.length = argl.toInt.toNat) :
    UnpacksAndPacks argl buf := by
  have hargl : argl.toInt.toNat ≤ intMax := by
    have hlt := BitVec.toInt_lt (x := argl)
    unfold intMax
    omega
  obtain ⟨ss, tail, rfl, htail⟩ := CString.exists_packed buf
  have hcount : Execute.argscount argl.toInt (packed ss ++ tail) = ss.length := by
    rw [Execute.argscount, ← hlen, List.take_length, List.count_append, CString.count_packed,
      List.count_eq_zero.2 htail, Nat.add_zero]
  refine ⟨ss.length, pointers ss tail, tail, ?_, argvunpack_pointers ss tail, fun _ hlast args => ?_⟩
  · rw [argscount_refines hlen.ge, hcount]
  · obtain rfl := CString.tail_eq_nil htail fun _ => hlast
    rw [List.append_nil] at hlen ⊢
    rw [argvpack_refines (pointers_point ss []) (by omega), Execute.argvpack_eq, Execute.argvlen_eq]

/-- Strings that fit can be packed and unpacked, and any buffer can be unpacked and, if it ends with a zero, packed. -/
theorem packing_bijective :
    Set.BijOn packed Set.univ {buf | ∀ hne : buf ≠ [], buf.getLast hne = 0} ∧
    (∀ ss argv, List.Forall₂ Points argv ss → (packed ss).length < intMax → PacksAndUnpacks ss argv) ∧
    ∀ (argl : BitVec 32) (buf : List UInt8), buf.length = argl.toInt.toNat → UnpacksAndPacks argl buf :=
  ⟨packed_bijOn, fun _ _ h hlen => packsAndUnpacks h hlen, fun _ _ hlen => unpacksAndPacks hlen⟩

/-- The argument "a", and a buffer that does not end with a zero. -/
theorem packing_bijective_argA : PacksAndUnpacks [Execute.argA] [[97, 0]] ∧ UnpacksAndPacks 3 [97, 0, 98] :=
  ⟨packing_bijective.2.1 [Execute.argA] [[97, 0]] (.cons ⟨[], rfl⟩ .nil) (by decide),
    packing_bijective.2.2 3 [97, 0, 98] (by decide)⟩

end TinyOS.Packing
