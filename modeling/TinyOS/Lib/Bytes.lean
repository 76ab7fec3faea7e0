import Mathlib.Algebra.Group.Nat.Defs
import Mathlib.Tactic.Common

/-!
# Bytes in memory

- `leBytes`, `ofLe`: words, the lowest byte first;
- `Memory`: bytes by their distance from some address, with reads and writes of several bytes at once;
- `CString`: strings without zeros, each stored with a zero after it. A pointer to a string is the memory from there on.
-/

/-- `n` bytes of `x`, the lowest first. -/
def leBytes : Nat → Nat → List UInt8
  | 0, _ => []
  | n + 1, x => UInt8.ofNat x :: leBytes n (x / 256)

def ofLe : List UInt8 → Nat
  | [] => 0
  | b :: bs => b.toNat + 256 * ofLe bs

@[simp] theorem length_leBytes (n x : Nat) : (leBytes n x).length = n := by
  induction n generalizing x with
  | zero => rfl
  | succ n ih => simp [leBytes, ih]

theorem ofLe_leBytes (n x : Nat) : ofLe (leBytes n x) = x % 256 ^ n := by
  induction n generalizing x with
  | zero => simp [leBytes, ofLe, Nat.mod_one]
  | succ n ih =>
    have hlow : (UInt8.ofNat x).toNat = x % 256 := UInt8.toNat_ofNat'
    rw [leBytes, ofLe, ih, hlow, Nat.pow_succ', Nat.mod_mul]

theorem ofLe_lt (l : List UInt8) : ofLe l < 256 ^ l.length := by
  induction l with
  | nil => exact Nat.one_pos
  | cons b bs ih =>
    have hb := b.toNat_lt
    rw [ofLe, List.length_cons, Nat.pow_succ]
    omega

theorem leBytes_ofLe (l : List UInt8) : leBytes l.length (ofLe l) = l := by
  induction l with
  | nil => rfl
  | cons b bs ih =>
    have hb := b.toNat_lt
    have hlow : UInt8.ofNat (b.toNat + 256 * ofLe bs) = b := by
      apply UInt8.toNat_inj.1
      rw [UInt8.toNat_ofNat']
      omega
    have hhigh : (b.toNat + 256 * ofLe bs) / 256 = ofLe bs := by omega
    rw [List.length_cons, ofLe, leBytes, hlow, hhigh, ih]

theorem drop_leBytes (k n x : Nat) : (leBytes n x).drop k = leBytes (n - k) (x / 256 ^ k) := by
  induction k generalizing n x with
  | zero => simp
  | succ k ih =>
    cases n with
    | zero => simp [leBytes]
    | succ n =>
      rw [leBytes, List.drop_succ_cons, ih, Nat.add_sub_add_right, Nat.div_div_eq_div_mul, Nat.pow_succ']

theorem take_leBytes {j n : Nat} (h : j ≤ n) (x : Nat) : (leBytes n x).take j = leBytes j x := by
  induction j generalizing n x with
  | zero => rfl
  | succ j ih =>
    obtain ⟨n, rfl⟩ : ∃ n', n = n' + 1 := ⟨n - 1, by omega⟩
    rw [leBytes, List.take_succ_cons, ih (Nat.le_of_succ_le_succ h), leBytes]

/-! ## Memory -/

/-- The memory from some address on. -/
abbrev Memory := Nat → UInt8

namespace Memory

/-- The `n` bytes at `off`. -/
def read (m : Memory) (off n : Nat) : List UInt8 := (List.range n).map fun i => m (off + i)

/-- `bs` is written at `off`. -/
def write (m : Memory) (off : Nat) (bs : List UInt8) : Memory := fun i =>
  if off ≤ i then (bs[i - off]?).getD (m i) else m i

/-- The `n` bytes at `off`, as a number. -/
def load (m : Memory) (off n : Nat) : Nat := ofLe (m.read off n)

def store (m : Memory) (off n x : Nat) : Memory := m.write off (leBytes n x)

variable {m : Memory} {bs : List UInt8} {off off' n x i : Nat}

@[simp] theorem length_read (m : Memory) (off n : Nat) : (m.read off n).length = n := by simp [read]

theorem write_outside (h : i < off ∨ off + bs.length ≤ i) : m.write off bs i = m i := by
  unfold write
  split
  · rw [List.getElem?_eq_none (by omega), Option.getD_none]
  · rfl

theorem write_inside (h : i < bs.length) : m.write off bs (off + i) = bs[i] := by
  unfold write
  rw [if_pos (Nat.le_add_right off i), Nat.add_sub_cancel_left, List.getElem?_eq_getElem h, Option.getD_some]

/-- Two writes, the second one right after the first. -/
theorem write_append (m : Memory) (off : Nat) (bs cs : List UInt8) :
    (m.write off bs).write (off + bs.length) cs = m.write off (bs ++ cs) := by
  funext i
  unfold write
  by_cases hoff : off ≤ i
  · by_cases hbs : i - off < bs.length
    · rw [if_neg (by omega), if_pos hoff, if_pos hoff, List.getElem?_append_left hbs]
    · have hnone : bs[i - off]? = none := List.getElem?_eq_none (by omega)
      rw [if_pos (by omega), if_pos hoff, if_pos hoff, List.getElem?_append_right (by omega), hnone, Option.getD_none,
        Nat.sub_add_eq]
  · rw [if_neg (by omega), if_neg hoff, if_neg hoff]

theorem read_congr {m' : Memory} (h : ∀ i < n, m (off + i) = m' (off + i)) : m.read off n = m'.read off n :=
  List.map_congr_left fun i hi => h i (List.mem_range.1 hi)

/-- What is read from elsewhere. -/
theorem read_write_outside (h : off' + n ≤ off ∨ off + bs.length ≤ off') :
    (m.write off bs).read off' n = m.read off' n :=
  read_congr fun i hi => write_outside (by omega)

/-- What is read back. -/
theorem read_write_inside (m : Memory) (off : Nat) (h : off' + n ≤ bs.length) :
    (m.write off bs).read (off + off') n = (bs.drop off').take n := by
  apply List.ext_getElem
  · simp
    omega
  · intro i hi _
    rw [length_read] at hi
    simp only [read, List.getElem_map, List.getElem_range, List.getElem_take, List.getElem_drop]
    rw [Nat.add_assoc]
    exact write_inside (by omega)

theorem load_write_outside (h : off' + n ≤ off ∨ off + bs.length ≤ off') :
    (m.write off bs).load off' n = m.load off' n := congrArg ofLe (read_write_outside h)

/-- Some of the bytes of a number. -/
theorem load_store_inside (m : Memory) (off x : Nat) (h : off' + i ≤ n) :
    (m.store off n x).load (off + off') i = x / 256 ^ off' % 256 ^ i := by
  rw [load, store, read_write_inside m off (by rwa [length_leBytes]), drop_leBytes, take_leBytes (by omega),
    ofLe_leBytes]

theorem load_store (m : Memory) (off n x : Nat) : (m.store off n x).load off n = x % 256 ^ n := by
  have h := load_store_inside m off x (Nat.le_of_eq (Nat.zero_add n))
  rwa [Nat.add_zero, Nat.pow_zero, Nat.div_one] at h

theorem load_eq_iff (hx : x < 256 ^ n) : m.load off n = x ↔ m.read off n = leBytes n x := by
  constructor
  · intro h
    have hbytes := leBytes_ofLe (m.read off n)
    rwa [length_read, ← load, h, eq_comm] at hbytes
  · intro h
    rw [load, h, ofLe_leBytes, Nat.mod_eq_of_lt hx]

theorem read_append (m : Memory) (off n k : Nat) : m.read off (n + k) = m.read off n ++ m.read (off + n) k := by
  simp only [read, List.range_add, List.map_append, List.map_map, Function.comp_def, Nat.add_assoc]

theorem drop_take_read {k j : Nat} (h : k + j ≤ n) : ((m.read off n).drop k).take j = m.read (off + k) j := by
  obtain ⟨r, rfl⟩ : ∃ r, n = k + (j + r) := ⟨n - k - j, by omega⟩
  rw [read_append, List.drop_left' (length_read ..), read_append, List.take_left' (length_read ..)]

/-- What is written, and the rest of what was there. -/
theorem read_write_append (h : bs.length ≤ n) : (m.write off bs).read off n = bs ++ (m.read off n).drop bs.length := by
  obtain ⟨k, rfl⟩ := Nat.exists_eq_add_of_le h
  have hin := read_write_inside m off (Nat.le_of_eq (Nat.zero_add bs.length))
  rw [Nat.add_zero, List.drop_zero, List.take_length] at hin
  rw [read_append, hin, read_write_outside (.inr (Nat.le_refl _)), read_append, List.drop_left' (length_read ..)]

/-- A write that reaches beyond `off'` changes nothing there if it writes what is there already. -/
theorem read_write_eq_iff (h : off ≤ off') (hlen : off + bs.length ≤ off' + n) :
    (m.write off bs).read off' n = m.read off' n ↔ bs.drop (off' - off) <+: m.read off' n := by
  rw [List.prefix_iff_getElem?]
  constructor
  · intro heq i hi
    rw [List.length_drop] at hi
    have hin : off' + i = off + (off' - off + i) := by omega
    rw [← heq, List.getElem?_eq_getElem (by rw [length_read]; omega), List.getElem_drop]
    simp only [read, List.getElem_map, List.getElem_range]
    rw [hin, write_inside (by omega)]
  · intro hpre
    apply List.ext_getElem
    · rw [length_read, length_read]
    · intro i hi hi'
      by_cases hin : off' - off + i < bs.length
      · have hb := hpre i (by rw [List.length_drop]; omega)
        rw [List.getElem?_eq_getElem hi', List.getElem_drop, Option.some.injEq] at hb
        have hoff : off' + i = off + (off' - off + i) := by omega
        rw [hb]
        simp only [read, List.getElem_map, List.getElem_range]
        rw [hoff, write_inside hin]
      · simp only [read, List.getElem_map, List.getElem_range]
        exact write_outside (by omega)

theorem load_store_outside (h : off' + i ≤ off ∨ off + n ≤ off') : (m.store off n x).load off' i = m.load off' i :=
  load_write_outside (by rwa [length_leBytes])

end Memory

/-! ## Strings -/

structure CString where
  chars : List UInt8
  nonzero : 0 ∉ chars
  deriving DecidableEq

namespace CString

/-- With the zero after it. -/
def stored (s : CString) : List UInt8 := s.chars ++ [0]

/-- The string that `p` points to. -/
def pointed (p : List UInt8) : List UInt8 := p.takeWhile (· ≠ 0)

/-- The memory after the string that `p` points to; `none` if there is no zero. -/
def skip : List UInt8 → Option (List UInt8)
  | [] => none
  | b :: bs => if b = 0 then some bs else skip bs

variable {s : CString} {ss : List CString} {p rest : List UInt8}

theorem length_stored (s : CString) : s.stored.length = s.chars.length + 1 := by simp [stored]

theorem count_stored (s : CString) : s.stored.count 0 = 1 := by
  rw [stored, List.count_append, List.count_eq_zero.2 s.nonzero]
  rfl

theorem pointed_append {l : List UInt8} (h : 0 ∉ l) (p : List UInt8) : pointed (l ++ 0 :: p) = l := by
  unfold pointed
  rw [List.takeWhile_append_of_pos]
  · simp
  · intro b hb
    simpa using ne_of_mem_of_not_mem hb h

theorem skip_append {l : List UInt8} (h : 0 ∉ l) (p : List UInt8) : skip (l ++ 0 :: p) = some p := by
  induction l with
  | nil => rfl
  | cons b l ih =>
    rw [List.cons_append, skip, if_neg fun hb => h (List.mem_cons.2 (.inl hb.symm))]
    exact ih fun hl => h (List.mem_cons_of_mem b hl)

@[simp] theorem pointed_stored (s : CString) (p : List UInt8) : pointed (s.stored ++ p) = s.chars := by
  rw [stored, List.append_assoc]
  exact pointed_append s.nonzero p

@[simp] theorem skip_stored (s : CString) (p : List UInt8) : skip (s.stored ++ p) = some p := by
  rw [stored, List.append_assoc]
  exact skip_append s.nonzero p

/-! ## Vectors of strings -/

/-- The strings one after the other. -/
def packed (ss : List CString) : List UInt8 := ss.flatMap stored

@[simp] theorem packed_nil : packed [] = [] := rfl

@[simp] theorem packed_cons (s : CString) (ss : List CString) : packed (s :: ss) = s.stored ++ packed ss := rfl

/-- There is one zero for each string. -/
theorem count_packed (ss : List CString) : (packed ss).count 0 = ss.length := by
  induction ss with
  | nil => rfl
  | cons s ss ih =>
    rw [packed_cons, List.count_append, ih, count_stored, List.length_cons]
    omega

theorem length_le_packed (ss : List CString) : ss.length ≤ (packed ss).length :=
  count_packed ss ▸ List.count_le_length

/-- What was packed can be told. -/
theorem packed_injective : Function.Injective packed := by
  intro ss
  induction ss with
  | nil =>
    rintro (_ | ⟨s, ss'⟩) h
    · rfl
    · have hlen := congrArg List.length h
      rw [packed_cons, List.length_append, length_stored, packed_nil, List.length_nil] at hlen
      omega
  | cons s ss ih =>
    rintro (_ | ⟨s', ss'⟩) h
    · have hlen := congrArg List.length h
      rw [packed_cons, List.length_append, length_stored, packed_nil, List.length_nil] at hlen
      omega
    · have hs : s.chars = s'.chars := by simpa using congrArg pointed h
      have hss : packed ss = packed ss' := by simpa using congrArg skip h
      obtain rfl : s = s' := by
        cases s
        cases s'
        cases hs
        rfl
      rw [ih hss]

/-- Any bytes are packed strings, and what comes after the last zero. -/
theorem exists_packed (buf : List UInt8) : ∃ ss tail, buf = packed ss ++ tail ∧ 0 ∉ tail := by
  induction buf with
  | nil => exact ⟨[], [], rfl, List.not_mem_nil⟩
  | cons b buf ih =>
    obtain ⟨ss, tail, rfl, htail⟩ := ih
    by_cases hb : b = 0
    · exact ⟨⟨[], List.not_mem_nil⟩ :: ss, tail, by rw [hb]; rfl, htail⟩
    · cases ss with
      | nil => exact ⟨[], b :: tail, rfl, by simp [htail, Ne.symm hb]⟩
      | cons s ss => exact ⟨⟨b :: s.chars, by simp [s.nonzero, Ne.symm hb]⟩ :: ss, tail, rfl, htail⟩

/-- If the last byte is a zero, there is nothing after it. -/
theorem tail_eq_nil {tail : List UInt8} (htail : 0 ∉ tail)
    (h : ∀ hne : packed ss ++ tail ≠ [], (packed ss ++ tail).getLast hne = 0) : tail = [] := by
  by_contra ht
  have hlast := h (List.append_ne_nil_of_right_ne_nil _ ht)
  rw [List.getLast_append_of_ne_nil _ ht] at hlast
  exact htail (hlast ▸ List.getLast_mem ht)

theorem getLast_packed (ss : List CString) (hne : packed ss ≠ []) : (packed ss).getLast hne = 0 := by
  induction ss with
  | nil => exact absurd rfl hne
  | cons s ss ih =>
    by_cases hss : packed ss = []
    · simp [hss, stored]
    · rw [← ih hss]
      exact List.getLast_append_of_ne_nil _ hss

end CString
