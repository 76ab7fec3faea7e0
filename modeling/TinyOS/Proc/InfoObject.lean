import TinyOS.Lib.Bytes
import TinyOS.Proc.Info

/-!
# The object of an info stream, byte by byte

`sys_OpenInfo` and `procinfo_read` on the memory of a `procinfo_CB`. The arguments of a process are copied over a field of
128 bytes, and the four bytes after it belong to no field; then comes `PT_cursor`.

- `readObject_of_found`: a read that finds a used PCB copies its arguments over the rest of the record;
- `readObject_refines`: as long as the arguments fit in the field, this is `procinfoRead`.
-/

namespace TinyOS.Proc

open Streams

/-! ## The layout -/

/-- The fields of a `procinfo_CB` that are numbers. -/
inductive InfoField
  | pid
  | ppid
  | alive
  | threadCount
  | mainTask
  | argl
  | ptCursor
  deriving DecidableEq, Repr

namespace InfoField

def offset : InfoField → Nat
  | pid => 0
  | ppid => 4
  | alive => 8
  | threadCount => 16
  | mainTask => 24
  | argl => 32
  | ptCursor => 168

def size : InfoField → Nat
  | threadCount | mainTask => 8
  | _ => 4

/-- `f` ends where `g` begins, or before. -/
theorem offset_disjoint {f g : InfoField} (h : f ≠ g) :
    f.offset + f.size ≤ g.offset ∨ g.offset + g.size ≤ f.offset := by
  revert h
  cases f <;> cases g <;> decide

end InfoField

/-- The offset of `args`. -/
def argsOffset : Nat := 36

/-- `sizeof(procinfo)`. -/
def infoSize : Nat := 168

/-- `sizeof(procinfo_CB)`. -/
def objectSize : Nat := 176

namespace Info

def get (m : Memory) (f : InfoField) : Nat := m.load f.offset f.size

def put (m : Memory) (f : InfoField) (x : Nat) : Memory := m.store f.offset f.size x

/-- An `int` in memory. -/
def int (x : Int) : Nat := (BitVec.ofInt 32 x).toNat

def cursor (m : Memory) : Int := (BitVec.ofNat 32 (get m .ptCursor)).toInt

variable {m m' : Memory} {f g : InfoField} {x : Nat}

theorem get_put (m : Memory) (f : InfoField) (x : Nat) : get (put m f x) f = x % 256 ^ f.size := Memory.load_store ..

theorem get_put_of_ne (h : f ≠ g) (m : Memory) (x : Nat) : get (put m f x) g = get m g :=
  Memory.load_store_outside (InfoField.offset_disjoint h.symm)

theorem get_lt (m : Memory) (f : InfoField) : get m f < 256 ^ f.size := by
  have hbytes := ofLe_lt (m.read f.offset f.size)
  rwa [Memory.length_read] at hbytes

/-- The cursor as a number, as long as it is one. -/
theorem cursor_eq_iff (h : x < 2 ^ 31) : cursor m = x ↔ get m .ptCursor = x := by
  have hlt : get m .ptCursor < 2 ^ 32 := get_lt m .ptCursor
  rw [cursor, BitVec.toInt_eq_toNat_cond, BitVec.toNat_ofNat, Nat.mod_eq_of_lt hlt]
  split <;> omega

/-- What comes after a field. -/
theorem read_put {off n : Nat} (h : f.offset + f.size ≤ off) (m : Memory) (x : Nat) :
    (put m f x).read off n = m.read off n :=
  Memory.read_write_outside (by rw [length_leBytes]; exact .inr h)

/-- The arguments are between the fields. -/
theorem put_args (m : Memory) (f : InfoField) (x : Nat) :
    (put m f x).read argsOffset maxArgsSize = m.read argsOffset maxArgsSize :=
  Memory.read_write_outside (by rw [length_leBytes]; cases f <;> decide)

/-- The object of a new stream, in what `xmalloc` returns. -/
def openObject (junk : Memory) : Memory :=
  put (put (put (put (put (put junk .ptCursor 0) .pid 0) .ppid 0) .alive 0) .threadCount 0) .argl 0

end Info

namespace State

open Info

/-- The record before the loop, as in `enterPcb`. -/
def enterObject (s : State) (p : Pid) (m : Memory) : Memory :=
  let m := put (put m .pid (int (getPid (some p)))) .ppid (int (getPid (s.tree.parent p)))
  match s.tree.pstate p with
  | .free => m
  | .zombie => put m .alive 0
  | .alive => put m .alive 1

/-- `memcpy` of as many bytes of `args` as `argl` says; `none` where it reads past the end of the arguments or writes past
that of the object. -/
def copyObject (x : Pcb) (m : Memory) : Option Memory :=
  match x.args with
  | none => some m
  | some args =>
    if 0 ≤ x.argl ∧ x.argl.toNat ≤ args.length ∧ argsOffset + x.argl.toNat ≤ objectSize then
      some (m.write argsOffset (args.take x.argl.toNat))
    else none

/-- The rest of the record, from the PCB that the loop has found. -/
def fillObject (s : State) (p : Pid) (m : Memory) : Option Memory :=
  let x := s.pcb p
  copyObject x (put (put (put m .threadCount (BitVec.ofInt 64 x.threadCounter).toNat) .mainTask (x.mainTask.getD 0)) .argl
    (int x.argl))

/-- The PCB that the loop finds, from the one at the cursor on. -/
def found (s : State) (m : Memory) : Option Pid :=
  if h : 0 ≤ cursor m ∧ cursor m < maxProc then s.skipFree ⟨(cursor m).toNat, by omega⟩ else none

/-- `procinfo_read`: the bytes it returns, or `none` for `-1`, and the object after it; undefined also if the cursor is
negative. -/
def readObject (s : State) (bufNull : Bool) (m : Memory) : Option (Option (List UInt8) × Memory) :=
  if cursor m ≥ maxProc then some (none, m)
  else if h : 0 ≤ cursor m ∧ cursor m < maxProc then
    let p : Pid := ⟨(cursor m).toNat, by omega⟩
    match s.skipFree p with
    | none => some (none, put (s.enterObject p m) .ptCursor maxProc)
    | some q =>
      (s.fillObject q (put (s.enterObject p m) .ptCursor q.val)).map fun m =>
        if bufNull then (none, m) else (some (m.read 0 infoSize), put m .ptCursor (get m .ptCursor + 1))
  else none

variable {s : State} {p q : Pid} {m m' : Memory}

/-! ## One read -/

theorem enterObject_read {off n : Nat} (h : 12 ≤ off) (s : State) (p : Pid) (m : Memory) :
    (s.enterObject p m).read off n = m.read off n := by
  have hput : ∀ f : InfoField, f.offset + f.size ≤ 12 → ∀ m x, (put m f x).read off n = m.read off n :=
    fun f hf m x => read_put (hf.trans h) m x
  unfold enterObject
  dsimp only
  split
  · rw [hput .ppid (by decide), hput .pid (by decide)]
  · rw [hput .alive (by decide), hput .ppid (by decide), hput .pid (by decide)]
  · rw [hput .alive (by decide), hput .ppid (by decide), hput .pid (by decide)]

/-- The object when the record is complete but for the arguments. -/
def headed (s : State) (p q : Pid) (m : Memory) : Memory :=
  let x := s.pcb q
  put (put (put (put (s.enterObject p m) .ptCursor q.val) .threadCount (BitVec.ofInt 64 x.threadCounter).toNat) .mainTask
    (x.mainTask.getD 0)) .argl (int x.argl)

/-- The cursor of it, and what comes after the cursor. -/
theorem headed_read (s : State) (p q : Pid) (m : Memory) :
    (s.headed p q m).read 168 8 = leBytes 4 q.val ++ m.read 172 4 := by
  have hq : q.val < 256 ^ 4 := q.isLt.trans (by decide)
  have hcursor : (put (s.enterObject p m) .ptCursor q.val).read 168 4 = leBytes 4 q.val := by
    rw [← Memory.load_eq_iff hq]
    exact (get_put _ .ptCursor _).trans (Nat.mod_eq_of_lt hq)
  have htail : (put (s.enterObject p m) .ptCursor q.val).read 172 4 = m.read 172 4 := by
    rw [read_put (by decide), enterObject_read (by decide)]
  unfold headed
  dsimp only
  rw [read_put (by decide), read_put (by decide), read_put (by decide), Memory.read_append _ 168 4 4, hcursor, htail]

theorem found_eq (h : s.found m = some q) : ∃ hlt : (cursor m).toNat < maxProc, 0 ≤ cursor m ∧ cursor m < maxProc ∧
    s.skipFree ⟨(cursor m).toNat, hlt⟩ = some q := by
  unfold found at h
  split at h
  · rename_i hc
    exact ⟨by omega, hc.1, hc.2, h⟩
  · cases h

/-- The end of a read. -/
def finishRead (bufNull : Bool) (m : Memory) : Option (List UInt8) × Memory :=
  if bufNull then (none, m) else (some (m.read 0 infoSize), put m .ptCursor (get m .ptCursor + 1))

/-- The read that finds `q`. -/
theorem readObject_of_found (h : s.found m = some q) (bufNull : Bool) :
    ∃ p, s.readObject bufNull m = (copyObject (s.pcb q) (s.headed p q m)).map (finishRead bufNull) := by
  obtain ⟨hlt, h0, hc, hq⟩ := found_eq h
  refine ⟨⟨(cursor m).toNat, hlt⟩, ?_⟩
  rw [readObject, if_neg (not_le.2 hc), dif_pos ⟨h0, hc⟩]
  simp only [hq]
  rfl

/-- The read that finds nothing, with the cursor in the table or at its end. -/
theorem readObject_of_not_found (h : s.found m = none) (h0 : 0 ≤ cursor m) (hc : cursor m ≤ maxProc) (bufNull : Bool) :
    ∃ m', s.readObject bufNull m = some (none, m') ∧ cursor m' = maxProc := by
  unfold readObject
  by_cases hend : cursor m ≥ maxProc
  · rw [if_pos hend]
    exact ⟨m, rfl, by omega⟩
  · have hlt : 0 ≤ cursor m ∧ cursor m < maxProc := ⟨h0, not_le.1 hend⟩
    rw [found, dif_pos hlt] at h
    rw [if_neg hend, dif_pos hlt]
    simp only [h]
    refine ⟨_, rfl, (cursor_eq_iff (x := maxProc) (by decide)).2 ?_⟩
    exact (get_put _ .ptCursor _).trans (by decide)

end State

/-! ## The record of `procinfoRead` -/

namespace Info

theorem int_mod (x : Int) : int x % 256 ^ 4 = int x := Nat.mod_eq_of_lt (BitVec.ofInt 32 x).isLt

/-- The number in a field of the object. -/
def fieldOf (cb : ProcinfoCb) : InfoField → Nat
  | .pid => int cb.processInfo.pid
  | .ppid => int cb.processInfo.ppid
  | .alive => int cb.processInfo.alive
  | .threadCount => cb.processInfo.threadCount.toNat
  | .mainTask => cb.processInfo.mainTask.getD 0 % 256 ^ 8
  | .argl => int cb.processInfo.argl
  | .ptCursor => cb.ptCursor

/-- The object `cb` is in memory. -/
structure Holds (m : Memory) (cb : ProcinfoCb) : Prop where
  field : ∀ f, get m f = fieldOf cb f
  args : m.read argsOffset maxArgsSize = List.ofFn cb.processInfo.args

variable {cb cb' : ProcinfoCb} {s : State} {q : Pid} {m : Memory}

/-- One field is written. -/
theorem Holds.put (h : Holds m cb) (f : InfoField) (cb' : ProcinfoCb) {x : Nat} (hf : fieldOf cb' f = x % 256 ^ f.size)
    (hg : ∀ g, f ≠ g → fieldOf cb' g = fieldOf cb g) (hargs : cb'.processInfo.args = cb.processInfo.args) :
    Holds (put m f x) cb' := by
  refine ⟨fun g => ?_, ?_⟩
  · by_cases hgf : f = g
    · subst hgf
      rw [get_put, hf]
    · rw [get_put_of_ne hgf, h.field, hg g hgf]
  · rw [put_args, h.args, hargs]

/-- The arguments are written. -/
theorem Holds.write (h : Holds m cb) {args : List UInt8} (hlen : args.length ≤ maxArgsSize) :
    Holds (m.write argsOffset args) ⟨{ cb.processInfo with args := fun i => (args[i.val]?).getD (cb.processInfo.args i) },
      cb.ptCursor⟩ := by
  refine ⟨fun f => ?_, ?_⟩
  · have hget : get (m.write argsOffset args) f = get m f := by
      refine Memory.load_write_outside ?_
      simp only [maxArgsSize, argsOffset] at hlen ⊢
      cases f <;> simp only [InfoField.offset, InfoField.size] <;> omega
    rw [hget, h.field]
    cases f <;> rfl
  · apply List.ext_getElem
    · rw [Memory.length_read, List.length_ofFn]
    · intro i hi hi'
      rw [Memory.length_read] at hi
      have hold : m (argsOffset + i) = cb.processInfo.args ⟨i, hi⟩ := by
        have hread := congrArg (·[i]?) h.args
        simpa [Memory.read, hi] using hread
      rw [List.getElem_ofFn]
      simp only [Memory.read, List.getElem_map, List.getElem_range]
      by_cases hin : i < args.length
      · rw [Memory.write_inside hin, List.getElem?_eq_getElem hin, Option.getD_some]
      · rw [Memory.write_outside (by omega), List.getElem?_eq_none (by omega), Option.getD_none, hold]

theorem Holds.enterObject (h : Holds m cb) (s : State) (p : Pid) :
    Holds (s.enterObject p m) ⟨s.enterPcb p cb.processInfo, cb.ptCursor⟩ := by
  have hpid : Holds (Info.put m .pid (int (getPid (some p))))
      ⟨{ cb.processInfo with pid := getPid (some p) }, cb.ptCursor⟩ :=
    h.put .pid _ (int_mod _).symm (fun g hg => by cases g <;> first | rfl | exact absurd rfl hg) rfl
  have hppid := hpid.put .ppid ⟨{ cb.processInfo with pid := getPid (some p), ppid := getPid (s.tree.parent p) },
    cb.ptCursor⟩ (int_mod _).symm (fun g hg => by cases g <;> first | rfl | exact absurd rfl hg) rfl
  unfold State.enterObject State.enterPcb
  cases s.tree.pstate p with
  | free => exact hppid
  | zombie | alive => exact hppid.put .alive _ rfl (fun g hg => by cases g <;> first | rfl | exact absurd rfl hg) rfl

theorem Holds.fillObject (h : Holds m cb) (hfit : s.ArgsFitIn q) :
    ∃ r m', s.fillPcb q cb.processInfo = some r ∧ s.fillObject q m = some m' ∧ Holds m' ⟨r, cb.ptCursor⟩ := by
  have hcount : Holds (Info.put m .threadCount (BitVec.ofInt 64 (s.pcb q).threadCounter).toNat)
      ⟨{ cb.processInfo with threadCount := BitVec.ofInt 64 (s.pcb q).threadCounter }, cb.ptCursor⟩ :=
    h.put .threadCount _ (Nat.mod_eq_of_lt (BitVec.ofInt 64 _).isLt).symm
      (fun g hg => by cases g <;> first | rfl | exact absurd rfl hg) rfl
  have hmain := hcount.put .mainTask ⟨{ cb.processInfo with
    threadCount := BitVec.ofInt 64 (s.pcb q).threadCounter, mainTask := (s.pcb q).mainTask }, cb.ptCursor⟩ rfl
      (fun g hg => by cases g <;> first | rfl | exact absurd rfl hg) rfl
  have hargl := hmain.put .argl ⟨{ cb.processInfo with
    threadCount := BitVec.ofInt 64 (s.pcb q).threadCounter, mainTask := (s.pcb q).mainTask,
    argl := (s.pcb q).argl }, cb.ptCursor⟩ (int_mod _).symm
      (fun g hg => by cases g <;> first | rfl | exact absurd rfl hg) rfl
  cases hargs : (s.pcb q).args with
  | none =>
    simp only [State.fillPcb, State.fillObject, State.copyObject, hargs]
    exact ⟨_, _, rfl, rfl, hargl⟩
  | some args =>
    obtain ⟨hlen, hmax⟩ := hfit args hargs
    have hall : args.take (s.pcb q).argl.toNat = args := List.take_of_length_le (by omega)
    have hdef : 0 ≤ (s.pcb q).argl ∧ (s.pcb q).argl.toNat ≤ args.length ∧
        argsOffset + (s.pcb q).argl.toNat ≤ objectSize := by
      simp only [maxArgsSize, argsOffset, objectSize] at hmax ⊢
      omega
    simp only [State.fillPcb, State.fillObject, State.copyObject, hargs, copyArgs, if_pos (And.intro hlen hmax),
      if_pos hdef, Option.map_some, hall]
    exact ⟨_, _, rfl, rfl, hargl.write hmax⟩

/-- As long as the arguments fit in a record, the object in memory is that of `procinfoRead`; the bytes returned are the
beginning of it. -/
theorem readObject_refines (h : Holds m cb) (hc : cb.ptCursor ≤ maxProc) (hfit : s.ArgsFit) (bufNull : Bool) :
    ∃ r cb' m', s.procinfoRead bufNull cb = some (r, cb') ∧ Holds m' cb' ∧
      s.readObject bufNull m = some (r.map fun _ => m'.read 0 infoSize, m') := by
  have hcursor : cursor m = cb.ptCursor :=
    (cursor_eq_iff (Nat.lt_of_le_of_lt hc (by decide))).2 (h.field .ptCursor)
  unfold State.procinfoRead State.readObject
  by_cases hlt : cb.ptCursor < maxProc
  · have henter := h.enterObject s ⟨cb.ptCursor, hlt⟩
    rw [dif_pos hlt, if_neg (by omega), dif_pos (by omega)]
    simp only [hcursor, Int.toNat_natCast]
    cases hq : s.skipFree ⟨cb.ptCursor, hlt⟩ with
    | none =>
      exact ⟨none, _, _, rfl,
        henter.put .ptCursor _ rfl (fun g hg => by cases g <;> first | rfl | exact absurd rfl hg) rfl, rfl⟩
    | some q =>
      have hfitq : s.ArgsFitIn q := by
        rcases State.skipFree_spec s ⟨cb.ptCursor, hlt⟩ with ⟨hnone, -⟩ | ⟨q', hq', -, hused, -⟩
        · cases hnone.symm.trans hq
        · cases hq'.symm.trans hq
          exact hfit q hused
      obtain ⟨r, m₁, hr, hm₁, h₁⟩ := (henter.put .ptCursor ⟨_, q.val⟩
        (Nat.mod_eq_of_lt (q.isLt.trans (by decide))).symm
        (fun g hg => by cases g <;> first | rfl | exact absurd rfl hg) rfl).fillObject hfitq
      simp only [hr, hm₁, Option.map_some]
      cases bufNull with
      | true => exact ⟨none, _, m₁, rfl, h₁, rfl⟩
      | false =>
        have hget : get m₁ .ptCursor = q.val := h₁.field .ptCursor
        have hread : (put m₁ .ptCursor (get m₁ .ptCursor + 1)).read 0 infoSize = m₁.read 0 infoSize :=
          Memory.read_write_outside (.inl (by decide))
        refine ⟨some r, ⟨r, q.val + 1⟩, _, rfl, h₁.put .ptCursor _ ?_
          (fun g hg => by cases g <;> first | rfl | exact absurd rfl hg) rfl, by rw [← hread]; rfl⟩
        rw [hget]
        exact (Nat.mod_eq_of_lt (Nat.lt_of_le_of_lt q.isLt (by decide))).symm
  · rw [dif_neg hlt, if_pos (by omega)]
    exact ⟨none, cb, m, rfl, h, rfl⟩

end Info

end TinyOS.Proc
