import TinyOS.Lib.Lts
import TinyOS.Proc.InfoObject

/-!
# Reading an info stream to its end

The reads of one stream, with any process table at each.

- `orderly_iff`: a read leaves the cursor where it should exactly if the arguments, where they are longer than the record,
  happen to have the bytes that are there already;
- `info_ends_iff`: so the reads of a stream come to an end;
- `info_without_end`: otherwise they need not.
-/

namespace TinyOS.Proc

open Streams

/-! ## One read -/

/-- A process table in which `argl` is the length of the arguments, as `sys_Exec` stores them. -/
structure ExecTable where
  state : State
  stored : ∀ p args, (state.pcb p).args = some args → (state.pcb p).argl = args.length

/-- A read of the stream, when the table is this. -/
structure InfoRead where
  table : ExecTable
  bufNull : Bool

namespace InfoRead

open Info State

def apply (a : InfoRead) (m : Memory) : Option (Option (List UInt8) × Memory) := a.table.state.readObject a.bufNull m

def found (a : InfoRead) (m : Memory) : Option Pid := a.table.state.found m

/-- The read leaves the cursor behind the PCB that it reports, or at it if it is not given a buffer, and all that comes
after the cursor as it was. -/
def Orderly (m : Memory) (a : InfoRead) : Prop :=
  ∀ q, a.found m = some q → ∃ r m', a.apply m = some (r, m') ∧ r.isSome = !a.bufNull ∧
    cursor m' = q.val + (if a.bufNull then 0 else 1) ∧ m'.read 172 4 = m.read 172 4

/-- If the arguments go beyond the record, then with the bytes of the cursor and those that come after it. -/
def Fits (m : Memory) (a : InfoRead) : Prop :=
  ∀ q args, a.found m = some q → (a.table.state.pcb q).args = some args →
    args.drop 132 <+: leBytes 4 q.val ++ m.read 172 4

variable {a : InfoRead} {m m' : Memory} {q : Pid} {r : Option (List UInt8)}

/-- The cursor, and what comes after it. -/
theorem read_cursor_iff {n : Nat} (hn : n < 2 ^ 32) (m : Memory) (tail : List UInt8) :
    m.read 168 8 = leBytes 4 n ++ tail ↔ get m .ptCursor = n ∧ m.read 172 4 = tail := by
  have hget : get m .ptCursor = n ↔ m.read 168 4 = leBytes 4 n := Memory.load_eq_iff hn
  rw [Memory.read_append m 168 4 4, hget]
  constructor
  · intro h
    exact List.append_inj h (by rw [Memory.length_read, length_leBytes])
  · rintro ⟨h, rfl⟩
    rw [h]

/-- The end of a read is right if the cursor is at `q` before. -/
theorem finishRead_iff (bufNull : Bool) (m : Memory) (q : Pid) (tail : List UInt8) :
    ((finishRead bufNull m).1.isSome = !bufNull ∧ cursor (finishRead bufNull m).2 = q.val + (if bufNull then 0 else 1) ∧
      (finishRead bufNull m).2.read 172 4 = tail) ↔ m.read 168 8 = leBytes 4 q.val ++ tail := by
  have hq : q.val < 65536 := q.isLt
  rw [read_cursor_iff (by omega)]
  cases bufNull with
  | true =>
    have hcursor := cursor_eq_iff (m := m) (x := q.val) (by omega)
    simp [finishRead, hcursor]
  | false =>
    have hlt : get m .ptCursor < 256 ^ 4 := get_lt m .ptCursor
    have hget : get (put m .ptCursor (get m .ptCursor + 1)) .ptCursor = (get m .ptCursor + 1) % 256 ^ 4 :=
      get_put m .ptCursor _
    have hcursor := cursor_eq_iff (m := put m .ptCursor (get m .ptCursor + 1)) (x := q.val + 1) (by omega)
    have htail : (put m .ptCursor (get m .ptCursor + 1)).read 172 4 = m.read 172 4 := read_put (by decide) m _
    rw [hget] at hcursor
    have hone : (get m .ptCursor + 1) % 256 ^ 4 = q.val + 1 ↔ get m .ptCursor = q.val := by omega
    simp only [finishRead, Bool.false_eq_true, if_false, Option.isSome_some, Bool.not_false, true_and, htail]
    rw [← hone, ← hcursor]
    push_cast
    rfl

/-- With the object after the `memcpy`, if that is defined. -/
theorem exists_finishRead_iff {o : Option Memory} (bufNull : Bool) (q : Pid) (tail : List UInt8) :
    (∃ r m', o.map (finishRead bufNull) = some (r, m') ∧ r.isSome = !bufNull ∧
      cursor m' = q.val + (if bufNull then 0 else 1) ∧ m'.read 172 4 = tail) ↔
    ∃ m, o = some m ∧ m.read 168 8 = leBytes 4 q.val ++ tail := by
  cases o with
  | none => simp
  | some m =>
    simp only [Option.map_some, Option.some.injEq, exists_eq_left', ← finishRead_iff bufNull m q tail, Prod.ext_iff]
    constructor
    · rintro ⟨r, m', ⟨rfl, rfl⟩, h⟩
      exact h
    · exact fun h => ⟨_, _, ⟨rfl, rfl⟩, h⟩

/-- The `memcpy` leaves the cursor of `headed` as it is. -/
theorem copyObject_iff {x : Pcb} (hx : ∀ args, x.args = some args → x.argl = args.length) (m : Memory) :
    (∃ m', copyObject x m = some m' ∧ m'.read 168 8 = m.read 168 8) ↔
      ∀ args, x.args = some args → args.drop 132 <+: m.read 168 8 := by
  unfold copyObject
  cases hargs : x.args with
  | none => simp
  | some args =>
    have hargl := hx args hargs
    simp only [Option.some.injEq, forall_eq']
    by_cases hlen : argsOffset + args.length ≤ objectSize
    · have hall : args.take x.argl.toNat = args := List.take_of_length_le (by omega)
      rw [if_pos ⟨by omega, by omega, by omega⟩, hall]
      simp only [Option.some.injEq, exists_eq_left']
      exact Memory.read_write_eq_iff (by decide) hlen
    · rw [if_neg fun h => hlen (by omega)]
      refine iff_of_false (by simp) fun h => hlen ?_
      have hle := h.length_le
      rw [List.length_drop, Memory.length_read] at hle
      simp only [argsOffset, objectSize]
      omega

/-- A read is orderly exactly if the arguments fit. -/
theorem orderly_iff : Orderly m a ↔ Fits m a := by
  have hat : ∀ q, a.found m = some q → ((∃ r m', a.apply m = some (r, m') ∧ r.isSome = !a.bufNull ∧
      cursor m' = q.val + (if a.bufNull then 0 else 1) ∧ m'.read 172 4 = m.read 172 4) ↔
      ∀ args, (a.table.state.pcb q).args = some args → args.drop 132 <+: leBytes 4 q.val ++ m.read 172 4) := by
    intro q hq
    obtain ⟨p, hread⟩ := readObject_of_found hq a.bufNull
    rw [apply, hread, exists_finishRead_iff, ← headed_read a.table.state p q m]
    exact copyObject_iff (a.table.stored q) _
  exact ⟨fun h q args hq => (hat q hq).1 (h q hq) args, fun h q hq => (hat q hq).2 fun args => h q args hq⟩

/-- So they do if they have 132 bytes or less. -/
theorem fits_of_le (h : ∀ q args, a.found m = some q → (a.table.state.pcb q).args = some args → args.length ≤ 132) :
    Fits m a := by
  intro q args hq hargs
  rw [List.drop_eq_nil_of_le (h q args hq hargs)]
  exact List.nil_prefix

end InfoRead

/-! ## All reads -/

/-- An info stream. -/
def reads : Lts Memory InfoRead where
  init m := ∃ junk, m = Info.openObject junk
  step m a := (a.apply m).map (·.2)

namespace Info

open InfoRead

/-- How many records the reads return. -/
def records (m : Memory) : List InfoRead → Nat
  | [] => 0
  | a :: as =>
    match a.apply m with
    | none => 0
    | some (r, m') => (if r.isSome then 1 else 0) + records m' as

/-- The read returns no record, or the cursor comes nearer to the end. -/
def Increases (m : Memory) (a : InfoRead) : Prop := ∀ r m', a.apply m = some (some r, m') → cursor m < cursor m'

/-- The cursor is in the table, or at its end. -/
def InTable (m : Memory) : Prop := 0 ≤ cursor m ∧ cursor m ≤ maxProc

variable {m m' : Memory} {a : InfoRead} {r : Option (List UInt8)} {as : List InfoRead}

/-- The step lemma. -/
theorem InTable.apply (h : InTable m) (ha : Orderly m a) (hs : a.apply m = some (r, m')) :
    InTable m' ∧ cursor m + (if r.isSome then 1 else 0) ≤ cursor m' := by
  cases hq : a.found m with
  | none =>
    obtain ⟨m₁, hr, hend⟩ := State.readObject_of_not_found hq h.1 h.2 a.bufNull
    cases hr.symm.trans hs
    rw [InTable, hend]
    exact ⟨⟨Int.natCast_nonneg _, le_refl _⟩, by simpa using h.2⟩
  | some q =>
    obtain ⟨r₁, m₁, hr, hsome, hcursor, -⟩ := ha q hq
    cases hr.symm.trans hs
    obtain ⟨hlt, h0, hc, hskip⟩ := State.found_eq hq
    have hle : (cursor m).toNat ≤ q.val := by
      rcases State.skipFree_spec a.table.state ⟨(cursor m).toNat, hlt⟩ with ⟨hnone, -⟩ | ⟨q', hq', hle, -⟩
      · cases hnone.symm.trans hskip
      · cases hq'.symm.trans hskip
        exact Fin.le_def.1 hle
    have hqlt := q.isLt
    rw [InTable, hcursor, hsome]
    cases a.bufNull with
    | true => simp only [if_true, Bool.not_true, Bool.false_eq_true, if_false]; omega
    | false => simp only [Bool.false_eq_true, if_false, Bool.not_false, if_true]; omega

theorem InTable.step (m : Memory) (a : InfoRead) (m' : Memory) (h : InTable m) (ha : Orderly m a)
    (hs : reads.step m a = some m') : InTable m' := by
  obtain ⟨⟨r, m'⟩, hr, rfl⟩ := Option.map_eq_some_iff.1 hs
  exact (h.apply ha hr).1

theorem cursor_openObject (junk : Memory) : cursor (openObject junk) = (0 : Nat) := by
  rw [cursor_eq_iff (by decide)]
  unfold openObject
  rw [get_put_of_ne (by decide), get_put_of_ne (by decide), get_put_of_ne (by decide), get_put_of_ne (by decide),
    get_put_of_ne (by decide), get_put]
  rfl

theorem inTable_openObject (junk : Memory) : InTable (openObject junk) := by
  rw [InTable, cursor_openObject]
  exact ⟨le_refl _, Int.natCast_nonneg _⟩

/-- A record moves the cursor on, and the cursor has not far to go. -/
theorem records_le (h : InTable m) (hall : reads.AllSteps Orderly m as) : cursor m + records m as ≤ maxProc := by
  induction as generalizing m with
  | nil => simpa [records] using h.2
  | cons a as ih =>
    cases hs : a.apply m with
    | none => simpa [records, hs] using h.2
    | some x =>
      obtain ⟨r, m'⟩ := x
      obtain ⟨h', hle⟩ := h.apply hall.1 hs
      have hrest := ih h' (hall.2 m' (Option.map_eq_some_iff.2 ⟨_, hs, rfl⟩))
      have hrecords : records m (a :: as) = (if r.isSome then 1 else 0) + records m' as := by simp only [records, hs]
      rw [hrecords]
      cases r with
      | none =>
        simp only [Option.isSome_none, Bool.false_eq_true, if_false] at hle ⊢
        omega
      | some bytes =>
        simp only [Option.isSome_some, if_true] at hle ⊢
        omega

/-- The reads `as` of a new stream, each with its table: what the loop of a caller needs to come to an end. -/
structure Ends (junk : Memory) (as : List InfoRead) : Prop where
  orderly : reads.AllSteps Orderly (openObject junk) as
  increases : reads.AllSteps Increases (openObject junk) as
  inTable : reads.AllStates InTable (openObject junk) as
  records_le : records (openObject junk) as ≤ maxProc

theorem Ends.of_orderly {junk : Memory} (h : reads.AllSteps Orderly (openObject junk) as) : Ends junk as := by
  have hI := inTable_openObject junk
  refine ⟨h, ?_, ?_, ?_⟩
  · refine Lts.allSteps_of_allSteps InTable.step (fun m a hm ha r m' hs => ?_) hI h
    have := (hm.apply ha hs).2
    simp only [Option.isSome_some, if_true] at this
    omega
  · exact Lts.allStates_of_allSteps InTable.step (fun _ hm => hm) hI h
  · have := Info.records_le hI h
    have := hI.1
    omega

/-- It is enough that the arguments of all processes have 132 bytes or less. -/
theorem Ends.of_short (junk : Memory)
    (h : ∀ a ∈ as, ∀ q args, (a.table.state.pcb q).args = some args → args.length ≤ 132) : Ends junk as :=
  .of_orderly (Lts.allSteps_of_forall_mem (fun a ha _ => orderly_iff.2 (fits_of_le fun q args _ => h a ha q args)) _)

end Info

/-- **The reads of an info stream** leave its cursor in order, and it yields `MAX_PROC` records at most, exactly if the
arguments of no process that it reports go beyond the record (or with the very bytes that are there already). -/
theorem info_ends_iff (junk : Memory) (as : List InfoRead) :
    Info.Ends junk as ↔ reads.AllSteps InfoRead.Fits (Info.openObject junk) as := by
  constructor
  · intro h
    exact Lts.allSteps_of_allSteps (I := fun _ => True) (fun _ _ _ _ _ _ => trivial)
      (fun m a _ ha => InfoRead.orderly_iff.1 ha) trivial h.orderly
  · intro h
    exact .of_orderly (Lts.allSteps_of_allSteps (I := fun _ => True) (fun _ _ _ _ _ _ => trivial)
      (fun m a _ ha => InfoRead.orderly_iff.2 ha) trivial h)

/-! ## A stream without end -/

/-- The processes 0 and 1, the latter with these arguments. -/
def startedWith (args : List UInt8) : ExecTable where
  state := { State.tableOf (fun p => if p.val ≤ 1 then .alive else .free) with
    pcb := fun p => { State.initial.pcb p with
      args := if p = initPid then some args else none
      argl := if p = initPid then args.length else 0 } }
  stored p args' h := by
    dsimp only at h ⊢
    split at h
    · cases h
      rename_i hp
      rw [if_pos hp]
    · cases h

namespace Info

open InfoRead

theorem found_of_firstInUse {s : State} {m : Memory} {q : Pid} {c : Nat} (hm : cursor m = c) (hq : s.FirstInUse c q) :
    s.found m = some q := by
  have hlt : c < maxProc := hq.1.trans_lt q.isLt
  unfold State.found
  rw [dif_pos (by omega)]
  simp only [hm, Int.toNat_natCast]
  rcases State.skipFree_spec s ⟨c, hlt⟩ with ⟨-, hall⟩ | ⟨u, hu, hle, hused, hall⟩
  · exact absurd hq.2.1 (hall q (Fin.le_def.2 hq.1))
  · rw [hu, hq.unique ⟨Fin.le_def.1 hle, hused, fun v hv => hall v (Fin.le_def.2 hv)⟩]

theorem found_of_cursor {s : State} {m : Memory} {q : Pid} (hm : cursor m = q.val) (hq : s.InUse q) :
    s.found m = some q :=
  found_of_firstInUse hm ⟨le_refl _, hq, fun _ hu hlt => absurd hlt (not_lt.2 (Fin.le_def.2 hu))⟩

/-- A read of process 1 that puts the cursor back. -/
theorem apply_zeros {m : Memory} (hm : cursor m = 1) :
    ∃ r m', (InfoRead.mk (startedWith (.replicate 136 0)) false).apply m = some (some r, m') ∧ cursor m' = 1 := by
  have hq : (startedWith (.replicate 136 0)).state.found m = some initPid :=
    found_of_cursor hm (by simp [State.InUse, startedWith, State.tableOf, initPid])
  obtain ⟨p, hread⟩ := State.readObject_of_found hq false
  have hcopy : ∀ m, State.copyObject ((startedWith (.replicate 136 0)).state.pcb initPid) m =
      some (m.write argsOffset (.replicate 136 0)) := by
    intro m
    simp [State.copyObject, startedWith, argsOffset, objectSize]
  rw [apply, hread, hcopy]
  refine ⟨_, _, rfl, (cursor_eq_iff (x := 1) (by decide)).2 ?_⟩
  have hzero : ∀ m : Memory, get (m.write argsOffset (.replicate 136 0)) .ptCursor = 0 := by
    intro m
    have hread := Memory.read_write_inside m argsOffset
      (show 132 + 4 ≤ (List.replicate 136 (0 : UInt8)).length by simp)
    rw [List.drop_replicate, List.take_replicate] at hread
    exact congrArg ofLe hread
  rw [get_put, hzero]
  rfl

theorem records_zeros (n : Nat) {m : Memory} (hm : cursor m = 1) :
    records m (.replicate n ⟨startedWith (.replicate 136 0), false⟩) = n := by
  induction n generalizing m with
  | zero => rfl
  | succ n ih =>
    obtain ⟨r, m', hr, hm'⟩ := apply_zeros hm
    rw [List.replicate_succ, records, hr]
    simp only [Option.isSome_some, if_true, ih hm']
    omega

end Info

/-- Process 1 has been started with 136 zeros: there are as many records as one wants to read. -/
theorem info_without_end : ¬∀ junk as, Info.Ends junk as := by
  intro h
  let a : InfoRead := ⟨startedWith (.replicate 136 0), false⟩
  -- the first record is that of process 0
  have hq : a.found (Info.openObject fun _ => 0) = some ⟨0, by decide⟩ :=
    Info.found_of_cursor (Info.cursor_openObject _) (by simp [State.InUse, a, startedWith, State.tableOf])
  obtain ⟨r, m', hr, hsome, hm', -⟩ := (h (fun _ => 0) [a]).orderly.1 _ hq
  have hle := (h (fun _ => 0) (a :: .replicate maxProc a)).records_le
  rw [Info.records, hr] at hle
  simp only [hsome, a, Bool.not_false, if_true, Info.records_zeros maxProc hm'] at hle
  omega

end TinyOS.Proc
