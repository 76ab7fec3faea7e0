import TinyOS.Proc.InfoReads

/-!
# What a record shows of other processes

`procinfo_read` fills the field `args` of the object only if the PCB has arguments, and returns all of it.

- `read_of_found`: where the bytes of a record come from;
- `record_private_iff`: the record of a process is a matter of its PCB alone exactly if that still has its arguments, or
  `argl` is not positive.
-/

namespace TinyOS.Proc

open Streams Info InfoRead

/-! ## Records -/

/-- The field `argl` of a record. -/
def recordArgl (r : List UInt8) : Int := (BitVec.ofNat 32 (ofLe ((r.drop InfoField.argl.offset).take 4))).toInt

/-- The field `args`. -/
def recordArgs (r : List UInt8) : List UInt8 := (r.drop argsOffset).take maxArgsSize

/-- The records have the same `argl`, and so many bytes of `args` in common. -/
def SameArgs (r r' : List UInt8) : Prop :=
  recordArgl r = recordArgl r' ∧
    (recordArgs r).take (recordArgl r).toNat = (recordArgs r').take (recordArgl r').toNat

/-- The reads of a new stream in this table come to `p` and return `r`. -/
def RecordOf (t : ExecTable) (junk : Memory) (p : Pid) (r : List UInt8) : Prop :=
  ∃ n m m', reads.run (openObject junk) (.replicate n ⟨t, false⟩) = some m ∧ t.state.found m = some p ∧
    (InfoRead.mk t false).apply m = some (some r, m')

/-- The two tables have the same in the PCB `p`. -/
structure Agree (t t' : ExecTable) (p : Pid) : Prop where
  pstate : t'.state.tree.pstate p = t.state.tree.pstate p
  parent : t'.state.tree.parent p = t.state.tree.parent p
  pcb : t'.state.pcb p = t.state.pcb p

variable {t t' : ExecTable} {m m' junk : Memory} {p q : Pid} {r r' : List UInt8} {x : Pcb}

/-! ## One read -/

/-- Some bytes over the old ones. -/
def overlay (args : Option (List UInt8)) (old : List UInt8) : List UInt8 :=
  match args with
  | none => old
  | some args => args ++ old.drop args.length

/-- The arguments of a PCB fit in the field. -/
def ExecTable.Fit (t : ExecTable) (p : Pid) : Prop := ∀ args, (t.state.pcb p).args = some args → args.length ≤ maxArgsSize

theorem headed_args (s : State) (p q : Pid) (m : Memory) :
    (s.headed p q m).read argsOffset maxArgsSize = m.read argsOffset maxArgsSize := by
  unfold State.headed
  dsimp only
  rw [put_args, put_args, put_args, put_args]
  exact State.enterObject_read (by decide) s p m

theorem headed_argl (s : State) (p q : Pid) (m : Memory) : get (s.headed p q m) .argl = int (s.pcb q).argl :=
  (get_put _ .argl _).trans (int_mod _)

theorem copyObject_of_fit (hx : ∀ args, x.args = some args → x.argl = args.length ∧ args.length ≤ maxArgsSize) :
    ∃ m', State.copyObject x m = some m' ∧ get m' .argl = get m .argl ∧
      m'.read argsOffset maxArgsSize = overlay x.args (m.read argsOffset maxArgsSize) := by
  unfold State.copyObject
  cases hargs : x.args with
  | none => exact ⟨m, rfl, rfl, rfl⟩
  | some args =>
    obtain ⟨hargl, hmax⟩ := hx args hargs
    have hall : args.take x.argl.toNat = args := List.take_of_length_le (by omega)
    have hdef : 0 ≤ x.argl ∧ x.argl.toNat ≤ args.length ∧ argsOffset + x.argl.toNat ≤ objectSize := by
      simp only [maxArgsSize, argsOffset, objectSize] at hmax ⊢
      omega
    simp only [if_pos hdef, hall, Option.some.injEq, exists_eq_left']
    exact ⟨Memory.load_write_outside (.inl (by decide)), Memory.read_write_append hmax⟩

/-- The record that a read returns, and the field `args` of the object after it. -/
theorem read_of_found (hfit : t.Fit q) (hq : t.state.found m = some q)
    (hr : (InfoRead.mk t false).apply m = some (some r, m')) :
    recordArgl r = (BitVec.ofInt 32 (t.state.pcb q).argl).toInt ∧
      recordArgs r = overlay (t.state.pcb q).args (m.read argsOffset maxArgsSize) ∧
      m'.read argsOffset maxArgsSize = recordArgs r := by
  obtain ⟨p, hread⟩ := State.readObject_of_found hq false
  obtain ⟨m₁, hcopy, hargl, hargs⟩ := copyObject_of_fit (x := t.state.pcb q) (m := t.state.headed p q m)
    fun args h => ⟨t.stored q args h, hfit args h⟩
  rw [InfoRead.apply, hread, hcopy] at hr
  simp only [State.finishRead, Option.map_some, Bool.false_eq_true, if_false, Option.some.injEq, Prod.mk.injEq] at hr
  obtain ⟨rfl, rfl⟩ := hr
  have hfield : ofLe (((m₁.read 0 infoSize).drop InfoField.argl.offset).take 4) = get m₁ .argl := by
    rw [Memory.drop_take_read (by decide), Nat.zero_add]
    rfl
  have hbytes : recordArgs (m₁.read 0 infoSize) = m₁.read argsOffset maxArgsSize := by
    rw [recordArgs, Memory.drop_take_read (by decide), Nat.zero_add]
  refine ⟨?_, ?_, ?_⟩
  · rw [recordArgl, hfield, hargl, headed_argl]
    exact congrArg BitVec.toInt (BitVec.ofNat_toNat ..)
  · rw [hbytes, hargs, headed_args]
  · rw [hbytes, put_args]

/-- And there is such a record. -/
theorem exists_read (hfit : t.Fit q) (hq : t.state.found m = some q) :
    ∃ r m', (InfoRead.mk t false).apply m = some (some r, m') ∧ cursor m' = q.val + 1 := by
  have hord : Orderly m ⟨t, false⟩ := orderly_iff.2 (fits_of_le fun q' args hq' hargs => by
    cases hq.symm.trans hq'
    exact (hfit args hargs).trans (by decide))
  obtain ⟨r, m', hr, hsome, hm', -⟩ := hord q hq
  obtain ⟨r, rfl⟩ := Option.isSome_iff_exists.1 hsome
  exact ⟨r, m', hr, hm'⟩

/-! ## Two runs -/

/-- What the record of `p` shows of the arguments is the same in all tables that agree with `t` there, if `xmalloc` returns
`junk₁` for the one stream and `junk₂` for the other. -/
def Private (t : ExecTable) (p : Pid) (junk₁ junk₂ : Memory) : Prop :=
  ∀ t₁ t₂ r₁ r₂, Agree t t₁ p → Agree t t₂ p → RecordOf t₁ junk₁ p r₁ → RecordOf t₂ junk₂ p r₂ → SameArgs r₁ r₂

/-- The PCB has its arguments, or there are none. -/
def KeepsArgs (x : Pcb) : Prop := x.args = none → (BitVec.ofInt 32 x.argl).toInt ≤ 0

theorem Agree.fit (h : Agree t t' p) (hfit : t.Fit p) : t'.Fit p := fun args hargs => hfit args (h.pcb ▸ hargs)

/-- The arguments in a record, if the PCB has them or there are none. -/
theorem record_args (hfit : t.Fit p) (ha : Agree t t' p) (hargl : KeepsArgs (t.state.pcb p))
    (hr : RecordOf t' junk p r) :
    recordArgl r = (BitVec.ofInt 32 (t.state.pcb p).argl).toInt ∧
      (recordArgs r).take (recordArgl r).toNat = (t.state.pcb p).args.getD [] := by
  obtain ⟨n, m, m', -, hfound, hread⟩ := hr
  obtain ⟨hrec, hbytes, -⟩ := read_of_found (ha.fit hfit) hfound hread
  rw [ha.pcb] at hrec hbytes
  refine ⟨hrec, ?_⟩
  rw [hbytes, hrec]
  cases hargs : (t.state.pcb p).args with
  | none =>
    rw [Int.toNat_of_nonpos (hargl hargs), List.take_zero]
    rfl
  | some args =>
    have hlen : args.length ≤ 128 := hfit args hargs
    have hint : (BitVec.ofInt 32 (t.state.pcb p).argl).toInt.toNat = args.length := by
      rw [t.stored p args hargs, BitVec.ofInt_natCast, BitVec.toInt_eq_toNat_cond, BitVec.toNat_ofNat]
      split <;> omega
    rw [hint]
    exact List.take_left

/-- Only `p` is left in the table. -/
def alone (t : ExecTable) (p : Pid) : ExecTable where
  state := { t.state with
    tree := { t.state.tree with pstate := Function.update (fun _ => .free) p (t.state.tree.pstate p) } }
  stored := t.stored

theorem alone_pstate (t : ExecTable) (p q : Pid) :
    (alone t p).state.tree.pstate q = if q = p then t.state.tree.pstate p else .free := by
  simp only [alone, Function.update_apply]

theorem agree_alone (t : ExecTable) (p : Pid) : Agree t (alone t p) p :=
  ⟨(alone_pstate t p p).trans (if_pos rfl), rfl, rfl⟩

theorem inUse_alone (hp : t.state.InUse p) : (alone t p).state.InUse q ↔ q = p := by
  unfold State.InUse
  rw [alone_pstate]
  by_cases hq : q = p
  · rw [if_pos hq]
    exact iff_of_true hp hq
  · simp [hq]

theorem found_alone (hp : t.state.InUse p) (junk : Memory) : (alone t p).state.found (openObject junk) = some p :=
  found_of_firstInUse (cursor_openObject junk)
    ⟨Nat.zero_le _, (inUse_alone hp).2 rfl, fun _ _ hlt hu => hlt.ne ((inUse_alone hp).1 hu)⟩

theorem openObject_args (junk : Memory) :
    (openObject junk).read argsOffset maxArgsSize = junk.read argsOffset maxArgsSize := by
  unfold openObject
  rw [put_args, put_args, put_args, put_args, put_args, put_args]

/-- A record of `p`, if that has no arguments: what is returned is what `xmalloc` has left there. -/
theorem record_alone (hp : t.state.InUse p) (hargs : (t.state.pcb p).args = none) (junk : Memory) :
    ∃ r, RecordOf (alone t p) junk p r ∧ recordArgl r = (BitVec.ofInt 32 (t.state.pcb p).argl).toInt ∧
      recordArgs r = junk.read argsOffset maxArgsSize := by
  have hfit : (alone t p).Fit p := fun args h => by cases hargs.symm.trans h
  have hfound := found_alone hp junk
  obtain ⟨r, m', hr, -⟩ := exists_read hfit hfound
  obtain ⟨hargl, hrec, -⟩ := read_of_found hfit hfound hr
  refine ⟨r, ⟨0, _, m', rfl, hfound, hr⟩, hargl, ?_⟩
  have hnone : ((alone t p).state.pcb p).args = none := hargs
  rw [hrec, hnone, overlay, openObject_args]

/-- The first PCB. -/
def firstPid : Pid := ⟨0, maxProc_pos⟩

/-- Only `p` and the first PCB are left, which has the argument `c`. -/
def pair (t : ExecTable) (p : Pid) (c : UInt8) : ExecTable where
  state := { t.state with
    tree := { t.state.tree with
      pstate := Function.update (Function.update (fun _ => .free) p (t.state.tree.pstate p)) firstPid .alive }
    pcb := Function.update t.state.pcb firstPid { t.state.pcb firstPid with args := some [c], argl := 1 } }
  stored := fun q args h => by
    by_cases hq : q = firstPid
    · subst hq
      simp only [Function.update_self] at h ⊢
      cases h
      rfl
    · simp only [Function.update_of_ne hq] at h ⊢
      exact t.stored q args h

theorem agree_pair (hne : p ≠ firstPid) (c : UInt8) : Agree t (pair t p c) p := by
  refine ⟨?_, rfl, Function.update_of_ne hne _ _⟩
  simp only [pair, Function.update_of_ne hne, Function.update_self]

theorem inUse_pair (hp : t.state.InUse p) (c : UInt8) : (pair t p c).state.InUse q ↔ q = firstPid ∨ q = p := by
  simp only [State.InUse, pair, Function.update_apply]
  by_cases hfirst : q = firstPid
  · simp [hfirst]
  · by_cases hq : q = p
    · subst hq
      simpa [hfirst, State.InUse] using hp
    · simp [hfirst, hq]

theorem fit_pair (hargs : (t.state.pcb p).args = none) (hq : q = firstPid ∨ q = p) (c : UInt8) : (pair t p c).Fit q := by
  intro args h
  by_cases hfirst : q = firstPid
  · simp only [pair, hfirst, Function.update_self] at h
    cases h
    exact (by decide : 1 ≤ maxArgsSize)
  · obtain rfl := hq.resolve_left hfirst
    simp only [pair, Function.update_of_ne hfirst, hargs] at h
    cases h

/-- A record of `p`, if that has no arguments: it has that of the first PCB. -/
theorem record_pair (hp : t.state.InUse p) (hne : p ≠ firstPid) (hargs : (t.state.pcb p).args = none) (junk : Memory)
    (c : UInt8) : ∃ r, RecordOf (pair t p c) junk p r ∧ recordArgl r = (BitVec.ofInt 32 (t.state.pcb p).argl).toInt ∧
      (recordArgs r)[0]? = some c := by
  have hpcb : (pair t p c).state.pcb p = t.state.pcb p := (agree_pair hne c).pcb
  have hfirst : ((pair t p c).state.pcb firstPid).args = some [c] := by simp only [pair, Function.update_self]
  have h₀ := found_of_cursor (q := firstPid) (cursor_openObject junk) ((inUse_pair hp c).2 (.inl rfl))
  obtain ⟨r₀, m₁, hr₀, hm₁⟩ := exists_read (fit_pair hargs (.inl rfl) c) h₀
  have h₁ : (pair t p c).state.found m₁ = some p := by
    refine found_of_firstInUse hm₁ ⟨?_, (inUse_pair hp c).2 (.inr rfl), fun u hu hlt hused => ?_⟩
    · exact Nat.pos_of_ne_zero fun h => hne (Fin.ext h)
    · rcases (inUse_pair hp c).1 hused with rfl | rfl
      · exact absurd hu (Nat.not_succ_le_self _)
      · exact hlt.ne rfl
  obtain ⟨r, m₂, hr, -⟩ := exists_read (fit_pair hargs (.inr rfl) c) h₁
  obtain ⟨-, hargs₀, hobj⟩ := read_of_found (fit_pair hargs (.inl rfl) c) h₀ hr₀
  obtain ⟨hargl, hrec, -⟩ := read_of_found (fit_pair hargs (.inr rfl) c) h₁ hr
  rw [hpcb] at hargl hrec
  refine ⟨r, ⟨1, m₁, m₂, ?_, h₁, hr⟩, hargl, ?_⟩
  · simp [Lts.run, reads, hr₀]
  · rw [hrec, hargs, overlay, hobj, hargs₀, hfirst]
    rfl

theorem sameArgs_of_keepsArgs (hfit : t.Fit p) (h : KeepsArgs (t.state.pcb p)) (junk₁ junk₂ : Memory) :
    Private t p junk₁ junk₂ := by
  intro t₁ t₂ r₁ r₂ ha₁ ha₂ hr₁ hr₂
  obtain ⟨hargl₁, htake₁⟩ := record_args hfit ha₁ h hr₁
  obtain ⟨hargl₂, htake₂⟩ := record_args hfit ha₂ h hr₂
  exact ⟨hargl₁.trans hargl₂.symm, htake₁.trans htake₂.symm⟩

/-- Two records with different first bytes. -/
theorem keepsArgs_of_records {t₁ t₂ : ExecTable} {junk₁ junk₂ : Memory} (h : Private t p junk₁ junk₂)
    (ha₁ : Agree t t₁ p) (ha₂ : Agree t t₂ p) {r₁ r₂ : List UInt8} (hr₁ : RecordOf t₁ junk₁ p r₁)
    (hr₂ : RecordOf t₂ junk₂ p r₂) (hargl₁ : recordArgl r₁ = (BitVec.ofInt 32 (t.state.pcb p).argl).toInt)
    (hfirst : (recordArgs r₁)[0]? ≠ (recordArgs r₂)[0]?) : (BitVec.ofInt 32 (t.state.pcb p).argl).toInt ≤ 0 := by
  by_contra hpos
  obtain ⟨hargl, hsame⟩ := h t₁ t₂ r₁ r₂ ha₁ ha₂ hr₁ hr₂
  obtain ⟨n, hn⟩ : ∃ n, (recordArgl r₁).toNat = n + 1 := Nat.exists_eq_add_one.2 (by omega)
  rw [← hargl, hn] at hsame
  have hzero := congrArg (·[0]?) hsame
  simp only [List.getElem?_take_of_lt (Nat.succ_pos n)] at hzero
  exact hfirst hzero

/-- **A record shows of the arguments** what the PCB determines exactly if the process still has its arguments, or `argl` is
not positive; also in any one stream, unless there is no PCB before that of `p`. -/
theorem record_private_iff (t : ExecTable) (p : Pid) (hp : t.state.InUse p) (hfit : t.Fit p) :
    ((∀ junk₁ junk₂, Private t p junk₁ junk₂) ↔ KeepsArgs (t.state.pcb p)) ∧
      (0 < p.val → ∀ junk, Private t p junk junk ↔ KeepsArgs (t.state.pcb p)) := by
  refine ⟨⟨fun h hargs => ?_, sameArgs_of_keepsArgs hfit⟩, fun hpos junk => ⟨fun h hargs => ?_, fun h =>
    sameArgs_of_keepsArgs hfit h junk junk⟩⟩
  · obtain ⟨r₁, hr₁, hargl₁, hrec₁⟩ := record_alone hp hargs fun _ => 0
    obtain ⟨r₂, hr₂, -, hrec₂⟩ := record_alone hp hargs fun _ => 1
    refine keepsArgs_of_records (h _ _) (agree_alone t p) (agree_alone t p) hr₁ hr₂ hargl₁ ?_
    simp [hrec₁, hrec₂, Memory.read, show 0 < maxArgsSize by decide]
  · have hne : p ≠ firstPid := fun h => absurd (congrArg Fin.val h) hpos.ne'
    obtain ⟨r₁, hr₁, hargl₁, hrec₁⟩ := record_pair hp hne hargs junk 0
    obtain ⟨r₂, hr₂, -, hrec₂⟩ := record_pair hp hne hargs junk 1
    refine keepsArgs_of_records h (agree_pair hne 0) (agree_pair hne 1) hr₁ hr₂ hargl₁ ?_
    rw [hrec₁, hrec₂]
    decide

/-- Process 1 has been started with one byte, and still has it. -/
theorem record_private_iff_init : Private (startedWith [97]) initPid (fun _ => 0) fun _ => 1 := by
  refine (record_private_iff _ _ ?_ ?_).1.2 (fun h => by cases h) _ _
  · simp [State.InUse, startedWith, State.tableOf, initPid]
  · intro args h
    cases h
    decide

/-! ## The arguments of another process -/

/-- Process 1 has been started with the byte `c`; process 2 is a zombie, which has been started with one byte too. -/
def zombieAfter (c : UInt8) : ExecTable where
  state := { State.tableOf (fun p => if p.val ≤ 1 then .alive else if p.val = 2 then .zombie else .free) with
    pcb := fun p => { State.initial.pcb p with
      args := if p = initPid then some [c] else none
      argl := if p.val = 1 ∨ p.val = 2 then 1 else 0 } }
  stored p args h := by
    dsimp only at h ⊢
    split at h
    · cases h
      rename_i hp
      simp [hp, initPid]
    · cases h

theorem zombieAfter_fit (c : UInt8) (p : Pid) : (zombieAfter c).Fit p := by
  intro args h
  dsimp only [zombieAfter] at h
  split at h
  · cases h
    exact (by decide : 1 ≤ maxArgsSize)
  · cases h

/-- The first byte in the record of process 2 is that of process 1. -/
theorem record_zombieAfter (c : UInt8) (junk : Memory) :
    ∃ r, RecordOf (zombieAfter c) junk ⟨2, by decide⟩ r ∧ recordArgl r = 1 ∧ (recordArgs r)[0]? = some c := by
  have hused : ∀ p : Pid, p.val ≤ 2 → (zombieAfter c).state.InUse p := by
    intro p hp
    simp only [State.InUse, zombieAfter, State.tableOf]
    split_ifs <;> first | omega | simp
  have h₀ := found_of_cursor (q := ⟨0, by decide⟩) (cursor_openObject junk) (hused _ (by decide))
  obtain ⟨r₀, m₁, hr₀, hm₁⟩ := exists_read (zombieAfter_fit c _) h₀
  have h₁ := found_of_cursor (q := initPid) hm₁ (hused _ (by decide))
  obtain ⟨r₁, m₂, hr₁, hm₂⟩ := exists_read (zombieAfter_fit c _) h₁
  have h₂ := found_of_cursor (q := ⟨2, by decide⟩) hm₂ (hused _ (by decide))
  obtain ⟨r₂, m₃, hr₂, -⟩ := exists_read (zombieAfter_fit c _) h₂
  obtain ⟨-, hargs₁, hobj₁⟩ := read_of_found (zombieAfter_fit c _) h₁ hr₁
  obtain ⟨hargl₂, hargs₂, -⟩ := read_of_found (zombieAfter_fit c _) h₂ hr₂
  refine ⟨r₂, ⟨2, m₂, m₃, ?_, h₂, hr₂⟩, hargl₂.trans rfl, ?_⟩
  · simp [Lts.run, reads, hr₀, hr₁]
  · rw [hargs₂, hobj₁, hargs₁]
    rfl

/-- Two tables that differ in the arguments of process 1, and the same stream. -/
theorem record_of_another : ¬∀ t p, t.state.InUse p → t.Fit p → ∀ t₁ t₂ junk r₁ r₂, Agree t t₁ p → Agree t t₂ p →
    RecordOf t₁ junk p r₁ → RecordOf t₂ junk p r₂ → SameArgs r₁ r₂ := by
  intro h
  obtain ⟨r₁, hr₁, hargl₁, hfirst₁⟩ := record_zombieAfter 97 fun _ => 0
  obtain ⟨r₂, hr₂, hargl₂, hfirst₂⟩ := record_zombieAfter 98 fun _ => 0
  obtain ⟨-, hsame⟩ := h (zombieAfter 97) ⟨2, by decide⟩ (by simp [State.InUse, zombieAfter, State.tableOf])
    (zombieAfter_fit 97 _) (zombieAfter 97) (zombieAfter 98) _ r₁ r₂ ⟨rfl, rfl, rfl⟩ ⟨rfl, rfl, rfl⟩ hr₁ hr₂
  rw [hargl₁, hargl₂] at hsame
  have hfirst := congrArg (·[0]?) hsame
  simp [hfirst₁, hfirst₂] at hfirst

end TinyOS.Proc
