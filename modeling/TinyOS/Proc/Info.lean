import TinyOS.Proc.Model
import Mathlib.Data.Fintype.Basic
import Mathlib.Data.List.Sort

/-!
# Info streams

`sys_OpenInfo` and `procinfo_read`, on the process table of `Proc.Model`.

- `procinfoRead_of_skipFree`: what one read returns, by the PCB that it finds;
- `enumerates_iff`: an info stream returns one record of each used PCB, with the fields of that PCB, exactly when no FREE
  PCB has a lower pid than a used one. The read takes `pid`, `ppid` and `alive` before it skips the FREE PCBs.
-/

namespace TinyOS.Proc

open Streams

/-- `PROCINFO_MAX_ARGS_SIZE`. -/
def maxArgsSize : Nat := 128

structure Procinfo where
  pid : Int
  ppid : Int
  alive : Int
  threadCount : BitVec 64
  mainTask : Option Task
  argl : Int
  args : Fin maxArgsSize → UInt8

/-- `procinfo_CB`, the object of an info stream. -/
structure ProcinfoCb where
  processInfo : Procinfo
  ptCursor : Nat

/-- What `sys_OpenInfo` makes of the object that `xmalloc` returns: it leaves `main_task` and `args` as they are. -/
def openInfo (junk : ProcinfoCb) : ProcinfoCb where
  processInfo := { junk.processInfo with pid := 0, ppid := 0, alive := 0, threadCount := 0, argl := 0 }
  ptCursor := 0

/-- `get_pid`. -/
def getPid : Option Pid → Int
  | none => noproc
  | some p => p.val

/-- `memcpy(&process_info.args, args, argl)`; `none` where it reads past the end of one array or writes past that of the
other, which is undefined. The record has no bytes behind `args`: what 129 to 140 bytes do to the rest of the object is in
`State.copyObject`, on its bytes. -/
def copyArgs (argl : Int) (args : List UInt8) (old : Fin maxArgsSize → UInt8) : Option (Fin maxArgsSize → UInt8) :=
  if argl = args.length ∧ args.length ≤ maxArgsSize then some fun i => (args[i.val]?).getD (old i) else none

namespace State

/-- The loop over FREE PCBs: the first PCB from `p` on that is not FREE. -/
def skipFree (s : State) (p : Pid) : Option Pid :=
  if s.tree.pstate p = .free then
    if h : p.val + 1 < maxProc then s.skipFree ⟨p.val + 1, h⟩ else none
  else some p
termination_by maxProc - p.val

/-- The record before the loop, with `pid`, `ppid` and `alive` from the PCB at the cursor; a FREE PCB leaves `alive`. -/
def enterPcb (s : State) (p : Pid) (r : Procinfo) : Procinfo :=
  { r with
    pid := getPid (some p)
    ppid := getPid (s.tree.parent p)
    alive := match s.tree.pstate p with
      | .free => r.alive
      | .zombie => 0
      | .alive => 1 }

/-- The rest of the record, from the PCB that the loop has found. -/
def fillPcb (s : State) (p : Pid) (r : Procinfo) : Option Procinfo :=
  let x := s.pcb p
  let r := { r with threadCount := BitVec.ofInt 64 x.threadCounter, mainTask := x.mainTask, argl := x.argl }
  match x.args with
  | none => some r
  | some args => (copyArgs x.argl args r.args).map fun args => { r with args := args }

/-- `procinfo_read`: the record it returns, or `none` for `-1`, and the object after it; undefined where a `memcpy` is. The
test of `info` for `NULL` comes after its use, and `size` is not read. -/
def procinfoRead (s : State) (bufNull : Bool) (cb : ProcinfoCb) : Option (Option Procinfo × ProcinfoCb) :=
  if h : cb.ptCursor < maxProc then
    let r := s.enterPcb ⟨cb.ptCursor, h⟩ cb.processInfo
    match s.skipFree ⟨cb.ptCursor, h⟩ with
    | none => some (none, ⟨r, maxProc⟩)
    | some q =>
      (s.fillPcb q r).map fun r => if bufNull then (none, ⟨r, q.val⟩) else (some r, ⟨r, q.val + 1⟩)
  else some (none, cb)

/-! ## The loop -/

variable {s : State} {p q : Pid} {r : Procinfo} {cb : ProcinfoCb}

/-- The PCBs that are not FREE. -/
def InUse (s : State) (p : Pid) : Prop := s.tree.pstate p ≠ .free

instance (s : State) : DecidablePred s.InUse := fun _ => inferInstanceAs (Decidable (_ ≠ _))

theorem skipFree_of_used (h : s.InUse p) : s.skipFree p = some p := by
  unfold skipFree
  exact if_neg h

theorem skipFree_of_free (h : ¬s.InUse p) (hp : p.val + 1 < maxProc) : s.skipFree p = s.skipFree ⟨p.val + 1, hp⟩ := by
  rw [skipFree, if_pos (not_not.1 h), dif_pos hp]

theorem skipFree_last (h : ¬s.InUse p) (hp : ¬p.val + 1 < maxProc) : s.skipFree p = none := by
  rw [skipFree, if_pos (not_not.1 h), dif_neg hp]

/-- The loop fails if there is no used PCB from `p` on, and otherwise finds the first one. -/
theorem skipFree_spec (s : State) (p : Pid) :
    (s.skipFree p = none ∧ ∀ u, p ≤ u → ¬s.InUse u) ∨
    (∃ q, s.skipFree p = some q ∧ p ≤ q ∧ s.InUse q ∧ ∀ u, p ≤ u → u < q → ¬s.InUse u) := by
  induction p using skipFree.induct s with
  | case1 p hfree hp ih =>
    have hnot : ¬s.InUse p := not_not.2 hfree
    have hsucc : ∀ u, p ≤ u → p = u ∨ (⟨p.val + 1, hp⟩ : Pid) ≤ u := by
      intro u hu
      rcases Nat.eq_or_lt_of_le (Fin.le_def.1 hu) with h | h
      · exact .inl (Fin.ext h)
      · exact .inr (Fin.le_def.2 h)
    rw [skipFree_of_free hnot hp]
    rcases ih with ⟨hnone, hall⟩ | ⟨q, hq, hle, hused, hall⟩
    · refine .inl ⟨hnone, fun u hu => ?_⟩
      rcases hsucc u hu with rfl | h
      · exact hnot
      · exact hall u h
    · refine .inr ⟨q, hq, Fin.le_def.2 (Nat.le_of_succ_le (Fin.le_def.1 hle)), hused, fun u hu hlt => ?_⟩
      rcases hsucc u hu with rfl | h
      · exact hnot
      · exact hall u h hlt
  | case2 p hfree hp =>
    refine .inl ⟨skipFree_last (not_not.2 hfree) hp, fun u hu => ?_⟩
    have hup : u = p := by
      apply Fin.ext
      have := Fin.le_def.1 hu
      omega
    rw [hup]
    exact not_not.2 hfree
  | case3 p hused => exact .inr ⟨p, skipFree_of_used hused, le_refl p, hused, fun u hu hlt => absurd hlt (not_lt.2 hu)⟩

/-! ## One read -/

/-- The arguments of `p`, if it has any, fit in a record, and `argl` is their length. -/
def ArgsFitIn (s : State) (p : Pid) : Prop :=
  ∀ args, (s.pcb p).args = some args → (s.pcb p).argl = args.length ∧ args.length ≤ maxArgsSize

def ArgsFit (s : State) : Prop := ∀ p, s.InUse p → s.ArgsFitIn p

/-- A record with the fields of `p`. -/
structure Describes (s : State) (r : Procinfo) (p : Pid) : Prop where
  pid : r.pid = p.val
  ppid : r.ppid = getPid (s.tree.parent p)
  alive : r.alive ≠ 0 ↔ s.tree.pstate p = .alive
  threadCount : r.threadCount = BitVec.ofInt 64 (s.pcb p).threadCounter
  mainTask : r.mainTask = (s.pcb p).mainTask
  argl : r.argl = (s.pcb p).argl

/-- The rest of a record that has `pid`, `ppid` and `alive` of `p`. -/
theorem fillPcb_of_fit (hfit : s.ArgsFitIn p) (r : Procinfo) :
    ∃ r', s.fillPcb p r = some r' ∧ r'.pid = r.pid ∧
      (r.pid = p.val → r.ppid = getPid (s.tree.parent p) → (r.alive ≠ 0 ↔ s.tree.pstate p = .alive) →
        s.Describes r' p) := by
  cases hargs : (s.pcb p).args with
  | none =>
    simp only [fillPcb, hargs, Option.some.injEq, exists_eq_left']
    exact ⟨trivial, fun hpid hppid halive => ⟨hpid, hppid, halive, rfl, rfl, rfl⟩⟩
  | some args =>
    simp only [fillPcb, hargs, copyArgs, if_pos (hfit args hargs), Option.map_some, Option.some.injEq,
      exists_eq_left']
    exact ⟨trivial, fun hpid hppid halive => ⟨hpid, hppid, halive, rfl, rfl, rfl⟩⟩

theorem fillPcb_eq_none (h : ¬s.ArgsFitIn p) (r : Procinfo) : s.fillPcb p r = none := by
  unfold ArgsFitIn at h
  push Not at h
  obtain ⟨args, hargs, hfit⟩ := h
  simp only [fillPcb, hargs, copyArgs]
  rw [if_neg fun hc => absurd (hfit hc.1) (not_lt.2 hc.2)]
  rfl

/-- The record before the loop has `pid`, `ppid` and `alive` of a used PCB. -/
theorem enterPcb_alive (hp : s.InUse p) (r : Procinfo) : (s.enterPcb p r).alive ≠ 0 ↔ s.tree.pstate p = .alive := by
  cases hst : s.tree.pstate p with
  | free => exact absurd hst hp
  | zombie => simp [enterPcb, hst]
  | alive => simp [enterPcb, hst]

/-- The read whose loop finds `q`: its record has the pid of the PCB at the cursor, and all fields of `q` if that is the
PCB at the cursor. -/
theorem procinfoRead_of_skipFree (hfit : s.ArgsFitIn q) (hlt : cb.ptCursor < maxProc)
    (hq : s.skipFree ⟨cb.ptCursor, hlt⟩ = some q) (hused : s.InUse q) :
    ∃ r, s.procinfoRead false cb = some (some r, ⟨r, q.val + 1⟩) ∧ r.pid = cb.ptCursor ∧
      (q = ⟨cb.ptCursor, hlt⟩ → s.Describes r q) := by
  obtain ⟨r, hr, hpid, hdesc⟩ := fillPcb_of_fit hfit (s.enterPcb ⟨cb.ptCursor, hlt⟩ cb.processInfo)
  refine ⟨r, by simp [procinfoRead, dif_pos hlt, hq, hr], hpid, ?_⟩
  rintro rfl
  exact hdesc rfl rfl (enterPcb_alive hused _)

/-- The read that finds no used PCB. -/
theorem procinfoRead_fails (hlt : cb.ptCursor < maxProc) (hnone : s.skipFree ⟨cb.ptCursor, hlt⟩ = none) :
    ∃ cb', s.procinfoRead false cb = some (none, cb') := by
  refine ⟨⟨s.enterPcb ⟨cb.ptCursor, hlt⟩ cb.processInfo, maxProc⟩, ?_⟩
  simp [procinfoRead, dif_pos hlt, hnone]

/-- The read of a PCB whose arguments are too long for a record. -/
theorem procinfoRead_undefined (h : ¬s.ArgsFitIn q) (hlt : cb.ptCursor < maxProc)
    (hq : s.skipFree ⟨cb.ptCursor, hlt⟩ = some q) : s.procinfoRead false cb = none := by
  simp [procinfoRead, dif_pos hlt, hq, fillPcb_eq_none h]

/-- A read that returns a record moves the cursor on. -/
theorem procinfoRead_cursor {cb' : ProcinfoCb} (h : s.procinfoRead false cb = some (some r, cb')) :
    cb.ptCursor < maxProc ∧ cb.ptCursor < cb'.ptCursor := by
  unfold procinfoRead at h
  split at h
  · rename_i hlt
    rcases skipFree_spec s ⟨cb.ptCursor, hlt⟩ with ⟨hnone, -⟩ | ⟨q, hq, hle, -, -⟩
    · simp [hnone] at h
    · simp only [hq, Bool.false_eq_true, if_false, Option.map_eq_some_iff, Prod.mk.injEq, Option.some.injEq] at h
      obtain ⟨r', -, -, rfl⟩ := h
      exact ⟨hlt, Nat.lt_succ_of_le (Fin.le_def.1 hle)⟩
  · simp at h

/-- `q` is the first used PCB from `c` on. -/
def FirstInUse (s : State) (c : Nat) (q : Pid) : Prop :=
  c ≤ q.val ∧ s.InUse q ∧ ∀ u : Pid, c ≤ u.val → u < q → ¬s.InUse u

theorem FirstInUse.unique {c : Nat} (hp : s.FirstInUse c p) (hq : s.FirstInUse c q) : p = q := by
  rcases lt_trichotomy p q with h | h | h
  · exact absurd hp.2.1 (hq.2.2 p hp.1 h)
  · exact h
  · exact absurd hq.2.1 (hp.2.2 q hq.1 h)

/-- The reads at a cursor: there is no used PCB from there on, or the loop finds the first one. -/
theorem skipFree_cases (s : State) (cb : ProcinfoCb) :
    (∀ u : Pid, cb.ptCursor ≤ u.val → ¬s.InUse u) ∧ (∃ cb', s.procinfoRead false cb = some (none, cb')) ∨
    (∃ hlt q, s.skipFree ⟨cb.ptCursor, hlt⟩ = some q ∧ s.FirstInUse cb.ptCursor q) := by
  by_cases hlt : cb.ptCursor < maxProc
  · rcases skipFree_spec s ⟨cb.ptCursor, hlt⟩ with ⟨hnone, hall⟩ | ⟨q, hq, hle, hused, hall⟩
    · exact .inl ⟨fun u hu => hall u (Fin.le_def.2 hu), procinfoRead_fails hlt hnone⟩
    · exact .inr ⟨hlt, q, hq, Fin.le_def.1 hle, hused, fun u hu => hall u (Fin.le_def.2 hu)⟩
  · exact .inl ⟨fun u hu => by omega, cb, by simp [procinfoRead, hlt]⟩

/-! ## Reading until it fails -/

/-- The records returned until a read fails. -/
def readAll (s : State) (cb : ProcinfoCb) : Option (List Procinfo) :=
  match _h : s.procinfoRead false cb with
  | none => none
  | some (none, _) => some []
  | some (some r, cb') => (s.readAll cb').map fun rs => r :: rs
termination_by maxProc - cb.ptCursor
decreasing_by
  have := procinfoRead_cursor _h
  omega

theorem readAll_of_fails {cb' : ProcinfoCb} (h : s.procinfoRead false cb = some (none, cb')) :
    s.readAll cb = some [] := by
  rw [readAll]
  split <;> simp_all

theorem readAll_of_returns {cb' : ProcinfoCb} (h : s.procinfoRead false cb = some (some r, cb')) :
    s.readAll cb = (s.readAll cb').map fun rs => r :: rs := by
  rw [readAll]
  split <;> simp_all

/-- The used PCBs with a pid of at least `c`, in increasing order. -/
def usedFrom (s : State) (c : Nat) : List Pid := (List.finRange maxProc).filter fun p => c ≤ p.val ∧ s.InUse p

theorem mem_usedFrom {c : Nat} : p ∈ s.usedFrom c ↔ c ≤ p.val ∧ s.InUse p := by simp [usedFrom]

theorem usedFrom_eq_nil {c : Nat} (h : ∀ u : Pid, c ≤ u.val → ¬s.InUse u) : s.usedFrom c = [] := by
  rw [List.eq_nil_iff_forall_not_mem]
  intro u hu
  exact h u (mem_usedFrom.1 hu).1 (mem_usedFrom.1 hu).2

theorem usedFrom_pairwise (s : State) (c : Nat) : (s.usedFrom c).Pairwise (· < ·) :=
  (List.pairwise_lt_finRange maxProc).filter _

theorem usedFrom_eq_cons {c : Nat} (h : s.FirstInUse c q) : s.usedFrom c = q :: s.usedFrom (q.val + 1) := by
  apply (usedFrom_pairwise s c).eq_of_mem_iff
  · exact List.pairwise_cons.2 ⟨fun u hu => Fin.lt_def.2 (mem_usedFrom.1 hu).1, usedFrom_pairwise s _⟩
  · intro u
    simp only [List.mem_cons, mem_usedFrom]
    constructor
    · rintro ⟨hcu, hu⟩
      rcases lt_trichotomy u q with hlt | heq | hgt
      · exact absurd hu (h.2.2 u hcu hlt)
      · exact .inl heq
      · exact .inr ⟨Fin.lt_def.1 hgt, hu⟩
    · rintro (rfl | ⟨hqu, hu⟩)
      · exact ⟨h.1, h.2.1⟩
      · exact ⟨h.1.trans (Nat.le_of_succ_le hqu), hu⟩

/-- The records returned from `cb` on are in increasing pid order one for each used PCB, with its fields. -/
def Enumerates (s : State) (cb : ProcinfoCb) : Prop :=
  ∃ rs, s.readAll cb = some rs ∧ List.Forall₂ s.Describes rs (s.usedFrom cb.ptCursor)

/-- From `c` on no FREE PCB has a lower pid than a used one. -/
def NoHole (s : State) (c : Nat) : Prop := ∀ f u : Pid, c ≤ f.val → f < u → s.InUse u → s.InUse f

theorem enumerates_of_fails {cb' : ProcinfoCb} (h : s.procinfoRead false cb = some (none, cb'))
    (hall : ∀ u : Pid, cb.ptCursor ≤ u.val → ¬s.InUse u) : s.Enumerates cb := by
  refine ⟨[], readAll_of_fails h, ?_⟩
  rw [usedFrom_eq_nil hall]
  exact .nil

/-- A record has the pid of the PCB at the cursor, so it describes the PCB that the loop finds only if this is that one. -/
theorem enumerates_of_returns (hfit : s.ArgsFit) (hlt : cb.ptCursor < maxProc)
    (hq : s.skipFree ⟨cb.ptCursor, hlt⟩ = some q) (hfirst : s.FirstInUse cb.ptCursor q) :
    ∃ r, s.Enumerates cb ↔ q.val = cb.ptCursor ∧ s.Enumerates ⟨r, q.val + 1⟩ := by
  obtain ⟨r, hr, hpid, hdesc⟩ := procinfoRead_of_skipFree (hfit q hfirst.2.1) hlt hq hfirst.2.1
  refine ⟨r, ?_, ?_⟩
  · rintro ⟨rs, hrs, hrecs⟩
    rw [readAll_of_returns hr] at hrs
    obtain ⟨rs', hrs', rfl⟩ := Option.map_eq_some_iff.1 hrs
    rw [usedFrom_eq_cons hfirst] at hrecs
    obtain ⟨hhead, hrest⟩ := List.forall₂_cons.1 hrecs
    have := hhead.pid
    exact ⟨by omega, rs', hrs', hrest⟩
  · rintro ⟨hqc, rs, hrs, hrecs⟩
    refine ⟨r :: rs, by rw [readAll_of_returns hr, hrs]; rfl, ?_⟩
    rw [usedFrom_eq_cons hfirst]
    exact .cons (hdesc (Fin.ext hqc)) hrecs

theorem noHole_iff {c : Nat} (hfirst : s.FirstInUse c q) : s.NoHole c ↔ q.val = c ∧ s.NoHole (q.val + 1) := by
  obtain ⟨hle, hused, hall⟩ := hfirst
  constructor
  · intro hno
    refine ⟨?_, fun f u hf => hno f u (by omega)⟩
    by_contra hne
    have hcq : (⟨c, by omega⟩ : Pid) < q := Fin.lt_def.2 (by simp only; omega)
    exact hall _ (le_refl c) hcq (hno _ q (le_refl c) hcq hused)
  · rintro ⟨rfl, hno⟩ f u hf hfu hu
    rcases Nat.eq_or_lt_of_le hf with h | h
    · rw [← Fin.ext h]
      exact hused
    · exact hno f u h hfu hu

/-- What is read from any cursor on, by induction on the PCBs that are left. -/
theorem enumerates_iff_noHole (hfit : s.ArgsFit) (cb : ProcinfoCb) : s.Enumerates cb ↔ s.NoHole cb.ptCursor := by
  induction hn : maxProc - cb.ptCursor using Nat.strong_induction_on generalizing cb with
  | _ n ih =>
    rcases skipFree_cases s cb with ⟨hrest, cb', hr⟩ | ⟨hlt, q, hq, hfirst⟩
    · exact iff_of_true (enumerates_of_fails hr hrest) fun f u hf hfu hu =>
        absurd hu (hrest u (hf.trans (Fin.lt_def.1 hfu).le))
    · obtain ⟨r, hr⟩ := enumerates_of_returns hfit hlt hq hfirst
      have hle := hfirst.1
      rw [hr, noHole_iff hfirst, ih _ (by simp only; omega) ⟨r, q.val + 1⟩ rfl]

/-- An info stream enumerates the process table exactly when no FREE PCB has a lower pid than a used one. -/
theorem enumerates_iff (hfit : s.ArgsFit) (junk : ProcinfoCb) :
    s.Enumerates (openInfo junk) ↔ ∀ f u : Pid, f < u → s.InUse u → s.InUse f := by
  rw [enumerates_iff_noHole hfit]
  exact ⟨fun h f u => h f u (Nat.zero_le _), fun h f u _ => h f u⟩

/-- A table with these states of the PCBs, in which init is the parent of all others. -/
def tableOf (pstate : Pid → PidState) : State :=
  { initial with
    tree := { Tree.initial with
      pstate := pstate
      parent := fun p => if p.val ≤ 1 then none else some initPid } }

theorem tableOf_argsFit (pstate : Pid → PidState) : (tableOf pstate).ArgsFit := by
  intro p _ args h
  cases h

def noRecord : ProcinfoCb := ⟨⟨0, 0, 0, 0, none, 0, fun _ => 0⟩, 0⟩

/-- Three processes, the last one a zombie. -/
theorem enumerates_iff_three :
    (tableOf fun p => if p.val < 2 then .alive else if p.val = 2 then .zombie else .free).Enumerates
      (openInfo noRecord) := by
  refine (enumerates_iff (tableOf_argsFit _) noRecord).2 fun f u hfu hu => ?_
  have hlt : f.val < u.val := hfu
  simp only [InUse, tableOf] at hu ⊢
  split_ifs at hu ⊢ <;> first | omega | simp_all

/-- The process 2 has been reaped, and the process 3 lives on. -/
theorem hole_not_enumerated :
    ¬(tableOf fun p => if p.val < 2 ∨ p.val = 3 then .alive else .free).Enumerates (openInfo noRecord) := by
  rw [enumerates_iff_noHole (tableOf_argsFit _)]
  intro hno
  exact hno ⟨2, by decide⟩ ⟨3, by decide⟩ (Nat.zero_le _) (by decide) (by simp [InUse, tableOf]) rfl

end State

end TinyOS.Proc
