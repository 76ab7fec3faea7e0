import TinyOS.Streams.System

/-!
# What the calls do to file tables

- `fcbReserve_cases`, `fcbReserve_some`: `FCB_reserve` fails, or puts the first free blocks into free slots; it does the
  latter if there are enough of both;
- `FileCall.apply_slot`: a call puts nothing into a table but what is there already and free blocks;
- `fidt_of_step`: a step changes one table at most.
-/

namespace TinyOS.Streams

/-! ## Reserving -/

/-- The free fids from `f` on. -/
def freeFrom (fidt : Fidt) (f : Nat) : Finset Fid := Finset.univ.filter fun i => f ≤ i.val ∧ fidt i = none

theorem mem_freeFrom {fidt : Fidt} {f : Nat} {i : Fid} : i ∈ freeFrom fidt f ↔ f ≤ i.val ∧ fidt i = none := by
  simp [freeFrom]

theorem nextFree_eq_none {fidt : Fidt} {f : Nat} : nextFree fidt f = none ↔ freeFrom fidt f = ∅ := by
  rw [nextFree, List.find?_eq_none, Finset.eq_empty_iff_forall_notMem]
  simp only [mem_freeFrom, List.mem_finRange, true_imp_iff, decide_eq_true_eq]

/-- The fid found is the first one. -/
theorem nextFree_eq_some {fidt : Fidt} {f : Nat} {g : Fid} (h : nextFree fidt f = some g) :
    g ∈ freeFrom fidt f ∧ freeFrom fidt (g + 1) = (freeFrom fidt f).erase g := by
  unfold nextFree at h
  have hg : f ≤ g.val ∧ fidt g = none := by simpa using List.find?_some h
  refine ⟨mem_freeFrom.2 hg, Finset.ext fun i => ?_⟩
  rw [Finset.mem_erase, mem_freeFrom, mem_freeFrom]
  constructor
  · rintro ⟨hi, hn⟩
    have : i ≠ g := by
      rintro rfl
      omega
    exact ⟨this, by omega, hn⟩
  · rintro ⟨hne, hi, hn⟩
    refine ⟨?_, hn⟩
    by_contra hlt
    have hig : i.val < g.val := by
      have := Fin.val_ne_of_ne hne
      omega
    obtain ⟨j, hj, hgj, hbefore⟩ := List.find?_eq_some_iff_getElem.1 h |>.2
    have hjg : j = g.val := by
      have := congrArg Fin.val hgj
      simpa using this
    have := hbefore i.val (by omega)
    simp [hi, hn] at this

theorem findFids_isSome {fidt : Fidt} {num f : Nat} (h : num ≤ (freeFrom fidt f).card) :
    ∃ l, findFids fidt f num = some l := by
  induction num generalizing f with
  | zero => exact ⟨[], rfl⟩
  | succ num ih =>
    cases hg : nextFree fidt f with
    | none =>
      rw [nextFree_eq_none.1 hg, Finset.card_empty] at h
      omega
    | some g =>
      obtain ⟨hmem, herase⟩ := nextFree_eq_some hg
      have hcard : num ≤ (freeFrom fidt (g + 1)).card := by
        rw [herase, Finset.card_erase_of_mem hmem]
        omega
      obtain ⟨l, hl⟩ := ih hcard
      refine ⟨g :: l, ?_⟩
      simp only [findFids, hg, hl, Option.map_some]

/-- The second loop of `FCB_reserve` takes the first free blocks, -/
theorem acquireMany_of_le {n : Nat} (acc : List FcbPtr) {a : Files} (h : n ≤ a.freelist.length) :
    ∃ b, a.acquireMany n acc = (some (acc.reverse ++ a.freelist.take n), b) ∧ b.freelist = a.freelist.drop n := by
  induction n generalizing acc a with
  | zero => exact ⟨a, by simp [Files.acquireMany], rfl⟩
  | succ n ih =>
    cases hl : a.freelist with
    | nil =>
      rw [hl] at h
      exact absurd h (Nat.not_succ_le_zero n)
    | cons f rest =>
      rw [hl, List.length_cons] at h
      obtain ⟨b, hb, hfree⟩ := ih (f :: acc)
        (a := { a with freelist := rest }.setFcb f { a.fcb f with refcount := 0 }) (Nat.le_of_succ_le_succ h)
      refine ⟨b, ?_, hfree⟩
      simp only [Files.acquireMany, Files.acquireFcb, hl, hb]
      simp [Files.setFcb]

/-- unless there are too few. -/
theorem acquireMany_of_lt {n : Nat} (acc : List FcbPtr) {a : Files} (h : a.freelist.length < n) :
    ∃ b, a.acquireMany n acc = (none, b) := by
  induction n generalizing acc a with
  | zero => exact absurd h (Nat.not_lt_zero _)
  | succ n ih =>
    cases hl : a.freelist with
    | nil => exact ⟨acc.foldl Files.releaseFcb a, by simp only [Files.acquireMany, Files.acquireFcb, hl]⟩
    | cons f rest =>
      rw [hl, List.length_cons] at h
      obtain ⟨b, hb⟩ := ih (f :: acc)
        (a := { a with freelist := rest }.setFcb f { a.fcb f with refcount := 0 }) (Nat.lt_of_succ_lt_succ h)
      exact ⟨b, by simp only [Files.acquireMany, Files.acquireFcb, hl, hb]⟩

namespace View

variable {v v' : View} {f : FcbPtr} {i : Fid}

/-- The table with some slots filled. -/
def fill (fidt : Fidt) (xs : List (Fid × FcbPtr)) : Fidt := xs.foldl (fun t x => Function.update t x.1 (some x.2)) fidt

theorem bindAll_freelist (xs : List (Fid × FcbPtr)) (v : View) :
    (xs.foldl (fun s x => s.bind x.1 x.2) v).files.freelist = v.files.freelist := by
  induction xs generalizing v with
  | nil => rfl
  | cons x xs ih => exact ih (v.bind x.1 x.2)

theorem bindAll_fidt (xs : List (Fid × FcbPtr)) (v : View) :
    (xs.foldl (fun s x => s.bind x.1 x.2) v).fidt = fill v.fidt xs := by
  induction xs generalizing v with
  | nil => rfl
  | cons x xs ih => exact ih (v.bind x.1 x.2)

theorem fill_slot {fidt : Fidt} {xs : List (Fid × FcbPtr)} (h : fill fidt xs i = some f) :
    fidt i = some f ∨ f ∈ xs.map (·.2) := by
  induction xs generalizing fidt with
  | nil => exact .inl h
  | cons x xs ih =>
    rw [List.map_cons, List.mem_cons]
    rcases ih h with hf | hf
    · change Function.update fidt x.1 (some x.2) i = some f at hf
      by_cases hix : i = x.1
      · subst hix
        rw [Function.update_self] at hf
        exact .inr (.inl (Option.some.inj hf).symm)
      · rw [Function.update_of_ne hix] at hf
        exact .inl hf
    · exact .inr (.inr hf)

/-- `FCB_reserve` succeeds if there are enough fids and blocks, -/
theorem fcbReserve_some {num : Nat} {fids : List Fid} (hfids : findFids v.fidt 0 num = some fids)
    (hfcbs : num ≤ v.files.freelist.length) :
    ∃ files, files.freelist = v.files.freelist.drop num ∧ v.fcbReserve num =
      (some (fids.zip (v.files.freelist.take num)), ⟨fill v.fidt (fids.zip (v.files.freelist.take num)), files⟩) := by
  obtain ⟨b, hb, hfree⟩ := acquireMany_of_le [] hfcbs
  rw [List.reverse_nil, List.nil_append] at hb
  refine ⟨((fids.zip (v.files.freelist.take num)).foldl (fun s x => View.bind s x.1 x.2) ⟨v.fidt, b⟩).files,
    (bindAll_freelist _ _).trans hfree, ?_⟩
  unfold fcbReserve
  simp only [hfids, hb]
  rw [← bindAll_fidt _ ⟨v.fidt, b⟩]

/-- and changes no table if there are not. -/
theorem fcbReserve_cases (v : View) (num : Nat) :
    (∃ files, v.fcbReserve num = (none, ⟨v.fidt, files⟩)) ∨
    ∃ fids files, findFids v.fidt 0 num = some fids ∧ num ≤ v.files.freelist.length ∧
      v.fcbReserve num =
        (some (fids.zip (v.files.freelist.take num)), ⟨fill v.fidt (fids.zip (v.files.freelist.take num)), files⟩) := by
  cases hf : findFids v.fidt 0 num with
  | none =>
    left
    exact ⟨v.files, by simp only [fcbReserve, hf]⟩
  | some fids =>
    rcases Nat.lt_or_ge v.files.freelist.length num with hlt | hle
    · left
      obtain ⟨b, hb⟩ := acquireMany_of_lt [] hlt
      exact ⟨b, by simp only [fcbReserve, hf, hb]⟩
    · right
      obtain ⟨files, -, hr⟩ := fcbReserve_some hf hle
      exact ⟨fids, files, rfl, hle, hr⟩

/-! ## System calls -/

theorem sysOpenNull_some (hfids : 1 ≤ (freeFrom v.fidt 0).card) (hfcbs : 1 ≤ v.files.freelist.length) :
    ∃ i f v', v.sysOpenNull 1 = some (some i, v') ∧ v.fidt i = none ∧ v'.fidt = Function.update v.fidt i (some f) ∧
      v'.files.freelist = v.files.freelist.drop 1 := by
  obtain ⟨l, hl⟩ := findFids_isSome hfids
  obtain ⟨hlen, -, hfree⟩ := findFids_some hl
  obtain ⟨i, rfl⟩ := List.length_eq_one_iff.1 hlen
  obtain ⟨files, hdrop, hr⟩ := fcbReserve_some hl hfcbs
  obtain ⟨f, rest, hf⟩ := List.exists_cons_of_length_pos hfcbs
  rw [hf] at hr
  refine ⟨i, f, ⟨Function.update v.fidt i (some f), files.attach f .null⟩, ?_, (hfree i (List.mem_singleton_self i)).2,
    rfl, hdrop⟩
  simp only [sysOpenNull, openStream, hr]
  rfl

theorem sysPipe_some (hfids : 2 ≤ (freeFrom v.fidt 0).card) (hfcbs : 2 ≤ v.files.freelist.length)
    (hn : v.files.freelist.Nodup) :
    ∃ r w f g v', v.sysPipe = (some (r, w), v') ∧ (r ≠ w ∧ v.fidt r = none ∧ v.fidt w = none) ∧
      (f ≠ g ∧ f ∈ v.files.freelist ∧ g ∈ v.files.freelist) ∧
      v'.fidt = Function.update (Function.update v.fidt r (some f)) w (some g) ∧
      v'.files.freelist = v.files.freelist.drop 2 := by
  obtain ⟨l, hl⟩ := findFids_isSome hfids
  obtain ⟨hlen, hnd, hfree⟩ := findFids_some hl
  obtain ⟨r, w, rfl⟩ := List.length_eq_two.1 hlen
  obtain ⟨files, hdrop, hr⟩ := fcbReserve_some hl hfcbs
  obtain ⟨f, rest, hf⟩ := List.exists_cons_of_length_pos (Nat.lt_of_succ_lt hfcbs)
  obtain ⟨g, rest, rfl⟩ : ∃ g rest', rest = g :: rest' := by
    rw [hf, List.length_cons] at hfcbs
    exact List.exists_cons_of_length_pos (Nat.le_of_succ_le_succ hfcbs)
  rw [hf] at hr hn hdrop ⊢
  have hrw : r ≠ w := by simpa using hnd
  have hfg : f ≠ g := by
    rintro rfl
    exact (List.nodup_cons.1 hn).1 List.mem_cons_self
  refine ⟨r, w, f, g, ⟨Function.update (Function.update v.fidt r (some f)) w (some g),
    (files.attach f .pipeReader).attach g .pipeWriter⟩, ?_, ⟨hrw, (hfree r (by simp)).2, (hfree w (by simp)).2⟩,
    ⟨hfg, List.mem_cons_self, by simp⟩, rfl, hdrop⟩
  simp only [sysPipe, hr]
  rfl

theorem sysClose_fidt (v : View) (i : Fid) (retval : Int) :
    (v.sysClose i.val retval).2.fidt = Function.update v.fidt i none := by
  unfold sysClose
  rw [dif_pos ⟨Int.natCast_nonneg _, i.isLt⟩]
  split
  · rename_i hi
    exact (Function.update_eq_self_iff.2 hi.symm).symm
  · rfl

theorem sysDup2_fidt {j : Fid} (hi : v.fidt i = some f) :
    (v.sysDup2 i.val j.val).2.fidt = Function.update v.fidt j (some f) := by
  have h : (0 ≤ (i.val : Int) ∧ (i.val : Int).toNat < maxFileid) ∧ 0 ≤ (j.val : Int) ∧ (j.val : Int).toNat < maxFileid :=
    ⟨⟨Int.natCast_nonneg _, i.isLt⟩, Int.natCast_nonneg _, j.isLt⟩
  unfold sysDup2
  rw [dif_pos h]
  split
  · rename_i hn
    exact absurd (hi.symm.trans hn) (Option.some_ne_none f)
  · rename_i old ho
    obtain rfl : f = old := Option.some.inj (hi.symm.trans ho)
    dsimp only
    split
    · rfl
    · rename_i heq
      exact (Function.update_eq_self_iff.2 (not_not.1 heq)).symm

/-- Giving up a reference frees a block, or none. -/
theorem length_fcbDecref (a : Files) (f : FcbPtr) : a.freelist.length ≤ (a.fcbDecref f).2.freelist.length := by
  unfold Files.fcbDecref
  dsimp only
  split
  · show a.freelist.length ≤ (a.freelist ++ [f]).length
    rw [List.length_append]
    exact Nat.le_add_right _ _
  · exact Nat.le_refl _

theorem length_sysClose (v : View) (fd retval : Int) :
    v.files.freelist.length ≤ (v.sysClose fd retval).2.files.freelist.length := by
  unfold sysClose
  split
  · split
    · exact Nat.le_refl _
    · exact length_fcbDecref _ _
  · exact Nat.le_refl _

theorem length_sysDup2 (v : View) (oldfd newfd : Int) :
    v.files.freelist.length ≤ (v.sysDup2 oldfd newfd).2.files.freelist.length := by
  unfold sysDup2
  split
  · dsimp only
    split
    · exact Nat.le_refl _
    · split
      · split
        · exact length_fcbDecref _ _
        · exact Nat.le_refl _
      · exact Nat.le_refl _
  · exact Nat.le_refl _

theorem inherit_freelist (parent : Fidt) (l : List Fid) (v : View) :
    (v.inherit parent l).files.freelist = v.files.freelist := by
  induction l generalizing v with
  | nil => rfl
  | cons a l ih =>
    rw [inherit, ih]
    dsimp only
    split <;> rfl

theorem inherit_fidt (parent : Fidt) (i : Fid) (l : List Fid) (v : View) :
    (v.inherit parent l).fidt i = if i ∈ l then parent i else v.fidt i := by
  induction l generalizing v with
  | nil => simp [inherit]
  | cons a l ih =>
    rw [inherit, ih]
    by_cases hia : i = a
    · subst hia
      simp
    · simp [hia]

/-! ### Nothing but free blocks is new -/

/-- What is in a slot of the new table was in the table, or is a free block. -/
def Stocked (v v' : View) : Prop := ∀ i f, v'.fidt i = some f → (∃ j, v.fidt j = some f) ∨ f ∈ v.files.freelist

theorem Stocked.of_reserve {num : Nat} {xs : Option (List (Fid × FcbPtr))} (h : v.fcbReserve num = (xs, v')) :
    Stocked v v' := by
  intro i f hi
  rcases fcbReserve_cases v num with ⟨files, hr⟩ | ⟨fids, files, -, -, hr⟩
  · rw [hr] at h
    obtain ⟨-, rfl⟩ := Prod.mk.inj h
    exact .inl ⟨i, hi⟩
  · rw [hr] at h
    obtain ⟨-, rfl⟩ := Prod.mk.inj h
    refine (fill_slot hi).imp (fun hf => ⟨i, hf⟩) fun hf => ?_
    obtain ⟨x, hx, rfl⟩ := List.mem_map.1 hf
    exact List.mem_of_mem_take (List.of_mem_zip hx).2

theorem Stocked.same (h : v'.fidt = v.fidt) : Stocked v v' := fun i _ hi => .inl ⟨i, h ▸ hi⟩

/-- A slot that is emptied, or gets a stream of the caller. -/
theorem Stocked.update {x : Option FcbPtr} (hx : ∀ f, x = some f → ∃ j, v.fidt j = some f)
    (hv : v'.fidt = Function.update v.fidt i x) : Stocked v v' := by
  intro j f hj
  rw [hv] at hj
  by_cases hji : j = i
  · subst hji
    rw [Function.update_self] at hj
    exact .inl (hx f hj)
  · rw [Function.update_of_ne hji] at hj
    exact .inl ⟨j, hj⟩

theorem Stocked.clear {v₁ : View} (h : Stocked v v₁) (hv : v'.fidt = Function.update v₁.fidt i none) : Stocked v v' := by
  intro j f hj
  rw [hv] at hj
  by_cases hji : j = i
  · subst hji
    rw [Function.update_self] at hj
    cases hj
  · rw [Function.update_of_ne hji] at hj
    exact h j f hj

theorem openOne_stocked (v : View) (ops : FileOps) : Stocked v (v.openOne ops).2 := by
  unfold openOne
  split
  · rename_i hr
    have h := Stocked.of_reserve hr
    exact h
  · rename_i hr
    exact Stocked.of_reserve hr

theorem openStream_stocked {ops : FileOps} {devnum minor : Nat} {r : Option Fid}
    (he : v.openStream ops devnum minor = some (r, v')) : Stocked v v' := by
  unfold openStream at he
  split at he
  · rename_i fid f v₁ hr
    have hst := Stocked.of_reserve hr
    split at he
    · obtain ⟨v₂, hu, hv⟩ := Option.map_eq_some_iff.1 he
      obtain ⟨-, rfl⟩ := Prod.mk.inj hv
      simp only [fcbUnreserve, Option.ite_none_right_eq_some, Option.some.injEq] at hu
      obtain ⟨-, rfl⟩ := hu
      exact hst.clear rfl
    · obtain ⟨-, rfl⟩ := Prod.mk.inj (Option.some.inj he)
      exact hst
  · rename_i hr
    obtain ⟨-, rfl⟩ := Prod.mk.inj (Option.some.inj he)
    exact Stocked.of_reserve hr

theorem sysDup2_stocked (v : View) (oldfd newfd : Int) : Stocked v (v.sysDup2 oldfd newfd).2 := by
  unfold sysDup2
  split
  · dsimp only
    split
    · exact Stocked.same rfl
    · rename_i old ho
      split
      · exact Stocked.update (fun f hf => ⟨_, hf ▸ ho⟩) rfl
      · exact Stocked.same rfl
  · exact Stocked.same rfl

theorem sysClose_stocked (v : View) (fd retval : Int) : Stocked v (v.sysClose fd retval).2 := by
  unfold sysClose
  split
  · split
    · exact Stocked.same rfl
    · exact Stocked.update (x := none) (fun f hf => nomatch hf) rfl
  · exact Stocked.same rfl

end View

theorem FileCall.apply_stocked {v v' : View} {c : FileCall} (he : c.apply v = some v') : v.Stocked v' := by
  cases c with
  | close fd retval =>
    obtain rfl := Option.some.inj he
    exact v.sysClose_stocked fd retval
  | dup2 oldfd newfd =>
    obtain rfl := Option.some.inj he
    exact v.sysDup2_stocked oldfd newfd
  | pipe =>
    obtain rfl := Option.some.inj he
    unfold View.sysPipe
    split
    · rename_i hr
      have h := View.Stocked.of_reserve hr
      exact h
    · rename_i hr
      exact View.Stocked.of_reserve hr
  | socket port =>
    obtain rfl := Option.some.inj he
    unfold View.sysSocket
    split
    · exact View.Stocked.same rfl
    · exact v.openOne_stocked .socket
  | openInfo =>
    obtain rfl := Option.some.inj he
    exact v.openOne_stocked .procInfo
  | openNull devnum =>
    obtain ⟨⟨r, w⟩, hr, rfl⟩ := Option.map_eq_some_iff.1 he
    exact View.openStream_stocked hr
  | openTerminal devnum termno =>
    obtain ⟨⟨r, w⟩, hr, rfl⟩ := Option.map_eq_some_iff.1 he
    exact View.openStream_stocked hr

/-! ## Steps -/

/-- The process whose file table a step may change. -/
def Action.owner : Action → Option Proc.Pid
  | .exec _ p | .exit p | .file p _ => some p
  | _ => none

namespace State

variable {s s' : State} {p q cur : Proc.Pid} {a : Action}

theorem fidt_of_step (hs : s.step a = some s') (hq : a.owner ≠ some q) : s'.fidt q = s.fidt q := by
  cases step_cases hs with
  | exec | exit | file => exact Function.update_of_ne (fun he => hq (congrArg some he.symm)) _ _
  | first | reap | ioFail | io | ioNone | finish => rfl

/-- The new process has the table of its parent. -/
theorem fidt_of_exec (hp : 1 < p.val) (hs : s.sysExec cur p = some s') : s'.fidt p = s.fidt cur := by
  simp only [sysExec, Option.ite_none_right_eq_some, Option.some.injEq] at hs
  obtain ⟨-, rfl⟩ := hs
  rw [if_neg (Nat.not_le.2 hp)]
  funext i
  show Function.update s.fidt p _ p i = s.fidt cur i
  rw [Function.update_self, View.inherit_fidt, if_pos (List.mem_finRange i)]

end State

end TinyOS.Streams
