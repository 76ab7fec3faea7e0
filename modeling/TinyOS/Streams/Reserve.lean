import TinyOS.Streams.Tables

/-!
# All or nothing

`FCB_reserve` with any file table and any list of free blocks, and the system calls that undo it.

- `Reserved`: what it leaves behind when it succeeds (`reserved_of_some`);
- `Untouched`: what it leaves behind when it fails (`untouched_of_none`), and `sys_OpenNull` and `sys_OpenTerminal` as well
  (`untouched_of_openStream`).
-/

namespace TinyOS.Streams

/-! ## The fids -/

/-- The fids come in increasing order, and none that is free is passed over. -/
theorem findFids_lowest {fidt : Fidt} : ∀ {num f : Nat} {l : List Fid}, findFids fidt f num = some l →
    l.Pairwise (· < ·) ∧ ∀ i ∈ l, ∀ j < i, f ≤ j.val → fidt j = none → j ∈ l := by
  intro num
  induction num with
  | zero =>
    intro f l h
    cases h
    exact ⟨.nil, fun i hi => by cases hi⟩
  | succ num ih =>
    intro f l h
    simp only [findFids] at h
    cases hg : nextFree fidt f with
    | none => simp [hg] at h
    | some g =>
      simp only [hg] at h
      obtain ⟨rest, hr, rfl⟩ := Option.map_eq_some_iff.1 h
      obtain ⟨hinc, hlow⟩ := ih hr
      have hlater : ∀ i ∈ rest, g < i := fun i hi => ((findFids_some hr).2.2 i hi).1
      -- a free fid from `f` on is `g` or comes later
      have hnext : ∀ j : Fid, f ≤ j.val → fidt j = none → j = g ∨ g < j := by
        intro j hj hn
        by_cases hjg : j = g
        · exact .inl hjg
        · have hmem : j ∈ freeFrom fidt (g + 1) := by
            rw [(nextFree_eq_some hg).2]
            exact Finset.mem_erase.2 ⟨hjg, mem_freeFrom.2 ⟨hj, hn⟩⟩
          exact .inr (mem_freeFrom.1 hmem).1
      refine ⟨List.pairwise_cons.2 ⟨hlater, hinc⟩, fun i hi j hji hj hn => ?_⟩
      rcases hnext j hj hn with rfl | hgj
      · exact List.mem_cons_self
      · rcases List.mem_cons.1 hi with rfl | hi
        · exact absurd hji (lt_asymm hgj)
        · exact List.mem_cons_of_mem _ (hlow i hi j hji hgj hn)

theorem findFids_none {fidt : Fidt} {num f : Nat} (h : findFids fidt f num = none) : (freeFrom fidt f).card < num := by
  by_contra hle
  obtain ⟨l, hl⟩ := findFids_isSome (Nat.not_lt.1 hle)
  cases hl.symm.trans h

/-! ## The blocks -/

theorem releaseAll_freelist (acc : List FcbPtr) (a : Files) :
    (acc.foldl Files.releaseFcb a).freelist = a.freelist ++ acc := by
  induction acc generalizing a with
  | nil => simp
  | cons f acc ih =>
    rw [List.foldl_cons, ih]
    simp [Files.releaseFcb]

/-- The roll back gives back what has been acquired. -/
theorem acquireMany_rollback {n : Nat} {acc : List FcbPtr} {a b : Files} (h : a.acquireMany n acc = (none, b)) :
    b.freelist.Perm (acc ++ a.freelist) := by
  induction n generalizing acc a with
  | zero => cases h
  | succ n ih =>
    cases hl : a.freelist with
    | nil =>
      simp only [Files.acquireMany, Files.acquireFcb, hl, Prod.mk.injEq, true_and] at h
      rw [← h, releaseAll_freelist, hl, List.nil_append, List.append_nil]
    | cons f rest =>
      simp only [Files.acquireMany, Files.acquireFcb, hl] at h
      exact (ih h).trans List.perm_middle.symm

/-- Only `refcount` of the blocks acquired is written. -/
theorem acquireMany_fcb {n : Nat} {acc l : List FcbPtr} {a b : Files} (h : a.acquireMany n acc = (some l, b))
    (f : FcbPtr) : b.fcb f = if f ∈ a.freelist.take n then { a.fcb f with refcount := 0 } else a.fcb f := by
  induction n generalizing acc a with
  | zero =>
    cases h
    simp
  | succ n ih =>
    cases hl : a.freelist with
    | nil => simp [Files.acquireMany, Files.acquireFcb, hl] at h
    | cons g rest =>
      simp only [Files.acquireMany, Files.acquireFcb, hl] at h
      rw [ih h]
      by_cases hfg : f = g
      · subst hfg
        simp [Files.setFcb]
      · simp [Files.setFcb, hfg]

namespace View

variable {v v' : View} {f : FcbPtr} {i : Fid} {num : Nat}

theorem bindAll_fcb (xs : List (Fid × FcbPtr)) (v : View) (f : FcbPtr) :
    (xs.foldl (fun s x => s.bind x.1 x.2) v).files.fcb f =
      { v.files.fcb f with refcount := (v.files.fcb f).refcount + (xs.map (·.2)).count f } := by
  induction xs generalizing v with
  | nil => rfl
  | cons x xs ih =>
    rw [List.foldl_cons, ih, List.map_cons, List.count_cons]
    by_cases hf : f = x.2
    · subst hf
      simp [bind, Files.fcbIncref, Files.setFcb, Nat.add_assoc, Nat.add_comm 1]
    · simp [bind, Files.fcbIncref, Files.setFcb, hf, Ne.symm hf]

theorem fill_of_notMem {fidt : Fidt} {xs : List (Fid × FcbPtr)} (h : i ∉ xs.map (·.1)) : fill fidt xs i = fidt i := by
  induction xs generalizing fidt with
  | nil => rfl
  | cons x xs ih =>
    rw [List.map_cons, List.mem_cons, not_or] at h
    exact (ih h.2).trans (Function.update_of_ne h.1 _ _)

theorem fill_of_mem {fidt : Fidt} {xs : List (Fid × FcbPtr)} (hn : (xs.map (·.1)).Nodup) {x : Fid × FcbPtr} (h : x ∈ xs) :
    fill fidt xs x.1 = some x.2 := by
  induction xs generalizing fidt with
  | nil => cases h
  | cons y xs ih =>
    rw [List.map_cons, List.nodup_cons] at hn
    rcases List.mem_cons.1 h with rfl | h
    · exact (fill_of_notMem hn.1).trans (Function.update_self ..)
    · exact ih hn.2 h

/-! ## `FCB_reserve` -/

/-- `num` fids and blocks `xs` are reserved by the caller. -/
structure Reserved (v : View) (num : Nat) (xs : List (Fid × FcbPtr)) (v' : View) : Prop where
  length : xs.length = num
  increasing : (xs.map (·.1)).Pairwise (· < ·)
  free : ∀ i ∈ xs.map (·.1), v.fidt i = none
  lowest : ∀ i ∈ xs.map (·.1), ∀ j < i, v.fidt j = none → j ∈ xs.map (·.1)
  distinct : (xs.map (·.2)).Nodup
  taken : xs.map (·.2) ++ v'.files.freelist = v.files.freelist
  bound : ∀ x ∈ xs, v'.fidt x.1 = some x.2 ∧ v'.files.fcb x.2 = { v.files.fcb x.2 with refcount := 1 }
  slots : ∀ i ∉ xs.map (·.1), v'.fidt i = v.fidt i
  blocks : ∀ f ∉ xs.map (·.2), v'.files.fcb f = v.files.fcb f

/-- The table of the caller is as it was, and the same blocks are free. -/
structure Untouched (v v' : View) : Prop where
  fidt : v'.fidt = v.fidt
  free : v'.files.freelist.Perm v.files.freelist

theorem reserved_of_some (hn : v.files.freelist.Nodup) {xs : List (Fid × FcbPtr)} (h : v.fcbReserve num = (some xs, v')) :
    Reserved v num xs v' := by
  unfold fcbReserve at h
  cases hfids : findFids v.fidt 0 num with
  | none => simp [hfids] at h
  | some fids =>
    simp only [hfids] at h
    obtain ⟨hlen, -, hfree⟩ := findFids_some hfids
    obtain ⟨hinc, hlow⟩ := findFids_lowest hfids
    rcases Nat.lt_or_ge v.files.freelist.length num with hlt | hle
    · obtain ⟨b, hb⟩ := acquireMany_of_lt [] hlt
      simp [hb] at h
    · obtain ⟨b, hb, hdrop⟩ := acquireMany_of_le [] hle
      rw [List.reverse_nil, List.nil_append] at hb
      simp only [hb, Prod.mk.injEq, Option.some.injEq] at h
      obtain ⟨rfl, rfl⟩ := h
      have hlen' : (v.files.freelist.take num).length = num := by
        rw [List.length_take]
        omega
      have hfst : (fids.zip (v.files.freelist.take num)).map (·.1) = fids := List.map_fst_zip (by omega)
      have hsnd : (fids.zip (v.files.freelist.take num)).map (·.2) = v.files.freelist.take num :=
        List.map_snd_zip (by omega)
      have hnd : (v.files.freelist.take num).Nodup := hn.sublist (List.take_sublist _ _)
      have hfcb : ∀ f, ((fids.zip (v.files.freelist.take num)).foldl (fun s x => View.bind s x.1 x.2)
          ⟨v.fidt, b⟩).files.fcb f =
          if f ∈ v.files.freelist.take num then { v.files.fcb f with refcount := 1 } else v.files.fcb f := by
        intro f
        rw [bindAll_fcb, hsnd, acquireMany_fcb hb, hnd.count]
        split <;> rfl
      refine ⟨?_, ?_, ?_, ?_, ?_, ?_, fun x hx => ⟨?_, ?_⟩, fun i hi => ?_, fun f hf => ?_⟩
      · rw [List.length_zip]
        omega
      · rwa [hfst]
      · rw [hfst]
        exact fun i hi => (hfree i hi).2
      · rw [hfst]
        exact fun i hi j hji => hlow i hi j hji (Nat.zero_le _)
      · rwa [hsnd]
      · rw [hsnd, bindAll_freelist, hdrop, List.take_append_drop]
      · rw [bindAll_fidt]
        exact fill_of_mem (hfst.symm ▸ hinc.imp ne_of_lt) hx
      · rw [hfcb, if_pos (List.of_mem_zip hx).2]
      · rw [bindAll_fidt]
        exact fill_of_notMem hi
      · rw [hfcb, if_neg (hsnd ▸ hf)]

/-- Slots or blocks have run out. -/
theorem untouched_of_none (h : v.fcbReserve num = (none, v')) :
    ((freeFrom v.fidt 0).card < num ∨ v.files.freelist.length < num) ∧ Untouched v v' := by
  unfold fcbReserve at h
  cases hfids : findFids v.fidt 0 num with
  | none =>
    simp only [hfids, Prod.mk.injEq, true_and] at h
    exact ⟨.inl (findFids_none hfids), congrArg View.fidt h.symm, h ▸ .rfl⟩
  | some fids =>
    simp only [hfids] at h
    cases hb : v.files.acquireMany num [] with
    | mk r b =>
      cases r with
      | some fcbs => simp [hb] at h
      | none =>
        simp only [hb, Prod.mk.injEq, true_and] at h
        subst h
        refine ⟨.inr (Nat.lt_of_not_le fun hle => ?_), rfl, acquireMany_rollback hb⟩
        obtain ⟨b', hb', -⟩ := acquireMany_of_le [] hle
        cases hb.symm.trans hb'

/-! ## Devices -/

/-- `open_stream` never fails the assertion of `FCB_unreserve`, and takes nothing if it fails. -/
theorem untouched_of_openStream (hn : v.files.freelist.Nodup) (ops : FileOps) (devnum minor : Nat) :
    ∃ r v', v.openStream ops devnum minor = some (r, v') ∧ (r = none → Untouched v v') := by
  unfold openStream
  cases hr : v.fcbReserve 1 with
  | mk xs v₁ =>
    cases xs with
    | none => exact ⟨none, v₁, rfl, fun _ => (untouched_of_none hr).2⟩
    | some xs =>
      have hres := reserved_of_some hn hr
      obtain ⟨⟨i, f⟩, rfl⟩ := List.length_eq_one_iff.1 hres.length
      dsimp only
      split
      · have hi : v₁.fidt i = some f := (hres.bound _ (List.mem_singleton_self _)).1
        rw [fcbUnreserve, if_pos hi]
        refine ⟨none, _, rfl, fun _ => ⟨funext fun j => ?_, ?_⟩⟩
        · by_cases hj : j = i
          · subst hj
            exact (Function.update_self ..).trans (hres.free _ (List.mem_singleton_self _)).symm
          · exact (Function.update_of_ne hj _ _).trans (hres.slots j (by simpa using hj))
        · rw [← hres.taken]
          exact List.perm_append_comm
      · exact ⟨some i, _, rfl, fun h => by cases h⟩

end View

/-- **Reserving fids is all or nothing**, also in the calls that open a device. -/
theorem reserve_all_or_nothing (v : View) (hn : v.files.freelist.Nodup) (num : Nat) :
    (∀ xs v', v.fcbReserve num = (some xs, v') → v.Reserved num xs v') ∧
    (∀ v', v.fcbReserve num = (none, v') →
      ((freeFrom v.fidt 0).card < num ∨ v.files.freelist.length < num) ∧ v.Untouched v' ∧ v'.files.freelist.Nodup) ∧
    ∀ devnum, (∃ r v', v.sysOpenNull devnum = some (r, v') ∧ (r = none → v.Untouched v')) ∧
      ∀ termno, ∃ r v', v.sysOpenTerminal devnum termno = some (r, v') ∧ (r = none → v.Untouched v') := by
  refine ⟨fun xs v' h => View.reserved_of_some hn h, fun v' h => ?_, fun devnum => ⟨?_, fun termno => ?_⟩⟩
  · obtain ⟨hfew, hun⟩ := View.untouched_of_none h
    exact ⟨hfew, hun, hun.free.nodup_iff.2 hn⟩
  · exact View.untouched_of_openStream hn .null devnum 0
  · exact View.untouched_of_openStream hn .serial devnum termno

/-- With one block left, two fids are not to be had, and one is. -/
theorem reserve_all_or_nothing_last : ∃ (v v₁ v₂ : View) (i : Fid) (f : FcbPtr), v.files.freelist = [f] ∧
    v.fcbReserve 2 = (none, v₁) ∧ v.Untouched v₁ ∧ v.fcbReserve 1 = (some [(i, f)], v₂) ∧ v.Reserved 1 [(i, f)] v₂ := by
  let v : View := ⟨fun _ => none, ⟨fun _ => ⟨0, none, 0, 0⟩, [⟨0, by decide⟩]⟩⟩
  have hall := reserve_all_or_nothing v (List.nodup_singleton _)
  exact ⟨v, _, _, ⟨0, by decide⟩, _, rfl, rfl, ((hall 2).2.1 _ rfl).2.1, rfl, (hall 1).1 _ _ rfl⟩

end TinyOS.Streams
