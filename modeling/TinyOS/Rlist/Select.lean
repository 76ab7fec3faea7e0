import Mathlib.Data.Fin.VecNotation
import TinyOS.Rlist.Lists

/-!
# Selecting nodes

`rlist_select` walks the source list with a cursor `I`, whose successor it looks at: it moves that node to the end of
the destination, or the cursor over it. So the source is at all times the nodes it kept, up to the cursor, and then the
nodes it has not seen.

- `rlistSelect_partitions`: it ends, and both lists have their nodes in order.
-/

namespace TinyOS.Rlist

variable {P V : Type} [DecidableEq P] {h : Nodes P V} {S D I c : P} {kept rest dest : List P}
  {pred : (P → V) → P → Bool}

/-- One node moves from the source to the end of the destination. -/
theorem selectStep_turns (hS : h.Ring (S :: kept ++ c :: rest)) (hD : h.Ring (D :: dest))
    (hd : List.Disjoint (S :: kept ++ c :: rest) (D :: dest)) :
    Turns h (rlistPushBack (rlistRemove h c).2 D c) [S :: kept ++ c :: rest, D :: dest]
      [S :: kept ++ rest, D :: dest ++ [c]] := by
  have hcS : c ∉ S :: kept ++ rest := (List.nodup_cons.1 (List.nodup_middle.1 hS.circuit.nodup)).1
  have hcD : c ∉ D :: dest := fun hm => hd (List.mem_append_right _ List.mem_cons_self) hm
  have hsub : S :: kept ++ rest ⊆ S :: kept ++ c :: rest := fun p hp => by
    simp only [List.mem_append, List.mem_cons] at hp ⊢
    tauto
  have hDs : ∀ l ∈ [D :: dest], h.Ring l := List.forall_mem_singleton.2 hD
  have hremove := (rlistRemove_turns hS (by simp)).append hDs (by simpa using hd.symm)
  have hSs : ∀ l ∈ [S :: kept ++ rest], (rlistRemove h c).2.Ring l :=
    List.forall_mem_singleton.2 (hremove.rings _ List.mem_cons_self)
  have hpush := (rlistPushBack_turns (hremove.rings (D :: dest) (by simp)) (hremove.rings [c] (by simp))
    (List.disjoint_singleton.2 hcD)).append hSs ?_
  · refine (hremove.trans hpush fun p hp => ?_).enter (List.Subset.refl _) ?_
    · simp only [List.flatten_append, List.flatten_cons, List.flatten_nil, List.mem_append, List.mem_cons] at hp ⊢
      tauto
    · intro l hl
      refine hpush.rings l ?_
      simp only [List.mem_append, List.mem_cons, List.append_nil] at hl ⊢
      tauto
  · rw [List.forall_mem_singleton, List.flatten_cons, List.flatten_singleton, List.disjoint_append_right]
    exact ⟨fun p hp => hd (hsub hp), List.disjoint_singleton.2 hcS⟩

/-- From the cursor on, the nodes that `pred` selects move, and the others stay. -/
theorem selectLoop_turns (hI : ∃ w, S :: kept = w ++ [I]) (hS : h.Ring (S :: kept ++ rest)) (hD : h.Ring (D :: dest))
    (hd : List.Disjoint (S :: kept ++ rest) (D :: dest)) :
    ∃ h', (∀ fuel > rest.length, selectLoop S D pred fuel h I = some h') ∧
      Turns h h' [S :: kept ++ rest, D :: dest]
        [S :: kept ++ rest.filter fun p => !pred h.obj p, D :: dest ++ rest.filter (pred h.obj)] := by
  induction rest generalizing h kept dest I with
  | nil =>
    obtain ⟨w, hw⟩ := hI
    rw [List.append_nil] at hS
    have hlast : h.next I = S := hS.circuit.next_last hw
    refine ⟨h, fun fuel hf => ?_, ?_⟩
    · obtain ⟨fuel, rfl⟩ := Nat.exists_eq_succ_of_ne_zero (Nat.ne_zero_of_lt hf)
      rw [selectLoop, if_neg (not_not.2 hlast)]
    · have hr : ∀ l ∈ [S :: kept, D :: dest], h.Ring l := by simpa using ⟨hS, hD⟩
      simpa using Turns.refl hr
  | cons c rest ih =>
    obtain ⟨w, hw⟩ := hI
    have hc : h.next I = c := by
      rw [hw, List.append_assoc] at hS
      exact hS.circuit.next_eq
    have hcS : c ∉ S :: kept ++ rest := (List.nodup_cons.1 (List.nodup_middle.1 hS.circuit.nodup)).1
    have hne : c ≠ S := by
      rintro rfl
      exact hcS List.mem_cons_self
    by_cases hp : pred h.obj c
    · have hstep := selectStep_turns hS hD hd
      have hd' : List.Disjoint (S :: kept ++ rest) (D :: dest ++ [c]) := by
        refine List.disjoint_append_right.2 ⟨fun p hp => hd ?_, List.disjoint_singleton.2 hcS⟩
        simp only [List.mem_append, List.mem_cons] at hp ⊢
        tauto
      have hD' : (rlistPushBack (rlistRemove h c).2 D c).Ring (D :: (dest ++ [c])) := hstep.rings _ (by simp)
      obtain ⟨h', hrun, ht⟩ := ih ⟨w, hw⟩ (hstep.rings _ List.mem_cons_self) hD' hd'
      rw [hstep.keys] at ht
      refine ⟨h', fun fuel hf => ?_, ?_⟩
      · obtain ⟨fuel, rfl⟩ := Nat.exists_eq_succ_of_ne_zero (Nat.ne_zero_of_lt hf)
        rw [selectLoop, hc, if_pos hne, if_pos hp]
        exact hrun fuel (by simpa using hf)
      · refine (hstep.trans ht fun p hp => ?_).enter (List.Subset.refl _) ?_
        · simp only [List.flatten_cons, List.flatten_nil, List.mem_append, List.mem_cons] at hp ⊢
          tauto
        · simpa [hp] using ht.rings
    · have hI' : ∃ w, S :: (kept ++ [c]) = w ++ [c] := ⟨S :: kept, rfl⟩
      have hS' : h.Ring (S :: (kept ++ [c]) ++ rest) := by simpa using hS
      obtain ⟨h', hrun, ht⟩ := ih hI' hS' hD (by simpa using hd)
      refine ⟨h', fun fuel hf => ?_, ?_⟩
      · obtain ⟨fuel, rfl⟩ := Nat.exists_eq_succ_of_ne_zero (Nat.ne_zero_of_lt hf)
        rw [selectLoop, hc, if_pos hne, if_neg hp]
        exact hrun fuel (by simpa using hf)
      · simpa [hp] using ht

/-- `rlist_select` is a stable partition of the source. -/
theorem rlistSelect_partitions (h : Nodes P V) (hl : h.Linked) (Lsrc Ldest : P) (xs ys : List P)
    (pred : (P → V) → P → Bool) (hsrc : Circuit h.next (Lsrc :: xs)) (hdest : Circuit h.next (Ldest :: ys))
    (hd : List.Disjoint (Lsrc :: xs) (Ldest :: ys)) :
    ∃ h', (∀ fuel > xs.length, rlistSelect fuel h Lsrc Ldest pred = some h') ∧
      h'.Linked ∧
      h'.Ring (Lsrc :: xs.filter fun p => !pred h.obj p) ∧
      h'.Ring (Ldest :: (ys ++ xs.filter (pred h.obj))) ∧
      h'.obj = h.obj ∧
      ∀ p, p ∉ Lsrc :: xs → p ∉ Ldest :: ys → h'.next p = h.next p ∧ h'.prev p = h.prev p := by
  have hloop : ∃ h', (∀ fuel > xs.length, rlistSelect fuel h Lsrc Ldest pred = some h') ∧
      Turns h h' [[Lsrc] ++ xs, Ldest :: ys]
        [[Lsrc] ++ xs.filter fun p => !pred h.obj p, Ldest :: ys ++ xs.filter (pred h.obj)] :=
    selectLoop_turns ⟨[], rfl⟩ (hl.ring hsrc) (hl.ring hdest) hd
  obtain ⟨h', hrun, ht⟩ := hloop
  refine ⟨h', hrun, ht.linked hl, ht.rings _ (by simp), ht.rings _ (by simp), ht.keys, fun p hps hpd => ht.frame p ?_⟩
  rw [List.flatten_cons, List.flatten_singleton, List.mem_append, not_or]
  exact ⟨hps, hpd⟩

/-- A list of two nodes and one of one. -/
def twoLists : Nodes (Fin 5) Nat where
  obj p := p
  prev := ![2, 0, 1, 4, 3]
  next := ![1, 2, 0, 4, 3]

theorem rlistSelect_partitions_two :
    ∃ h', rlistSelect 3 twoLists 0 3 (fun obj p => obj p < 2) = some h' ∧ h'.Ring [0, 2] ∧ h'.Ring [3, 4, 1] := by
  have hl : twoLists.Linked :=
    ⟨(by decide : ∀ p, twoLists.prev (twoLists.next p) = p), (by decide : ∀ p, twoLists.next (twoLists.prev p) = p)⟩
  have hsrc : Circuit twoLists.next [0, 1, 2] := ⟨by decide, rfl, rfl, rfl⟩
  have hdest : Circuit twoLists.next [3, 4] := ⟨by decide, rfl, rfl⟩
  obtain ⟨h', hrun, -, hS, hD, -⟩ :=
    rlistSelect_partitions twoLists hl 0 3 [1, 2] [4] (fun obj p => obj p < 2) hsrc hdest (by simp [List.Disjoint])
  exact ⟨h', hrun 3 (by decide), hS, hD⟩

end TinyOS.Rlist
