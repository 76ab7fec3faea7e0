import TinyOS.Rlist.Splice

/-!
# Ring lists as sequences

A list is the ring of its sentinel; its nodes are those after the sentinel. `Turns h h' before after` says that the
rings `before` of `h` became the rings `after` of `h'`, and that nothing else was touched. For each list operation that
is made of splices, a `_turns` lemma says what it makes of its rings.

All of them do what they are for but `rlist_pop_back`, which detaches the sentinel (`rlistPopBack_turns`).
-/

namespace TinyOS.Rlist

open scoped List

variable {P V : Type} {h h' h'' : Nodes P V} {a b p L : P} {l x y xs ys : List P} {before mid mid' after : List (List P)}

/-! ## Changes of rings -/

structure Turns (h h' : Nodes P V) (before after : List (List P)) : Prop where
  keys : h'.obj = h.obj
  linked : h.Linked → h'.Linked
  rings : ∀ l ∈ after, h'.Ring l
  frame : ∀ p ∉ before.flatten, h'.next p = h.next p ∧ h'.prev p = h.prev p

namespace Turns

theorem refl (hr : ∀ l ∈ before, h.Ring l) : Turns h h before before := ⟨rfl, id, hr, fun _ _ => ⟨rfl, rfl⟩⟩

/-- One change after another, on no other nodes. -/
theorem trans (h₁ : Turns h h' before mid) (h₂ : Turns h' h'' mid' after) (hm : mid'.flatten ⊆ before.flatten) :
    Turns h h'' before after := by
  refine ⟨h₂.keys.trans h₁.keys, h₂.linked ∘ h₁.linked, h₂.rings, fun p hp => ?_⟩
  have hf := h₂.frame p fun hpm => hp (hm hpm)
  rw [hf.1, hf.2]
  exact h₁.frame p hp

/-- The rings may be entered at other nodes. -/
theorem enter (ht : Turns h h' before after) {before' after' : List (List P)}
    (hb : before.flatten ⊆ before'.flatten) (ha : ∀ l ∈ after', h'.Ring l) : Turns h h' before' after' :=
  ⟨ht.keys, ht.linked, ha, fun p hp => ht.frame p fun hpb => hp (hb hpb)⟩

/-- Other rings are still there. -/
theorem frame_ring (ht : Turns h h' before after) (hr : h.Ring l) (hd : List.Disjoint l before.flatten) : h'.Ring l :=
  hr.congr fun p hp => ht.frame p (hd hp)

/-- Other rings are part of the picture. -/
theorem append (ht : Turns h h' before after) {others : List (List P)} (hr : ∀ l ∈ others, h.Ring l)
    (hd : ∀ l ∈ others, List.Disjoint l before.flatten) : Turns h h' (before ++ others) (after ++ others) := by
  refine ⟨ht.keys, ht.linked, fun l hl => ?_, fun p hp => ht.frame p fun hpb => hp ?_⟩
  · rcases List.mem_append.1 hl with hla | hlo
    · exact ht.rings l hla
    · exact ht.frame_ring (hr l hlo) (hd l hlo)
  · rw [List.flatten_append]
    exact List.mem_append_left _ hpb

end Turns

variable [DecidableEq P]

/-! ## Splices -/

theorem rlSplice_turns_join (hx : h.Ring (a :: x)) (hy : h.Ring (b :: y)) (hd : List.Disjoint (a :: x) (b :: y)) :
    Turns h (rlSplice h a b).2 [a :: x, b :: y] [a :: y ++ b :: x] := by
  refine ⟨rfl, fun hl => hl.rlSplice a b, by simpa using hx.join hy hd, fun p hp => ?_⟩
  rw [List.flatten_cons, List.flatten_singleton, List.mem_append, not_or] at hp
  have hna := hx.circuit.next_mem List.mem_cons_self
  have hnb := hy.circuit.next_mem List.mem_cons_self
  exact rlSplice_frame (List.ne_of_not_mem_cons hp.1) (List.ne_of_not_mem_cons hp.2) (fun he => hp.1 (he ▸ hna))
    fun he => hp.2 (he ▸ hnb)

theorem rlSplice_turns_split (hr : h.Ring (a :: x ++ b :: y)) :
    Turns h (rlSplice h a b).2 [a :: x ++ b :: y] [a :: y, b :: x] := by
  refine ⟨rfl, fun hl => hl.rlSplice a b, by simpa using hr.split, fun p hp => ?_⟩
  rw [List.flatten_singleton] at hp
  have ha : a ∈ a :: x ++ b :: y := List.mem_cons_self
  have hb : b ∈ a :: x ++ b :: y := List.mem_append_right _ List.mem_cons_self
  exact rlSplice_frame (fun he => hp (he ▸ ha)) (fun he => hp (he ▸ hb)) (fun he => hp (he ▸ hr.circuit.next_mem ha))
    fun he => hp (he ▸ hr.circuit.next_mem hb)

/-! ## Operations made of splices -/

/-- A node leaves its ring. -/
theorem rlistRemove_turns (hr : h.Ring (x ++ a :: y)) (hne : x ++ y ≠ []) :
    Turns h (rlistRemove h a).2 [x ++ a :: y] [x ++ y, [a]] := by
  obtain ⟨w, z, hw⟩ : ∃ w z, y ++ x = w ++ [z] := by
    rcases List.eq_nil_or_concat (y ++ x) with hnil | ⟨w, z, hw⟩
    · rw [List.append_eq_nil_iff] at hnil
      exact absurd (by rw [hnil.1, hnil.2, List.append_nil]) hne
    · exact ⟨w, z, hw.trans (List.concat_eq_append ..)⟩
  have hra : h.Ring (a :: w ++ [z]) := by
    rw [List.cons_append, ← hw, ← List.cons_append]
    exact hr.rotate
  have ht := rlSplice_turns_split hra
  rw [← hra.prev_eq] at ht
  refine ht.enter ?_ ?_
  · rw [hra.prev_eq, List.flatten_singleton, List.flatten_singleton, List.cons_append, ← hw, ← List.cons_append]
    exact List.perm_append_comm.subset
  · have hz : (rlSplice h a (h.prev a)).2.Ring (h.prev a :: w) := ht.rings _ (by simp)
    have hyx : (rlSplice h a (h.prev a)).2.Ring (y ++ x) := by
      rw [hw, ← hra.prev_eq]
      exact hz.rotate (x := [h.prev a])
    simpa [rlistRemove] using And.intro hyx.rotate (ht.rings [a] (by simp))

/-- A node alone on its ring stays there. -/
theorem rlistRemove_singleton (hr : h.Ring [a]) : (rlistRemove h a).2 = h := by
  rw [rlistRemove, hr.prev_singleton, rlSplice_self]

theorem rlistPushFront_turns (hx : h.Ring (L :: xs)) (hy : h.Ring (a :: ys)) (hd : List.Disjoint (L :: xs) (a :: ys)) :
    Turns h (rlistPushFront h L a) [L :: xs, a :: ys] [L :: ys ++ a :: xs] :=
  rlSplice_turns_join hx hy hd

theorem rlistPushBack_turns (hx : h.Ring (L :: xs)) (hy : h.Ring (a :: ys)) (hd : List.Disjoint (L :: xs) (a :: ys)) :
    Turns h (rlistPushBack h L a) [L :: xs, a :: ys] [L :: xs ++ ys ++ [a]] := by
  obtain ⟨w, hw⟩ := hx.exists_prev
  have hr : h.Ring (h.prev L :: w) := Nodes.Ring.rotate (hw ▸ hx)
  have hp : [h.prev L] ++ w ~ L :: xs := hw ▸ List.perm_append_comm
  have ht := rlSplice_turns_join hr hy fun p hpw => hd (hp.mem_iff.1 hpw)
  refine ht.enter ?_ ?_
  · rw [List.flatten_cons, List.flatten_cons]
    exact (hp.append_right _).subset
  · have hj : (rlistPushBack h L a).Ring (a :: w ++ h.prev L :: ys) := (ht.rings _ List.mem_cons_self).rotate
    have hj : (rlistPushBack h L a).Ring (w ++ h.prev L :: ys ++ [a]) := hj.rotate (x := [a])
    rw [List.forall_mem_singleton, hw]
    rwa [List.append_assoc w]

/-- The nodes of a list move to the end of another. -/
theorem rlistAppend_turns {d s : P} (hx : h.Ring (d :: xs)) (hy : h.Ring (s :: ys))
    (hd : List.Disjoint (d :: xs) (s :: ys)) :
    Turns h (rlistAppend h d s) [d :: xs, s :: ys] [d :: xs ++ ys, [s]] := by
  have hp := rlistPushBack_turns hx hy hd
  have hr := rlistRemove_turns (y := []) (hp.rings _ List.mem_cons_self) (by simp)
  rw [List.append_nil] at hr
  refine hp.trans hr fun p hp => ?_
  simp only [List.flatten_cons, List.flatten_nil, List.mem_append, List.mem_cons] at hp ⊢
  tauto

/-- The nodes of a list move to the front of another. -/
theorem rlistPrepend_turns {d s : P} (hx : h.Ring (d :: xs)) (hy : h.Ring (s :: ys))
    (hd : List.Disjoint (d :: xs) (s :: ys)) :
    Turns h (rlistPrepend h d s) [d :: xs, s :: ys] [d :: ys ++ xs, [s]] := by
  have hp := rlistPushFront_turns hx hy hd
  have hr := rlistRemove_turns (hp.rings _ List.mem_cons_self) (by simp)
  refine hp.trans hr fun p hp => ?_
  simp only [List.flatten_cons, List.flatten_nil, List.mem_append, List.mem_cons] at hp ⊢
  tauto

theorem rlistPopFront_turns (hr : h.Ring (L :: a :: xs)) :
    Turns h (rlistPopFront h L).2 [L :: a :: xs] [L :: xs, [a]] := by
  have ha : h.next L = a := hr.circuit.2.1
  rw [rlistPopFront, ha]
  exact rlSplice_turns_split (x := []) hr

/-- What `rlist_pop_back` does: the sentinel leaves the ring. -/
theorem rlistPopBack_turns (hr : h.Ring (L :: xs ++ [a])) :
    Turns h (rlistPopBack h L).2 [L :: xs ++ [a]] [[L], a :: xs] := by
  rw [rlistPopBack, hr.prev_eq]
  exact rlSplice_turns_split hr

end TinyOS.Rlist
