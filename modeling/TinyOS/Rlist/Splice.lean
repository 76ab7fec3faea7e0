import TinyOS.Lib.Circuit
import TinyOS.Rlist.Model

/-!
# Splicing

`rl_splice` exchanges the `next` links of its two nodes, and the `prev` links that lead back to them.

- `rlSplice_next`, `rlSplice_prev`: both exchanges are transpositions, whatever the links are;
- `Nodes.Ring.join`, `Nodes.Ring.split`: the ring laws;
- `splice_transposition`: on links that are inverse to each other.
-/

namespace TinyOS.Rlist

variable {P V : Type} {h : Nodes P V} {a b p : P} {l x y : List P}

/-! ## Rings of nodes -/

namespace Nodes

/-- `prev` and `next` are inverse to each other. -/
structure Linked (h : Nodes P V) : Prop where
  left : Function.LeftInverse h.prev h.next
  right : Function.RightInverse h.prev h.next

/-- The `next` links lead around the nodes of `l`, and the `prev` links back. -/
structure Ring (h : Nodes P V) (l : List P) : Prop where
  circuit : Circuit h.next l
  back : ∀ p ∈ l, h.prev (h.next p) = p

theorem Linked.ring (hl : h.Linked) (hc : Circuit h.next l) : h.Ring l := ⟨hc, fun p _ => hl.left p⟩

theorem Linked.exists_ring [Finite P] (hl : h.Linked) (a : P) : ∃ x, h.Ring (a :: x) :=
  (Circuit.exists_of_finite hl.left.injective a).imp fun _ hx => hl.ring hx

namespace Ring

/-- A ring depends on the links of its nodes only. -/
theorem congr {h' : Nodes P V} (hr : h.Ring l) (hl : ∀ p ∈ l, h'.next p = h.next p ∧ h'.prev p = h.prev p) :
    h'.Ring l := by
  refine ⟨hr.circuit.congr fun p hp => (hl p hp).1, fun p hp => ?_⟩
  rw [(hl p hp).1, (hl _ (hr.circuit.next_mem hp)).2, hr.back p hp]

theorem rotate (hr : h.Ring (x ++ y)) : h.Ring (y ++ x) :=
  ⟨hr.circuit.rotate, fun p hp => hr.back p (List.perm_append_comm.mem_iff.1 hp)⟩

/-- Rings without a common node, or with the same nodes. -/
theorem disjoint_of_notMem (hx : h.Ring (a :: x)) (hy : h.Ring (b :: y)) (hb : b ∉ a :: x) :
    List.Disjoint (a :: x) (b :: y) :=
  fun _ hpx hpy => hb ((hx.circuit.mem_iff_mem hy.circuit hpx hpy).2 List.mem_cons_self)

/-- The link back from the first node is to the last. -/
theorem exists_prev (hr : h.Ring (a :: x)) : ∃ w, a :: x = w ++ [h.prev a] := by
  obtain ⟨w, b, hw, hb⟩ := hr.circuit.exists_last
  have hback := hr.back b (hw ▸ List.mem_append_right w List.mem_cons_self)
  rw [hb] at hback
  exact ⟨w, by rw [hback, hw]⟩

theorem prev_eq (hr : h.Ring (a :: x ++ [b])) : h.prev a = b := by
  obtain ⟨w, hw⟩ := hr.exists_prev
  have hw : (a :: x) ++ [b] = w ++ [h.prev a] := hw
  simpa using (List.append_inj' hw rfl).2.symm

theorem prev_singleton (hr : h.Ring [a]) : h.prev a = a := by
  have ha := hr.back a List.mem_cons_self
  rwa [circuit_singleton.1 hr.circuit] at ha

/-- Going back and forth on a ring. -/
theorem forth (hr : h.Ring l) (hp : p ∈ l) : h.prev p ∈ l ∧ h.next (h.prev p) = p := by
  obtain ⟨q, hq, rfl⟩ := hr.circuit.exists_next_eq hp
  rw [hr.back q hq]
  exact ⟨hq, rfl⟩

end Ring

end Nodes

variable [DecidableEq P]

/-! ## New nodes -/

theorem rlnodeInit_ring {v : V} : (rlnodeInit h p v).Ring [p] := by
  have hn : (rlnodeInit h p v).next p = p := Function.update_self ..
  refine ⟨circuit_singleton.2 hn, fun q hq => ?_⟩
  obtain rfl := List.mem_singleton.1 hq
  rw [hn]
  exact Function.update_self ..

theorem rlnodeInit_obj {v : V} : (rlnodeInit h p v).obj p = v := Function.update_self ..

theorem rlnodeInit_frame {v : V} {q : P} (hq : q ≠ p) :
    (rlnodeInit h p v).next q = h.next q ∧ (rlnodeInit h p v).prev q = h.prev q ∧
      (rlnodeInit h p v).obj q = h.obj q :=
  ⟨Function.update_of_ne hq .., Function.update_of_ne hq .., Function.update_of_ne hq ..⟩

/-! ## The two exchanges -/

theorem rlSplice_fst : (rlSplice h a b).1 = b := rfl

@[simp] theorem rlSplice_obj : (rlSplice h a b).2.obj = h.obj := rfl

theorem update_exchange (f : P → P) (a b : P) :
    Function.update (Function.update f a (f b)) b (f a) = f ∘ Equiv.swap a b := by
  funext p
  by_cases hb : p = b
  · subst hb
    simp
  · by_cases ha : p = a
    · subst ha
      simp [Function.update_of_ne hb]
    · simp [Function.update_of_ne hb, Function.update_of_ne ha, Equiv.swap_apply_of_ne_of_ne ha hb]

theorem rlSplice_next : (rlSplice h a b).2.next = h.next ∘ Equiv.swap a b := update_exchange h.next a b

theorem rlSplice_prev : (rlSplice h a b).2.prev = h.prev ∘ Equiv.swap (h.next a) (h.next b) :=
  update_exchange h.prev (h.next a) (h.next b)

@[simp] theorem rlSplice_self : (rlSplice h a a).2 = h := by
  ext p
  · rfl
  · simp [rlSplice_prev]
  · simp [rlSplice_next]

/-- A splice is undone by doing it again. -/
theorem rlSplice_twice : (rlSplice (rlSplice h a b).2 a b).2 = h := by
  ext p
  · rfl
  · simp [rlSplice_prev, rlSplice_next, Equiv.swap_comm (h.next b)]
  · simp [rlSplice_next]

/-! ## What it keeps -/

/-- The links of nodes that neither node is linked to. -/
theorem rlSplice_frame (ha : p ≠ a) (hb : p ≠ b) (hna : p ≠ h.next a) (hnb : p ≠ h.next b) :
    (rlSplice h a b).2.next p = h.next p ∧ (rlSplice h a b).2.prev p = h.prev p := by
  rw [rlSplice_next, rlSplice_prev, Function.comp_apply, Function.comp_apply, Equiv.swap_apply_of_ne_of_ne ha hb,
    Equiv.swap_apply_of_ne_of_ne hna hnb]
  exact ⟨rfl, rfl⟩

/-- A node that its successor links back to stays one. -/
theorem rlSplice_back (ha : h.prev (h.next a) = a) (hb : h.prev (h.next b) = b) (hp : h.prev (h.next p) = p) :
    (rlSplice h a b).2.prev ((rlSplice h a b).2.next p) = p := by
  rw [rlSplice_next, rlSplice_prev, Function.comp_apply, Function.comp_apply]
  by_cases hpa : p = a
  · subst hpa
    rw [Equiv.swap_apply_left, Equiv.swap_apply_right, ha]
  · by_cases hpb : p = b
    · subst hpb
      rw [Equiv.swap_apply_right, Equiv.swap_apply_left, hb]
    · have hna : h.next p ≠ h.next a := fun he => hpa (by rw [← hp, he, ha])
      have hnb : h.next p ≠ h.next b := fun he => hpb (by rw [← hp, he, hb])
      rw [Equiv.swap_apply_of_ne_of_ne hpa hpb, Equiv.swap_apply_of_ne_of_ne hna hnb, hp]

namespace Nodes

/-- `prev` follows `next`. -/
theorem Linked.rlSplice_prev (hl : h.Linked) (a b : P) :
    (rlSplice h a b).2.prev = Equiv.swap a b ∘ h.prev := by
  funext p
  rw [Rlist.rlSplice_prev, Function.comp_apply, hl.right.injective.map_swap, hl.left, hl.left, Function.comp_apply]

theorem Linked.rlSplice (hl : h.Linked) (a b : P) : (Rlist.rlSplice h a b).2.Linked := by
  constructor
  · intro p
    rw [hl.rlSplice_prev, rlSplice_next, Function.comp_apply, Function.comp_apply, hl.left, Equiv.swap_apply_self]
  · intro p
    rw [hl.rlSplice_prev, rlSplice_next, Function.comp_apply, Function.comp_apply, Equiv.swap_apply_self, hl.right]

namespace Ring

/-- `[a, x...] [b, y...] ==> [a, y..., b, x...]`. -/
theorem join (hx : h.Ring (a :: x)) (hy : h.Ring (b :: y)) (hd : List.Disjoint (a :: x) (b :: y)) :
    (rlSplice h a b).2.Ring (a :: y ++ b :: x) := by
  have ha := hx.back a List.mem_cons_self
  have hb := hy.back b List.mem_cons_self
  have hc := hx.circuit.join hy.circuit hd
  rw [← rlSplice_next] at hc
  refine ⟨hc, fun p hp => rlSplice_back ha hb ?_⟩
  have hp : p ∈ a :: x ∨ p ∈ b :: y := by
    simp only [List.mem_append, List.mem_cons] at hp ⊢
    tauto
  exact hp.elim (hx.back p) (hy.back p)

/-- `[a, x..., b, y...] ==> [a, y...] [b, x...]`. -/
theorem split (hr : h.Ring (a :: x ++ b :: y)) :
    (rlSplice h a b).2.Ring (a :: y) ∧ (rlSplice h a b).2.Ring (b :: x) := by
  have ha := hr.back a (by simp)
  have hb := hr.back b (by simp)
  have hc := hr.circuit.split
  rw [← rlSplice_next] at hc
  refine ⟨⟨hc.1, fun p hp => rlSplice_back ha hb (hr.back p ?_)⟩, hc.2, fun p hp => rlSplice_back ha hb (hr.back p ?_)⟩
  all_goals
    simp only [List.mem_append, List.mem_cons] at hp ⊢
    tauto

/-- Other rings are not changed. -/
theorem frame (hr : h.Ring l) (ha : h.prev (h.next a) = a) (hb : h.prev (h.next b) = b) (hal : a ∉ l) (hbl : b ∉ l) :
    (rlSplice h a b).2.Ring l := by
  have hc := hr.circuit.exchange_frame hal hbl
  rw [← rlSplice_next] at hc
  exact ⟨hc, fun p hp => rlSplice_back ha hb (hr.back p hp)⟩

end Ring

/-- Two nodes are on different rings, or on the same one. -/
theorem Linked.rings [Finite P] (hl : h.Linked) (hab : a ≠ b) :
    (∃ x y, h.Ring (a :: x) ∧ h.Ring (b :: y) ∧ List.Disjoint (a :: x) (b :: y)) ∨ ∃ x y, h.Ring (a :: x ++ b :: y) := by
  obtain ⟨x, hx⟩ := hl.exists_ring a
  by_cases hb : b ∈ x
  · obtain ⟨s, t, rfl⟩ := List.append_of_mem hb
    exact .inr ⟨s, t, hx⟩
  · obtain ⟨y, hy⟩ := hl.exists_ring b
    exact .inl ⟨x, y, hx, hy, hx.disjoint_of_notMem hy (by simp [hab.symm, hb])⟩

end Nodes

/-- On links that are inverse to each other, a splice is a transposition of the `next` links, with the ring laws that
follow. -/
theorem splice_transposition (h : Nodes P V) (hl : h.Linked) (a b : P) :
    (rlSplice h a b).1 = b ∧
    (rlSplice h a b).2.obj = h.obj ∧
    (rlSplice h a b).2.next = h.next ∘ Equiv.swap a b ∧
    (rlSplice h a b).2.prev = Equiv.swap a b ∘ h.prev ∧
    (rlSplice h a b).2.Linked ∧
    (∀ x y, h.Ring (a :: x) → h.Ring (b :: y) → List.Disjoint (a :: x) (b :: y) →
      (rlSplice h a b).2.Ring (a :: y ++ b :: x)) ∧
    (∀ x y, h.Ring (a :: x ++ b :: y) → (rlSplice h a b).2.Ring (a :: y) ∧ (rlSplice h a b).2.Ring (b :: x)) ∧
    (∀ l, a ∉ l → b ∉ l → h.Ring l → (rlSplice h a b).2.Ring l) ∧
    (rlSplice (rlSplice h a b).2 a b).2 = h ∧
    (Finite P → a ≠ b → (∃ x y, h.Ring (a :: x) ∧ h.Ring (b :: y) ∧ List.Disjoint (a :: x) (b :: y)) ∨
      ∃ x y, h.Ring (a :: x ++ b :: y)) :=
  ⟨rlSplice_fst, rlSplice_obj, rlSplice_next, hl.rlSplice_prev a b, hl.rlSplice a b,
    fun _ _ hx hy hd => hx.join hy hd, fun _ _ hr => hr.split,
    fun _ ha hb hr => hr.frame (hl.left a) (hl.left b) ha hb, rlSplice_twice, fun _ hab => hl.rings hab⟩

/-- A ring of three nodes and one of two: a splice of one node each joins them, and one of two nodes of the first splits
it. -/
theorem splice_transposition_rings :
    let h : Nodes (Fin 5) Nat := ⟨fun _ => 0, ([2, 0, 1, 4, 3][·]), ([1, 2, 0, 4, 3][·])⟩
    (rlSplice h 0 3).2.Ring [0, 4, 3, 1, 2] ∧ (rlSplice h 0 2).2.Ring [0] ∧ (rlSplice h 0 2).2.Ring [2, 1] := by
  intro h
  have hl : h.Linked := ⟨by decide, by decide⟩
  have hx : h.Ring [0, 1, 2] := hl.ring ⟨by decide, rfl, rfl, rfl⟩
  have hy : h.Ring [3, 4] := hl.ring ⟨by decide, rfl, rfl⟩
  obtain ⟨-, -, -, -, -, hjoin, -⟩ := splice_transposition h hl 0 3
  obtain ⟨-, -, -, -, -, -, hsplit, -⟩ := splice_transposition h hl 0 2
  exact ⟨hjoin [1, 2] [4] hx hy (by simp), hsplit [1] [] hx⟩

end TinyOS.Rlist
