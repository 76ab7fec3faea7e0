import Mathlib.Data.List.Nodup
import Mathlib.Dynamics.PeriodicPts.Lemmas
import Mathlib.Logic.Equiv.Basic
import Mathlib.Tactic.Common

/-!
# Circuits of links

A link function `next : α → α`. `Trail next a x b` says that the links lead from `a` through the nodes of `x` to `b`;
`Circuit next l` that they lead through the nodes of `l`, each of them once, and back to the first.

- `Circuit.rotate`: a circuit may be entered anywhere;
- `Circuit.join`, `Circuit.split`: exchanging the links of two nodes joins two circuits and splits one;
- `Circuit.exists_of_finite`: on finitely many nodes, links that are one-to-one make circuits.
-/

universe u

open scoped List

variable {α : Type u} {next next' : α → α} {a b c : α} {l x y : List α}

/-! ## Trails -/

def Trail (next : α → α) : α → List α → α → Prop
  | a, [], b => next a = b
  | a, c :: x, b => next a = c ∧ Trail next c x b

@[simp] theorem trail_nil : Trail next a [] b ↔ next a = b := Iff.rfl

@[simp] theorem trail_cons : Trail next a (c :: x) b ↔ next a = c ∧ Trail next c x b := Iff.rfl

@[simp] theorem trail_append : Trail next a (x ++ c :: y) b ↔ Trail next a x c ∧ Trail next c y b := by
  induction x generalizing a with
  | nil => rfl
  | cons d x ih => simp [ih, and_assoc]

namespace Trail

/-- A trail depends on the links of its nodes only. -/
theorem congr (h : Trail next a x b) (ha : next' a = next a) (hx : ∀ p ∈ x, next' p = next p) : Trail next' a x b := by
  induction x generalizing a with
  | nil => exact ha.trans h
  | cons c x ih =>
    refine ⟨ha.trans h.1, ih h.2 (hx c List.mem_cons_self) fun p hp => hx p (List.mem_cons_of_mem c hp)⟩

/-- Another node may take over the first link. -/
theorem restart (h : Trail next a x b) (hc : next' c = next a) (hx : ∀ p ∈ x, next' p = next p) :
    Trail next' c x b := by
  cases x with
  | nil => exact hc.trans h
  | cons d x => exact ⟨hc.trans h.1, h.2.congr (hx d List.mem_cons_self) fun p hp => hx p (List.mem_cons_of_mem d hp)⟩

/-- The links decide which nodes a trail meets before its end. -/
theorem unique (hx : Trail next a x b) (hy : Trail next a y b) (hbx : b ∉ x) (hby : b ∉ y) : x = y := by
  induction x generalizing a y with
  | nil =>
    cases y with
    | nil => rfl
    | cons d y => exact absurd (hx.symm.trans hy.1) fun h => hby (h ▸ List.mem_cons_self)
  | cons c x ih =>
    cases y with
    | nil => exact absurd (hy.symm.trans hx.1) fun h => hbx (h ▸ List.mem_cons_self)
    | cons d y =>
      obtain rfl : c = d := hx.1.symm.trans hy.1
      rw [ih hx.2 hy.2 (fun h => hbx (List.mem_cons_of_mem c h)) fun h => hby (List.mem_cons_of_mem c h)]

/-- Links the other way lead back along a trail. -/
theorem reverse {prev : α → α} (h : Trail next a x b) (hp : ∀ p ∈ a :: x, prev (next p) = p) :
    Trail prev b x.reverse a := by
  induction x generalizing a with
  | nil =>
    obtain rfl : next a = b := h
    exact hp a List.mem_cons_self
  | cons c x ih =>
    obtain ⟨rfl, h⟩ := h
    rw [List.reverse_cons, trail_append]
    exact ⟨ih h fun p hx => hp p (List.mem_cons_of_mem a hx), hp a List.mem_cons_self⟩

/-- Where the links of a trail lead. -/
theorem next_mem (h : Trail next a x b) {p : α} (hp : p ∈ a :: x) : next p ∈ x ++ [b] := by
  induction x generalizing a with
  | nil =>
    obtain rfl : p = a := List.mem_singleton.1 hp
    exact List.mem_singleton.2 h
  | cons c x ih =>
    rcases List.mem_cons.1 hp with rfl | hp
    · exact h.1 ▸ List.mem_cons_self
    · exact List.mem_cons_of_mem c (ih h.2 hp)

end Trail

/-- From any node, `n` links lead through the iterates of `next`. -/
theorem trail_iterate (next : α → α) (a : α) (n : Nat) :
    Trail next a ((List.range n).map fun k => next^[k + 1] a) (next^[n + 1] a) := by
  induction n with
  | zero => rfl
  | succ n ih =>
    rw [List.range_succ, List.map_append, List.map_singleton, trail_append]
    exact ⟨ih, (Function.iterate_succ_apply' next (n + 1) a).symm⟩

/-! ## Circuits -/

def Circuit (next : α → α) : List α → Prop
  | [] => False
  | a :: x => (a :: x).Nodup ∧ Trail next a x a

@[simp] theorem circuit_cons : Circuit next (a :: x) ↔ (a :: x).Nodup ∧ Trail next a x a := Iff.rfl

@[simp] theorem circuit_singleton : Circuit next [a] ↔ next a = a := by simp

namespace Circuit

theorem nodup (h : Circuit next l) : l.Nodup := by
  cases l with
  | nil => exact List.nodup_nil
  | cons a x => exact h.1

/-- A circuit depends on the links of its nodes only. -/
theorem congr (h : Circuit next l) (hn : ∀ p ∈ l, next' p = next p) : Circuit next' l := by
  cases l with
  | nil => exact h
  | cons a x => exact ⟨h.1, h.2.congr (hn a List.mem_cons_self) fun p hp => hn p (List.mem_cons_of_mem a hp)⟩

/-- A circuit has no beginning. -/
theorem rotate (h : Circuit next (x ++ y)) : Circuit next (y ++ x) := by
  cases x with
  | nil => simpa using h
  | cons a x =>
    cases y with
    | nil => simpa using h
    | cons b y =>
      have hn : (b :: y ++ a :: x).Nodup := List.nodup_append_comm.1 h.nodup
      exact ⟨hn, trail_append.2 (trail_append.1 h.2).symm⟩

/-- The first node decides the circuit. -/
theorem unique (hx : Circuit next (a :: x)) (hy : Circuit next (a :: y)) : x = y :=
  hx.2.unique hy.2 (List.nodup_cons.1 hx.1).1 (List.nodup_cons.1 hy.1).1

/-- The links stay on the circuit. -/
theorem next_mem (h : Circuit next l) {p : α} (hp : p ∈ l) : next p ∈ l := by
  cases l with
  | nil => exact absurd hp List.not_mem_nil
  | cons a x =>
    have h := h.2.next_mem hp
    rw [List.mem_append, List.mem_singleton] at h
    exact List.mem_cons.2 h.symm

/-- Links the other way make the circuit the other way round. -/
theorem reverse {prev : α → α} (h : Circuit next (a :: x)) (hp : ∀ p ∈ a :: x, prev (next p) = p) :
    Circuit prev (a :: x.reverse) := by
  refine ⟨?_, h.2.reverse hp⟩
  have hn := List.nodup_cons.1 h.1
  exact List.nodup_cons.2 ⟨by simpa using hn.1, List.nodup_reverse.2 hn.2⟩

/-- A circuit may be entered at any of its nodes. -/
theorem enter (h : Circuit next l) {p : α} (hp : p ∈ l) : ∃ x, Circuit next (p :: x) ∧ (p :: x).Perm l := by
  obtain ⟨s, t, rfl⟩ := List.append_of_mem hp
  have hp : s ++ p :: t ~ p :: t ++ s := List.perm_append_comm
  exact ⟨t ++ s, h.rotate, hp.symm⟩

/-- Circuits with a common node have all their nodes in common. -/
theorem mem_iff_mem {m : List α} (hl : Circuit next l) (hm : Circuit next m) {p q : α} (hpl : p ∈ l) (hpm : p ∈ m) :
    q ∈ l ↔ q ∈ m := by
  obtain ⟨x, hx, hlx⟩ := hl.enter hpl
  obtain ⟨y, hy, hmy⟩ := hm.enter hpm
  rw [← hlx.mem_iff, ← hmy.mem_iff, hx.unique hy]

/-- The last node of a circuit links to the first. -/
theorem exists_last (h : Circuit next (a :: x)) : ∃ w b, a :: x = w ++ [b] ∧ next b = a := by
  rcases List.eq_nil_or_concat x with rfl | ⟨w, b, rfl⟩
  · exact ⟨[], a, rfl, circuit_singleton.1 h⟩
  · rw [List.concat_eq_append] at h ⊢
    exact ⟨a :: w, b, rfl, (trail_append.1 h.2).2⟩

/-- The last node links to the first. -/
theorem next_last (h : Circuit next (a :: x)) {w : List α} (hw : a :: x = w ++ [b]) : next b = a := by
  obtain ⟨w', b', hw', hb⟩ := h.exists_last
  have he := List.append_inj' (hw.symm.trans hw') rfl
  rwa [List.singleton_inj.1 he.2]

/-- A node links to the one after it. -/
theorem next_eq (h : Circuit next (x ++ a :: b :: y)) : next a = b := h.rotate.2.1

/-- Some node of the circuit links to a given one. -/
theorem exists_next_eq (h : Circuit next l) {p : α} (hp : p ∈ l) : ∃ q ∈ l, next q = p := by
  obtain ⟨x, hx, hperm⟩ := h.enter hp
  obtain ⟨w, q, hw, hq⟩ := hx.exists_last
  exact ⟨q, hperm.mem_iff.1 (hw ▸ List.mem_append_right w List.mem_cons_self), hq⟩

/-! ## Exchanging two links -/

section Exchange

variable [DecidableEq α]

theorem comp_swap_left : (next ∘ Equiv.swap a b) a = next b := by simp

theorem comp_swap_right : (next ∘ Equiv.swap a b) b = next a := by simp

theorem comp_swap_of_notMem (ha : a ∉ l) (hb : b ∉ l) : ∀ p ∈ l, (next ∘ Equiv.swap a b) p = next p := by
  intro p hp
  have hpa : p ≠ a := by rintro rfl; exact ha hp
  have hpb : p ≠ b := by rintro rfl; exact hb hp
  rw [Function.comp_apply, Equiv.swap_apply_of_ne_of_ne hpa hpb]

/-- Other circuits are not changed. -/
theorem exchange_frame (h : Circuit next l) (ha : a ∉ l) (hb : b ∉ l) : Circuit (next ∘ Equiv.swap a b) l :=
  h.congr (comp_swap_of_notMem ha hb)

/-- Two circuits become one. -/
theorem join (hx : Circuit next (a :: x)) (hy : Circuit next (b :: y)) (hd : List.Disjoint (a :: x) (b :: y)) :
    Circuit (next ∘ Equiv.swap a b) (a :: y ++ b :: x) := by
  have hnx := List.nodup_cons.1 hx.1
  have hny := List.nodup_cons.1 hy.1
  have hay : a ∉ y := fun h => hd List.mem_cons_self (List.mem_cons_of_mem b h)
  have hbx : b ∉ x := fun h => hd (List.mem_cons_of_mem a h) List.mem_cons_self
  have hn : (a :: x ++ b :: y).Nodup := List.nodup_append'.2 ⟨hx.1, hy.1, hd⟩
  refine ⟨?_, trail_append.2 ⟨hy.2.restart comp_swap_left (comp_swap_of_notMem hay hny.1),
    hx.2.restart comp_swap_right (comp_swap_of_notMem hnx.1 hbx)⟩⟩
  have hp : (a :: x ++ b :: y).Perm (a :: y ++ b :: x) :=
    calc a :: x ++ b :: y
      _ ~ b :: y ++ a :: x := List.perm_append_comm
      _ ~ a :: (b :: y ++ x) := List.perm_middle
      _ ~ a :: (y ++ b :: x) := List.perm_middle.symm.cons a
  exact hp.nodup_iff.1 hn

/-- One circuit becomes two. -/
theorem split (h : Circuit next (a :: x ++ b :: y)) :
    Circuit (next ∘ Equiv.swap a b) (a :: y) ∧ Circuit (next ∘ Equiv.swap a b) (b :: x) := by
  obtain ⟨htx, hty⟩ := trail_append.1 h.2
  obtain ⟨hnx, hny, hd⟩ := List.nodup_append'.1 h.nodup
  have hax := List.nodup_cons.1 hnx
  have hby := List.nodup_cons.1 hny
  have hay : a ∉ y := fun h => hd List.mem_cons_self (List.mem_cons_of_mem b h)
  have hbx : b ∉ x := fun h => hd (List.mem_cons_of_mem a h) List.mem_cons_self
  exact ⟨⟨List.nodup_cons.2 ⟨hay, hby.2⟩, hty.restart comp_swap_left (comp_swap_of_notMem hay hby.1)⟩,
    List.nodup_cons.2 ⟨hbx, hax.2⟩, htx.restart comp_swap_right (comp_swap_of_notMem hax.1 hbx)⟩

end Exchange

/-! ## Finitely many nodes -/

/-- Every node lies on a circuit. -/
theorem exists_of_finite [Finite α] (hi : Function.Injective next) (a : α) : ∃ x, Circuit next (a :: x) := by
  have hmem : a ∈ next.periodicPts := Function.Injective.mem_periodicPts hi a
  have hper : 0 < next.minimalPeriod a := Function.minimalPeriod_pos_of_mem_periodicPts hmem
  obtain ⟨n, hn⟩ := Nat.exists_eq_succ_of_ne_zero hper.ne'
  refine ⟨(List.range n).map fun k => next^[k + 1] a, ?_, ?_⟩
  · have hnd : ((List.range (n + 1)).map fun k => next^[k] a).Nodup := by
      rw [List.nodup_map_iff_inj_on List.nodup_range]
      intro j hj k hk he
      rw [List.mem_range] at hj hk
      exact Function.iterate_injOn_Iio_minimalPeriod (by simpa [hn] using hj) (by simpa [hn] using hk) he
    rw [List.range_succ_eq_map, List.map_cons, List.map_map] at hnd
    exact hnd
  · have ht := trail_iterate next a n
    rwa [← Nat.succ_eq_add_one n, ← hn, Function.iterate_minimalPeriod] at ht

end Circuit
