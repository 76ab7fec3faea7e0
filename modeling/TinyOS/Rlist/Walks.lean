import TinyOS.Rlist.Lists

/-!
# Walks along a list

The loops of `rlist_len`, `rlist_equal`, `rlist_find` and `rlist_reverse`. Each lemma about a loop is by induction on
the trail that is left to walk.
-/

namespace TinyOS.Rlist

variable {P V : Type} [DecidableEq P] {h : Nodes P V} {L L1 L2 p q : P} {xs ys r r1 r2 : List P} {fuel : Nat}

/-! ## Reading -/

theorem lenLoop_eq (ht : Trail h.next q r L) (hL : L ∉ r) (hf : r.length < fuel) {count : Nat}
    (hc : count < 2 ^ 32) : lenLoop h L fuel (h.next q) count = some ((count + r.length) % 2 ^ 32) := by
  induction r generalizing q fuel count with
  | nil =>
    obtain ⟨fuel, rfl⟩ := Nat.exists_eq_succ_of_ne_zero (Nat.ne_zero_of_lt hf)
    simp only [trail_nil] at ht
    rw [lenLoop, if_neg (not_not.2 ht), List.length_nil, Nat.add_zero, Nat.mod_eq_of_lt hc]
  | cons c r ih =>
    obtain ⟨fuel, rfl⟩ := Nat.exists_eq_succ_of_ne_zero (Nat.ne_zero_of_lt hf)
    obtain ⟨hq, ht⟩ := ht
    rw [List.mem_cons, not_or] at hL
    rw [lenLoop, hq, if_pos (Ne.symm hL.1), ih ht hL.2 (by simpa using hf) (Nat.mod_lt _ (by decide))]
    rw [Nat.mod_add_mod, List.length_cons, Nat.add_assoc, Nat.add_comm 1]

/-- The length, as an `unsigned int`. -/
theorem rlistLen_eq (hr : h.Ring (L :: xs)) (hf : xs.length < fuel) :
    rlistLen fuel h L = some (xs.length % 2 ^ 32) := by
  rw [rlistLen, lenLoop_eq hr.circuit.2 (List.nodup_cons.1 hr.circuit.1).1 hf (by decide), Nat.zero_add]

section Keys

variable [DecidableEq V] {key : V} {fail : Option P}

theorem equalLoop_eq (h1 : Trail h.next p r1 L1) (h2 : Trail h.next q r2 L2) (hL1 : L1 ∉ r1) (hL2 : L2 ∉ r2)
    (hf : r1.length < fuel) :
    equalLoop h L1 L2 fuel (h.next p) (h.next q) = some (decide (r1.map h.obj = r2.map h.obj)) := by
  induction r1 generalizing p q r2 fuel with
  | nil =>
    obtain ⟨fuel, rfl⟩ := Nat.exists_eq_succ_of_ne_zero (Nat.ne_zero_of_lt hf)
    simp only [trail_nil] at h1
    cases r2 with
    | nil =>
      simp only [trail_nil] at h2
      simp [equalLoop, h1, h2]
    | cons d r2 =>
      rw [List.mem_cons, not_or] at hL2
      simp [equalLoop, h1, h2.1, Ne.symm hL2.1]
  | cons c r1 ih =>
    obtain ⟨fuel, rfl⟩ := Nat.exists_eq_succ_of_ne_zero (Nat.ne_zero_of_lt hf)
    rw [List.mem_cons, not_or] at hL1
    cases r2 with
    | nil =>
      simp only [trail_nil] at h2
      simp [equalLoop, h1.1, h2, Ne.symm hL1.1]
    | cons d r2 =>
      rw [List.mem_cons, not_or] at hL2
      rw [equalLoop, h1.1, h2.1, if_pos (Ne.symm hL1.1)]
      by_cases hk : h.obj c = h.obj d
      · rw [if_neg (by simp [Ne.symm hL2.1, hk]), ih h1.2 h2.2 hL1.2 hL2.2 (by simpa using hf)]
        simp [hk]
      · rw [if_pos (.inr hk)]
        simp [hk]

theorem rlistEqual_eq (h1 : h.Ring (L1 :: xs)) (h2 : h.Ring (L2 :: ys)) (hf : xs.length < fuel) :
    rlistEqual fuel h L1 L2 = some (decide (xs.map h.obj = ys.map h.obj)) :=
  equalLoop_eq h1.circuit.2 h2.circuit.2 (List.nodup_cons.1 h1.circuit.1).1 (List.nodup_cons.1 h2.circuit.1).1 hf

theorem findLoop_eq (ht : Trail h.next q r L) (hL : L ∉ r) (hf : r.length < fuel) :
    findLoop h L key fail fuel (h.next q) = some ((r.find? fun p => h.obj p = key).or fail) := by
  induction r generalizing q fuel with
  | nil =>
    obtain ⟨fuel, rfl⟩ := Nat.exists_eq_succ_of_ne_zero (Nat.ne_zero_of_lt hf)
    simp only [trail_nil] at ht
    simp [findLoop, ht]
  | cons c r ih =>
    obtain ⟨fuel, rfl⟩ := Nat.exists_eq_succ_of_ne_zero (Nat.ne_zero_of_lt hf)
    rw [List.mem_cons, not_or] at hL
    rw [findLoop, ht.1, if_pos (Ne.symm hL.1)]
    by_cases hk : h.obj c = key
    · simp [hk]
    · rw [if_neg hk, ih ht.2 hL.2 (by simpa using hf)]
      simp [hk]

theorem rlistFind_eq (hr : h.Ring (L :: xs)) (hf : xs.length < fuel) :
    rlistFind fuel h L key fail = some ((xs.find? fun p => h.obj p = key).or fail) :=
  findLoop_eq hr.circuit.2 (List.nodup_cons.1 hr.circuit.1).1 hf

end Keys

/-! ## Reversing -/

/-- The links of the nodes of `l` exchanged. -/
def Nodes.turned (h : Nodes P V) (l : List P) : Nodes P V where
  obj := h.obj
  prev p := if p ∈ l then h.next p else h.prev p
  next p := if p ∈ l then h.prev p else h.next p

theorem rlnodeSwap_links (h : Nodes P V) (p : P) : rlnodeSwap h (.prev p) (.next p) = h.turned [p] := by
  ext q
  · rfl
  all_goals by_cases hq : q = p <;> simp [rlnodeSwap, Nodes.load, Nodes.store, Nodes.turned, hq]

theorem Nodes.turned_turned (hp : p ∉ r) : (h.turned [p]).turned r = h.turned (p :: r) := by
  ext q
  · rfl
  all_goals
    by_cases hq : q ∈ r
    · have hqp : q ≠ p := by rintro rfl; exact hp hq
      simp [turned, hq, hqp]
    · simp [turned, hq]

/-- The loop walks the old links back, and turns those of each node it meets. -/
theorem reverseLoop_eq (ht : Trail h.prev p r L) (hn : (p :: r).Nodup) (hL : L ∉ r) (hf : r.length < fuel) :
    reverseLoop L fuel h p = some (h.turned (p :: r)) := by
  induction r generalizing p fuel h with
  | nil =>
    obtain ⟨fuel, rfl⟩ := Nat.exists_eq_succ_of_ne_zero (Nat.ne_zero_of_lt hf)
    simp only [trail_nil] at ht
    simp [reverseLoop, rlnodeSwap_links, Nodes.turned, ht]
  | cons c r ih =>
    obtain ⟨fuel, rfl⟩ := Nat.exists_eq_succ_of_ne_zero (Nat.ne_zero_of_lt hf)
    obtain ⟨hpc, hn⟩ := List.nodup_cons.1 hn
    rw [List.mem_cons, not_or] at hL
    have hlink : (h.turned [p]).next p = c := by simp [Nodes.turned, ht.1]
    have hkeep : ∀ q ∈ c :: r, (h.turned [p]).prev q = h.prev q := fun q hq => by
      have hqp : q ≠ p := by rintro rfl; exact hpc hq
      simp [Nodes.turned, hqp]
    have ht' : Trail (h.turned [p]).prev c r L :=
      ht.2.congr (hkeep c List.mem_cons_self) fun q hq => hkeep q (List.mem_cons_of_mem c hq)
    rw [reverseLoop, rlnodeSwap_links, hlink]
    simp only [ne_eq, Ne.symm hL.1, not_false_eq_true, if_true]
    rw [ih ht' hn hL.2 (by simpa using hf), Nodes.turned_turned hpc]

namespace Nodes.Ring

variable (hr : h.Ring xs)
include hr

theorem turned_linked (hl : h.Linked) : (h.turned xs).Linked := by
  constructor
  · intro p
    by_cases hp : p ∈ xs
    · simp [turned, hp, hr.forth hp]
    · have hnp : h.next p ∉ xs := fun hm => hp (hl.left p ▸ (hr.forth hm).1)
      simp [turned, hp, hnp, hl.left p]
  · intro p
    by_cases hp : p ∈ xs
    · simp [turned, hp, hr.back p hp, hr.circuit.next_mem hp]
    · have hnp : h.prev p ∉ xs := fun hm => hp (hl.right p ▸ hr.circuit.next_mem hm)
      simp [turned, hp, hnp, hl.right p]

end Nodes.Ring

/-- Turning the links of a ring reverses it. -/
theorem Nodes.Ring.turned (hr : h.Ring (L :: xs)) :
    Turns h (h.turned (L :: xs)) [L :: xs] [L :: xs.reverse] := by
  have hnext : ∀ p ∈ L :: xs, (h.turned (L :: xs)).next p = h.prev p := fun p hp => if_pos hp
  have hprev : ∀ p ∈ L :: xs, (h.turned (L :: xs)).prev p = h.next p := fun p hp => if_pos hp
  have hmem : ∀ p, p ∈ L :: xs.reverse → p ∈ L :: xs := fun p => by simp
  refine ⟨rfl, hr.turned_linked, ?_, fun p hp => ?_⟩
  · rw [List.forall_mem_singleton]
    refine ⟨(hr.circuit.reverse hr.back).congr fun p hp => hnext p (hmem p hp), fun p hp => ?_⟩
    obtain ⟨hback, hforth⟩ := hr.forth (hmem p hp)
    rw [hnext p (hmem p hp), hprev _ hback, hforth]
  · rw [List.flatten_singleton] at hp
    exact ⟨if_neg hp, if_neg hp⟩

theorem rlistReverse_eq (hr : h.Ring (L :: xs)) (hf : xs.length < fuel) :
    rlistReverse fuel h L = some (h.turned (L :: xs)) := by
  have hc := hr.circuit.reverse hr.back
  have hL := (List.nodup_cons.1 hc.1).1
  have hturned : h.turned (L :: xs.reverse) = h.turned (L :: xs) := by
    ext q <;> simp [Nodes.turned]
  rw [rlistReverse, reverseLoop_eq hc.2 hc.1 hL (by simpa using hf), hturned]

end TinyOS.Rlist
