import TinyOS.Rlist.Lists

/-!
# Families of lists

Lists threaded through the same nodes: `Lists h live q` says that for each index `i` the ring of the sentinel `.inl i`
is the list `q i` of nodes, that no node is in two lists, and that a node in none is alone. Nodes that are not `live`
are in no list, and their memory may hold anything.

For each operation there is a lemma that says which family it leaves, given what the list and the node were.
-/

namespace TinyOS.Rlist

open Function (update)

variable {ι α V : Type}

/-- The ring of a list. -/
def listRing (i : ι) (l : List α) : List (ι ⊕ α) := .inl i :: l.map .inr

structure Lists (h : Nodes (ι ⊕ α) V) (live : α → Prop) (q : ι → List α) : Prop where
  ring : ∀ i, h.Ring (listRing i (q i))
  alone : ∀ {x}, live x → (∀ i, x ∉ q i) → h.Ring [.inr x]
  one : ∀ {i j x}, x ∈ q i → x ∈ q j → i = j
  live : ∀ {i x}, x ∈ q i → live x

variable {h h' : Nodes (ι ⊕ α) V} {live : α → Prop} {q : ι → List α} {i j : ι} {x y : α} {l l₁ l₂ : List α}
  {p : ι ⊕ α}

@[simp] theorem inl_mem_listRing : .inl j ∈ listRing i l ↔ j = i := by simp [listRing]

@[simp] theorem inr_mem_listRing : .inr x ∈ listRing i l ↔ x ∈ l := by simp [listRing]

theorem listRing_append : listRing i (l₁ ++ l₂) = listRing i l₁ ++ l₂.map .inr := by simp [listRing]

/-- The last node of a ring of a list, or its sentinel. -/
def lastOf (i : ι) (l : List α) : ι ⊕ α := (l.getLast?.map .inr).getD (.inl i)

/-- The first node of a list, or the sentinel after its last one. -/
def firstOf (i : ι) (l : List α) : ι ⊕ α := (l.head?.map .inr).getD (.inl i)

theorem exists_lastOf (i : ι) (l : List α) : ∃ w, listRing i l = w ++ [lastOf i l] := by
  rcases List.eq_nil_or_concat l with rfl | ⟨w, x, rfl⟩
  · exact ⟨[], rfl⟩
  · exact ⟨listRing i w, by simp [listRing, lastOf]⟩

theorem firstOf_eq_inl : firstOf i l = .inl j ↔ l = [] ∧ j = i := by
  cases l <;> simp [firstOf, eq_comm]

namespace Lists

section Reading

variable (hq : Lists h live q)
include hq

theorem nodup (i : ι) : (q i).Nodup := by
  have hn := (List.nodup_cons.1 (hq.ring i).circuit.nodup).2
  exact hn.of_map _

/-- The node after the sentinel. -/
theorem next_sentinel (i : ι) : h.next (.inl i) = firstOf i (q i) := by
  have hc := (hq.ring i).circuit
  cases hl : q i with
  | nil =>
    rw [hl] at hc
    exact circuit_singleton.1 hc
  | cons x l =>
    rw [hl] at hc
    exact hc.2.1

/-- The node after another. -/
theorem next_node (hl : q i = l₁ ++ x :: l₂) : h.next (.inr x) = firstOf i l₂ := by
  have hc := (hq.ring i).circuit
  rw [hl] at hc
  cases l₂ with
  | nil =>
    have hw : listRing i (l₁ ++ [x]) = listRing i l₁ ++ [.inr x] := listRing_append
    exact hc.next_last hw
  | cons y l₂ =>
    have hw : listRing i (l₁ ++ x :: y :: l₂) = listRing i l₁ ++ .inr x :: .inr y :: l₂.map .inr := listRing_append
    rw [hw] at hc
    exact hc.next_eq

/-- The node before the second part of a list. -/
theorem prev_firstOf (hl : q i = l₁ ++ l₂) : h.prev (firstOf i l₂) = lastOf i l₁ := by
  have hr := hq.ring i
  obtain ⟨w, hw⟩ := exists_lastOf i l₁
  have hm : lastOf i l₁ ∈ listRing i (q i) := by
    rw [hl, listRing_append, hw]
    simp
  have hback := hr.back _ hm
  have hnext : h.next (lastOf i l₁) = firstOf i l₂ := by
    rcases List.eq_nil_or_concat l₁ with rfl | ⟨w, x, rfl⟩
    · rw [List.nil_append] at hl
      exact hl ▸ hq.next_sentinel i
    · rw [List.concat_eq_append, List.append_assoc] at hl
      rw [List.concat_eq_append, lastOf, List.getLast?_append_of_ne_nil _ (by simp)]
      exact hq.next_node hl
  rwa [hnext] at hback

theorem prev_sentinel (i : ι) : h.prev (.inl i) = lastOf i (q i) := by
  have hl : q i = q i ++ [] := (List.append_nil _).symm
  exact hq.prev_firstOf hl

/-- A node is alone exactly if it is in no list. -/
theorem next_eq_self_iff (hx : live x) : h.next (.inr x) = .inr x ↔ ∀ i, x ∉ q i := by
  constructor
  · intro hn i hm
    obtain ⟨l₁, l₂, hl⟩ := List.append_of_mem hm
    rw [hq.next_node hl] at hn
    cases l₂ with
    | nil => simp [firstOf] at hn
    | cons y l₂ =>
      have hnd := hq.nodup i
      rw [hl] at hnd
      simp only [firstOf, List.head?_cons, Option.map_some, Option.getD_some, Sum.inr.injEq] at hn
      subst hn
      simp [List.nodup_append] at hnd
  · exact fun hn => circuit_singleton.1 (hq.alone hx hn).circuit

end Reading

section Changes

variable [DecidableEq ι] [DecidableEq α]

theorem isRlistEmpty_iff (hq : Lists h live q) : isRlistEmpty h (.inl i) = true ↔ q i = [] := by
  rw [isRlistEmpty, decide_eq_true_eq, hq.next_sentinel, eq_comm, firstOf_eq_inl]
  exact and_iff_left rfl

/-- A change of one list by one node. -/
theorem change (hq : Lists h live q) (hx : live x) (hother : ∀ j ≠ i, x ∉ q j)
    (hframe : ∀ p, p ∉ listRing i (q i) → p ≠ .inr x → h'.next p = h.next p ∧ h'.prev p = h.prev p)
    (hring : h'.Ring (listRing i l)) (hsame : ∀ y ≠ x, y ∈ l ↔ y ∈ q i) (halone : x ∉ l → h'.Ring [.inr x]) :
    Lists h' live (update q i l) := by
  have hmem : ∀ {j y}, y ≠ x → (y ∈ update q i l j ↔ y ∈ q j) := by
    intro j y hy
    by_cases hj : j = i
    · subst hj
      rw [Function.update_self, hsame y hy]
    · rw [Function.update_of_ne hj]
  have hmemx : ∀ {j}, x ∈ update q i l j → j = i := by
    intro j hm
    by_contra hj
    rw [Function.update_of_ne hj] at hm
    exact hother j hj hm
  refine ⟨fun j => ?_, fun {y} hy hn => ?_, fun {j k y} hj hk => ?_, fun {j y} hm => ?_⟩
  · by_cases hj : j = i
    · subst hj
      rwa [Function.update_self]
    · rw [Function.update_of_ne hj]
      refine (hq.ring j).congr fun p hp => hframe p (fun hpi => ?_) ?_
      · cases p with
        | inl k => exact hj ((inl_mem_listRing.1 hp).symm.trans (inl_mem_listRing.1 hpi))
        | inr y => exact hj (hq.one (inr_mem_listRing.1 hp) (inr_mem_listRing.1 hpi))
      · rintro rfl
        exact hother j hj (inr_mem_listRing.1 hp)
  · by_cases hyx : y = x
    · subst hyx
      refine halone fun hm => hn i ?_
      rwa [Function.update_self]
    · have hnq : ∀ j, y ∉ q j := fun j hm => hn j ((hmem hyx).2 hm)
      refine (hq.alone hy hnq).congr fun p hp => hframe p (fun hpi => ?_) ?_
      · rw [List.mem_singleton.1 hp] at hpi
        exact hnq i (inr_mem_listRing.1 hpi)
      · rw [List.mem_singleton.1 hp]
        simpa using hyx
  · by_cases hyx : y = x
    · subst hyx
      rw [hmemx hj, hmemx hk]
    · exact hq.one ((hmem hyx).1 hj) ((hmem hyx).1 hk)
  · by_cases hyx : y = x
    · exact hyx ▸ hx
    · exact hq.live ((hmem hyx).1 hm)

/-- A node enters a list after the last node of its first part. -/
theorem splice (hq : Lists h live q) (hx : live x) (hn : ∀ j, x ∉ q j) (hl : q i = l₁ ++ l₂) :
    Lists (rlSplice h (lastOf i l₁) (.inr x)).2 live (update q i (l₁ ++ x :: l₂)) := by
  obtain ⟨w, hw⟩ := exists_lastOf i l₁
  have hr := hq.ring i
  rw [hl, listRing_append, hw, List.append_assoc] at hr
  have hxr : Sum.inr x ∉ lastOf i l₁ :: l₂.map Sum.inr ++ w := fun hm => by
    have hm' : Sum.inr x ∈ listRing i (q i) := by
      rw [hl, listRing_append, hw]
      simp only [List.mem_append, List.mem_cons] at hm ⊢
      tauto
    exact hn i (inr_mem_listRing.1 hm')
  have hr' : h.Ring (lastOf i l₁ :: (l₂.map .inr ++ w)) := hr.rotate
  have ht := rlSplice_turns_join hr' (hq.alone hx hn) (List.disjoint_singleton.2 hxr)
  refine hq.change hx (fun j _ => hn j) (fun p hp hpx => ht.frame p ?_) ?_ (fun y hy => ?_) fun hm => ?_
  · simp only [List.flatten_cons, List.flatten_nil, List.append_nil, List.mem_append, List.mem_singleton, not_or]
    refine ⟨fun hm => hp ?_, hpx⟩
    rw [hl, listRing_append, hw]
    simp only [List.mem_append, List.mem_cons, List.not_mem_nil, or_false] at hm ⊢
    tauto
  · have hj := ht.rings _ List.mem_cons_self
    have hj : (rlSplice h (lastOf i l₁) (.inr x)).2.Ring (([lastOf i l₁] ++ .inr x :: l₂.map .inr) ++ w) := by
      simpa using hj
    have hj := hj.rotate
    rw [← List.append_assoc, ← hw] at hj
    rwa [listRing_append, List.map_cons]
  · rw [hl, List.mem_append, List.mem_append, List.mem_cons, or_iff_right hy]
  · exact absurd (List.mem_append_right l₁ List.mem_cons_self) hm

/-- `rl_splice(n->prev, node)`: a node enters a list before `n`. -/
theorem insertBefore (hq : Lists h live q) (hx : live x) (hn : ∀ j, x ∉ q j) (hl : q i = l₁ ++ l₂) :
    Lists (rlSplice h (h.prev (firstOf i l₂)) (.inr x)).2 live (update q i (l₁ ++ x :: l₂)) := by
  rw [hq.prev_firstOf hl]
  exact hq.splice hx hn hl

theorem pushBack (hq : Lists h live q) (hx : live x) (hn : ∀ j, x ∉ q j) (i : ι) :
    Lists (rlistPushBack h (.inl i) (.inr x)) live (update q i (q i ++ [x])) := by
  rw [rlistPushBack, hq.prev_sentinel i]
  exact hq.splice hx hn (List.append_nil _).symm

theorem pushFront (hq : Lists h live q) (hx : live x) (hn : ∀ j, x ∉ q j) (i : ι) :
    Lists (rlistPushFront h (.inl i) (.inr x)) live (update q i (x :: q i)) := by
  have hl : q i = [] ++ q i := rfl
  exact hq.splice hx hn hl

theorem remove (hq : Lists h live q) (hm : x ∈ q i) :
    Lists (rlistRemove h (.inr x)).2 live (update q i ((q i).erase x)) := by
  obtain ⟨l₁, l₂, hl⟩ := List.append_of_mem hm
  have hnd := hq.nodup i
  rw [hl, List.nodup_middle, List.nodup_cons, List.mem_append, not_or] at hnd
  have herase : (q i).erase x = l₁ ++ l₂ := by
    rw [hl, List.erase_append_right _ hnd.1.1, List.erase_cons_head]
  have hr := hq.ring i
  rw [hl, listRing_append, List.map_cons] at hr
  have ht := rlistRemove_turns hr (by simp [listRing])
  rw [herase]
  refine hq.change (hq.live hm) (fun j hj hmj => hj (hq.one hmj hm)) (fun p hp hpx => ht.frame p ?_) ?_
    (fun y hy => ?_) fun _ => ht.rings _ (by simp)
  · rwa [List.flatten_singleton, ← List.map_cons, ← listRing_append, ← hl]
  · rw [listRing_append]
    exact ht.rings _ List.mem_cons_self
  · rw [hl, List.mem_append, List.mem_append, List.mem_cons, or_iff_right hy]

/-- A node that is in no list stays so. -/
theorem remove_alone (hq : Lists h live q) (hx : live x) (hn : ∀ i, x ∉ q i) : (rlistRemove h (.inr x)).2 = h :=
  rlistRemove_singleton (hq.alone hx hn)

/-- A node leaves the list that it is in, if any. -/
theorem removeAny (hq : Lists h live q) (hx : live x) :
    Lists (rlistRemove h (.inr x)).2 live fun i => (q i).erase x := by
  by_cases hin : ∃ i, x ∈ q i
  · obtain ⟨i, hi⟩ := hin
    have hlist : (fun j => (q j).erase x) = update q i ((q i).erase x) := by
      funext j
      by_cases hj : j = i
      · rw [hj, Function.update_self]
      · rw [Function.update_of_ne hj]
        exact List.erase_of_not_mem fun hm => hj (hq.one hm hi)
    rw [hlist]
    exact hq.remove hi
  · have hn : ∀ i, x ∉ q i := fun i hi => hin ⟨i, hi⟩
    rw [hq.remove_alone hx hn]
    have hlist : (fun i => (q i).erase x) = q := funext fun i => List.erase_of_not_mem (hn i)
    rwa [hlist]

/-- `rlist_pop_front`, of a list that is not empty. -/
theorem popFront (hq : Lists h live q) (hl : q i = x :: l) :
    (rlistPopFront h (.inl i)).1 = .inr x ∧ Lists (rlistPopFront h (.inl i)).2 live (update q i l) ∧
      ∀ j, x ∉ update q i l j := by
  have hr := hq.ring i
  rw [hl] at hr
  have ht := rlistPopFront_turns hr
  have hm : x ∈ q i := hl ▸ List.mem_cons_self
  refine ⟨?_, hq.change (hq.live hm) (fun j hj hmj => hj (hq.one hmj hm)) (fun p hp hpx => ht.frame p ?_) ?_
    (fun y hy => ?_) fun _ => ht.rings _ (by simp), fun j hmj => ?_⟩
  · have hnext := hq.next_sentinel i
    rwa [hl] at hnext
  · rw [List.flatten_singleton]
    rwa [hl] at hp
  · exact ht.rings _ List.mem_cons_self
  · rw [hl, List.mem_cons, or_iff_right hy]
  · by_cases hj : j = i
    · subst hj
      have hnd := hq.nodup j
      rw [hl] at hnd
      rw [Function.update_self] at hmj
      exact (List.nodup_cons.1 hnd).1 hmj
    · rw [Function.update_of_ne hj] at hmj
      exact hj (hq.one hmj hm)

/-- `rlist_append`: the nodes of a list move to the end of another. -/
theorem append (hq : Lists h live q) (hij : i ≠ j) :
    Lists (rlistAppend h (.inl i) (.inl j)) live (update (update q i (q i ++ q j)) j []) := by
  have hd : List.Disjoint (listRing i (q i)) (listRing j (q j)) := fun p hpi hpj => by
    cases p with
    | inl k => exact hij ((inl_mem_listRing.1 hpi).symm.trans (inl_mem_listRing.1 hpj))
    | inr y => exact hij (hq.one (inr_mem_listRing.1 hpi) (inr_mem_listRing.1 hpj))
  have ht := rlistAppend_turns (hq.ring i) (hq.ring j) hd
  have hflat : [listRing i (q i), listRing j (q j)].flatten = listRing i (q i) ++ listRing j (q j) := by simp
  have hnew : ∀ {k y}, y ∈ update (update q i (q i ++ q j)) j [] k ↔ k = i ∧ (y ∈ q i ∨ y ∈ q j) ∨ k ≠ i ∧ k ≠ j ∧ y ∈ q k := by
    intro k y
    by_cases hkj : k = j
    · subst hkj
      simp [hij.symm]
    · by_cases hki : k = i
      · subst hki
        simp [hkj]
      · simp [hkj, hki]
  refine ⟨fun k => ?_, fun {y} hy hn => ?_, fun {k k' y} hk hk' => ?_, fun {k y} hm => ?_⟩
  · by_cases hkj : k = j
    · subst hkj
      rw [Function.update_self]
      exact ht.rings _ (by simp [listRing])
    · rw [Function.update_of_ne hkj]
      by_cases hki : k = i
      · subst hki
        rw [Function.update_self, listRing_append]
        exact ht.rings _ List.mem_cons_self
      · rw [Function.update_of_ne hki]
        refine ht.frame_ring (hq.ring k) fun p hpk hp => ?_
        rw [← listRing, ← listRing, hflat, List.mem_append] at hp
        cases p with
        | inl m =>
          rw [inl_mem_listRing, inl_mem_listRing] at hp
          rw [inl_mem_listRing] at hpk
          subst hpk
          exact hp.elim hki hkj
        | inr y =>
          rw [inr_mem_listRing, inr_mem_listRing] at hp
          rw [inr_mem_listRing] at hpk
          exact hp.elim (fun hp => hki (hq.one hpk hp)) fun hp => hkj (hq.one hpk hp)
  · have hnq : ∀ k, y ∉ q k := fun k hm => by
      by_cases hki : k = i
      · exact hn i (hnew.2 (.inl ⟨rfl, .inl (hki ▸ hm)⟩))
      · by_cases hkj : k = j
        · exact hn i (hnew.2 (.inl ⟨rfl, .inr (hkj ▸ hm)⟩))
        · exact hn k (hnew.2 (.inr ⟨hki, hkj, hm⟩))
    refine ht.frame_ring (hq.alone hy hnq) fun p hp hpf => ?_
    rw [List.mem_singleton.1 hp, ← listRing, ← listRing, hflat, List.mem_append, inr_mem_listRing, inr_mem_listRing] at hpf
    exact hpf.elim (hnq i) (hnq j)
  · rcases hnew.1 hk with ⟨rfl, hy⟩ | ⟨hki, hkj, hy⟩
    · rcases hnew.1 hk' with ⟨rfl, -⟩ | ⟨hki', hkj', hy'⟩
      · rfl
      · exact hy.elim (fun hy => hq.one hy hy') fun hy => absurd (hq.one hy' hy) hkj'
    · rcases hnew.1 hk' with ⟨rfl, hy'⟩ | ⟨-, -, hy'⟩
      · exact hy'.elim (fun hy' => hq.one hy hy') fun hy' => absurd (hq.one hy hy') hkj
      · exact hq.one hy hy'
  · rcases hnew.1 hm with ⟨-, hm | hm⟩ | ⟨-, -, hm⟩ <;> exact hq.live hm

omit [DecidableEq ι] [DecidableEq α] in
/-- Memory outside the lists may change. -/
theorem congr (hq : Lists h live q) {live' : α → Prop} (hlive : ∀ {x}, live' x → live x) (hin : ∀ {i x}, x ∈ q i → live' x)
    (hs : ∀ i, h'.next (.inl i) = h.next (.inl i) ∧ h'.prev (.inl i) = h.prev (.inl i))
    (hn : ∀ x, live' x → h'.next (.inr x) = h.next (.inr x) ∧ h'.prev (.inr x) = h.prev (.inr x)) :
    Lists h' live' q := by
  refine ⟨fun i => (hq.ring i).congr fun p hp => ?_, fun {x} hx hnq => (hq.alone (hlive hx) hnq).congr fun p hp => ?_,
    hq.one, hin⟩
  · cases p with
    | inl j => exact hs j
    | inr x => exact hn x (hin (inr_mem_listRing.1 hp))
  · rw [List.mem_singleton.1 hp]
    exact hn x hx

/-- A loop of `rlnode_init`. -/
theorem foldl_init {β : Type} {f : β → ι ⊕ α} {v : β → V} (hv : ∀ {b b'}, f b = f b' → v b = v b') (bs : List β) :
    (∀ b ∈ bs, (bs.foldl (fun h b => rlnodeInit h (f b) (v b)) h).Ring [f b] ∧
      (bs.foldl (fun h b => rlnodeInit h (f b) (v b)) h).obj (f b) = v b) ∧
    ∀ p, (∀ b ∈ bs, f b ≠ p) → (bs.foldl (fun h b => rlnodeInit h (f b) (v b)) h).next p = h.next p ∧
      (bs.foldl (fun h b => rlnodeInit h (f b) (v b)) h).prev p = h.prev p ∧
      (bs.foldl (fun h b => rlnodeInit h (f b) (v b)) h).obj p = h.obj p := by
  induction bs generalizing h with
  | nil => exact ⟨fun b hb => absurd hb List.not_mem_nil, fun p _ => ⟨rfl, rfl, rfl⟩⟩
  | cons b₀ bs ih =>
    obtain ⟨hin, hout⟩ := ih (h := rlnodeInit h (f b₀) (v b₀))
    refine ⟨fun b hb => ?_, fun p hp => ?_⟩
    · by_cases hmem : ∃ b' ∈ bs, f b' = f b
      · obtain ⟨b', hb', he⟩ := hmem
        rw [List.foldl_cons, ← he, ← hv he]
        exact hin b' hb'
      · have hne : ∀ b' ∈ bs, f b' ≠ f b := fun b' hb' he => hmem ⟨b', hb', he⟩
        obtain rfl : b = b₀ := by
          rcases List.mem_cons.1 hb with rfl | hb
          · rfl
          · exact absurd rfl (hne b hb)
        obtain ⟨hn, hp, ho⟩ := hout (f b) hne
        have hring : (rlnodeInit h (f b) (v b)).Ring [f b] := rlnodeInit_ring
        refine ⟨hring.congr fun p hpb => ?_, ho.trans rlnodeInit_obj⟩
        rw [List.mem_singleton.1 hpb]
        exact ⟨hn, hp⟩
    · obtain ⟨hn, hpr, ho⟩ := hout p fun b hb => hp b (List.mem_cons_of_mem b₀ hb)
      have hframe := rlnodeInit_frame (h := h) (v := v b₀) (Ne.symm (hp b₀ List.mem_cons_self))
      exact ⟨hn.trans hframe.1, hpr.trans hframe.2.1, ho.trans hframe.2.2⟩

/-- A node comes alive. -/
theorem init (hq : Lists h live q) (hx : ¬live x) {v : V} {live' : α → Prop} (hlive : ∀ y, live' y ↔ y = x ∨ live y) :
    Lists (rlnodeInit h (.inr x) v) live' q := by
  have hin : ∀ {i y}, y ∈ q i → y ≠ x := by
    rintro i y hm rfl
    exact hx (hq.live hm)
  have hkeep : ∀ {p}, p ≠ Sum.inr x → (rlnodeInit h (.inr x) v).next p = h.next p ∧
      (rlnodeInit h (.inr x) v).prev p = h.prev p := fun hp => ⟨(rlnodeInit_frame hp).1, (rlnodeInit_frame hp).2.1⟩
  refine ⟨fun i => (hq.ring i).congr fun p hp => hkeep ?_, fun {y} hy hn => ?_, hq.one,
    fun {i y} hm => (hlive y).2 (.inr (hq.live hm))⟩
  · rintro rfl
    exact hin (inr_mem_listRing.1 hp) rfl
  · by_cases hyx : y = x
    · subst hyx
      exact rlnodeInit_ring
    · refine (hq.alone (((hlive y).1 hy).resolve_left hyx) hn).congr fun p hp => hkeep ?_
      rw [List.mem_singleton.1 hp]
      simpa using hyx

end Changes

end Lists

end TinyOS.Rlist
