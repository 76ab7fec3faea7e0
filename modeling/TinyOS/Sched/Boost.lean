import TinyOS.Sched.Sections

/-!
# Priorities and the boost

The boost turns each level around and puts it one level up, in front of what is on the top level (`boost_queue`), and
`sched_queue_select` takes the head of the highest level that is not empty (`select_top`); so threads of one level keep
their order exactly where no level below the top holds two of them (`keeps_order_iff`).
-/

namespace TinyOS.Sched

open State

variable {nc : Nat}

namespace State

variable {s s' : State nc} {t : Ptr nc} {c : Fin nc} {k : Cause}

/-! ## The boost -/

theorem boostLoop_queue (i n : Nat) (s : State nc) (hn : (s.queue i).length ≤ n) : (boostLoop i n s).queue =
    Function.update (Function.update s.queue i []) (i + 1) ((s.queue i).reverse ++ s.queue (i + 1)) := by
  induction n generalizing s with
  | zero =>
    have hnil : s.queue i = [] := List.eq_nil_of_length_eq_zero (Nat.le_zero.1 hn)
    rw [hnil]
    funext j
    by_cases hj : j = i + 1
    · subst hj
      simp [boostLoop]
    · by_cases hji : j = i
      · subst hji
        simp [boostLoop, hnil]
      · simp [boostLoop, hj, hji]
  | succ n ih =>
    cases hq : s.queue i with
    | nil =>
      funext j
      by_cases hj : j = i + 1
      · subst hj
        simp [boostLoop, hq]
      · by_cases hji : j = i
        · subst hji
          simp [boostLoop, hq]
        · simp [boostLoop, hq, hj, hji]
    | cons t rest =>
      have hi : (s.raise i t rest).queue i = rest := by simp [raise]
      have hi' : (s.raise i t rest).queue (i + 1) = t :: s.queue (i + 1) := by simp [raise]
      rw [boostLoop_succ i n hq, ih _ (by rw [hi]; simpa [hq] using hn), hi, hi']
      funext j
      by_cases hj : j = i + 1
      · subst hj
        simp
      · by_cases hji : j = i
        · subst hji
          simp
        · simp [raise, hj, hji]

/-- The levels below `n`, each turned around and one level up. -/
def raisedQueue (queue : Nat → List (Ptr nc)) (n i : Nat) : List (Ptr nc) :=
  (if 0 < i ∧ i ≤ n then (queue (i - 1)).reverse else []) ++ if i < n then [] else queue i

theorem boostLevels_queue (n : Nat) (s : State nc) (i : Nat) : (boostLevels n s).queue i = raisedQueue s.queue n i := by
  induction n generalizing s with
  | zero =>
    have hi : ¬(0 < i ∧ i ≤ 0) := by omega
    rw [raisedQueue, if_neg hi]
    simp [boostLevels]
  | succ n ih =>
    rw [boostLevels, ih]
    unfold raisedQueue
    rw [boostLoop_queue n _ s (Nat.le_refl _)]
    rcases Nat.lt_trichotomy i n with hi | rfl | hi
    · have h₁ : i - 1 ≠ n + 1 ∧ i - 1 ≠ n := by omega
      have h₂ : i < n + 1 := by omega
      have h₃ : i ≤ n ↔ i ≤ n + 1 := by omega
      simp [hi, h₁.1, h₁.2, h₂, h₃]
    · have h₁ : i - 1 ≠ i + 1 := by omega
      by_cases hz : 0 < i
      · have h₂ : i - 1 ≠ i := by omega
        simp [hz, h₁, h₂]
      · simp [hz]
    · have h₁ : ¬i ≤ n := by omega
      have h₂ : ¬i < n := by omega
      by_cases hi' : i = n + 1
      · subst hi'
        simp [h₂]
      · have h₃ : ¬i ≤ n + 1 := by omega
        have h₄ : ¬i < n + 1 := by omega
        have h₅ : i ≠ n := by omega
        simp [h₁, h₂, h₃, h₄, hi', h₅]

/-- The level that a thread of level `i` is at after the boost. -/
def raisedLevel (i : Nat) : Nat := if i < maxPriorities - 1 then i + 1 else i

theorem mem_raisedQueue {queue : Nat → List (Ptr nc)} {i : Nat} :
    t ∈ raisedQueue queue (maxPriorities - 1) i ↔ ∃ j, t ∈ queue j ∧ i = raisedLevel j := by
  unfold raisedQueue raisedLevel
  rw [List.mem_append]
  constructor
  · rintro (h | h)
    · split at h
      · rename_i hi
        refine ⟨i - 1, List.mem_reverse.1 h, ?_⟩
        rw [if_pos (by omega)]
        omega
      · cases h
    · split at h
      · cases h
      · rename_i hi
        exact ⟨i, h, by rw [if_neg hi]⟩
  · rintro ⟨j, hj, rfl⟩
    by_cases hlt : j < maxPriorities - 1
    · left
      have hle : 0 < j + 1 ∧ j + 1 ≤ maxPriorities - 1 := by omega
      rw [if_pos hlt, if_pos hle, Nat.add_sub_cancel, List.mem_reverse]
      exact hj
    · right
      rw [if_neg hlt, if_neg hlt]
      exact hj

theorem boost_queue (hmax : s.numofYields = maxYields) (i : Nat) :
    s.boost.queue i = raisedQueue s.queue (maxPriorities - 1) i := by
  rw [boost, if_pos hmax, boostLevels_queue]

/-! ## Selection -/

/-- `i` is the highest level that is not empty. -/
def Top (s : State nc) (i : Nat) : Prop :=
  i < maxPriorities ∧ s.queue i ≠ [] ∧ ∀ j, i < j → j < maxPriorities → s.queue j = []

theorem topLevel_eq_some {queue : Nat → List (Ptr nc)} {n i : Nat} (hi : i < n) (hne : queue i ≠ [])
    (hempty : ∀ j, i < j → j < n → queue j = []) : topLevel queue n = some i := by
  induction n with
  | zero => exact absurd hi (Nat.not_lt_zero i)
  | succ n ih =>
    unfold topLevel
    rcases Nat.lt_succ_iff_lt_or_eq.1 hi with hi | rfl
    · rw [if_neg (not_not.2 (hempty n hi (Nat.lt_succ_self n)))]
      exact ih hi fun j hj hjn => hempty j hj (Nat.lt_succ_of_lt hjn)
    · rw [if_pos hne]

theorem topLevel_eq_none {queue : Nat → List (Ptr nc)} {n : Nat} (hempty : ∀ j < n, queue j = []) :
    topLevel queue n = none := by
  induction n with
  | zero => rfl
  | succ n ih =>
    unfold topLevel
    rw [if_neg (not_not.2 (hempty n (Nat.lt_succ_self n)))]
    exact ih fun j hj => hempty j (Nat.lt_succ_of_lt hj)

/-- `sched_queue_select` takes the head of the highest level that is not empty, and leaves the rest. -/
theorem select_top (cur : Ptr nc) {i : Nat} (hi : s.Top i) :
    s.queue i = (s.schedQueueSelect c cur).1 :: (s.schedQueueSelect c cur).2.queue i ∧
      ∀ j ≠ i, (s.schedQueueSelect c cur).2.queue j = s.queue j := by
  obtain ⟨hlt, hne, hempty⟩ := hi
  obtain ⟨t, rest, hq⟩ := List.exists_cons_of_ne_nil hne
  simp only [schedQueueSelect, topLevel_eq_some hlt hne hempty, hq]
  refine ⟨by simp [setTcb], fun j hj => ?_⟩
  simp [setTcb, hj]

theorem select_none (cur : Ptr nc) (hempty : ∀ i < maxPriorities, s.queue i = []) :
    (s.schedQueueSelect c cur).2.queue = s.queue := by
  simp only [schedQueueSelect, topLevel_eq_none hempty]
  rfl

end State

/-! ## Main theorem -/

structure BoostsConsistent (s : State nc) : Prop where
  priority : ∀ t, (s.tcb t).type = .normalThread → (s.tcb t).priority < maxPriorities
  queued : ∀ i, ∀ t ∈ s.queue i, i < maxPriorities ∧ (s.tcb t).priority = i
  nodup : ∀ i, (s.queue i).Nodup
  /-- Where the boost leaves the threads that are queued when a section of `yield` runs it. -/
  boost : ∀ c k, s.pc c = .yielding k → s.numofYields = maxYields →
    ∀ i t, (t ∈ (s.adjusted c k).boost.queue i ↔ ∃ j, t ∈ s.queue j ∧ i = raisedLevel j) ∧
      (t ∈ (s.adjusted c k).boost.queue i → ((s.adjusted c k).boost.tcb t).priority = i)
  /-- What a section of `yield` selects. -/
  select : ∀ c remaining clock s', (sys nc).step s (.yieldSection c remaining clock) = some s' →
    ∃ k s₁, s.pc c = .yielding k ∧ s.atSelect c k remaining clock = some s₁ ∧
      (∀ i, s₁.Top i → s₁.queue i = s'.current c :: s'.queue i ∧ ∀ j ≠ i, s'.queue j = s₁.queue j) ∧
      ((∀ i < maxPriorities, s₁.queue i = []) → s'.queue = s₁.queue)

/-- **Priorities and the boost.** In every reachable state each queued thread is at the level of its priority; the boost
moves every queued thread up one level but for the top one, and `yield` selects the head of the highest level. -/
theorem boosts_consistent {s : State nc} (hs : (sys nc).Reaches s) : BoostsConsistent s := by
  have h := reaches_inv hs
  refine ⟨fun t _ => h.priority_lt, fun i t ht => ?_, fun i => h.queue_nodup, fun c k hpc hmax i t => ⟨?_, fun ht => ?_⟩,
    fun c remaining clock s' hs' => ?_⟩
  · have hi := (h.mem_queue.1 ht).1
    exact ⟨hi ▸ h.priority_lt, hi⟩
  · have hadj : (s.adjusted c k).numofYields = maxYields := hmax
    rw [boost_queue hadj, mem_raisedQueue]
    rfl
  · exact ((h.adjusted hpc).boost.1.mem_queue.1 ht).1
  · obtain ⟨hen, he⟩ := step_eq_some.1 hs'
    simp only [State.exec] at he
    split at he
    · rename_i k hpc
      rw [yieldSection_eq, Option.map_eq_some_iff] at he
      obtain ⟨s₁, hs₁, rfl⟩ := he
      refine ⟨k, s₁, hpc, hs₁, fun i hi => ?_, fun hempty => select_none _ hempty⟩
      obtain ⟨hhead, hrest⟩ := select_top (c := c) (s.current c) hi
      exact ⟨by simpa using hhead, hrest⟩
    · cases he

/-- Two threads are woken up while a core yields. -/
theorem boosts_consistent_two : ∃ s, (sys 2).Reaches s ∧ s.queue 999 = [.thread 0, .thread 1] ∧ BoostsConsistent s ∧
    ∃ s', (sys 2).step s (.yieldSection 0 0 0) = some s' ∧ s'.current 0 = .thread 0 ∧ s'.queue 999 = [.thread 1] := by
  have hrun : ((sys 2).run (State.boot 2) [.spawn, .spawn, .wakeup (.thread 0), .wakeup (.thread 1),
      .yield 0 .schedIdle]).map (fun s => (s.queue 999,
        ((sys 2).step s (.yieldSection 0 0 0)).map fun s' => (s'.current 0, s'.queue 999))) =
      some ([.thread 0, .thread 1], some (.thread 0, [.thread 1])) := by
    decide +kernel
  obtain ⟨s, hs, he⟩ := Option.map_eq_some_iff.1 hrun
  simp only [Prod.mk.injEq, Option.map_eq_some_iff] at he
  obtain ⟨hq, s', hs', hcur, hrest⟩ := he
  have hr : (sys 2).Reaches s := Lts.reaches_of_run (.init rfl) hs
  exact ⟨s, hr, hq, boosts_consistent hr, s', hs', hcur, hrest⟩

/-! ## The order within a level -/

/-- `a` is ahead of `b`. -/
def Ahead (a b : Ptr nc) (l : List (Ptr nc)) : Prop := [a, b].Sublist l

theorem ahead_reverse {a b : Ptr nc} {l : List (Ptr nc)} : Ahead b a l.reverse ↔ Ahead a b l :=
  @List.reverse_sublist _ [a, b] _

theorem Ahead.asymm {a b : Ptr nc} {l : List (Ptr nc)} (hl : l.Nodup) (h : Ahead a b l) : ¬Ahead b a l := by
  induction l with
  | nil => exact fun _ => by cases h
  | cons x l ih =>
    obtain ⟨hx, hl⟩ := List.nodup_cons.1 hl
    intro h'
    cases h with
    | cons _ h =>
      cases h' with
      | cons _ h' => exact ih hl h h'
      | cons_cons _ h' => exact hx (h.subset (by simp))
    | cons_cons _ h =>
      cases h' with
      | cons _ h' => exact hx (h'.subset (by simp))
      | cons_cons _ h' => exact hx (h.subset (by simp))

theorem not_ahead_of_length {a b : Ptr nc} {l : List (Ptr nc)} (hl : l.length ≤ 1) : ¬Ahead a b l := fun h => by
  have := h.length_le
  simp only [List.length_cons, List.length_nil] at this
  omega

/-- The `sched_node` of a thread is in one ring, and there once. -/
structure Rings (queue : Nat → List (Ptr nc)) : Prop where
  nodup : ∀ i, (queue i).Nodup
  one : ∀ i j t, t ∈ queue i → t ∈ queue j → i = j

/-- The threads that the boost finds on one level are in the same order after it. -/
def KeepsOrder (s : State nc) : Prop :=
  ∀ i < maxPriorities, ∀ a b, Ahead a b (s.queue i) → Ahead a b (s.boost.queue (raisedLevel i))

variable {s : State nc}

/-- A level below the top is turned around. -/
theorem ahead_boost_of_lt (hmax : s.numofYields = maxYields) (h : Rings s.queue) {i : Nat} (hi : i < maxPriorities - 1)
    {a b : Ptr nc} (hab : Ahead a b (s.queue i)) :
    Ahead b a (s.boost.queue (raisedLevel i)) ∧ ¬Ahead a b (s.boost.queue (raisedLevel i)) := by
  have hle : 0 < i + 1 ∧ i + 1 ≤ maxPriorities - 1 := by omega
  have hqueue : s.boost.queue (raisedLevel i) =
      (s.queue i).reverse ++ if i + 1 < maxPriorities - 1 then [] else s.queue (i + 1) := by
    rw [boost_queue hmax, raisedLevel, if_pos hi, raisedQueue, if_pos hle, Nat.add_sub_cancel]
  have hback : Ahead b a (s.boost.queue (raisedLevel i)) := by
    rw [hqueue]
    exact (ahead_reverse.2 hab).trans (List.sublist_append_left _ _)
  have hnodup : (s.boost.queue (raisedLevel i)).Nodup := by
    rw [hqueue]
    split
    · simpa using h.nodup i
    · refine List.Nodup.append (List.nodup_reverse.2 (h.nodup i)) (h.nodup (i + 1)) fun t ht ht' => ?_
      have := h.one i (i + 1) t (List.mem_reverse.1 ht) ht'
      omega
  exact ⟨hback, hback.asymm hnodup⟩

/-- The top level keeps its order. -/
theorem ahead_boost_top (hmax : s.numofYields = maxYields) {a b : Ptr nc}
    (hab : Ahead a b (s.queue (maxPriorities - 1))) :
    Ahead a b (s.boost.queue (raisedLevel (maxPriorities - 1))) := by
  rw [boost_queue hmax, raisedLevel, if_neg (Nat.lt_irrefl _), raisedQueue, if_neg (Nat.lt_irrefl _)]
  exact hab.trans (List.sublist_append_right _ _)

/-- **The boost keeps the order** within the levels exactly when no level below the top holds two threads. -/
theorem keeps_order_iff (hmax : s.numofYields = maxYields) (h : Rings s.queue) :
    KeepsOrder s ↔ ∀ i < maxPriorities - 1, (s.queue i).length ≤ 1 := by
  constructor
  · intro hkeep i hi
    match hq : s.queue i with
    | [] => exact Nat.zero_le _
    | [_] => exact Nat.le_refl _
    | a :: b :: l =>
      have hab : Ahead a b (s.queue i) := by
        rw [hq]
        exact (List.nil_sublist l).cons_cons b |>.cons_cons a
      exact absurd (hkeep i (by omega) a b hab) (ahead_boost_of_lt hmax h hi hab).2
  · intro hlen i hi a b hab
    rcases Nat.lt_or_ge i (maxPriorities - 1) with hlt | hge
    · exact absurd hab (not_ahead_of_length (hlen i hlt))
    · obtain rfl : i = maxPriorities - 1 := by omega
      exact ahead_boost_top hmax hab

/-- Two threads that are ready at level `i`, when the boost is due. -/
def twoAt (i : Nat) : State 1 :=
  { State.boot 1 with
    tcb := fun
      | .thread n => { bootTcb (.thread n : Ptr 1) with state := .ready, priority := i }
      | t => bootTcb t
    queue := Function.update (fun _ => []) i [.thread 0, .thread 1]
    numofYields := maxYields }

theorem twoAt_rings (i : Nat) : Rings (twoAt i).queue := by
  have hqueue : ∀ j, (twoAt i).queue j = if j = i then [.thread 0, .thread 1] else [] := fun j => by
    simp [twoAt, Function.update_apply]
  refine ⟨fun j => ?_, fun j j' t ht ht' => ?_⟩
  · rw [hqueue]
    split <;> decide
  · rw [hqueue] at ht ht'
    split at ht
    · split at ht'
      · omega
      · cases ht'
    · cases ht

/-- On the top level they keep their order, -/
theorem keeps_order_iff_top : KeepsOrder (twoAt 999) :=
  (keeps_order_iff rfl (twoAt_rings 999)).2 fun i hi => by
    have hne : i ≠ 999 := by
      simp only [maxPriorities] at hi
      omega
    simp [twoAt, hne]

/-- and on the one below they do not. -/
theorem order_turned_around : ¬KeepsOrder (twoAt 998) := by
  intro h
  have hab : Ahead (.thread 0) (.thread 1) ((twoAt 998).queue 998) := by
    simp [twoAt, Ahead]
  exact (ahead_boost_of_lt rfl (twoAt_rings 998) (by decide) hab).2 (h 998 (by decide) _ _ hab)

end TinyOS.Sched
