import TinyOS.Lib.Count
import TinyOS.Lib.Monitor

/-!
# The barrier

`BarrierSync`, with the two sections under `bar->mx` that a thread runs: the one from the call to the first test of the
epoch, and a test of the epoch after a wait. A thread has entered its call with its first section. The threads that use
the barrier call it again and again, each as often as it likes.

- `Rounds.section`: in round `R` a thread has entered `R` or `R + 1` calls, `count` counts the latter, and these are the
  ones that wait;
- `barrierSync_safe`: no assertion fails, nobody returns early, and nobody is left behind.
-/

namespace TinyOS.Barrier

open Monitor

structure Bar where
  count : BitVec 32
  epoch : BitVec 32
deriving DecidableEq

/-- `BARRIER_INIT` -/
def barrierInit : Bar := ⟨0, 0⟩

/-- Where a thread is that has returned from `k` calls: outside, or in a wait with its own copy of the epoch. -/
inductive Place
  | outside (k : ℕ)
  | waiting (k : ℕ) (epoch : BitVec 32)
deriving DecidableEq

/-- `while(epoch == bar->epoch) Cond_Wait`, one round of it. -/
def untilNext (bar : Bar) (wakes : List (Wake Unit)) (k : ℕ) (epoch : BitVec 32) : Outcome Unit Bar Place :=
  if epoch = bar.epoch then ⟨bar, wakes, .waiting k epoch, some ()⟩ else ⟨bar, wakes, .outside (k + 1), none⟩

def barrierSync (n : BitVec 32) : Place → Bar → Option (Outcome Unit Bar Place)
  | .outside k, bar =>
    if 0 < n ∧ bar.count < n then
      let count := bar.count + 1
      if count = n then some (untilNext ⟨0, bar.epoch + 1⟩ [.broadcast ()] k bar.epoch)
      else some (untilNext ⟨count, bar.epoch⟩ [] k bar.epoch)
    else none
  | .waiting k epoch, bar => some (untilNext bar [] k epoch)

/-- The threads' code. -/
def callers (T : Type) (n : BitVec 32) : Program T Unit Bar Place where
  ready _ := true
  sect _ := barrierSync n

/-- The runs of the threads `T`, that synchronise on a fresh barrier. -/
def barrier (T : Type) [DecidableEq T] (n : BitVec 32) : Lts (State T Unit Bar Place) (Action T Unit) :=
  sys (callers T n) barrierInit fun _ => .outside 0

/-! ## Rounds -/

/-- The calls that a thread has entered. -/
def Place.entered : Place → ℕ
  | .outside k => k
  | .waiting k _ => k + 1

/-- The calls that a thread has returned from. -/
def Place.returned : Place → ℕ
  | .outside k => k
  | .waiting k _ => k

/-- Where a thread can be in round `R`: the slow ones are still in their last call. -/
def Place.InRound (R : ℕ) : Place → Prop
  | .outside k => k = R
  | .waiting k epoch => (k = R ∨ k + 1 = R) ∧ epoch = BitVec.ofNat 32 k

variable {T : Type} [Fintype T] {n : BitVec 32} {R : ℕ} {p : Place} {s s' : State T Unit Bar Place} {t : T}
  {o : Outcome Unit Bar Place}

theorem Place.InRound.returned_le (h : p.InRound R) : p.returned ≤ R := by
  cases p with
  | outside k => exact h.le
  | waiting k epoch => exact h.1.elim (fun h => h.le) fun h => by rw [← h]; exact Nat.le_succ k

theorem Place.InRound.entered_cases (h : p.InRound R) : p.entered = R ∨ p.entered = R + 1 := by
  cases p with
  | outside k => exact .inl h
  | waiting k epoch => exact h.1.elim (fun h => .inr (congrArg (· + 1) h)) .inl

/-- Who has entered the call of a round is in the call before the one of the next round. -/
theorem Place.InRound.next (h : p.InRound R) (he : p.entered = R + 1) : p.InRound (R + 1) := by
  cases p with
  | outside k => exact he
  | waiting k epoch => exact ⟨.inr he, h.2⟩

theorem epoch_ne_succ (epoch : BitVec 32) : epoch ≠ epoch + 1 := by bv_omega

theorem ofNat_succ (k : ℕ) : BitVec.ofNat 32 (k + 1) = BitVec.ofNat 32 k + 1 := BitVec.ofNat_add k 1

structure Rounds (R : ℕ) (s : State T Unit Bar Place) : Prop where
  epoch : s.data.epoch = BitVec.ofNat 32 R
  /-- How many threads have entered the call of this round. -/
  count : s.data.count.toNat = countArgs s.pc fun p => p.entered = R + 1
  place : ∀ t, (s.pc t).InRound R
  waits : ∀ t, s.Waits t () → (s.pc t).entered = R + 1
  /-- The round goes on because of somebody. -/
  late : ∀ _ : T, ∃ u, (s.pc u).entered = R

/-- A thread that enters is not counted yet. -/
theorem Rounds.count_lt (h : Rounds R s) (hn : Fintype.card T = n.toNat) (hp : s.pc t = .outside R) :
    s.data.count < n := by
  rw [BitVec.lt_def, h.count, ← hn]
  refine countArgs_lt_card (i := t) ?_
  rw [hp]
  simp [Place.entered]

variable [DecidableEq T]

/-- The count after a thread has entered. -/
theorem Rounds.count_enter (h : Rounds R s) (hn : Fintype.card T = n.toNat) (hp : s.pc t = .outside R)
    (he : p.entered = R + 1) :
    (s.data.count + 1).toNat = countArgs (Function.update s.pc t p) fun p => p.entered = R + 1 := by
  have hlt := h.count_lt hn hp
  rw [BitVec.lt_def] at hlt
  have hup := countArgs_update s.pc (fun p => decide (p.entered = R + 1)) t p
  rw [hp, if_neg (by simp [Place.entered]), if_pos (by simpa using he), Nat.add_zero, ← h.count] at hup
  rw [hup, BitVec.toNat_add, Nat.mod_eq_of_lt]
  · rfl
  · have := n.isLt
    show s.data.count.toNat + 1 < 2 ^ 32
    omega

/-- The last thread to enter begins the next round. -/
theorem Rounds.last (h : Rounds R s) (hn : Fintype.card T = n.toNat) (hp : s.pc t = .outside R)
    (hc : s.data.count + 1 = n) :
    Rounds (R + 1) (s.after t (untilNext ⟨0, s.data.epoch + 1⟩ [.broadcast ()] R s.data.epoch)) := by
  have hall : ∀ u, (Function.update s.pc t (.outside (R + 1)) u).entered = R + 1 := by
    have heq := h.count_enter hn hp (p := .outside (R + 1)) rfl
    rw [hc, ← hn] at heq
    exact fun u => by simpa using countArgs_eq_card.1 heq.symm u
  rw [untilNext, if_neg (epoch_ne_succ _)]
  refine ⟨?_, ?_, fun u => ?_, fun u hu => ?_, fun u => ⟨u, hall u⟩⟩
  · show s.data.epoch + 1 = _
    rw [h.epoch, ofNat_succ]
  · refine (countArgs_eq_zero.2 fun u hu => ?_).symm
    have hu' := of_decide_eq_true hu
    change (Function.update s.pc t (.outside (R + 1)) u).entered = R + 1 + 1 at hu'
    rw [hall u] at hu'
    omega
  · show (Function.update s.pc t (.outside (R + 1)) u).InRound (R + 1)
    by_cases hut : u = t
    · subst hut
      rw [Function.update_self]
      rfl
    · have hu := hall u
      rw [Function.update_of_ne hut] at hu ⊢
      exact (h.place u).next hu
  · rcases waits_after.1 hu with hu | ⟨-, hu⟩
    · rw [wakeAll_of_broadcast (List.mem_singleton_self _)] at hu
      exact absurd hu List.not_mem_nil
    · cases hu

/-- The others wait for it. -/
theorem Rounds.enter (h : Rounds R s) (hn : Fintype.card T = n.toNat) (hp : s.pc t = .outside R)
    (hc : s.data.count + 1 ≠ n) :
    Rounds R (s.after t (untilNext ⟨s.data.count + 1, s.data.epoch⟩ [] R s.data.epoch)) := by
  rw [untilNext, if_pos rfl]
  have hcount := h.count_enter hn hp (p := .waiting R s.data.epoch) rfl
  refine ⟨h.epoch, hcount, fun u => ?_, fun u hu => ?_, fun u => ?_⟩
  · show (Function.update s.pc t (.waiting R s.data.epoch) u).InRound R
    by_cases hut : u = t
    · subst hut
      rw [Function.update_self]
      exact ⟨.inl rfl, h.epoch⟩
    · rw [Function.update_of_ne hut]
      exact h.place u
  · show (Function.update s.pc t (.waiting R s.data.epoch) u).entered = R + 1
    by_cases hut : u = t
    · subst hut
      rw [Function.update_self]
      rfl
    · rw [Function.update_of_ne hut]
      rcases waits_of_after hu with hu | ⟨hu, -⟩
      · exact h.waits u hu
      · exact absurd hu hut
  · by_contra hall
    rw [not_exists] at hall
    apply hc
    apply BitVec.eq_of_toNat_eq
    rw [hcount, ← hn, countArgs_eq_card]
    intro v
    simp only [decide_eq_true_eq]
    by_cases hvt : v = t
    · subst hvt
      rw [Function.update_self]
      rfl
    · have hv := hall v
      have hcases := (h.place v).entered_cases
      change (Function.update s.pc t (.waiting R s.data.epoch) v).entered ≠ R at hv
      rw [Function.update_of_ne hvt] at hv ⊢
      exact hcases.resolve_left hv

/-- A thread that tests the epoch again leaves if a round has begun since it entered. -/
theorem Rounds.retest {k : ℕ} {epoch : BitVec 32} (h : Rounds R s) (hp : s.pc t = .waiting k epoch) :
    Rounds R (s.after t (untilNext s.data [] k epoch)) := by
  have hpl := h.place t
  rw [hp] at hpl
  obtain ⟨hk, rfl⟩ := hpl
  rcases hk with rfl | rfl
  · rw [untilNext, if_pos h.epoch.symm]
    have hpc : Function.update s.pc t (.waiting k (BitVec.ofNat 32 k)) = s.pc := by
      rw [← hp, Function.update_eq_self]
    refine ⟨h.epoch, ?_, fun u => ?_, fun u hu => ?_, fun u => ?_⟩
    all_goals simp only [State.after, hpc]
    · exact h.count
    · exact h.place u
    · rcases waits_of_after hu with hu | ⟨rfl, -⟩
      · exact h.waits u hu
      · rw [hp]
        rfl
    · exact h.late u
  · have hne : BitVec.ofNat 32 k ≠ s.data.epoch := by
      rw [h.epoch, ofNat_succ]
      exact epoch_ne_succ _
    rw [untilNext, if_neg hne]
    have hsame : ∀ u, (Function.update s.pc t (.outside (k + 1)) u).entered = (s.pc u).entered := by
      intro u
      by_cases hut : u = t
      · subst hut
        rw [Function.update_self, hp]
        rfl
      · rw [Function.update_of_ne hut]
    refine ⟨h.epoch, ?_, fun u => ?_, fun u hu => ?_, fun u => ?_⟩
    · have hcount := h.count
      unfold countArgs at hcount ⊢
      simp only [State.after, hsame]
      exact hcount
    · show (Function.update s.pc t (.outside (k + 1)) u).InRound (k + 1)
      by_cases hut : u = t
      · subst hut
        rw [Function.update_self]
        rfl
      · rw [Function.update_of_ne hut]
        exact h.place u
    · refine (hsame u).trans (h.waits u ?_)
      rcases waits_of_after hu with hu | ⟨-, hu⟩
      · exact hu
      · cases hu
    · obtain ⟨v, hv⟩ := h.late u
      exact ⟨v, (hsame v).trans hv⟩

theorem Rounds.section (h : Rounds R s) (hn : Fintype.card T = n.toNat)
    (ho : barrierSync n (s.pc t) s.data = some o) : ∃ R', Rounds R' (s.after t o) := by
  cases hp : s.pc t with
  | outside k =>
    have hk := h.place t
    rw [hp] at hk
    obtain rfl : k = R := hk
    rw [hp, barrierSync] at ho
    simp only [Option.ite_none_right_eq_some] at ho
    obtain ⟨-, ho⟩ := ho
    split at ho
    · rename_i hc
      obtain rfl := Option.some.inj ho
      exact ⟨_, h.last hn hp hc⟩
    · rename_i hc
      obtain rfl := Option.some.inj ho
      exact ⟨_, h.enter hn hp hc⟩
  | waiting k epoch =>
    rw [hp] at ho
    obtain rfl := Option.some.inj ho
    exact ⟨R, h.retest hp⟩

theorem exists_rounds (hn : Fintype.card T = n.toNat) (h : (barrier T n).Reaches s) : ∃ R, Rounds R s := by
  refine (Reaches.rule (I := fun s => ∃ R, Rounds R s) ?_ (fun s t o _ hs _ ho => ?_) (fun s s' hs hd hp hw => ?_) h).2
  · refine ⟨0, rfl, ?_, fun _ => rfl, fun u hu => absurd hu List.not_mem_nil, fun u => ⟨u, rfl⟩⟩
    refine (countArgs_eq_zero.2 fun u hu => ?_).symm
    simp [Place.entered] at hu
  · obtain ⟨R, hR⟩ := hs
    exact hR.section hn ho
  · obtain ⟨R, hR⟩ := hs
    exact ⟨R, hd ▸ hR.epoch, by rw [hd, hp]; exact hR.count, fun u => hp ▸ hR.place u,
      fun u hu => hp ▸ hR.waits u (hw u () hu), fun u => hp ▸ hR.late u⟩

/-! ## The barrier is safe -/

theorem barrierSync_safe {T : Type} [Fintype T] [DecidableEq T] (n : BitVec 32) (hn : Fintype.card T = n.toNat)
    {s : State T Unit Bar Place} (h : (barrier T n).Reaches s) :
    (∀ t, s.CanRun (callers T n) t → barrierSync n (s.pc t) s.data ≠ none) ∧
    (∀ k t, k ≤ (s.pc t).returned → ∀ u, k ≤ (s.pc u).entered) ∧
    ∀ k, (∀ u, k ≤ (s.pc u).entered) → ∀ t, s.Waits t () → (s.pc t).entered ≠ k := by
  obtain ⟨R, hR⟩ := exists_rounds hn h
  refine ⟨fun t _ => ?_, fun k t hk u => ?_, fun k hk t hw he => ?_⟩
  · cases hp : s.pc t with
    | outside k =>
      have hk := hR.place t
      rw [hp] at hk
      obtain rfl : k = R := hk
      have hlt := hR.count_lt hn hp
      have hpos : 0 < n := by bv_omega
      rw [barrierSync, if_pos ⟨hpos, hlt⟩]
      dsimp only
      split <;> exact Option.some_ne_none _
    | waiting k epoch => exact Option.some_ne_none _
  · have hret := (hR.place t).returned_le
    have hent := (hR.place u).entered_cases
    omega
  · obtain ⟨u, hu⟩ := hR.late t
    have hku := hk u
    have ht := hR.waits t hw
    omega

/-- Of two threads, one is back already and in its second call, and the other one has not woken up yet. -/
theorem barrierSync_safe_two : ∃ s : State (Fin 2) Unit Bar Place, (barrier (Fin 2) 2).Reaches s ∧
    (s.pc 0 = .waiting 0 0 ∧ ¬s.Waits 0 () ∧ s.pc 1 = .waiting 1 1 ∧ s.Waits 1 ()) ∧
    (∀ t, s.CanRun (callers (Fin 2) 2) t → barrierSync 2 (s.pc t) s.data ≠ none) ∧
    (∀ k t, k ≤ (s.pc t).returned → ∀ u, k ≤ (s.pc u).entered) ∧
    ∀ k, (∀ u, k ≤ (s.pc u).entered) → ∀ t, s.Waits t () → (s.pc t).entered ≠ k := by
  have hrun : ∃ s : State (Fin 2) Unit Bar Place,
      (barrier (Fin 2) 2).run ⟨barrierInit, fun _ => .outside 0, fun _ => []⟩ [.run 0, .run 1, .run 1] = some s ∧
      s.pc 0 = .waiting 0 0 ∧ ¬s.Waits 0 () ∧ s.pc 1 = .waiting 1 1 ∧ s.Waits 1 () := ⟨_, rfl, by decide⟩
  obtain ⟨s, hs, hpc⟩ := hrun
  have h := Lts.reaches_of_run (.init rfl) hs
  exact ⟨s, h, hpc, barrierSync_safe 2 rfl h⟩

end TinyOS.Barrier
