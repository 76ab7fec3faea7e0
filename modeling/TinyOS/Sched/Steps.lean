import Mathlib.Data.List.Perm.Subperm
import TinyOS.Sched.Preserve

/-!
# Every scheduler step keeps the invariant

`gain`, `sleep_releasing`, `spawn_thread`, `wakeup` and the start of `yield`, and from these and `Preserve` the step
lemma `Inv.exec`: an enabled action passes its assertions, splices in no linked node, and keeps the invariant.
-/

namespace TinyOS.Sched.State

variable {nc : Nat} {s s' : State nc} {t u p : Ptr nc} {c : Fin nc}

/-! ## `gain` -/

/-- The state after `gain` on core `c`, which switched away from `p`. -/
structure Gained (s : State nc) (c : Fin nc) (p : Ptr nc) (s' : State nc) : Prop where
  current : s'.current = s.current
  previous : s'.previous = s.previous
  pc : s'.pc = Function.update s.pc c .running
  state : ∀ u, (s'.tcb u).state = if u = s.current c then .running else (s.tcb u).state
  phase : ∀ u, (s'.tcb u).phase =
    if u = s.current c then .ctxDirty else if u = p then .ctxClean else (s.tcb u).phase
  type : ∀ u, (s'.tcb u).type = (s.tcb u).type
  priority : ∀ u, (s'.tcb u).priority = (s.tcb u).priority
  wakeupTime : ∀ u, (s'.tcb u).wakeupTime = (s.tcb u).wakeupTime
  timeoutList : s'.timeoutList = s.timeoutList
  mem_queue : ∀ {i u}, u ∈ s'.queue i ↔ u ∈ s.queue i ∨
    u = p ∧ p ≠ s.current c ∧ (s.tcb p).state = .ready ∧ (∃ n, p = .thread n) ∧ i = (s.tcb p).priority
  queue_nodup : ∀ {i}, (s'.queue i).Nodup
  spawned : s'.spawned = s.spawned
  released : s'.released = if p ≠ s.current c ∧ (s.tcb p).state = .exited then p :: s.released else s.released
  activeThreads : s'.activeThreads =
    if p ≠ s.current c ∧ (s.tcb p).state = .exited then s.activeThreads - 1 else s.activeThreads

/-- The released TCBs and one more thread that has exited were all spawned. -/
theorem Inv.released_length (h : Inv s) (hp : (s.tcb p).state = .exited) (hd : (s.tcb p).phase = .ctxDirty) :
    s.released.length < s.spawned := by
  have hn : p ∉ s.released := fun hm => by rw [(h.mem_released.1 hm).2] at hd; cases hd
  have hth : ∀ {u}, (s.tcb u).state = .exited → ∃ n < s.spawned, .thread n = u := by
    intro u hu
    cases u with
    | idle c => rcases h.idle_state (c := c) with hi | hi <;> rw [hi] at hu <;> cases hu
    | thread n => exact ⟨n, Nat.lt_of_not_le fun hle => (by simp [h.fresh hle] at hu), rfl⟩
  have hsub : (p :: s.released) ⊆ (List.range s.spawned).map .thread := by
    intro u hu
    rw [List.mem_cons] at hu
    rw [List.mem_map]
    simp only [List.mem_range]
    rcases hu with rfl | hu
    · exact hth hp
    · exact hth (h.mem_released.1 hu).1
  have hle := (List.subperm_of_subset (List.nodup_cons.2 ⟨hn, h.released_nodup⟩) hsub).length_le
  simpa [Nat.succ_le_iff] using hle

theorem gainCurrent_tcb (s : State nc) (c : Fin nc) (u : Ptr nc) : (s.gainCurrent c).tcb u =
    if u = s.current c then
      { s.tcb u with state := .running, phase := .ctxDirty, rts := (s.tcb u).its } else s.tcb u := by
  by_cases hu : u = s.current c
  · subst hu; simp [gainCurrent]
  · simp [gainCurrent, setTcb_other _ hu, hu]

/-- The core goes on with the thread it left. -/
theorem Inv.gainCurrent (h : Inv s) (c : Fin nc) : Gained s c (s.current c) (s.gainCurrent c) where
  current := rfl
  previous := rfl
  pc := rfl
  state u := by rw [gainCurrent_tcb]; split <;> rfl
  phase u := by rw [gainCurrent_tcb]; split <;> rfl
  type u := by rw [gainCurrent_tcb]; split <;> rfl
  priority u := by rw [gainCurrent_tcb]; split <;> rfl
  wakeupTime u := by rw [gainCurrent_tcb]; split <;> rfl
  timeoutList := rfl
  mem_queue := by simp [State.gainCurrent, setTcb]
  queue_nodup := h.queue_nodup
  spawned := rfl
  released := by simp [State.gainCurrent, setTcb]
  activeThreads := by simp [State.gainCurrent, setTcb]

/-- The previous thread has left the core, and its node is in no queue. -/
theorem Inv.gainPrevious (h : Inv s) (hl : s.Leaving c p) (hne : s.current c ≠ p) :
    ∃ s', (s.gainCurrent c).gainPrevious p = some s' ∧ Gained s c p s' := by
  obtain ⟨hinit, hrun⟩ := h.prev_state hl
  have hd : (s.tcb p).phase = .ctxDirty := h.dirty_iff.2 ⟨c, .inr hl⟩
  have hnr : ¬s.Runnable p := by rintro ⟨-, -, hc, -⟩; rw [hd] at hc; cases hc
  set s₁ := (s.gainCurrent c).setTcb p { s.tcb p with phase := .ctxClean } with hs₁
  have hp₁ : (s.gainCurrent c).tcb p = s.tcb p := by rw [gainCurrent_tcb, if_neg (Ne.symm hne)]
  have htcb : ∀ u, s₁.tcb u = if u = p then { s.tcb p with phase := .ctxClean } else (s.gainCurrent c).tcb u := by
    intro u
    by_cases hu : u = p
    · subst hu; simp [hs₁]
    · simp [hs₁, setTcb_other _ hu, hu]
  have hstate : ∀ u, (s₁.tcb u).state = if u = s.current c then .running else (s.tcb u).state := by
    intro u; rw [htcb, gainCurrent_tcb]; split_ifs <;> simp_all
  have hphase : ∀ u, (s₁.tcb u).phase =
      if u = s.current c then .ctxDirty else if u = p then .ctxClean else (s.tcb u).phase := by
    intro u; rw [htcb, gainCurrent_tcb]; split_ifs <;> simp_all
  have htype : ∀ u, (s₁.tcb u).type = (s.tcb u).type := by
    intro u; rw [htcb, gainCurrent_tcb]; split_ifs <;> simp_all
  have hprio : ∀ u, (s₁.tcb u).priority = (s.tcb u).priority := by
    intro u; rw [htcb, gainCurrent_tcb]; split_ifs <;> simp_all
  have hwake : ∀ u, (s₁.tcb u).wakeupTime = (s.tcb u).wakeupTime := by
    intro u; rw [htcb, gainCurrent_tcb]; split_ifs <;> simp_all
  have hgp := gainPrevious.eq_1 (s.gainCurrent c) p
  rw [hp₁, ← hs₁] at hgp
  have hsp : (s₁.tcb p).state = (s.tcb p).state := by rw [hstate, if_neg (Ne.symm hne)]
  cases hst : (s.tcb p).state with
  | init => exact absurd hst hinit
  | running => exact absurd hst hrun
  | stopped =>
    exact ⟨s₁, by rw [hgp, hsp, hst], rfl, rfl, rfl, hstate, hphase, htype, hprio, hwake, rfl, by simp [hst]; rfl,
      h.queue_nodup, rfl, by simp [hst]; rfl, by simp [hst]; rfl⟩
  | exited =>
    exact ⟨s₁.releaseTcb p, by rw [hgp, hsp, hst], rfl, rfl, rfl, hstate, hphase, htype, hprio, hwake, rfl,
      by simp [hst]; rfl, h.queue_nodup, rfl, by simp [hst, Ne.symm hne]; rfl, by simp [hst, Ne.symm hne]; rfl⟩
  | ready =>
    cases p with
    | idle c' =>
      have ht : (s₁.tcb (.idle c')).type = .idleThread := by rw [htype, h.idle_type]
      exact ⟨s₁, by rw [hgp, hsp, hst]; simp [ht], rfl, rfl, rfl, hstate, hphase, htype, hprio, hwake, rfl,
        by simp; rfl, h.queue_nodup, rfl, by simp [hst]; rfl, by simp [hst]; rfl⟩
    | thread n =>
      have ht : (s₁.tcb (.thread n)).type = .normalThread := by rw [htype, h.thread_type]
      have hlink : ¬s₁.Linked (.thread n) := by
        intro hlk
        rcases h.linked (t := .thread n) hlk with hs | hs
        · rw [hst] at hs; cases hs
        · exact hnr hs
      let queue := Function.update s₁.queue (s.tcb (.thread n)).priority
        (s₁.queue (s.tcb (.thread n)).priority ++ [.thread n])
      refine ⟨{ s₁ with queue := queue }, ?_, rfl, rfl, rfl, hstate, hphase, htype, hprio, hwake, rfl, ?_, ?_, rfl,
        by simp [hst]; rfl, by simp [hst]; rfl⟩
      · rw [hgp, hsp, hst]
        simp [ht, schedQueueAdd, hlink, hprio, queue]
      · intro i u
        have hq : s₁.queue = s.queue := rfl
        by_cases hi : i = (s.tcb (.thread n)).priority
        · subst hi
          simp [queue, hq, Ne.symm hne, hst]
        · simp [queue, hq, hi]
      · intro i
        have hq : s₁.queue = s.queue := rfl
        by_cases hi : i = (s.tcb (.thread n)).priority
        · subst hi
          simpa [queue, hq] using h.queue_nodup.append (List.nodup_singleton _) (by simpa using h.not_queued hnr _)
        · simpa [queue, hq, Function.update_of_ne hi] using h.queue_nodup

/-- `gain` passes its assertion: the previous thread is neither new nor running. -/
theorem Inv.gain (h : Inv s) (hpc : s.pc c = .switching) :
    ∃ p s', s.gain c = some s' ∧ s.Leaving c p ∧ Gained s c p s' := by
  obtain ⟨p, hp⟩ := h.prev_some hpc
  by_cases hcp : s.current c = p
  · subst hcp
    exact ⟨_, s.gainCurrent c, by simp [State.gain, hp], ⟨hpc, hp⟩, h.gainCurrent c⟩
  · obtain ⟨s', he, hg⟩ := h.gainPrevious ⟨hpc, hp⟩ hcp
    exact ⟨p, s', by simp [State.gain, hp, hcp, he], ⟨hpc, hp⟩, hg⟩

theorem Gained.pc_eq (hg : Gained s c p s') (c' : Fin nc) : s'.pc c' = if c' = c then .running else s.pc c' := by
  rw [hg.pc, Function.update_apply]

theorem Gained.executing (hg : Gained s c p s') (c' : Fin nc) (u : Ptr nc) :
    s'.Executing c' u ↔ if c' = c then u = s.current c else s.Executing c' u := by
  by_cases hc : c' = c
  · subst hc
    simp [Executing, hg.current, hg.pc_eq, eq_comm]
  · simp [Executing, hg.current, hg.pc_eq, hc]

theorem Gained.leaving (hg : Gained s c p s') (c' : Fin nc) (u : Ptr nc) :
    s'.Leaving c' u ↔ c' ≠ c ∧ s.Leaving c' u := by
  by_cases hc : c' = c <;> simp [Leaving, hg.previous, hg.pc_eq, hc]

theorem Gained.selected (hg : Gained s c p s') (c' : Fin nc) (u : Ptr nc) :
    s'.Selected c' u ↔ c' ≠ c ∧ s.Selected c' u := by
  by_cases hc : c' = c <;> simp [Selected, hg.current, hg.pc_eq, hc]

/-- The thread left behind is at no other core. -/
theorem Inv.left_alone (h : Inv s) (hl : s.Leaving c p) {c' : Fin nc} (hc : c' ≠ c) :
    s.current c' ≠ p ∧ ¬s.Leaving c' p :=
  ⟨fun he => hc (h.prev_cur hl he).symm, fun hl' => hc (h.prev_inj hl' hl)⟩

/-- The thread left behind becomes runnable if it is ready. -/
theorem Inv.gained_runnable (h : Inv s) (hl : s.Leaving c p) (hg : Gained s c p s') (u : Ptr nc) :
    s'.Runnable u ↔ s.Runnable u ∨ u = p ∧ p ≠ s.current c ∧ (s.tcb p).state = .ready ∧ ∃ n, p = .thread n := by
  have hpd : (s.tcb p).phase = .ctxDirty := h.dirty_iff.2 ⟨c, .inr hl⟩
  simp only [Runnable, hg.state, hg.phase, hg.selected]
  by_cases hu : u = s.current c
  · subst hu
    have hs : s.Selected c (s.current c) := ⟨hl.1, rfl⟩
    simp only [if_true]
    constructor
    · rintro ⟨-, hr, -⟩
      cases hr
    · rintro (⟨-, -, -, hn⟩ | ⟨he, hne, -⟩)
      · exact absurd hs (hn c)
      · exact absurd he.symm hne
  · by_cases hup : u = p
    · subst hup
      simp only [if_neg hu, if_true, hpd]
      constructor
      · rintro ⟨hn, hr, -, -⟩
        exact .inr ⟨trivial, hu, hr, hn⟩
      · rintro (⟨-, -, hc, -⟩ | ⟨-, -, hr, hn⟩)
        · cases hc
        · exact ⟨hn, hr, trivial, fun c' hs => (h.left_alone hl hs.1).1 hs.2.2⟩
    · simp only [if_neg hu, hup, if_false, false_and, or_false]
      have : (∀ c', ¬(c' ≠ c ∧ s.Selected c' u)) ↔ ∀ c', ¬s.Selected c' u := by
        refine forall_congr' fun c' => not_congr ⟨And.right, fun hs => ⟨?_, hs⟩⟩
        rintro rfl
        exact hu hs.2.symm
      rw [this]

theorem Inv.gained_dirty (h : Inv s) (hl : s.Leaving c p) (hg : Gained s c p s') (u : Ptr nc) :
    (s'.tcb u).phase = .ctxDirty ↔ ∃ c', s'.Executing c' u ∨ s'.Leaving c' u := by
  rw [hg.phase]
  simp only [hg.executing, hg.leaving]
  by_cases hu : u = s.current c
  · simp only [hu, if_true, true_iff]
    exact ⟨c, .inl (by simp)⟩
  · by_cases hup : u = p
    · subst hup
      simp only [if_neg hu, if_true]
      constructor
      · intro hc
        cases hc
      · rintro ⟨c', he | ⟨hc, hl'⟩⟩
        · split_ifs at he with hc
          · exact absurd he hu
          · exact absurd he.2 (h.left_alone hl hc).1
        · exact absurd hl' (h.left_alone hl hc).2
    · simp only [if_neg hu, if_neg hup]
      rw [h.dirty_iff]
      refine exists_congr fun c' => ?_
      by_cases hc : c' = c
      · subst hc
        have hnl : ¬s.Leaving c' u := fun hl' => hup (Option.some.inj (hl'.2.symm.trans hl.2))
        simp [Executing, hl.1, hu, hnl]
      · simp [hc]

/-- The thread left behind is released if it has exited. -/
theorem Inv.gained_released (h : Inv s) (hl : s.Leaving c p) (hg : Gained s c p s') (u : Ptr nc) :
    u ∈ s'.released ↔ (s'.tcb u).state = .exited ∧ (s'.tcb u).phase = .ctxClean := by
  have hready : (s.tcb (s.current c)).state = .ready := h.cur_selected hl.1
  have hpd : (s.tcb p).phase = .ctxDirty := h.dirty_iff.2 ⟨c, .inr hl⟩
  rw [hg.released, hg.state, hg.phase]
  have hm := h.mem_released (t := u)
  by_cases hu : u = s.current c
  · subst hu
    have hn : s.current c ∉ s.released := fun hr => by
      rw [hready] at hm
      cases (hm.1 hr).1
    simp only [if_true]
    split
    · rename_i hx
      simp [hn, Ne.symm hx.1]
    · simp [hn]
  · by_cases hup : u = p
    · subst hup
      simp only [if_neg hu, if_true]
      split <;> simp_all
    · simp only [if_neg hu, if_neg hup]
      split <;> simp_all

theorem Inv.gained_cores (h : Inv s) (hg : Gained s c p s') : Cores s' where
  cur_inj he := h.cur_inj (by rwa [hg.current] at he)
  prev_cur hl he := h.prev_cur ((hg.leaving _ _).1 hl).2 (by rwa [hg.current] at he)
  prev_inj hl hl' := h.prev_inj ((hg.leaving _ _).1 hl).2 ((hg.leaving _ _).1 hl').2
  prev_some {c'} hp := by
    rw [hg.pc_eq] at hp
    rw [hg.previous]
    split at hp
    · cases hp
    · exact h.prev_some hp
  cur_idle he := h.cur_idle (by rwa [hg.current] at he)
  prev_idle hl := h.prev_idle ((hg.leaving _ _).1 hl).2

/-- The other cores are at other threads. -/
theorem Inv.gained_other (h : Inv s) (hg : Gained s c p s') {c' : Fin nc} (hc : c' ≠ c) :
    s'.pc c' = s.pc c' ∧ (s'.tcb (s'.current c')).state = (s.tcb (s.current c')).state := by
  rw [hg.pc_eq, if_neg hc, hg.current, hg.state, if_neg fun he => hc (h.cur_inj he)]
  exact ⟨rfl, rfl⟩

theorem Inv.gained_placed (h : Inv s) (hl : s.Leaving c p) (hg : Gained s c p s') : Placed s' where
  dirty_iff {u} := h.gained_dirty hl hg u
  running_exec {u} hr := by
    rw [hg.state] at hr
    by_cases hu : u = s.current c
    · exact ⟨c, (hg.executing c u).2 (by simp [hu])⟩
    · rw [if_neg hu] at hr
      obtain ⟨c', he⟩ := h.running_exec hr
      refine ⟨c', (hg.executing c' u).2 ?_⟩
      rw [if_neg (by rintro rfl; exact he.1 hl.1)]
      exact he
  cur_running {c'} hp := by
    by_cases hc : c' = c
    · rw [hg.current, hg.state, hc, if_pos rfl]
    · obtain ⟨hpc, hst⟩ := h.gained_other hg hc
      exact hst.trans (h.cur_running (hpc.symm.trans hp))
  cur_slept {c' k} hp := by
    by_cases hc : c' = c
    · simp [hg.pc_eq, hc] at hp
    · obtain ⟨hpc, hst⟩ := h.gained_other hg hc
      exact hst.trans_ne (h.cur_slept (hpc.symm.trans hp))
  cur_selected {c'} hp := by
    by_cases hc : c' = c
    · simp [hg.pc_eq, hc] at hp
    · obtain ⟨hpc, hst⟩ := h.gained_other hg hc
      exact hst.trans (h.cur_selected (hpc.symm.trans hp))
  cur_init {c'} := by
    rw [hg.current, hg.state]
    split
    · simp
    · exact h.cur_init
  prev_state {c' u} hl' := by
    obtain ⟨hc, hl'⟩ := (hg.leaving _ _).1 hl'
    rw [hg.state, if_neg (fun he => hc (h.prev_cur hl' he.symm))]
    exact h.prev_state hl'

theorem Inv.gained_queued (h : Inv s) (hl : s.Leaving c p) (hg : Gained s c p s') : Queued s' where
  mem_queue {i u} := by
    rw [hg.mem_queue, hg.priority, h.gained_runnable hl hg, h.mem_queue]
    constructor
    · rintro (⟨hi, hr⟩ | ⟨rfl, hne, hr, hn, hi⟩)
      · exact ⟨hi, .inl hr⟩
      · exact ⟨hi.symm, .inr ⟨rfl, hne, hr, hn⟩⟩
    · rintro ⟨hi, hr | ⟨rfl, hne, hr, hn⟩⟩
      · exact .inl ⟨hi, hr⟩
      · exact .inr ⟨rfl, hne, hr, hn, hi.symm⟩
  queue_nodup := hg.queue_nodup

theorem Inv.gained_reaped (h : Inv s) (hl : s.Leaving c p) (hg : Gained s c p s') : Reaped s' where
  mem_released {u} := h.gained_released hl hg u
  released_nodup := by
    have hpd : (s.tcb p).phase = .ctxDirty := h.dirty_iff.2 ⟨c, .inr hl⟩
    rw [hg.released]
    split
    · exact List.nodup_cons.2 ⟨fun hm => by simp [(h.mem_released.1 hm).2] at hpd, h.released_nodup⟩
    · exact h.released_nodup
  active := by
    have hpd : (s.tcb p).phase = .ctxDirty := h.dirty_iff.2 ⟨c, .inr hl⟩
    rw [hg.released, hg.activeThreads, hg.spawned]
    have ha := h.active
    split
    · rename_i hx
      have := h.released_length hx.2 hpd
      rw [List.length_cons]
      omega
    · exact ha

theorem Inv.gained (h : Inv s) (hl : s.Leaving c p) (hg : Gained s c p s') : Inv s' where
  toCores := h.gained_cores hg
  toPlaced := h.gained_placed hl hg
  toKinds := by
    have hready : (s.tcb (s.current c)).state = .ready := h.cur_selected hl.1
    refine h.toKinds.congr hg.type (fun u => hg.priority u ▸ h.priority_lt) (Nat.le_of_eq hg.spawned.symm)
      (fun c' => ?_) fun n hn => ?_
    · rw [hg.state]
      split
      · exact .inr (.inl rfl)
      · exact .inl rfl
    · have hf := h.fresh (hg.spawned ▸ hn)
      rw [hg.state, if_neg (by intro he; rw [he, hready] at hf; cases hf)]
  toQueued := h.gained_queued hl hg
  toTimed := by
    have hready : (s.tcb (s.current c)).state = .ready := h.cur_selected hl.1
    refine h.toTimed.congr hg.timeoutList hg.wakeupTime fun u hst => ?_
    rw [hg.state, if_neg (by rintro rfl; rw [hready] at hst; cases hst)]
    exact hst
  toReaped := h.gained_reaped hl hg

/-! ## `sleep_releasing` -/

theorem insertTimeout_perm (w : Ptr nc → Nat) (t : Ptr nc) : ∀ l, (insertTimeout w t l).Perm (t :: l)
  | [] => .refl _
  | n :: l => by
    unfold insertTimeout
    split
    · exact .refl _
    · exact ((insertTimeout_perm w t l).cons n).trans (.swap t n l)

/-- The state after the section of `sleep_releasing`: `w` is the wake-up time of the sleeper. -/
def slept (s : State nc) (c : Fin nc) (st : ThreadState) (k : Cause) (w : Nat) (l : List (Ptr nc)) : State nc :=
  { s.setTcb (s.current c) { s.tcb (s.current c) with state := st, wakeupTime := w } with
    timeoutList := l
    pc := Function.update s.pc c (.slept k) }

section Slept

variable {st : ThreadState} {k : Cause} {w : Nat} {l : List (Ptr nc)}

theorem slept_self : (s.slept c st k w l).tcb (s.current c) =
    { s.tcb (s.current c) with state := st, wakeupTime := w } := setTcb_self _

theorem slept_other (hu : u ≠ s.current c) : (s.slept c st k w l).tcb u = s.tcb u := setTcb_other _ hu

/-- Only the state and the wake-up time are written. -/
theorem slept_keeps (u : Ptr nc) : ((s.slept c st k w l).tcb u).type = (s.tcb u).type ∧
    ((s.slept c st k w l).tcb u).phase = (s.tcb u).phase ∧
    ((s.slept c st k w l).tcb u).priority = (s.tcb u).priority := by
  by_cases hu : u = s.current c
  · rw [hu, slept_self]
    exact ⟨rfl, rfl, rfl⟩
  · rw [slept_other hu]
    exact ⟨rfl, rfl, rfl⟩

theorem slept_pc (c' : Fin nc) : (s.slept c st k w l).pc c' = if c' = c then .slept k else s.pc c' := by
  simp [slept, Function.update_apply]

theorem slept_places (hpc : s.pc c = .running) : SamePlaces s (s.slept c st k w l) := by
  refine ⟨rfl, rfl, fun c' => ?_⟩
  by_cases hc : c' = c <;> simp [slept_pc, hc, hpc]

theorem Inv.slept_placed (h : Inv s) (hpc : s.pc c = .running) (hst : st = .stopped ∨ st = .exited) :
    Placed (s.slept c st k w l) := by
  have hst' : st ≠ .running ∧ st ≠ .init := by rcases hst with rfl | rfl <;> simp
  have hself : ((s.slept c st k w l).tcb (s.current c)).state = st := by rw [slept_self]
  refine (slept_places hpc).placed_of_write (t := s.current c) h.toPlaced (fun u => (slept_keeps u).2.1)
    (fun u hu => by rw [slept_other hu]) (fun c' hc' => ?_) (fun hr => absurd (hself.symm.trans hr) hst'.1)
    (fun c' hc' => ?_) fun c' hl => absurd hl (h.not_leaving_cur (by simp [hpc]) c')
  · rw [slept_pc, if_neg fun hc => hc' (congrArg s.current hc)]
  · obtain rfl := h.cur_inj hc'
    rw [slept_pc, if_pos rfl, hself]
    exact ⟨Pc.noConfusion, Pc.noConfusion, hst'.2, fun _ _ => hst'.1⟩

theorem Inv.slept_kinds (h : Inv s) (hpc : s.pc c = .running) (hni : s.current c ≠ .idle c) :
    Kinds (s.slept c st k w l) := by
  have hrun : (s.tcb (s.current c)).state = .running := h.cur_running hpc
  refine h.toKinds.congr (fun u => (slept_keeps u).1) (fun u => ?_) (Nat.le_refl _) (fun c' => .inl ?_)
    fun n hn => ?_
  · rw [(slept_keeps u).2.2]
    exact h.priority_lt
  · have hu : .idle c' ≠ s.current c := fun he => hni (h.cur_idle he.symm ▸ he.symm)
    rw [slept_other hu]
  · have hf := h.fresh hn
    rw [slept_other (by rintro he; rw [he, hrun] at hf; cases hf)]

/-- The sleeper is in no queue before or after. -/
theorem Inv.slept_queued (h : Inv s) (hpc : s.pc c = .running) : Queued (s.slept c st k w l) := by
  have hd : (s.tcb (s.current c)).phase = .ctxDirty := h.cur_dirty (by simp [hpc])
  refine h.toQueued.congr rfl (fun u => (slept_places hpc).runnable ?_) fun u _ => (slept_keeps u).2.2
  by_cases hu : u = s.current c
  · simp [hu, slept_keeps, hd]
  · rw [slept_other hu]

/-- The current thread of a running core waits for no timeout. -/
theorem Inv.cur_noTimeout (h : Inv s) (hpc : s.pc c = .running) : (s.tcb (s.current c)).wakeupTime = noTimeout := by
  by_contra hw
  have := h.timeout_stopped hw
  rw [h.cur_running hpc] at this
  cases this

theorem Inv.slept_timed (h : Inv s) (hpc : s.pc c = .running) (hst : st = .stopped ∨ st = .exited ∧ w = noTimeout)
    (hmem : ∀ u, u ∈ l ↔ u ∈ s.timeoutList ∨ u = s.current c ∧ w ≠ noTimeout) (hl : l.Nodup) :
    Timed (s.slept c st k w l) where
  mem_timeout {u} := by
    refine (hmem u).trans ?_
    have hm := h.mem_timeout (t := u)
    by_cases hu : u = s.current c
    · subst hu
      rw [hm, slept_self, h.cur_noTimeout hpc]
      simp
    · rw [hm, slept_other hu]
      simp [hu]
  timeout_nodup := hl
  timeout_stopped {u} hw := by
    by_cases hu : u = s.current c
    · rw [hu, slept_self] at hw ⊢
      rcases hst with hst | ⟨-, hw'⟩
      · exact hst
      · exact absurd hw' hw
    · rw [slept_other hu] at hw ⊢
      exact h.timeout_stopped hw

theorem Inv.slept (h : Inv s) (hpc : s.pc c = .running) (hni : s.current c ≠ .idle c) (k : Cause)
    (hst : st = .stopped ∨ st = .exited ∧ w = noTimeout)
    (hmem : ∀ u, u ∈ l ↔ u ∈ s.timeoutList ∨ u = s.current c ∧ w ≠ noTimeout) (hl : l.Nodup) :
    Inv (s.slept c st k w l) where
  toCores := (slept_places hpc).cores h.toCores
  toPlaced := h.slept_placed hpc (hst.imp_right And.left)
  toKinds := h.slept_kinds hpc hni
  toQueued := h.slept_queued hpc
  toTimed := h.slept_timed hpc hst hmem hl
  toReaped := by
    refine h.toReaped.congr rfl rfl fun u => ?_
    by_cases hu : u = s.current c
    · simp [hu, slept_keeps, h.cur_dirty (c := c) (by simp [hpc])]
    · rw [slept_other hu]

end Slept

/-- `sleep_releasing` by a thread that is not an idle thread passes its assertion, and its node is free when a timeout
is registered. -/
theorem Inv.sleepReleasing (h : Inv s) (hpc : s.pc c = .running) (hni : s.current c ≠ .idle c) {st : ThreadState}
    (k : Cause) {timeout clock : Nat} (hst : st = .stopped ∨ st = .exited)
    (htime : timeout = noTimeout ∨ clock + timeout < noTimeout) :
    ∃ w l, s.sleepReleasing c st k timeout clock = some (s.slept c st k w l) ∧ Inv (s.slept c st k w l) := by
  have hw := h.cur_noTimeout hpc
  have hnl : s.current c ∉ s.timeoutList := fun hm => h.mem_timeout.1 hm hw
  by_cases hto : st = .exited ∨ timeout = noTimeout
  · refine ⟨noTimeout, s.timeoutList, ?_,
      h.slept hpc hni k (by tauto) (fun u => by simp) h.timeout_nodup⟩
    have he : ({ s.tcb (s.current c) with state := st, wakeupTime := noTimeout } : Tcb) =
        { s.tcb (s.current c) with state := st } := by rw [← hw]
    rw [State.slept, he]
    rcases hst with rfl | rfl
    · obtain rfl : timeout = noTimeout := by simpa using hto
      simp [State.sleepReleasing, schedRegisterTimeout, setTcb]
    · simp [State.sleepReleasing, setTcb]
  · have htimeout : timeout ≠ noTimeout := fun he => hto (.inr he)
    obtain rfl : st = .stopped := by tauto
    have hlt : clock + timeout < noTimeout := by tauto
    have hmod : (clock + timeout) % 2 ^ 64 = clock + timeout := Nat.mod_eq_of_lt (by simp [noTimeout] at hlt; omega)
    set x : Tcb := { s.tcb (s.current c) with state := .stopped, wakeupTime := clock + timeout } with hx
    set l := insertTimeout (fun u => ((s.setTcb (s.current c) x).tcb u).wakeupTime) (s.current c) s.timeoutList with hl
    have hperm : l.Perm (s.current c :: s.timeoutList) := insertTimeout_perm _ _ _
    refine ⟨clock + timeout, l, ?_, h.slept hpc hni k (.inl rfl) (fun u => ?_) ?_⟩
    · have hlink : ¬(s.setTcb (s.current c) x).Linked (s.current c) := by
        rintro (hm | ⟨i, -, hm⟩)
        · exact hnl hm
        · have := (h.mem_queue.1 hm).2.2.1
          rw [h.cur_running hpc] at this
          cases this
      have hreg : (s.setTcb (s.current c) { s.tcb (s.current c) with state := .stopped }).schedRegisterTimeout
          (s.current c) timeout clock = some { s.setTcb (s.current c) x with timeoutList := l } := by
        have htwice : ∀ y, (s.setTcb (s.current c) y).setTcb (s.current c) x = s.setTcb (s.current c) x := fun y => by
          simp [setTcb]
        simp only [schedRegisterTimeout, setTcb_self, hmod, ← hx, htwice, hlink, ne_eq, htimeout, not_false_eq_true,
          if_true, if_false]
        rfl
      simp only [State.sleepReleasing, hreg, ne_eq, reduceCtorEq, not_false_eq_true, if_true, true_or, guard_true]
      rfl
    · rw [hperm.mem_iff, List.mem_cons]
      have : clock + timeout ≠ noTimeout := by omega
      tauto
    · exact hperm.nodup_iff.2 (List.nodup_cons.2 ⟨hnl, h.timeout_nodup⟩)

/-! ## The other steps -/

theorem spawnThread_places : SamePlaces s s.spawnThread := .of_pc rfl rfl rfl

theorem spawnThread_other (hu : u ≠ .thread s.spawned) : s.spawnThread.tcb u = s.tcb u := setTcb_other _ hu

theorem spawnThread_self : (s.spawnThread.tcb (.thread s.spawned)).priority = maxPriorities - 1 := by
  simp [spawnThread]

/-- A thread that has not been spawned is nowhere, and its TCB is written as it is. -/
theorem Inv.spawnThread_keeps (h : Inv s) (u : Ptr nc) : (s.spawnThread.tcb u).type = (s.tcb u).type ∧
    (s.spawnThread.tcb u).state = (s.tcb u).state ∧ (s.spawnThread.tcb u).phase = (s.tcb u).phase ∧
    (s.spawnThread.tcb u).wakeupTime = (s.tcb u).wakeupTime := by
  have hinit : (s.tcb (.thread s.spawned)).state = .init := h.fresh (Nat.le_refl _)
  have hclean : (s.tcb (.thread s.spawned)).phase = .ctxClean := by
    cases hp : (s.tcb (.thread s.spawned)).phase with
    | ctxClean => rfl
    | ctxDirty =>
      obtain ⟨c, he | hl⟩ := h.dirty_iff.1 hp
      · exact absurd (he.2 ▸ hinit) h.cur_init
      · exact absurd hinit (h.prev_state hl).1
  have hwake : (s.tcb (.thread s.spawned)).wakeupTime = noTimeout := by
    by_contra hw
    rw [h.timeout_stopped hw] at hinit
    cases hinit
  by_cases hu : u = .thread s.spawned
  · subst hu
    rw [h.thread_type, hinit, hclean, hwake]
    simp [State.spawnThread]
  · rw [spawnThread_other hu]
    exact ⟨rfl, rfl, rfl, rfl⟩

theorem Inv.spawnThread_queued (h : Inv s) : Queued s.spawnThread := by
  refine h.toQueued.congr rfl (fun u => spawnThread_places.runnable ?_) fun u hr => ?_
  · obtain ⟨-, hstate, hphase, -⟩ := h.spawnThread_keeps u
    rw [hstate, hphase]
  · rw [spawnThread_other]
    rintro rfl
    exact ThreadState.noConfusion ((h.fresh (Nat.le_refl _)).symm.trans hr.2.1)

theorem Inv.spawnThread (h : Inv s) : Inv s.spawnThread := by
  have hk := h.spawnThread_keeps
  exact {
    toCores := spawnThread_places.cores h.toCores
    toPlaced := spawnThread_places.placed h.toPlaced (fun u => (hk u).2.2.1) (fun u => (hk u).2.1) (fun _ hp => hp)
      fun _ _ hp => hp
    toKinds := by
      refine h.toKinds.congr (fun u => (hk u).1) (fun u => ?_) (Nat.le_succ _) (fun c => .inl (hk _).2.1)
        fun n _ => (hk _).2.1
      by_cases hu : u = .thread s.spawned
      · rw [hu, spawnThread_self]; decide
      · rw [spawnThread_other hu]; exact h.priority_lt
    toQueued := h.spawnThread_queued
    toTimed := h.toTimed.congr rfl (fun u => (hk u).2.2.2) fun u hst => (hk u).2.1.trans hst
    toReaped := by
      refine h.toReaped.congr rfl ?_ fun u => by rw [(hk u).2.1, (hk u).2.2.1]
      show s.activeThreads + 1 + s.spawned = s.activeThreads + (s.spawned + 1)
      omega }

/-- `wakeup` of a thread that is neither stopped nor new does nothing. -/
theorem Inv.wakeup (h : Inv s) (ha : s.Allocated t) : ∃ r s', s.wakeup t = some (r, s') ∧ Inv s' := by
  by_cases ht : (s.tcb t).state = .stopped ∨ (s.tcb t).state = .init
  · exact ⟨true, _, by simp [State.wakeup, ht, h.makeReady ht], h.readied ht ha⟩
  · exact ⟨false, s, by simp [State.wakeup, ht], h⟩

/-- A core that enters `yield` stays at its current thread. -/
theorem Inv.yielding (h : Inv s) {k : Cause} (hpc : s.pc c = .running ∨ s.pc c = .slept k) (n : Int) :
    Inv { s with numofYields := n, pc := Function.update s.pc c (.yielding k) } := by
  set s₁ : State nc := { s with numofYields := n, pc := Function.update s.pc c (.yielding k) } with hs₁
  have hpc' : ∀ c', s₁.pc c' = if c' = c then .yielding k else s.pc c' := fun c' => by
    simp [hs₁, Function.update_apply]
  have hplaces : SamePlaces s s₁ := by
    refine ⟨rfl, rfl, fun c' => ?_⟩
    by_cases hc : c' = c
    · subst hc; rcases hpc with hpc | hpc <;> simp [hpc', hpc]
    · simp [hpc', hc]
  have hold : ∀ {c'}, s₁.pc c' ≠ .yielding k → s₁.pc c' = s.pc c' := fun {c'} hne => by
    have hc : c' ≠ c := fun hc => hne (by rw [hpc', if_pos hc])
    rw [hpc', if_neg hc]
  exact {
    toCores := hplaces.cores h.toCores
    toPlaced := hplaces.placed h.toPlaced (fun _ => rfl) (fun _ => rfl)
      (fun c' hp => (hold (by simp [hp])).symm.trans hp) fun c' k' hp => (hold (by simp [hp])).symm.trans hp
    toKinds := h.toKinds.congr (fun _ => rfl) (fun _ => h.priority_lt) (Nat.le_refl _) (fun _ => .inl rfl)
      fun _ _ => rfl
    toQueued := h.toQueued.congr rfl (fun _ => hplaces.runnable Iff.rfl) fun _ _ => rfl
    toTimed := h.toTimed.congr rfl (fun _ => rfl) fun _ hst => hst
    toReaped := h.toReaped.congr rfl rfl fun _ => Iff.rfl }

/-! ## Every step -/

/-- **Step lemma.** An enabled action has a result, and the result keeps the invariant. -/
theorem Inv.exec (h : Inv s) : ∀ {a : Action nc}, s.Enabled a → ∃ s', s.exec a = some s' ∧ Inv s'
  | .spawn, _ => ⟨_, rfl, h.spawnThread⟩
  | .wakeup t, ha => by
    obtain ⟨r, s', he, hs'⟩ := h.wakeup ha
    exact ⟨s', by simp [State.exec, he], hs'⟩
  | .sleep c st k timeout clock, ⟨hpc, hni, hst, htime⟩ => by
    obtain ⟨w, l, he, hs'⟩ := h.sleepReleasing hpc hni k hst htime
    exact ⟨_, he, hs'⟩
  | .yield c k, hpc => ⟨_, rfl, h.yielding hpc _⟩
  | .yieldSection c r clock, hy => by
    cases hpc : s.pc c with
    | yielding k =>
      obtain ⟨s₁, next, queue, he, h₁, -, hpc₁, -, hrun, hsel⟩ := h.yieldSection hpc r clock
      exact ⟨_, by simp only [State.exec, hpc, he], h₁.switchTo ((congrFun hpc₁ c).trans hpc) hrun hsel⟩
    | running => simp [State.Enabled, hpc, Pc.isYielding] at hy
    | slept k => simp [State.Enabled, hpc, Pc.isYielding] at hy
    | switching => simp [State.Enabled, hpc, Pc.isYielding] at hy
  | .gain c, hpc => by
    obtain ⟨p, s', he, hl, hg⟩ := h.gain hpc
    exact ⟨s', he, h.gained hl hg⟩

/-- **Run lemma.** The invariant holds in every reachable state. -/
theorem reaches_inv (hs : (sys nc).Reaches s) : Inv s := by
  refine hs.invariant (fun s hs => ?_) (fun s a s' h he => ?_)
  · obtain rfl : s = boot nc := hs
    exact boot_inv
  · obtain ⟨hen, he⟩ : s.Enabled a ∧ s.exec a = some s' := by simpa [sys] using he
    obtain ⟨s'', he', hs''⟩ := h.exec hen
    rw [he] at he'
    cases he'
    exact hs''

end TinyOS.Sched.State
