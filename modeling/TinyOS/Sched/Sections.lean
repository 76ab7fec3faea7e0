import TinyOS.Sched.Safety

/-!
# What a step can do

What the sections of the scheduler leave alone (`Untouched`), and from it what one step does to the yield counter, to
the cores and to the threads that have exited (`step_released`, `step_exited`, `step_yields`).
-/

namespace TinyOS.Sched.State

variable {nc : Nat} {s s' : State nc} {t u p : Ptr nc} {c : Fin nc} {k : Cause}

/-! ## What the parts leave alone -/

/-- The count of the threads, the threads that have been released and those that have exited are as they were. -/
structure Untouched (s s' : State nc) : Prop where
  spawned : s'.spawned = s.spawned
  released : s'.released = s.released
  exited : ∀ t, (s'.tcb t).state = .exited ↔ (s.tcb t).state = .exited

theorem Untouched.refl (s : State nc) : Untouched s s := ⟨rfl, rfl, fun _ => Iff.rfl⟩

theorem Untouched.trans {s₁ s₂ s₃ : State nc} (h : Untouched s₁ s₂) (h' : Untouched s₂ s₃) : Untouched s₁ s₃ :=
  ⟨h'.spawned.trans h.spawned, h'.released.trans h.released, fun t => (h'.exited t).trans (h.exited t)⟩

theorem untouched_setTcb {x : Tcb} (hx : x.state = .exited ↔ (s.tcb t).state = .exited) : Untouched s (s.setTcb t x) where
  spawned := rfl
  released := rfl
  exited u := by
    by_cases hu : u = t
    · subst hu
      rw [setTcb_self, hx]
    · rw [setTcb_other x hu]

theorem boostLoop_untouched (i n : Nat) (s : State nc) :
    Untouched s (boostLoop i n s) ∧ (boostLoop i n s).numofYields = s.numofYields := by
  induction n generalizing s with
  | zero => exact ⟨.refl s, rfl⟩
  | succ n ih =>
    cases hq : s.queue i with
    | nil => simpa [boostLoop, hq] using Untouched.refl s
    | cons t rest =>
      rw [boostLoop_succ i n hq]
      obtain ⟨hu, hn⟩ := ih (s.raise i t rest)
      have hraise : Untouched s (s.raise i t rest) := by
        refine ⟨rfl, rfl, fun u => ?_⟩
        rw [(raise_keeps i rest u).2.1]
      exact ⟨hraise.trans hu, hn⟩

theorem boostLevels_untouched (n : Nat) (s : State nc) :
    Untouched s (boostLevels n s) ∧ (boostLevels n s).numofYields = s.numofYields := by
  induction n generalizing s with
  | zero => exact ⟨.refl s, rfl⟩
  | succ n ih =>
    obtain ⟨hu, hn⟩ := boostLoop_untouched n (s.queue n).length s
    obtain ⟨hu', hn'⟩ := ih (boostLoop n (s.queue n).length s)
    exact ⟨hu.trans hu', hn'.trans hn⟩

theorem boost_untouched (s : State nc) :
    Untouched s s.boost ∧ s.boost.numofYields = if s.numofYields = maxYields then 0 else s.numofYields := by
  unfold boost
  split
  · obtain ⟨hu, hn⟩ := boostLevels_untouched (maxPriorities - 1) { s with numofYields := 0 }
    exact ⟨⟨hu.1, hu.2, hu.3⟩, hn⟩
  · exact ⟨.refl s, rfl⟩

theorem readied_untouched (ht : (s.tcb t).state = .stopped ∨ (s.tcb t).state = .init) : Untouched s (s.readied t) := by
  refine ⟨rfl, rfl, fun u => ?_⟩
  by_cases hu : u = t
  · subst hu
    rcases ht with ht | ht <;> simp [readied_self, ht]
  · rw [readied_other hu]

theorem Inv.wakeupExpiredLoop_untouched (clock n : Nat) {s s' : State nc} (h : Inv s)
    (he : State.wakeupExpiredLoop clock n s = some s') : Untouched s s' ∧ s'.numofYields = s.numofYields := by
  induction n generalizing s with
  | zero =>
    cases he
    exact ⟨.refl _, rfl⟩
  | succ n ih =>
    cases hl : s.timeoutList with
    | nil =>
      simp only [State.wakeupExpiredLoop, hl, Option.some.injEq] at he
      subst he
      exact ⟨.refl s, rfl⟩
    | cons t rest =>
      have ht : (s.tcb t).state = .stopped := h.timeout_stopped (h.mem_timeout.1 (by simp [hl]))
      by_cases hc : clock < (s.tcb t).wakeupTime
      · simp only [State.wakeupExpiredLoop, hl, hc, if_true, Option.some.injEq] at he
        subst he
        exact ⟨.refl s, rfl⟩
      · simp only [State.wakeupExpiredLoop, hl, hc, if_false, h.makeReady (.inl ht), Option.bind_some] at he
        obtain ⟨hu, hn⟩ := ih (h.readied (.inl ht) (h.allocated (by simp [ht]))) he
        exact ⟨(readied_untouched (.inl ht)).trans hu, hn⟩

/-- What the section of `yield` does to what it shares with the other cores. -/
theorem Inv.yieldSection_untouched (h : Inv s) (hpc : s.pc c = .yielding k) {remaining clock : Nat}
    (he : s.yieldSection c k remaining clock = some s') : Untouched s s' ∧
      s'.numofYields = (if s.numofYields = maxYields then 0 else s.numofYields) ∧
        s'.pc = Function.update s.pc c .switching := by
  obtain ⟨hb, hn⟩ := boost_untouched (s.adjusted c k)
  have hadj : Untouched s (s.adjusted c k) := untouched_setTcb Iff.rfl
  have hleft : Untouched s (s.left c k remaining) := by
    refine (hadj.trans hb).trans (untouched_setTcb ?_)
    obtain ⟨hrun, hst | ⟨hst, hst'⟩⟩ := leaveCurrent_state k remaining ((s.adjusted c k).boost.tcb (s.current c))
    · rw [hst]
    · rw [hst, hst']
      simp
  rw [yieldSection_eq, Option.map_eq_some_iff] at he
  obtain ⟨s₁, hs₁, rfl⟩ := he
  obtain ⟨hw, hnw⟩ := (h.left hpc remaining).wakeupExpiredLoop_untouched clock _ hs₁
  obtain ⟨s₁', hs₁', -, hsame⟩ := (h.left hpc remaining).wakeupExpired clock
  cases hs₁.symm.trans hs₁'
  have hpcs : s₁.pc = s.pc := hsame.pc.trans (h.adjusted hpc).boost.2.pc
  obtain ⟨next, queue, -, hsel⟩ := queueSelect_spec s₁ c
  have hcur : s₁.current = s.current := hsame.current.trans (h.adjusted hpc).boost.2.current
  rw [hcur] at hsel
  rw [hsel]
  refine ⟨(hleft.trans hw).trans ⟨rfl, rfl, fun u => ?_⟩, hnw.trans hn, ?_⟩
  · by_cases hu : u = next
    · subst hu
      simp
    · simp [setTcb_other _ hu]
  · exact congrArg (Function.update · c Pc.switching) hpcs

/-! ## The other sections -/

theorem slept_state (st : ThreadState) (w : Nat) (l : List (Ptr nc)) (u : Ptr nc) :
    ((s.slept c st k w l).tcb u).state = if u = s.current c then st else (s.tcb u).state := by
  by_cases hu : u = s.current c
  · subst hu
    simp [slept]
  · simp [slept, setTcb_other _ hu, hu]

theorem Inv.wakeup_spec (h : Inv s) (he : (s.wakeup t).map Prod.snd = some s') :
    Untouched s s' ∧ s'.numofYields = s.numofYields ∧ s'.pc = s.pc := by
  unfold State.wakeup at he
  split at he
  · rename_i ht
    rw [h.makeReady ht] at he
    cases he
    exact ⟨readied_untouched ht, rfl, rfl⟩
  · cases he
    exact ⟨.refl _, rfl, rfl⟩

theorem gain_numofYields (he : s.gain c = some s') : s'.numofYields = s.numofYields := by
  have hadd : ∀ (s₁ s₂ : State nc) (u : Ptr nc), s₁.schedQueueAdd u = some s₂ → s₂.numofYields = s₁.numofYields := by
    intro s₁ s₂ u hs
    unfold schedQueueAdd at hs
    dsimp only at hs
    split at hs
    · cases hs
    · cases hs
      rfl
  unfold State.gain at he
  split at he
  · cases he
  · split at he
    · unfold State.gainPrevious at he
      dsimp only at he
      split at he
      · split at he
        · exact (hadd _ _ _ he).trans rfl
        · cases he
          rfl
      · cases he
        rfl
      · cases he
        rfl
      · cases he
      · cases he
    · cases he
      rfl

theorem step_eq_some {a : Action nc} : (sys nc).step s a = some s' ↔ s.Enabled a ∧ s.exec a = some s' := by
  simp [sys]

/-! ## One step -/

/-- A thread is released by the `gain` of the thread that took over its core, and by no other step. -/
theorem Inv.step_released (h : Inv s) {a : Action nc} (hs : (sys nc).step s a = some s') :
    s'.released = s.released ∨ ∃ c t, a = .gain c ∧ s.Leaving c t ∧ s.current c ≠ t ∧ (s.tcb t).state = .exited ∧
      s'.released = t :: s.released := by
  obtain ⟨hen, he⟩ := step_eq_some.1 hs
  cases a with
  | spawn =>
    cases he
    exact .inl rfl
  | wakeup t => exact .inl (h.wakeup_spec he).1.released
  | sleep c st k timeout clock =>
    obtain ⟨hpc, hni, hst, htime⟩ := hen
    obtain ⟨w, l, hs', -⟩ := h.sleepReleasing hpc hni k hst htime
    cases hs'.symm.trans he
    exact .inl rfl
  | yield c k =>
    cases he
    exact .inl rfl
  | yieldSection c remaining clock =>
    simp only [State.exec] at he
    split at he
    · rename_i k hpc
      exact .inl (h.yieldSection_untouched hpc he).1.released
    · cases he
  | gain c =>
    obtain ⟨p, s₁, hs₁, hl, hg⟩ := h.gain hen
    cases hs₁.symm.trans he
    have hr := hg.released
    split at hr
    · rename_i hx
      exact .inr ⟨c, p, rfl, hl, Ne.symm hx.1, hx.2, hr⟩
    · exact .inl hr

/-- A thread gets the state `EXITED` when it goes to sleep with it, and by no other step. -/
theorem Inv.step_exited (h : Inv s) {a : Action nc} (hs : (sys nc).step s a = some s')
    (ht : (s.tcb t).state ≠ .exited) (ht' : (s'.tcb t).state = .exited) :
    ∃ c k timeout clock, a = .sleep c .exited k timeout clock ∧ s.pc c = .running ∧ s.current c = t := by
  obtain ⟨hen, he⟩ := step_eq_some.1 hs
  cases a with
  | spawn =>
    cases he
    by_cases hu : t = .thread s.spawned
    · subst hu
      simp [State.spawnThread] at ht'
    · exact absurd ((congrArg Tcb.state (setTcb_other _ hu)).symm.trans ht') ht
  | wakeup u => exact absurd (((h.wakeup_spec he).1.exited t).1 ht') ht
  | sleep c st k timeout clock =>
    obtain ⟨hpc, hni, hst, htime⟩ := hen
    obtain ⟨w, l, hs', -⟩ := h.sleepReleasing hpc hni k hst htime
    cases hs'.symm.trans he
    rw [slept_state] at ht'
    split at ht'
    · rename_i hu
      subst ht'
      exact ⟨c, k, timeout, clock, rfl, hpc, hu.symm⟩
    · exact absurd ht' ht
  | yield c k =>
    cases he
    exact absurd ht' ht
  | yieldSection c remaining clock =>
    simp only [State.exec] at he
    split at he
    · rename_i k hpc
      exact absurd (((h.yieldSection_untouched hpc he).1.exited t).1 ht') ht
    · cases he
  | gain c =>
    obtain ⟨p, s₁, hs₁, hl, hg⟩ := h.gain hen
    cases hs₁.symm.trans he
    rw [hg.state] at ht'
    split at ht'
    · cases ht'
    · exact absurd ht' ht

end TinyOS.Sched.State
