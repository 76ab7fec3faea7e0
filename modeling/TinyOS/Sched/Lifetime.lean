import TinyOS.Sched.Sections

/-!
# The life of a TCB

A TCB is passed to `release_TCB` once, in the `gain` of the thread that took over the core of the thread that has
exited, and the scheduler holds no pointer to it then or later (`tcb_lifetime`).
-/

namespace TinyOS.Sched

open State

variable {nc : Nat}

/-- The scheduler does not hold `t`: it is in no ring, and no core runs it or has selected it. -/
structure State.Nowhere (s : State nc) (t : Ptr nc) : Prop where
  queue : ∀ i, t ∉ s.queue i
  timeout : t ∉ s.timeoutList
  current : ∀ c, s.current c ≠ t

structure LivesOnce (s : State nc) : Prop where
  spawned : ∀ t ∈ s.released, ∃ n < s.spawned, t = .thread n
  once : s.released.Nodup
  gone : ∀ t ∈ s.released, s.Nowhere t
  /-- What a step releases. -/
  release : ∀ a s', (sys nc).step s a = some s' → s'.released = s.released ∨
    ∃ c t, a = .gain c ∧ s.previous c = some t ∧ s.current c ≠ t ∧ (s.tcb t).state = .exited ∧ s.Nowhere t ∧
      s'.released = t :: s.released
  active : (s.activeThreads : Int) = s.spawned - s.released.length

namespace State

variable {s s' : State nc} {t : Ptr nc} {c : Fin nc}

/-- A thread that has exited is in no ring. -/
theorem Inv.exited_unlinked (h : Inv s) (ht : (s.tcb t).state = .exited) : (∀ i, t ∉ s.queue i) ∧ t ∉ s.timeoutList := by
  constructor
  · intro i hm
    have hr := (h.mem_queue.1 hm).2.2.1
    rw [ht] at hr
    cases hr
  · intro hm
    have hst := h.timeout_stopped (h.mem_timeout.1 hm)
    rw [ht] at hst
    cases hst

/-- No core is at a thread that has been released. -/
theorem Inv.released_nowhere (h : Inv s) (ht : t ∈ s.released) : s.Nowhere t := by
  obtain ⟨hst, hclean⟩ := h.mem_released.1 ht
  obtain ⟨hq, htl⟩ := h.exited_unlinked hst
  refine ⟨hq, htl, fun c hc => ?_⟩
  subst hc
  by_cases hpc : s.pc c = .switching
  · have hr := h.cur_selected hpc
    rw [hst] at hr
    cases hr
  · have hd := h.cur_dirty hpc
    rw [hclean] at hd
    cases hd

/-- No core is at a thread that has exited and that its core has switched away from. -/
theorem Inv.leaving_nowhere (h : Inv s) (hl : s.Leaving c t) (hne : s.current c ≠ t)
    (ht : (s.tcb t).state = .exited) : s.Nowhere t := by
  obtain ⟨hq, htl⟩ := h.exited_unlinked ht
  refine ⟨hq, htl, fun c' hc => ?_⟩
  obtain rfl := h.prev_cur hl hc
  exact hne hc

theorem Inv.livesOnce (h : Inv s) : LivesOnce s where
  spawned t ht := by
    have hst := (h.mem_released.1 ht).1
    cases t with
    | idle c => rcases h.idle_state (c := c) with hi | hi <;> rw [hi] at hst <;> cases hst
    | thread n =>
      refine ⟨n, Nat.lt_of_not_le fun hn => ?_, rfl⟩
      rw [h.fresh hn] at hst
      cases hst
  once := h.released_nodup
  gone t ht := h.released_nowhere ht
  release a s' hs := by
    refine (h.step_released hs).imp_right ?_
    rintro ⟨c, t, rfl, hl, hne, ht, hr⟩
    exact ⟨c, t, rfl, hl.2, hne, ht, h.leaving_nowhere hl hne ht, hr⟩
  active := by
    have ha := h.active
    omega

/-- What has been released stays so. -/
theorem released_suffix (h : Inv s) {as : List (Action nc)} (hr : (sys nc).run s as = some s') :
    s.released <:+ s'.released := by
  refine (Lts.run_keeps (I := fun u => Inv u ∧ s.released <:+ u.released) (fun u a u' hu hs => ?_)
    ⟨h, List.suffix_rfl⟩ hr).2
  obtain ⟨hen, he⟩ := step_eq_some.1 hs
  obtain ⟨u'', he', hinv⟩ := hu.1.exec hen
  cases he'.symm.trans he
  refine ⟨hinv, ?_⟩
  obtain hrel | ⟨-, t, -, -, -, -, hrel⟩ := hu.1.step_released hs
  · rw [hrel]
    exact hu.2
  · rw [hrel]
    exact hu.2.trans (List.suffix_cons _ _)

end State

/-- **The life of a TCB.** Each TCB is released at most once, by the `gain` of the thread that took over its core and
after it has gone to sleep with state `EXITED`; from then on it is in no ring and no core runs or selects it. -/
theorem tcb_lifetime {s : State nc} {as : List (Action nc)} (hr : (sys nc).run (State.boot nc) as = some s) :
    LivesOnce s ∧
      (∀ t ∈ s.released, ∃ as₁ c k timeout clock as₂ s₁, as = as₁ ++ .sleep c .exited k timeout clock :: as₂ ∧
        (sys nc).run (State.boot nc) as₁ = some s₁ ∧ s₁.pc c = .running ∧ s₁.current c = t) ∧
      ∀ as' s', (sys nc).run s as' = some s' → ∀ t ∈ s.released, t ∈ s'.released ∧ s'.Nowhere t := by
  have hreach : ∀ {as : List (Action nc)} {s}, (sys nc).run (State.boot nc) as = some s → (sys nc).Reaches s := fun hr =>
    Lts.reaches_of_run (.init rfl) hr
  have h := reaches_inv (hreach hr)
  refine ⟨h.livesOnce, fun t ht => ?_, fun as' s' hr' t ht => ?_⟩
  · have hboot : ¬((State.boot nc).tcb t).state = .exited := by cases t <;> simp [State.boot, bootTcb]
    obtain ⟨as₁, a, as₂, s₁, s₂, rfl, hr₁, hne, hs, hex⟩ := Lts.exists_change
      (P := fun s => (s.tcb t).state = .exited) hboot (h.mem_released.1 ht).1 hr
    obtain ⟨c, k, timeout, clock, rfl, hpc, hc⟩ := (reaches_inv (hreach hr₁)).step_exited hs hne hex
    exact ⟨as₁, c, k, timeout, clock, as₂, s₁, rfl, hr₁, hpc, hc⟩
  · have h' := reaches_inv (Lts.reaches_of_run (hreach hr) hr')
    have hmem := (released_suffix h hr').subset ht
    exact ⟨hmem, h'.released_nowhere hmem⟩

/-- A thread runs on the first of two cores, exits and is released. -/
theorem tcb_lifetime_exits : ∃ s, (sys 2).run (State.boot 2)
      [.spawn, .wakeup (.thread 0), .yield 0 .schedIdle, .yieldSection 0 0 0, .gain 0,
        .sleep 0 .exited .schedUser noTimeout 0, .yield 0 .schedUser, .yieldSection 0 0 0, .gain 0] = some s ∧
    s.released = [.thread 0] ∧ LivesOnce s ∧ s.Nowhere (.thread 0) := by
  have hrun : ((sys 2).run (State.boot 2)
      [.spawn, .wakeup (.thread 0), .yield 0 .schedIdle, .yieldSection 0 0 0, .gain 0,
        .sleep 0 .exited .schedUser noTimeout 0, .yield 0 .schedUser, .yieldSection 0 0 0, .gain 0]).map
      State.released = some [.thread 0] := by
    decide +kernel
  obtain ⟨s, hs, hrel⟩ := Option.map_eq_some_iff.1 hrun
  obtain ⟨hlives, -, hgone⟩ := tcb_lifetime hs
  exact ⟨s, hs, hrel, hlives, (hgone [] s rfl (.thread 0) (by rw [hrel]; simp)).2⟩

end TinyOS.Sched
