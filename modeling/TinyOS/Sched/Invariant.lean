import Mathlib.Data.List.Nodup
import TinyOS.Sched.Model

/-!
# The scheduler invariant

`Inv` relates the cores (current and previous thread, where the core is), the state and phase of the threads, and the
two kinds of ring. A thread whose phase is `ctxDirty` is executed by a core or is leaving one; a queued thread is
`ready` and `ctxClean` and no core has selected it.

It has six parts. A part that a step does not touch is kept by a frame lemma: `SamePlaces.cores` and
`SamePlaces.placed` where the cores stay at their threads, `Kinds.congr`, `Queued.congr`, `Timed.congr` and
`Reaped.congr` where the lists stay as they are.
-/

namespace TinyOS.Sched

variable {nc : Nat}

namespace State

/-! ## Cores and threads -/

/-- Core `c` is executing `t`. -/
def Executing (s : State nc) (c : Fin nc) (t : Ptr nc) : Prop := s.pc c ≠ .switching ∧ s.current c = t

/-- Core `c` has selected `t` in `yield` and has not yet run `gain` for it. -/
def Selected (s : State nc) (c : Fin nc) (t : Ptr nc) : Prop := s.pc c = .switching ∧ s.current c = t

/-- Core `c` is switching away from `t` (or back to it). -/
def Leaving (s : State nc) (c : Fin nc) (t : Ptr nc) : Prop := s.pc c = .switching ∧ s.previous c = some t

/-- The threads that the scheduler queue should hold. -/
def Runnable (s : State nc) (t : Ptr nc) : Prop :=
  (∃ n, t = .thread n) ∧ (s.tcb t).state = .ready ∧ (s.tcb t).phase = .ctxClean ∧ ∀ c, ¬s.Selected c t

/-- No thread is at two cores, and an idle thread is at its own. -/
structure Cores (s : State nc) : Prop where
  cur_inj : ∀ {c c'}, s.current c = s.current c' → c = c'
  prev_cur : ∀ {c c' t}, s.Leaving c t → s.current c' = t → c = c'
  prev_inj : ∀ {c c' t}, s.Leaving c t → s.Leaving c' t → c = c'
  prev_some : ∀ {c}, s.pc c = .switching → ∃ t, s.previous c = some t
  cur_idle : ∀ {c c'}, s.current c = .idle c' → c = c'
  prev_idle : ∀ {c c'}, s.Leaving c (.idle c') → c = c'

/-- The state and the phase of a thread, by the cores that are at it. -/
structure Placed (s : State nc) : Prop where
  dirty_iff : ∀ {t}, (s.tcb t).phase = .ctxDirty ↔ ∃ c, s.Executing c t ∨ s.Leaving c t
  running_exec : ∀ {t}, (s.tcb t).state = .running → ∃ c, s.Executing c t
  cur_running : ∀ {c}, s.pc c = .running → (s.tcb (s.current c)).state = .running
  cur_slept : ∀ {c k}, s.pc c = .slept k → (s.tcb (s.current c)).state ≠ .running
  cur_selected : ∀ {c}, s.pc c = .switching → (s.tcb (s.current c)).state = .ready
  cur_init : ∀ {c}, (s.tcb (s.current c)).state ≠ .init
  prev_state : ∀ {c t}, s.Leaving c t → (s.tcb t).state ≠ .init ∧ (s.tcb t).state ≠ .running

/-- The two types of threads. -/
structure Kinds (s : State nc) : Prop where
  idle_state : ∀ {c}, (s.tcb (.idle c)).state = .running ∨ (s.tcb (.idle c)).state = .ready
  idle_type : ∀ {c}, (s.tcb (.idle c)).type = .idleThread
  thread_type : ∀ {n}, (s.tcb (.thread n)).type = .normalThread
  priority_lt : ∀ {t}, (s.tcb t).priority < maxPriorities
  fresh : ∀ {n}, s.spawned ≤ n → (s.tcb (.thread n)).state = .init

/-- `SCHED`. -/
structure Queued (s : State nc) : Prop where
  mem_queue : ∀ {i t}, t ∈ s.queue i ↔ (s.tcb t).priority = i ∧ s.Runnable t
  queue_nodup : ∀ {i}, (s.queue i).Nodup

/-- `TIMEOUT_LIST`. -/
structure Timed (s : State nc) : Prop where
  mem_timeout : ∀ {t}, t ∈ s.timeoutList ↔ (s.tcb t).wakeupTime ≠ noTimeout
  timeout_nodup : s.timeoutList.Nodup
  timeout_stopped : ∀ {t}, (s.tcb t).wakeupTime ≠ noTimeout → (s.tcb t).state = .stopped

/-- The threads that have exited. -/
structure Reaped (s : State nc) : Prop where
  mem_released : ∀ {t}, t ∈ s.released ↔ (s.tcb t).state = .exited ∧ (s.tcb t).phase = .ctxClean
  released_nodup : s.released.Nodup
  active : s.activeThreads + s.released.length = s.spawned

structure Inv (s : State nc) : Prop extends Cores s, Placed s, Kinds s, Queued s, Timed s, Reaped s

theorem boot_inv : Inv (boot nc) where
  cur_inj h := by simpa [boot] using h
  prev_cur h := by simp [Leaving, boot] at h
  prev_inj h := by simp [Leaving, boot] at h
  prev_some h := by simp [boot] at h
  cur_idle h := by simpa [boot] using h
  prev_idle h := by simp [Leaving, boot] at h
  dirty_iff {t} := by cases t <;> simp [boot, bootTcb, Executing, Leaving]
  running_exec {t} h := by cases t <;> simp_all [boot, bootTcb, Executing]
  cur_running _ := rfl
  cur_slept h := by simp [boot] at h
  cur_selected h := by simp [boot] at h
  cur_init := by simp [boot, bootTcb]
  prev_state h := by simp [Leaving, boot] at h
  idle_state := .inl rfl
  idle_type := rfl
  thread_type := rfl
  priority_lt {t} := by cases t <;> simp [boot, bootTcb, maxPriorities]
  mem_queue {i t} := by cases t <;> simp [boot, bootTcb, Runnable]
  queue_nodup := by simp [boot]
  mem_timeout {t} := by cases t <;> simp [boot, bootTcb]
  timeout_nodup := by simp [boot]
  timeout_stopped {t} h := by cases t <;> simp [boot, bootTcb] at h
  fresh _ := rfl
  mem_released {t} := by cases t <;> simp [boot, bootTcb]
  released_nodup := by simp [boot]
  active := rfl

variable {s s' : State nc} {t : Ptr nc} {c : Fin nc}

/-- A linked thread sleeps with a timeout or is runnable. -/
theorem Inv.linked (h : Inv s) (hl : s.Linked t) : (s.tcb t).state = .stopped ∨ s.Runnable t := by
  rcases hl with hl | ⟨i, -, hl⟩
  · exact .inl (h.timeout_stopped (h.mem_timeout.1 hl))
  · exact .inr (h.mem_queue.1 hl).2

theorem Inv.not_queued (h : Inv s) (hr : ¬s.Runnable t) (i : Nat) : t ∉ s.queue i :=
  fun hm => hr (h.mem_queue.1 hm).2

/-! ## What keeps the parts -/

/-- The cores are at the same threads, before or after the switch. -/
structure SamePlaces (s s' : State nc) : Prop where
  current : s'.current = s.current
  previous : s'.previous = s.previous
  switching : ∀ c, s'.pc c = .switching ↔ s.pc c = .switching

namespace SamePlaces

theorem of_pc (hcur : s'.current = s.current) (hprev : s'.previous = s.previous) (hpc : s'.pc = s.pc) :
    SamePlaces s s' := ⟨hcur, hprev, fun c => by rw [hpc]⟩

theorem executing (hp : SamePlaces s s') : s'.Executing c t ↔ s.Executing c t := by
  rw [Executing, Executing, hp.current, Ne, hp.switching]

theorem leaving (hp : SamePlaces s s') : s'.Leaving c t ↔ s.Leaving c t := by
  rw [Leaving, Leaving, hp.previous, hp.switching]

theorem selected (hp : SamePlaces s s') : s'.Selected c t ↔ s.Selected c t := by
  rw [Selected, Selected, hp.current, hp.switching]

theorem runnable (hp : SamePlaces s s') (ht : (s'.tcb t).state = .ready ∧ (s'.tcb t).phase = .ctxClean ↔
    (s.tcb t).state = .ready ∧ (s.tcb t).phase = .ctxClean) : s'.Runnable t ↔ s.Runnable t := by
  have hsel : (∀ c, ¬s'.Selected c t) ↔ ∀ c, ¬s.Selected c t := forall_congr' fun c => not_congr hp.selected
  unfold Runnable
  rw [hsel]
  tauto

theorem cores (hp : SamePlaces s s') (h : Cores s) : Cores s' where
  cur_inj he := h.cur_inj (by rwa [hp.current] at he)
  prev_cur hl he := h.prev_cur (hp.leaving.1 hl) (by rwa [hp.current] at he)
  prev_inj hl hl' := h.prev_inj (hp.leaving.1 hl) (hp.leaving.1 hl')
  prev_some hs := by
    rw [hp.previous]
    exact h.prev_some ((hp.switching _).1 hs)
  cur_idle he := h.cur_idle (by rwa [hp.current] at he)
  prev_idle hl := h.prev_idle (hp.leaving.1 hl)

/-- A core may leave the threads that it is at in their states and go on. -/
theorem placed (hp : SamePlaces s s') (h : Placed s) (hphase : ∀ u, (s'.tcb u).phase = (s.tcb u).phase)
    (hstate : ∀ u, (s'.tcb u).state = (s.tcb u).state) (hrun : ∀ c, s'.pc c = .running → s.pc c = .running)
    (hslept : ∀ c k, s'.pc c = .slept k → s.pc c = .slept k) : Placed s' where
  dirty_iff {u} := by
    rw [hphase, h.dirty_iff]
    exact exists_congr fun c => or_congr hp.executing.symm hp.leaving.symm
  running_exec {u} hr := by
    rw [hstate] at hr
    exact (h.running_exec hr).imp fun c => hp.executing.2
  cur_running {c} hpc := by
    rw [hstate, hp.current]
    exact h.cur_running (hrun c hpc)
  cur_slept {c k} hpc := by
    rw [hstate, hp.current]
    exact h.cur_slept (hslept c k hpc)
  cur_selected {c} hpc := by
    rw [hstate, hp.current]
    exact h.cur_selected ((hp.switching c).1 hpc)
  cur_init {c} := by
    rw [hstate, hp.current]
    exact h.cur_init
  prev_state {c u} hl := by
    rw [hstate]
    exact h.prev_state (hp.leaving.1 hl)

/-- The state of one thread is written; a core that is at it has not yet switched. -/
theorem placed_of_write (hp : SamePlaces s s') (h : Placed s) (hphase : ∀ u, (s'.tcb u).phase = (s.tcb u).phase)
    (hother : ∀ u, u ≠ t → (s'.tcb u).state = (s.tcb u).state) (hpc : ∀ c, s.current c ≠ t → s'.pc c = s.pc c)
    (hexec : (s'.tcb t).state = .running → ∃ c, s.Executing c t)
    (hcur : ∀ c, s.current c = t → s'.pc c ≠ .running ∧ s'.pc c ≠ .switching ∧ (s'.tcb t).state ≠ .init ∧
      ∀ k, s'.pc c = .slept k → (s'.tcb t).state ≠ .running)
    (hleav : ∀ c, s.Leaving c t → (s'.tcb t).state ≠ .init ∧ (s'.tcb t).state ≠ .running) : Placed s' where
  dirty_iff {u} := by
    rw [hphase, h.dirty_iff]
    exact exists_congr fun c => or_congr hp.executing.symm hp.leaving.symm
  running_exec {u} hr := by
    have hold : ∃ c, s.Executing c u := by
      by_cases hu : u = t
      · subst hu
        exact hexec hr
      · rw [hother u hu] at hr
        exact h.running_exec hr
    exact hold.imp fun c => hp.executing.2
  cur_running {c} hr := by
    have hc : s.current c ≠ t := fun hc => (hcur c hc).1 hr
    rw [hp.current, hother _ hc]
    exact h.cur_running (hpc c hc ▸ hr)
  cur_slept {c k} hs := by
    rw [hp.current]
    by_cases hc : s.current c = t
    · rw [hc]
      exact (hcur c hc).2.2.2 k hs
    · rw [hother _ hc]
      exact h.cur_slept (hpc c hc ▸ hs)
  cur_selected {c} hs := by
    have hc : s.current c ≠ t := fun hc => (hcur c hc).2.1 hs
    rw [hp.current, hother _ hc]
    exact h.cur_selected (hpc c hc ▸ hs)
  cur_init {c} := by
    rw [hp.current]
    by_cases hc : s.current c = t
    · rw [hc]
      exact (hcur c hc).2.2.1
    · rw [hother _ hc]
      exact h.cur_init
  prev_state {c u} hl := by
    have hl := hp.leaving.1 hl
    by_cases hu : u = t
    · subst hu
      exact hleav c hl
    · rw [hother u hu]
      exact h.prev_state hl

end SamePlaces

theorem Kinds.congr (h : Kinds s) (htype : ∀ u, (s'.tcb u).type = (s.tcb u).type)
    (hprio : ∀ u, (s'.tcb u).priority < maxPriorities) (hspawned : s.spawned ≤ s'.spawned)
    (hidle : ∀ c, (s'.tcb (.idle c)).state = (s.tcb (.idle c)).state ∨ (s'.tcb (.idle c)).state = .running ∨
      (s'.tcb (.idle c)).state = .ready)
    (hfresh : ∀ n, s'.spawned ≤ n → (s'.tcb (.thread n)).state = (s.tcb (.thread n)).state) : Kinds s' where
  idle_state {c} := by
    rcases hidle c with he | he
    · rw [he]
      exact h.idle_state
    · exact he
  idle_type := (htype _).trans h.idle_type
  thread_type := (htype _).trans h.thread_type
  priority_lt := hprio _
  fresh {n} hn := (hfresh n hn).trans (h.fresh (Nat.le_trans hspawned hn))

theorem Queued.congr (h : Queued s) (hq : s'.queue = s.queue) (hrun : ∀ u, s'.Runnable u ↔ s.Runnable u)
    (hprio : ∀ u, s.Runnable u → (s'.tcb u).priority = (s.tcb u).priority) : Queued s' where
  mem_queue {i u} := by
    rw [hq, hrun, h.mem_queue]
    exact and_congr_left fun hu => by rw [hprio u hu]
  queue_nodup := hq ▸ h.queue_nodup

theorem Timed.congr (h : Timed s) (hl : s'.timeoutList = s.timeoutList)
    (hwake : ∀ u, (s'.tcb u).wakeupTime = (s.tcb u).wakeupTime)
    (hstopped : ∀ u, (s.tcb u).state = .stopped → (s'.tcb u).state = .stopped) : Timed s' where
  mem_timeout {u} := by
    rw [hl, hwake]
    exact h.mem_timeout
  timeout_nodup := hl ▸ h.timeout_nodup
  timeout_stopped {u} hw := hstopped u (h.timeout_stopped (by rwa [hwake] at hw))

theorem Reaped.congr (h : Reaped s) (hr : s'.released = s.released)
    (hactive : s'.activeThreads + s.spawned = s.activeThreads + s'.spawned)
    (hexited : ∀ u, (s'.tcb u).state = .exited ∧ (s'.tcb u).phase = .ctxClean ↔
      (s.tcb u).state = .exited ∧ (s.tcb u).phase = .ctxClean) : Reaped s' where
  mem_released {u} := by
    rw [hr, hexited]
    exact h.mem_released
  released_nodup := hr ▸ h.released_nodup
  active := by
    have ha := h.active
    rw [hr]
    omega

/-! ## `sched_make_ready` -/

/-- The state after `sched_make_ready`. -/
def readied (s : State nc) (t : Ptr nc) : State nc :=
  { s with
    tcb := Function.update s.tcb t { s.tcb t with state := .ready, wakeupTime := noTimeout }
    timeoutList := s.timeoutList.erase t
    queue := if (s.tcb t).phase = .ctxClean then
      Function.update s.queue (s.tcb t).priority (s.queue (s.tcb t).priority ++ [t]) else s.queue }

/-- A thread that is stopped or new makes it through the assertions, and its node is free when it is queued. -/
theorem Inv.makeReady (h : Inv s) (ht : (s.tcb t).state = .stopped ∨ (s.tcb t).state = .init) :
    s.schedMakeReady t = some (s.readied t) := by
  have hq : ∀ i, t ∉ s.queue i := h.not_queued (by rintro ⟨-, hr, -⟩; rw [hr] at ht; simp at ht)
  have hq' : (fun i => (s.queue i).erase t) = s.queue := funext fun i => List.erase_of_not_mem (hq i)
  by_cases hw : (s.tcb t).wakeupTime = noTimeout
  · have htl : t ∉ s.timeoutList := fun hm => h.mem_timeout.1 hm hw
    have hl : ∀ x, ¬(s.setTcb t x).Linked t := by
      rintro x (hm | ⟨i, -, hm⟩)
      · exact htl hm
      · exact hq i hm
    unfold schedMakeReady readied
    rw [List.erase_of_not_mem htl]
    cases hp : (s.tcb t).phase <;> simp_all [setTcb, schedQueueAdd, guard]
  · have hst := h.timeout_stopped hw
    have hlink : s.Linked t := .inl (h.mem_timeout.2 hw)
    have hl : ∀ x, ¬((s.unlink t).setTcb t x).Linked t := by
      rintro x (hm | ⟨i, -, hm⟩)
      · exact List.Nodup.not_mem_erase h.timeout_nodup hm
      · exact hq i (List.mem_of_mem_erase hm)
    unfold schedMakeReady readied
    cases hp : (s.tcb t).phase <;> simp_all [setTcb, schedQueueAdd, guard, unlink]

theorem readied_other {u : Ptr nc} (hu : u ≠ t) : (s.readied t).tcb u = s.tcb u := Function.update_of_ne hu _ _

theorem readied_self : (s.readied t).tcb t = { s.tcb t with state := .ready, wakeupTime := noTimeout } :=
  Function.update_self _ _ _

/-- `sched_make_ready` changes the state and the wake-up time of a TCB only. -/
theorem readied_keeps (u : Ptr nc) : ((s.readied t).tcb u).type = (s.tcb u).type ∧
    ((s.readied t).tcb u).phase = (s.tcb u).phase ∧ ((s.readied t).tcb u).priority = (s.tcb u).priority := by
  by_cases hu : u = t
  · subst hu; simp [readied_self]
  · simp [readied_other hu]

/-- A stopped or new thread becomes runnable exactly if its context is clean. -/
theorem Inv.readied_runnable (h : Inv s) (ht : (s.tcb t).state = .stopped ∨ (s.tcb t).state = .init) {u : Ptr nc} :
    (s.readied t).Runnable u ↔ s.Runnable u ∨ u = t ∧ (s.tcb t).phase = .ctxClean := by
  have hsel : ∀ c, ¬s.Selected c t := by
    rintro c ⟨hpc, rfl⟩
    have := h.cur_selected hpc
    rw [this] at ht
    simp at ht
  by_cases hu : u = t
  · subst hu
    have hthread : ∃ n, u = .thread n := by
      cases u with
      | thread n => exact ⟨n, rfl⟩
      | idle c => rcases h.idle_state (c := c) with hi | hi <;> rw [hi] at ht <;> simp at ht
    have hnr : ¬s.Runnable u := by rintro ⟨-, hr, -⟩; rw [hr] at ht; simp at ht
    simp only [hnr, false_or, true_and]
    refine ⟨fun hr => by simpa [readied_self] using hr.2.2.1, fun hp => ⟨hthread, ?_, ?_, hsel⟩⟩
    · simp [readied_self]
    · simpa [readied_self] using hp
  · have hpc : ∀ c, (s.readied t).Selected c u ↔ s.Selected c u := fun _ => Iff.rfl
    simp [Runnable, readied_other hu, hu, hpc]

theorem readied_places : SamePlaces s (s.readied t) := .of_pc rfl rfl rfl

theorem Inv.readied_placed (h : Inv s) (ht : (s.tcb t).state = .stopped ∨ (s.tcb t).state = .init) :
    Placed (s.readied t) := by
  have hst : ((s.readied t).tcb t).state = .ready := by rw [readied_self]
  refine readied_places.placed_of_write (t := t) h.toPlaced (fun u => (readied_keeps u).2.1)
    (fun u hu => by rw [readied_other hu]) (fun _ _ => rfl) (fun hr => ?_)
    (fun c hc => ⟨fun hr => ?_, fun hs => ?_, ?_, ?_⟩) (fun c _ => ?_)
  · rw [hst] at hr
    cases hr
  · have hrun := h.cur_running hr
    rw [hc] at hrun
    simp [hrun] at ht
  · have hsel := h.cur_selected hs
    rw [hc] at hsel
    simp [hsel] at ht
  · simp [hst]
  · simp [hst]
  · simp [hst]

theorem Inv.readied_queued (h : Inv s) (ht : (s.tcb t).state = .stopped ∨ (s.tcb t).state = .init) :
    Queued (s.readied t) where
  mem_queue {i u} := by
    rw [h.readied_runnable ht, (readied_keeps u).2.2]
    have hm := h.mem_queue (i := i) (t := u)
    by_cases hp : (s.tcb t).phase = .ctxClean
    · by_cases hi : i = (s.tcb t).priority
      · subst hi
        simp only [State.readied, hp, if_true, Function.update_self, List.mem_append, hm, List.mem_singleton]
        grind
      · simp only [State.readied, hp, if_true, Function.update_of_ne hi, hm]
        grind
    · simp only [State.readied, hp, if_false, hm]
      grind
  queue_nodup {i} := by
    have hn : t ∉ s.queue (s.tcb t).priority :=
      h.not_queued (by rintro ⟨-, hr, -⟩; rw [hr] at ht; simp at ht) _
    by_cases hp : (s.tcb t).phase = .ctxClean
    · by_cases hi : i = (s.tcb t).priority
      · subst hi
        simp only [State.readied, hp, if_true, Function.update_self]
        exact h.queue_nodup.append (List.nodup_singleton t) (by simpa using hn)
      · simpa [State.readied, hp, Function.update_of_ne hi] using h.queue_nodup
    · simpa [State.readied, hp] using h.queue_nodup

theorem Timed.readied (h : Timed s) : Timed (s.readied t) where
  mem_timeout {u} := by
    show u ∈ s.timeoutList.erase t ↔ _
    by_cases hu : u = t
    · subst hu
      simp [readied_self, List.Nodup.not_mem_erase h.timeout_nodup]
    · rw [List.mem_erase_of_ne hu, readied_other hu]
      exact h.mem_timeout
  timeout_nodup := h.timeout_nodup.erase t
  timeout_stopped {u} hw := by
    by_cases hu : u = t
    · subst hu; simp [readied_self] at hw
    · rw [readied_other hu] at hw ⊢; exact h.timeout_stopped hw

theorem Inv.readied (h : Inv s) (ht : (s.tcb t).state = .stopped ∨ (s.tcb t).state = .init)
    (ha : s.Allocated t) : Inv (s.readied t) where
  toCores := readied_places.cores h.toCores
  toPlaced := h.readied_placed ht
  toKinds := by
    refine h.toKinds.congr (fun u => (readied_keeps u).1) (fun u => ?_) (Nat.le_refl _) (fun c => ?_) (fun n hn => ?_)
    · rw [(readied_keeps u).2.2]
      exact h.priority_lt
    · by_cases hu : .idle c = t
      · exact .inr (.inr (by rw [hu, readied_self]))
      · exact .inl (by rw [readied_other hu])
    · have hu : .thread n ≠ t := by
        rintro rfl
        exact absurd ha (Nat.not_lt.2 hn)
      rw [readied_other hu]
  toQueued := h.readied_queued ht
  toTimed := h.toTimed.readied
  toReaped := by
    refine h.toReaped.congr rfl rfl fun u => ?_
    by_cases hu : u = t
    · subst hu; rcases ht with ht | ht <;> simp [readied_self, ht]
    · rw [readied_other hu]

end State

end TinyOS.Sched
