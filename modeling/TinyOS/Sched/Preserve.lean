import TinyOS.Sched.Invariant

/-!
# The scheduler's sections keep the invariant

One lemma for each operation of `kernel_sched.c`: from a state with the invariant it passes its assertions and leaves
a state with the invariant. `yield` is followed through its parts: the priority and the data of the current thread
(`Inv.setCur`), the boost (`Inv.boost`), the expired timeouts (`Inv.wakeupExpired`) and the switch (`Inv.switchTo`).
Each is put together from the parts of the invariant.
-/

namespace TinyOS.Sched.State

variable {nc : Nat} {s s' : State nc} {t u : Ptr nc} {c : Fin nc}

@[simp] theorem setTcb_self (x : Tcb) : (s.setTcb t x).tcb t = x := Function.update_self _ _ _

theorem setTcb_other (x : Tcb) (hu : u ≠ t) : (s.setTcb t x).tcb u = s.tcb u := Function.update_of_ne hu _ _

/-- A field that the write keeps. -/
theorem setTcb_keeps {α : Type} (f : Tcb → α) {x : Tcb} (hx : f x = f (s.tcb t)) (u : Ptr nc) :
    f ((s.setTcb t x).tcb u) = f (s.tcb u) := by
  by_cases hu : u = t
  · rw [hu, setTcb_self, hx]
  · rw [setTcb_other x hu]

theorem setTcb_places (x : Tcb) : SamePlaces s (s.setTcb t x) := .of_pc rfl rfl rfl

/-! ## The current thread in `yield` -/

/-- The current thread of a core that is not switching is executed, hence dirty and in no queue. -/
theorem Inv.cur_dirty (h : Inv s) (hpc : s.pc c ≠ .switching) : (s.tcb (s.current c)).phase = .ctxDirty :=
  h.dirty_iff.2 ⟨c, .inl ⟨hpc, rfl⟩⟩

theorem Inv.not_leaving_cur (h : Inv s) (hpc : s.pc c ≠ .switching) (c' : Fin nc) : ¬s.Leaving c' (s.current c) := by
  intro hl
  obtain rfl := h.prev_cur hl rfl
  exact hpc hl.1

/-- What `yield` may write to the TCB of its current thread. -/
structure Rewrites (x y : Tcb) : Prop where
  type : y.type = x.type
  phase : y.phase = x.phase
  wakeupTime : y.wakeupTime = x.wakeupTime
  priority : y.priority < maxPriorities
  state : y.state = x.state ∨ x.state = .running ∧ y.state = .ready

theorem Rewrites.state_ne {x y : Tcb} (hx : Rewrites x y) (h : x.state ≠ .init) : y.state ≠ .init := by
  rcases hx.state with he | ⟨-, he⟩ <;> rw [he]
  · exact h
  · simp

section SetCur

variable {k : Cause} {x : Tcb}

theorem Inv.setCur_placed (h : Inv s) (hpc : s.pc c = .yielding k) (hx : Rewrites (s.tcb (s.current c)) x) :
    Placed (s.setTcb (s.current c) x) := by
  refine (setTcb_places x).placed_of_write (t := s.current c) h.toPlaced (setTcb_keeps Tcb.phase hx.phase)
    (fun u hu => by rw [setTcb_other x hu]) (fun _ _ => rfl) (fun _ => ⟨c, by simp [hpc], rfl⟩) (fun c' hc' => ?_)
    (fun c' hl => absurd hl (h.not_leaving_cur (by simp [hpc]) c'))
  obtain rfl := h.cur_inj hc'
  have hpc' : (s.setTcb (s.current c') x).pc c' = .yielding k := hpc
  rw [hpc', setTcb_self]
  exact ⟨Pc.noConfusion, Pc.noConfusion, hx.state_ne h.cur_init, fun _ hs => Pc.noConfusion hs⟩

theorem Inv.setCur_kinds (h : Inv s) (hx : Rewrites (s.tcb (s.current c)) x) : Kinds (s.setTcb (s.current c) x) := by
  refine h.toKinds.congr (setTcb_keeps Tcb.type hx.type) (fun u => ?_) (Nat.le_refl _) (fun c' => ?_) (fun n hn => ?_)
  · by_cases hu : u = s.current c
    · rw [hu, setTcb_self]
      exact hx.priority
    · rw [setTcb_other x hu]
      exact h.priority_lt
  · by_cases hu : .idle c' = s.current c
    · rw [hu, setTcb_self]
      exact hx.state.imp_right fun he => .inr he.2
    · exact .inl (by rw [setTcb_other x hu])
  · rw [setTcb_other x fun hu => h.cur_init (hu ▸ h.fresh hn)]

/-- The current thread is in no queue before or after. -/
theorem Inv.setCur_queued (h : Inv s) (hpc : s.pc c = .yielding k) (hx : Rewrites (s.tcb (s.current c)) x) :
    Queued (s.setTcb (s.current c) x) := by
  have hd := h.cur_dirty (c := c) (by simp [hpc])
  refine h.toQueued.congr rfl (fun u => (setTcb_places x).runnable ?_) fun u hr => ?_
  · by_cases hu : u = s.current c
    · simp [hu, hx.phase, hd]
    · rw [setTcb_other x hu]
  · rw [setTcb_other x]
    rintro rfl
    exact ThreadPhase.noConfusion (hd.symm.trans hr.2.2.1)

theorem Inv.setCur (h : Inv s) (hpc : s.pc c = .yielding k) (hx : Rewrites (s.tcb (s.current c)) x) :
    Inv (s.setTcb (s.current c) x) where
  toCores := (setTcb_places x).cores h.toCores
  toPlaced := h.setCur_placed hpc hx
  toKinds := h.setCur_kinds hx
  toQueued := h.setCur_queued hpc hx
  toTimed := by
    refine h.toTimed.congr rfl (setTcb_keeps Tcb.wakeupTime hx.wakeupTime) fun u hst => ?_
    by_cases hu : u = s.current c
    · subst hu
      rw [setTcb_self]
      rcases hx.state with he | ⟨he, -⟩
      · exact he.trans hst
      · exact ThreadState.noConfusion (he.symm.trans hst)
    · rw [setTcb_other x hu]
      exact hst
  toReaped := by
    refine h.toReaped.congr rfl rfl fun u => ?_
    by_cases hu : u = s.current c
    · simp [hu, hx.phase, h.cur_dirty (c := c) (by simp [hpc])]
    · rw [setTcb_other x hu]

end SetCur

theorem adjustPriority_lt (k : Cause) {x : Tcb} (hx : x.priority < maxPriorities) :
    adjustPriority k x < maxPriorities := by
  unfold adjustPriority
  cases k <;> dsimp only <;> (repeat' split) <;> omega

/-! ## The boost -/

/-- One round of the boost: `t`, the head of level `i`, becomes the head of level `i + 1`. -/
def raise (s : State nc) (i : Nat) (t : Ptr nc) (rest : List (Ptr nc)) : State nc :=
  { s.setTcb t { s.tcb t with priority := (s.tcb t).priority + 1 } with
    queue := Function.update (Function.update s.queue i rest) (i + 1) (t :: s.queue (i + 1)) }

theorem boostLoop_succ (i n : Nat) {rest : List (Ptr nc)} (hq : s.queue i = t :: rest) :
    boostLoop i (n + 1) s = boostLoop i n (s.raise i t rest) := by
  simp [boostLoop, hq, raise, setTcb]

/-- `raise` changes the priority of `t` only. -/
theorem raise_keeps (i : Nat) (rest : List (Ptr nc)) (u : Ptr nc) :
    ((s.raise i t rest).tcb u).type = (s.tcb u).type ∧ ((s.raise i t rest).tcb u).state = (s.tcb u).state ∧
      ((s.raise i t rest).tcb u).phase = (s.tcb u).phase ∧
      ((s.raise i t rest).tcb u).wakeupTime = (s.tcb u).wakeupTime := by
  by_cases hu : u = t
  · subst hu; simp [raise]
  · simp [raise, setTcb_other _ hu]

theorem raise_places (i : Nat) (rest : List (Ptr nc)) : SamePlaces s (s.raise i t rest) := .of_pc rfl rfl rfl

theorem raise_runnable (i : Nat) (rest : List (Ptr nc)) (u : Ptr nc) :
    (s.raise i t rest).Runnable u ↔ s.Runnable u := by
  obtain ⟨-, hstate, hphase, -⟩ := raise_keeps (s := s) (t := t) i rest u
  exact (raise_places i rest).runnable (by rw [hstate, hphase])

theorem Queued.raise_priority (h : Queued s) {i : Nat} {rest : List (Ptr nc)} (hq : s.queue i = t :: rest)
    (u : Ptr nc) : ((s.raise i t rest).tcb u).priority = if u = t then i + 1 else (s.tcb u).priority := by
  have ht := h.mem_queue.1 (hq ▸ List.mem_cons_self : t ∈ s.queue i)
  by_cases hu : u = t
  · subst hu; simp [State.raise, ht.1]
  · simp [State.raise, setTcb_other _ hu, hu]

theorem Queued.raise (h : Queued s) {i : Nat} {rest : List (Ptr nc)} (hq : s.queue i = t :: rest) :
    Queued (s.raise i t rest) where
  mem_queue {j u} := by
    rw [raise_runnable, h.raise_priority hq]
    have ht := h.mem_queue.1 (hq ▸ List.mem_cons_self : t ∈ s.queue i)
    have hnd := hq ▸ h.queue_nodup (i := i)
    have hm := h.mem_queue (i := j) (t := u)
    have hii : i ≠ i + 1 := by omega
    by_cases hj : j = i + 1
    · subst hj
      simp only [State.raise, Function.update_self, List.mem_cons, hm]
      grind
    · by_cases hji : j = i
      · subst hji
        rw [hq, List.mem_cons] at hm
        simp only [State.raise, Function.update_of_ne hii, Function.update_self]
        grind
      · simp only [State.raise, Function.update_of_ne hj, Function.update_of_ne hji, hm]
        grind
  queue_nodup {j} := by
    have ht := h.mem_queue.1 (hq ▸ List.mem_cons_self : t ∈ s.queue i)
    have hnd := hq ▸ h.queue_nodup (i := i)
    have hii : i ≠ i + 1 := by omega
    by_cases hj : j = i + 1
    · subst hj
      simp only [State.raise, Function.update_self, List.nodup_cons]
      refine ⟨fun hm => ?_, h.queue_nodup⟩
      have := (h.mem_queue.1 hm).1
      omega
    · by_cases hji : j = i
      · subst hji
        simpa only [State.raise, Function.update_of_ne hii, Function.update_self] using hnd.of_cons
      · simpa only [State.raise, Function.update_of_ne hj, Function.update_of_ne hji] using h.queue_nodup

theorem Inv.raise (h : Inv s) {i : Nat} {rest : List (Ptr nc)} (hi : i + 1 < maxPriorities)
    (hq : s.queue i = t :: rest) : Inv (s.raise i t rest) := by
  have hk := raise_keeps (s := s) (t := t) i rest
  exact {
    toCores := (raise_places i rest).cores h.toCores
    toPlaced := (raise_places i rest).placed h.toPlaced (fun u => (hk u).2.2.1) (fun u => (hk u).2.1) (fun _ hp => hp)
      fun _ _ hp => hp
    toKinds := by
      refine h.toKinds.congr (fun u => (hk u).1) (fun u => ?_) (Nat.le_refl _) (fun c => .inl (hk _).2.1)
        fun n _ => (hk _).2.1
      rw [h.raise_priority hq]
      split
      · exact hi
      · exact h.priority_lt
    toQueued := h.toQueued.raise hq
    toTimed := h.toTimed.congr rfl (fun u => (hk u).2.2.2) fun u hst => (hk u).2.1.trans hst
    toReaped := h.toReaped.congr rfl rfl fun u => by rw [(hk u).2.1, (hk u).2.2.1] }

/-- The cores are where they were, and no thread has changed its state but from stopped to ready. -/
structure SameCores (s s' : State nc) : Prop where
  current : s'.current = s.current
  previous : s'.previous = s.previous
  pc : s'.pc = s.pc
  phase : ∀ t, (s'.tcb t).phase = (s.tcb t).phase
  state : ∀ t, (s'.tcb t).state = (s.tcb t).state ∨ (s.tcb t).state = .stopped ∧ (s'.tcb t).state = .ready
  currCause : ∀ t, (s'.tcb t).currCause = (s.tcb t).currCause ∧ (s'.tcb t).lastCause = (s.tcb t).lastCause

theorem SameCores.refl (s : State nc) : SameCores s s :=
  ⟨rfl, rfl, rfl, fun _ => rfl, fun _ => .inl rfl, fun _ => ⟨rfl, rfl⟩⟩

theorem SameCores.trans {s₁ s₂ s₃ : State nc} (h : SameCores s₁ s₂) (h' : SameCores s₂ s₃) : SameCores s₁ s₃ where
  current := h'.current.trans h.current
  previous := h'.previous.trans h.previous
  pc := h'.pc.trans h.pc
  phase t := (h'.phase t).trans (h.phase t)
  state t := by
    rcases h.state t with he | ⟨he, hr⟩ <;> rcases h'.state t with he' | ⟨he', hr'⟩
    · exact .inl (he'.trans he)
    · exact .inr ⟨he ▸ he', hr'⟩
    · exact .inr ⟨he, he'.trans hr⟩
    · rw [hr] at he'; cases he'
  currCause t := ⟨(h'.currCause t).1.trans (h.currCause t).1, (h'.currCause t).2.trans (h.currCause t).2⟩

theorem raise_same (i : Nat) (rest : List (Ptr nc)) : SameCores s (s.raise i t rest) where
  current := rfl
  previous := rfl
  pc := rfl
  phase u := (raise_keeps i rest u).2.2.1
  state u := .inl (raise_keeps i rest u).2.1
  currCause u := by
    by_cases hu : u = t
    · subst hu; simp [raise]
    · simp [raise, setTcb_other _ hu]

theorem Inv.boostLoop {i : Nat} (hi : i + 1 < maxPriorities) :
    ∀ (n : Nat) {s : State nc}, Inv s → Inv (boostLoop i n s) ∧ SameCores s (boostLoop i n s)
  | 0, s, h => ⟨h, .refl s⟩
  | n + 1, s, h => by
    cases hq : s.queue i with
    | nil => simpa [State.boostLoop, hq] using ⟨h, SameCores.refl s⟩
    | cons t rest =>
      rw [boostLoop_succ i n hq]
      obtain ⟨h', hs⟩ := Inv.boostLoop hi n (h.raise hi hq)
      exact ⟨h', (raise_same i rest).trans hs⟩

theorem Inv.boostLevels : ∀ (n : Nat) {s : State nc}, n < maxPriorities → Inv s →
    Inv (boostLevels n s) ∧ SameCores s (boostLevels n s)
  | 0, s, _, h => ⟨h, .refl s⟩
  | n + 1, s, hn, h => by
    obtain ⟨h₁, hs₁⟩ := Inv.boostLoop hn (s.queue n).length h
    obtain ⟨h₂, hs₂⟩ := Inv.boostLevels n (by omega) h₁
    exact ⟨h₂, hs₁.trans hs₂⟩

/-- The invariant does not depend on the yield counter. -/
theorem Inv.setYields (h : Inv s) (n : Int) : Inv { s with numofYields := n } where
  toCores := SamePlaces.cores (s := s) (.of_pc rfl rfl rfl) h.toCores
  toPlaced := SamePlaces.placed (s := s) (.of_pc rfl rfl rfl) h.toPlaced (fun _ => rfl) (fun _ => rfl) (fun _ hp => hp)
    fun _ _ hp => hp
  toKinds := h.toKinds.congr (fun _ => rfl) (fun _ => h.priority_lt) (Nat.le_refl _) (fun _ => .inl rfl) fun _ _ => rfl
  toQueued := h.toQueued.congr rfl (fun _ => Iff.rfl) fun _ _ => rfl
  toTimed := h.toTimed.congr rfl (fun _ => rfl) fun _ hst => hst
  toReaped := h.toReaped.congr rfl rfl fun _ => Iff.rfl

theorem Inv.boost (h : Inv s) : Inv s.boost ∧ SameCores s s.boost := by
  unfold State.boost
  split
  · obtain ⟨h', hs⟩ := Inv.boostLevels (maxPriorities - 1) (by decide) (h.setYields 0)
    exact ⟨h', ⟨hs.1, hs.2, hs.3, hs.4, hs.5, hs.6⟩⟩
  · exact ⟨h, .refl s⟩

/-! ## Expired timeouts -/

theorem readied_same (ht : (s.tcb t).state = .stopped) : SameCores s (s.readied t) where
  current := rfl
  previous := rfl
  pc := rfl
  phase u := (readied_keeps u).2.1
  state u := by
    by_cases hu : u = t
    · subst hu; exact .inr ⟨ht, by simp [readied_self]⟩
    · exact .inl (by rw [readied_other hu])
  currCause u := by
    by_cases hu : u = t
    · subst hu; simp [readied_self]
    · simp [readied_other hu]

theorem Inv.allocated (h : Inv s) (ht : (s.tcb t).state ≠ .init) : s.Allocated t := by
  cases t with
  | idle c => trivial
  | thread n => exact Nat.lt_of_not_le fun hn => ht (h.fresh hn)

theorem Inv.wakeupExpiredLoop (clock : Nat) : ∀ (n : Nat) {s : State nc}, Inv s →
    ∃ s', wakeupExpiredLoop clock n s = some s' ∧ Inv s' ∧ SameCores s s'
  | 0, s, h => ⟨s, rfl, h, .refl s⟩
  | n + 1, s, h => by
    cases hl : s.timeoutList with
    | nil => exact ⟨s, by simp [State.wakeupExpiredLoop, hl], h, .refl s⟩
    | cons t rest =>
      by_cases hc : clock < (s.tcb t).wakeupTime
      · exact ⟨s, by simp [State.wakeupExpiredLoop, hl, hc], h, .refl s⟩
      · have ht : (s.tcb t).state = .stopped := h.timeout_stopped (h.mem_timeout.1 (by simp [hl]))
        have h₁ := h.readied (.inl ht) (h.allocated (by simp [ht]))
        obtain ⟨s', he, h', hs⟩ := Inv.wakeupExpiredLoop clock n h₁
        refine ⟨s', ?_, h', (readied_same ht).trans hs⟩
        simpa [State.wakeupExpiredLoop, hl, hc, h.makeReady (.inl ht)] using he

theorem Inv.wakeupExpired (h : Inv s) (clock : Nat) :
    ∃ s', s.schedWakeupExpiredTimeouts clock = some s' ∧ Inv s' ∧ SameCores s s' :=
  Inv.wakeupExpiredLoop clock _ h

/-! ## The switch -/

theorem topLevel_some {queue : Nat → List (Ptr nc)} : ∀ {n i : Nat}, topLevel queue n = some i → i < n ∧ queue i ≠ []
  | 0, _, h => by cases h
  | n + 1, i, h => by
    unfold topLevel at h
    split at h
    · rename_i hq
      cases h
      exact ⟨Nat.lt_succ_self n, hq⟩
    · obtain ⟨hi, hq⟩ := topLevel_some h
      exact ⟨by omega, hq⟩

/-- What `yield` does once the sleepers are awake: select the next thread, remember the current one, switch. -/
def switchTo (s : State nc) (c : Fin nc) (next : Ptr nc) (queue : Nat → List (Ptr nc)) : State nc :=
  { s.setTcb next { s.tcb next with its := quantum } with
    queue := queue
    previous := Function.update s.previous c (some (s.current c))
    current := Function.update s.current c next
    pc := Function.update s.pc c .switching }

/-- The next thread of core `c`, with the queues after its removal: a runnable thread, the current thread if it is
ready, or the idle thread of the core. -/
inductive Selects (s : State nc) (c : Fin nc) : Ptr nc → (Nat → List (Ptr nc)) → Prop
  | head {i : Nat} {t : Ptr nc} {rest : List (Ptr nc)} : s.queue i = t :: rest →
      Selects s c t (Function.update s.queue i rest)
  | again : (s.tcb (s.current c)).state = .ready → Selects s c (s.current c) s.queue
  | idle : (s.tcb (s.current c)).state ≠ .ready → Selects s c (.idle c) s.queue

/-- `sched_queue_select` selects. -/
theorem queueSelect_spec (s : State nc) (c : Fin nc) : ∃ next queue, Selects s c next queue ∧
    s.schedQueueSelect c (s.current c) =
      (next, { s.setTcb next { s.tcb next with its := quantum } with queue := queue }) := by
  unfold schedQueueSelect
  cases hl : topLevel s.queue maxPriorities with
  | none =>
    by_cases hr : (s.tcb (s.current c)).state = .ready
    · exact ⟨_, _, .again hr, by simp [hr, setTcb]⟩
    · exact ⟨_, _, .idle hr, by simp [hr, setTcb]⟩
  | some i =>
    obtain ⟨_, hq⟩ := topLevel_some hl
    cases hc : s.queue i with
    | nil => exact absurd hc hq
    | cons t rest => exact ⟨_, _, .head hc, by simp [hc, setTcb]⟩

/-- What the invariant gives about a selected thread. -/
structure Selection (s : State nc) (c : Fin nc) (next : Ptr nc) (queue : Nat → List (Ptr nc)) : Prop where
  other : ∀ {c'}, c' ≠ c → s.current c' ≠ next
  leaving : ∀ {c'}, ¬s.Leaving c' next
  ready : (s.tcb next).state = .ready
  idle : ∀ {c'}, next = .idle c' → c' = c
  clean : next = s.current c ∨ (s.tcb next).phase = .ctxClean
  mem : ∀ {i t}, t ∈ queue i ↔ t ∈ s.queue i ∧ t ≠ next
  nodup : ∀ {i}, (queue i).Nodup

theorem Inv.selection (h : Inv s) {k : Cause} (hpc : s.pc c = .yielding k)
    (hcur : (s.tcb (s.current c)).state ≠ .running) {next : Ptr nc} {queue : Nat → List (Ptr nc)}
    (hs : Selects s c next queue) : Selection s c next queue := by
  have hnl : ∀ {t}, ¬s.Leaving c t := by rintro t ⟨hl, -⟩; rw [hpc] at hl; cases hl
  have hq : ∀ {t}, (s.tcb t).phase ≠ .ctxClean → ∀ {i}, t ∉ s.queue i := fun {t} hp {i} hm =>
    hp (h.mem_queue.1 hm).2.2.2.1
  cases hs with
  | @head i _ rest hc =>
    have ht := h.mem_queue.1 (hc ▸ List.mem_cons_self : next ∈ s.queue i)
    obtain ⟨hpri, hthread, hr, hclean, hsel⟩ := ht
    have hnd : ¬∃ c, s.Executing c next ∨ s.Leaving c next := by
      rw [← h.dirty_iff, hclean]
      simp
    refine ⟨?_, fun hl => hnd ⟨_, .inr hl⟩, hr, ?_, .inr hclean, ?_, ?_⟩
    · intro c' _ he
      by_cases hp : s.pc c' = .switching
      · exact hsel c' ⟨hp, he⟩
      · exact hnd ⟨c', .inl ⟨hp, he⟩⟩
    · rintro c' rfl
      obtain ⟨n, hn⟩ := hthread
      cases hn
    · intro j u
      have hn := hc ▸ h.queue_nodup (i := i)
      by_cases hj : j = i
      · subst hj
        rw [Function.update_self, hc, List.mem_cons]
        have := (List.nodup_cons.1 hn).1
        grind
      · rw [Function.update_of_ne hj]
        refine ⟨fun hm => ⟨hm, ?_⟩, And.left⟩
        rintro rfl
        exact hj ((h.mem_queue.1 hm).1.symm.trans hpri)
    · intro j
      by_cases hj : j = i
      · subst hj
        rw [Function.update_self]
        exact (hc ▸ h.queue_nodup (i := j)).of_cons
      · rw [Function.update_of_ne hj]
        exact h.queue_nodup
  | again hr =>
    have hd := h.cur_dirty (c := c) (by simp [hpc])
    refine ⟨fun hc' he => hc' (h.cur_inj he), fun hl => ?_, hr, fun he => (h.cur_idle he).symm, .inl rfl, ?_,
      h.queue_nodup⟩
    · exact hnl (h.prev_cur hl rfl ▸ hl)
    · intro i t
      refine ⟨fun hm => ⟨hm, ?_⟩, And.left⟩
      rintro rfl
      exact hq (by simp [hd]) hm
  | idle hr =>
    have hne : ∀ c', s.current c' ≠ .idle c := by
      intro c' he
      have hc' := h.cur_idle he
      subst hc'
      rcases h.idle_state (c := c') with hi | hi <;> rw [← he] at hi
      · exact hcur hi
      · exact hr hi
    have hl : ∀ {c'}, ¬s.Leaving c' (.idle c) := fun hl => hnl (h.prev_idle hl ▸ hl)
    refine ⟨fun {c'} _ => hne c', hl, ?_, fun he => by cases he; rfl, .inr ?_, ?_, h.queue_nodup⟩
    · rcases h.idle_state (c := c) with hi | hi
      · obtain ⟨c', -, he⟩ := h.running_exec hi
        exact absurd he (hne c')
      · exact hi
    · cases hp : (s.tcb (.idle c)).phase with
      | ctxClean => rfl
      | ctxDirty =>
        obtain ⟨c', ⟨-, he⟩ | hl'⟩ := h.dirty_iff.1 hp
        · exact absurd he (hne c')
        · exact absurd hl' hl
    · intro i t
      refine ⟨fun hm => ⟨hm, ?_⟩, And.left⟩
      rintro rfl
      obtain ⟨n, hn⟩ := (h.mem_queue.1 hm).2.1
      cases hn

section SwitchTo

variable {k : Cause} {next : Ptr nc} {queue : Nat → List (Ptr nc)}

theorem switchTo_keeps (next : Ptr nc) (queue : Nat → List (Ptr nc)) (u : Ptr nc) :
    (s.switchTo c next queue).tcb u = { s.tcb u with its := ((s.switchTo c next queue).tcb u).its } := by
  by_cases hu : u = next
  · subst hu; simp [switchTo]
  · simp [switchTo, setTcb_other _ hu]

theorem switchTo_state (u : Ptr nc) : ((s.switchTo c next queue).tcb u).state = (s.tcb u).state := by
  rw [switchTo_keeps]

theorem switchTo_phase (u : Ptr nc) : ((s.switchTo c next queue).tcb u).phase = (s.tcb u).phase := by
  rw [switchTo_keeps]

theorem switchTo_priority (u : Ptr nc) : ((s.switchTo c next queue).tcb u).priority = (s.tcb u).priority := by
  rw [switchTo_keeps]

theorem switchTo_current (c' : Fin nc) :
    (s.switchTo c next queue).current c' = if c' = c then next else s.current c' := by
  simp [switchTo, Function.update_apply]

theorem switchTo_pc (c' : Fin nc) : (s.switchTo c next queue).pc c' = if c' = c then .switching else s.pc c' := by
  simp [switchTo, Function.update_apply]

theorem switchTo_executing (c' : Fin nc) (u : Ptr nc) :
    (s.switchTo c next queue).Executing c' u ↔ c' ≠ c ∧ s.Executing c' u := by
  by_cases hc : c' = c <;> simp [Executing, switchTo_current, switchTo_pc, hc]

theorem switchTo_leaving (c' : Fin nc) (u : Ptr nc) :
    (s.switchTo c next queue).Leaving c' u ↔ if c' = c then u = s.current c else s.Leaving c' u := by
  by_cases hc : c' = c
  · subst hc; simp [Leaving, switchTo, eq_comm]
  · simp [Leaving, switchTo, hc]

theorem not_leaving_of_yielding (hpc : s.pc c = .yielding k) : ¬s.Leaving c t := fun hl =>
  Pc.noConfusion (hpc.symm.trans hl.1)

theorem switchTo_selected (hpc : s.pc c = .yielding k) (u : Ptr nc) :
    (∀ c', ¬(s.switchTo c next queue).Selected c' u) ↔ (∀ c', ¬s.Selected c' u) ∧ u ≠ next := by
  simp only [Selected, switchTo_current, switchTo_pc]
  constructor
  · intro hall
    refine ⟨fun c' hsel => ?_, fun he => hall c (by simp [he])⟩
    have := hall c'
    by_cases hc : c' = c
    · subst hc; rw [hpc] at hsel; cases hsel.1
    · simp [hc, hsel] at this
  · rintro ⟨hall, hne⟩ c'
    by_cases hc : c' = c
    · simp [hc, Ne.symm hne]
    · simpa [hc] using hall c'

theorem switchTo_runnable (hpc : s.pc c = .yielding k) (u : Ptr nc) :
    (s.switchTo c next queue).Runnable u ↔ s.Runnable u ∧ u ≠ next := by
  simp only [Runnable, switchTo_state, switchTo_phase, switchTo_selected hpc]
  tauto

theorem Inv.switchTo_cores (h : Inv s) (hs : Selection s c next queue) : Cores (s.switchTo c next queue) where
  cur_inj {c₁ c₂} he := by
    simp only [switchTo_current] at he
    by_cases h₁ : c₁ = c <;> by_cases h₂ : c₂ = c <;> simp only [h₁, h₂, if_true, if_false] at he ⊢
    · exact absurd he.symm (hs.other h₂)
    · exact absurd he (hs.other h₁)
    · exact h.cur_inj he
  prev_cur {c₁ c₂ t} hl he := by
    rw [switchTo_leaving] at hl
    rw [switchTo_current] at he
    by_cases h₁ : c₁ = c <;> by_cases h₂ : c₂ = c <;> simp only [h₁, h₂, if_true, if_false] at hl he ⊢
    · exact h.cur_inj (hl.symm.trans he.symm)
    · exact absurd hl (he ▸ hs.leaving)
    · exact h.prev_cur hl he
  prev_inj {c₁ c₂ t} hl₁ hl₂ := by
    rw [switchTo_leaving] at hl₁ hl₂
    by_cases h₁ : c₁ = c <;> by_cases h₂ : c₂ = c <;> simp only [h₁, h₂, if_true, if_false] at hl₁ hl₂ ⊢
    · exact (h.prev_cur hl₂ hl₁.symm).symm
    · exact h₁ (h.prev_cur hl₁ hl₂.symm)
    · exact h.prev_inj hl₁ hl₂
  prev_some {c'} hp := by
    by_cases hc : c' = c
    · subst hc; exact ⟨s.current c', by simp [State.switchTo]⟩
    · rw [switchTo_pc, if_neg hc] at hp
      obtain ⟨t, ht⟩ := h.prev_some hp
      exact ⟨t, by simpa [State.switchTo, Function.update_of_ne hc] using ht⟩
  cur_idle {c₁ c₂} he := by
    rw [switchTo_current] at he
    by_cases h₁ : c₁ = c <;> simp only [h₁, if_true, if_false] at he ⊢
    · exact (hs.idle he).symm
    · exact h.cur_idle he
  prev_idle {c₁ c₂} hl := by
    rw [switchTo_leaving] at hl
    by_cases h₁ : c₁ = c <;> simp only [h₁, if_true, if_false] at hl ⊢
    · exact h.cur_idle hl.symm
    · exact h.prev_idle hl

/-- The thread that was executed is now being left. -/
theorem Inv.switchTo_dirty (h : Inv s) (hpc : s.pc c = .yielding k) (u : Ptr nc) :
    ((s.switchTo c next queue).tcb u).phase = .ctxDirty ↔
      ∃ c', (s.switchTo c next queue).Executing c' u ∨ (s.switchTo c next queue).Leaving c' u := by
  rw [switchTo_phase, h.dirty_iff]
  simp only [switchTo_executing, switchTo_leaving]
  refine exists_congr fun c' => ?_
  by_cases hc : c' = c
  · subst hc
    have hexec : s.Executing c' u ↔ u = s.current c' :=
      ⟨fun he => he.2.symm, fun he => ⟨by simp [hpc], he.symm⟩⟩
    simp [hexec, not_leaving_of_yielding hpc]
  · simp [hc]

theorem Inv.switchTo_placed (h : Inv s) (hpc : s.pc c = .yielding k) (hcur : (s.tcb (s.current c)).state ≠ .running)
    (hs : Selection s c next queue) : Placed (s.switchTo c next queue) where
  dirty_iff {u} := h.switchTo_dirty hpc u
  running_exec {u} hr := by
    rw [switchTo_state] at hr
    obtain ⟨c', he⟩ := h.running_exec hr
    refine ⟨c', (switchTo_executing c' u).2 ⟨?_, he⟩⟩
    rintro rfl
    exact hcur (he.2 ▸ hr)
  cur_running {c'} hp := by
    by_cases hc : c' = c
    · simp [switchTo_pc, hc] at hp
    · rw [switchTo_pc, if_neg hc] at hp
      rw [switchTo_state, switchTo_current, if_neg hc]
      exact h.cur_running hp
  cur_slept {c' k'} hp := by
    by_cases hc : c' = c
    · simp [switchTo_pc, hc] at hp
    · rw [switchTo_pc, if_neg hc] at hp
      rw [switchTo_state, switchTo_current, if_neg hc]
      exact h.cur_slept hp
  cur_selected {c'} hp := by
    rw [switchTo_state, switchTo_current]
    by_cases hc : c' = c
    · simpa [hc] using hs.ready
    · rw [switchTo_pc, if_neg hc] at hp
      simpa [hc] using h.cur_selected hp
  cur_init {c'} := by
    rw [switchTo_state, switchTo_current]
    by_cases hc : c' = c
    · simp [hc, hs.ready]
    · simpa [hc] using h.cur_init
  prev_state {c' u} hl := by
    rw [switchTo_state]
    rw [switchTo_leaving] at hl
    by_cases hc : c' = c <;> simp only [hc, if_true, if_false] at hl
    · rw [hl]; exact ⟨h.cur_init, hcur⟩
    · exact h.prev_state hl

theorem Inv.switchTo_queued (h : Inv s) (hpc : s.pc c = .yielding k) (hs : Selection s c next queue) :
    Queued (s.switchTo c next queue) where
  mem_queue {i u} := by
    rw [switchTo_runnable hpc, switchTo_priority]
    have hm := h.mem_queue (i := i) (t := u)
    have hm' := hs.mem (i := i) (t := u)
    show u ∈ queue i ↔ _
    tauto
  queue_nodup := hs.nodup

theorem Inv.switchTo (h : Inv s) (hpc : s.pc c = .yielding k) (hcur : (s.tcb (s.current c)).state ≠ .running)
    (hs : Selection s c next queue) : Inv (s.switchTo c next queue) where
  toCores := h.switchTo_cores hs
  toPlaced := h.switchTo_placed hpc hcur hs
  toKinds := h.toKinds.congr (fun u => by rw [switchTo_keeps])
    (fun u => by rw [switchTo_priority]; exact h.priority_lt) (Nat.le_refl _) (fun _ => .inl (switchTo_state _))
    fun _ _ => switchTo_state _
  toQueued := h.switchTo_queued hpc hs
  toTimed := h.toTimed.congr rfl (fun u => by rw [switchTo_keeps]) fun u hst => (switchTo_state u).trans hst
  toReaped := h.toReaped.congr rfl rfl fun u => by rw [switchTo_state, switchTo_phase]

end SwitchTo

/-! ## The section of `yield` -/

/-- The current thread of a core in `yield` is `ready` or asleep when the next thread is selected. -/
theorem leaveCurrent_state (k : Cause) (r : Nat) (x : Tcb) : (leaveCurrent k r x).state ≠ .running ∧
    ((leaveCurrent k r x).state = x.state ∨ x.state = .running ∧ (leaveCurrent k r x).state = .ready) := by
  unfold leaveCurrent
  by_cases hx : x.state = .running <;> simp [hx]

/-- The section of `yield` after its `switch`. -/
def adjusted (s : State nc) (c : Fin nc) (k : Cause) : State nc :=
  s.setTcb (s.current c) { s.tcb (s.current c) with priority := adjustPriority k (s.tcb (s.current c)) }

/-- The section of `yield` when it wakes up the sleepers. -/
def left (s : State nc) (c : Fin nc) (k : Cause) (remaining : Nat) : State nc :=
  (s.adjusted c k).boost.setTcb (s.current c) (leaveCurrent k remaining ((s.adjusted c k).boost.tcb (s.current c)))

/-- The section of `yield` when it calls `sched_queue_select`. -/
def atSelect (s : State nc) (c : Fin nc) (k : Cause) (remaining clock : Nat) : Option (State nc) :=
  (s.left c k remaining).schedWakeupExpiredTimeouts clock

theorem yieldSection_eq {k : Cause} (remaining clock : Nat) : s.yieldSection c k remaining clock =
    (s.atSelect c k remaining clock).map fun s₁ =>
      { (s₁.schedQueueSelect c (s.current c)).2 with
        previous := Function.update (s₁.schedQueueSelect c (s.current c)).2.previous c (some (s.current c))
        current := Function.update (s₁.schedQueueSelect c (s.current c)).2.current c
          (s₁.schedQueueSelect c (s.current c)).1
        pc := Function.update (s₁.schedQueueSelect c (s.current c)).2.pc c .switching } := by
  rw [Option.map_eq_bind]
  rfl

theorem Inv.adjusted (h : Inv s) {k : Cause} (hpc : s.pc c = .yielding k) : Inv (s.adjusted c k) :=
  h.setCur hpc ⟨rfl, rfl, rfl, adjustPriority_lt k h.priority_lt, .inl rfl⟩

theorem Inv.left (h : Inv s) {k : Cause} (hpc : s.pc c = .yielding k) (remaining : Nat) : Inv (s.left c k remaining) := by
  obtain ⟨h₂, hs₂⟩ := (h.adjusted hpc).boost
  have hcur : (s.adjusted c k).boost.current = s.current := hs₂.current
  have hstate := (leaveCurrent_state k remaining ((s.adjusted c k).boost.tcb (s.current c))).2
  have hset := h₂.setCur (c := c) (k := k) (x := leaveCurrent k remaining ((s.adjusted c k).boost.tcb (s.current c)))
    ((congrFun hs₂.pc c).trans hpc) (by rw [hcur]; exact ⟨rfl, rfl, rfl, h₂.priority_lt, hstate⟩)
  rwa [hcur] at hset

/-- `yield` wakes the sleepers up, selects a thread and switches to it. -/
theorem Inv.yieldSection (h : Inv s) {k : Cause} (hpc : s.pc c = .yielding k) (r clock : Nat) :
    ∃ s₁ next queue, s.yieldSection c k r clock = some (s₁.switchTo c next queue) ∧ Inv s₁ ∧
      s₁.current = s.current ∧ s₁.pc = s.pc ∧ s₁.previous = s.previous ∧
      (s₁.tcb (s₁.current c)).state ≠ .running ∧ Selection s₁ c next queue := by
  obtain ⟨-, hs₂⟩ := (h.adjusted hpc).boost
  obtain ⟨s₄, he, h₄, hs₄⟩ := (h.left hpc r).wakeupExpired clock
  have hcur₄ : s₄.current = s.current := hs₄.current.trans hs₂.current
  have hpc₄ : s₄.pc = s.pc := hs₄.pc.trans hs₂.pc
  have hrun : (s₄.tcb (s₄.current c)).state ≠ .running := by
    have hleft : ((s.left c k r).tcb (s₄.current c)).state ≠ .running := by
      rw [hcur₄, State.left, setTcb_self]
      exact (leaveCurrent_state k r _).1
    rcases hs₄.state (s₄.current c) with hst | ⟨-, hst⟩ <;> rw [hst]
    · exact hleft
    · simp
  obtain ⟨next, queue, hsel, heq⟩ := queueSelect_spec s₄ c
  refine ⟨s₄, next, queue, ?_, h₄, hcur₄, hpc₄, hs₄.previous.trans hs₂.previous, hrun,
    h₄.selection ((congrFun hpc₄ c).trans hpc) hrun hsel⟩
  rw [yieldSection_eq, show s.atSelect c k r clock = some s₄ from he, Option.map_some, ← hcur₄, heq]
  rfl

end TinyOS.Sched.State
