import TinyOS.KernelLock

/-!
# The kernel lock loses no wake-up

The threads asleep in the ring of `kernel_sem_cv` are exactly those that the ring lists, so that each signal finds one
while there is one. When `kernel_sem` is positive and the ring is not empty, the thread that the last signal has
removed has not tested `kernel_sem` again (`no_lost_wakeup`): a `kernel_lock` that comes before it takes `kernel_sem`
back to 0.
-/

namespace TinyOS.KernelLock

variable {s s' : State} {t u : Nat} {th : Thread} {pc : Pc} {c : Call}

/-- Thread `t` is asleep in the ring of `kernel_sem_cv`. -/
def State.Blocked (s : State) (t : Nat) : Prop := ∃ th c, s.threads[t]? = some th ∧ th.pc = .semWait c

/-- A signal has removed thread `t` from the ring, and it has not tested `kernel_sem` since. -/
def State.Signalled (s : State) (t : Nat) : Prop := ∃ th c, s.threads[t]? = some th ∧ th.pc = .acquire c .signalled

/-- `kernel_sem` as it is at boot, and any number of threads, all of them outside the kernel. -/
def anyThreads : Lts State Action where
  init s := s.kernelSem = 1 ∧ s.ring = [] ∧ ∀ th ∈ s.threads, th.pc = .task
  step := step

/-- Who waits for `kernel_sem`. -/
structure Waiters (s : State) : Prop where
  exclusive : Exclusive s
  nodup : s.ring.Nodup
  mem_ring : ∀ t, t ∈ s.ring ↔ s.Blocked t
  signalled : 0 < s.kernelSem → s.ring ≠ [] → ∃ t, s.Signalled t

/-! ## One thread moves -/

theorem setPc_get (h : s.threads[t]? = some th) (pc : Pc) (u : Nat) :
    (s.setPc t th pc).threads[u]? = if u = t then some { th with pc := pc } else s.threads[u]? := by
  obtain ⟨ht, -⟩ := List.getElem?_eq_some_iff.1 h
  by_cases hu : u = t
  · subst hu
    simp [State.setPc, ht]
  · simp [State.setPc, hu, List.getElem?_set_ne (Ne.symm hu)]

theorem setPc_blocked (h : s.threads[t]? = some th) (pc : Pc) (u : Nat) :
    (s.setPc t th pc).Blocked u ↔ if u = t then ∃ c, pc = .semWait c else s.Blocked u := by
  simp only [State.Blocked, setPc_get h]
  split <;> simp

theorem setPc_signalled (h : s.threads[t]? = some th) (pc : Pc) (u : Nat) :
    (s.setPc t th pc).Signalled u ↔ if u = t then ∃ c, pc = .acquire c .signalled else s.Signalled u := by
  simp only [State.Signalled, setPc_get h]
  split <;> simp

/-- A thread that is not in the ring moves on outside of it. -/
theorem Waiters.setPc (h : Waiters s) (hth : s.threads[t]? = some th) (hex : Exclusive (s.setPc t th pc))
    (hfrom : ∀ c, th.pc ≠ .semWait c ∧ th.pc ≠ .acquire c .signalled) (hto : ∀ c, pc ≠ .semWait c) :
    Waiters (s.setPc t th pc) := by
  refine ⟨hex, h.nodup, fun u => ?_, fun hsem hring => ?_⟩
  · show u ∈ s.ring ↔ _
    rw [setPc_blocked hth, h.mem_ring]
    split
    · rename_i hu
      subst hu
      constructor
      · rintro ⟨th', c, hth', hpc⟩
        cases hth.symm.trans hth'
        exact absurd hpc (hfrom c).1
      · rintro ⟨c, hpc⟩
        exact absurd hpc (hto c)
    · rfl
  · obtain ⟨u, th', c, hth', hpc⟩ := h.signalled hsem hring
    have hu : u ≠ t := by
      rintro rfl
      cases hth.symm.trans hth'
      exact (hfrom c).2 hpc
    exact ⟨u, (setPc_signalled hth pc u).2 (by rw [if_neg hu]; exact ⟨th', c, hth', hpc⟩)⟩

/-! ## The test of `kernel_sem` -/

theorem Waiters.testSem (h : Waiters s) (hth : s.threads[t]? = some th) {why : Test} (hpc : th.pc = .acquire c why) :
    Waiters (testSem s t th c) := by
  have hex := testSem_exclusive h.exclusive hth hpc
  have hout : ¬s.Blocked t := by
    rintro ⟨th', c', hth', hpc'⟩
    cases hth.symm.trans hth'
    cases hpc.symm.trans hpc'
  unfold KernelLock.testSem at hex ⊢
  split at hex
  · -- back into the ring
    rename_i hsem
    rw [if_pos hsem]
    refine ⟨hex, ?_, fun u => ?_, fun hpos _ => ?_⟩
    · refine List.nodup_append.2 ⟨h.nodup, List.pairwise_singleton _ t, fun a ha b hb he => hout ?_⟩
      rw [List.mem_singleton] at hb
      subst hb
      subst he
      exact (h.mem_ring a).1 ha
    · have hblocked := setPc_blocked hth (.semWait c) u
      refine Iff.trans ?_ hblocked.symm
      rw [List.mem_append, List.mem_singleton, h.mem_ring]
      by_cases hu : u = t
      · simp [hu]
      · simp [hu]
    · exact absurd hpos (Int.not_lt.2 hsem)
  · rename_i hsem
    rw [if_neg hsem]
    have hone : s.kernelSem = 1 := by
      obtain ⟨hz | ho, -⟩ := h.exclusive
      · exact absurd (Int.le_of_eq hz) hsem
      · exact ho
    refine ⟨hex, h.nodup, fun u => ?_, fun hpos => ?_⟩
    · have hblocked := setPc_blocked hth (.inKernel c) u
      refine Iff.trans ?_ hblocked.symm
      show u ∈ s.ring ↔ _
      rw [h.mem_ring]
      by_cases hu : u = t
      · simp [hu, hout]
      · simp [hu]
    · have hzero : ¬0 < s.kernelSem - 1 := by omega
      exact absurd hpos hzero

/-! ## Leaving the kernel -/

/-- A signal takes the first thread out of the ring. -/
theorem condSignal_cons (hring : ∀ t, t ∈ s.ring ↔ s.Blocked t) {ws : List Nat} (hs : s.ring = u :: ws) :
    ∃ thw cw, s.threads[u]? = some thw ∧ thw.pc = .semWait cw ∧
      condSignal s = State.setPc { s with ring := ws } u thw (.acquire cw .signalled) := by
  obtain ⟨⟨e, pc⟩, cw, hw, hpc⟩ := (hring u).1 (by rw [hs]; exact List.mem_cons_self)
  cases hpc
  exact ⟨_, cw, hw, rfl, by simp only [condSignal, hs, hw]⟩

/-- The sections that leave the kernel wake up a thread if there is one in the ring. -/
theorem Waiters.post (h : Waiters s) (hth : s.threads[t]? = some th) (hin : th.pc = .inKernel c)
    (hpc : Thread.inside { th with pc := pc } = false) (hto : ∀ c, pc ≠ .semWait c) :
    Waiters ((post s).setPc t th pc) := by
  have hex := post_exclusive h.exclusive hth hin hpc
  have hout : ∀ u ∈ s.ring, u ≠ t := by
    rintro u hu rfl
    obtain ⟨th', c', hth', hpc'⟩ := (h.mem_ring u).1 hu
    cases hth.symm.trans hth'
    cases hin.symm.trans hpc'
  have hget : (KernelLock.post s).threads[t]? = some th :=
    condSignal_get (s := { s with kernelSem := s.kernelSem + 1 }) hth (by simp [hin])
  cases hs : s.ring with
  | nil =>
    have hpost : KernelLock.post s = { s with kernelSem := s.kernelSem + 1 } := by
      simp only [KernelLock.post, condSignal, hs]
    refine ⟨hex, ?_, fun u => ?_, fun _ hne => ?_⟩
    · rw [hpost]
      exact h.nodup
    · rw [setPc_blocked hget]
      have hmem : u ∈ ((KernelLock.post s).setPc t th pc).ring ↔ s.Blocked u := by
        rw [hpost]
        exact h.mem_ring u
      rw [hmem, hpost]
      split
      · rename_i hu
        subst hu
        have hno : ¬s.Blocked u := fun hb => hout u ((h.mem_ring u).2 hb) rfl
        simp only [hno, false_iff, not_exists]
        exact hto
      · rfl
    · rw [hpost] at hne
      exact absurd hs hne
  | cons w ws =>
    obtain ⟨thw, cw, hw, hpcw, hsig⟩ :=
      condSignal_cons (s := { s with kernelSem := s.kernelSem + 1 }) h.mem_ring hs
    have hpost : KernelLock.post s =
        State.setPc { s with kernelSem := s.kernelSem + 1, ring := ws } w thw (.acquire cw .signalled) := hsig
    have hwt : w ≠ t := hout w (by rw [hs]; exact List.mem_cons_self)
    have hnodup := h.nodup
    rw [hs, List.nodup_cons] at hnodup
    refine ⟨hex, ?_, fun u => ?_, fun _ _ => ⟨w, ?_⟩⟩
    · rw [hpost]
      exact hnodup.2
    · rw [setPc_blocked hget]
      have hmem : u ∈ ((KernelLock.post s).setPc t th pc).ring ↔ u ∈ ws := by rw [hpost]; rfl
      have hblocked : (KernelLock.post s).Blocked u ↔ if u = w then False else s.Blocked u := by
        rw [hpost, setPc_blocked (s := { s with kernelSem := s.kernelSem + 1, ring := ws }) hw]
        simp only [reduceCtorEq, exists_false]
        rfl
      rw [hmem, hblocked, ← h.mem_ring, hs, List.mem_cons]
      by_cases hu : u = t
      · subst hu
        have hno : u ∉ ws := fun hm => hout u (by rw [hs]; exact List.mem_cons_of_mem _ hm) rfl
        simp [hno, hto]
      · by_cases huw : u = w
        · subst huw
          simp [hu, hnodup.1]
        · simp [hu, huw]
    · rw [setPc_signalled hget, if_neg hwt, hpost,
        setPc_signalled (s := { s with kernelSem := s.kernelSem + 1, ring := ws }) hw, if_pos rfl]
      exact ⟨cw, rfl⟩

/-- A new thread starts outside the kernel. -/
theorem Waiters.spawn (h : Waiters s) (e : Entry) (hex : Exclusive { s with threads := s.threads ++ [⟨e, .task⟩] }) :
    Waiters { s with threads := s.threads ++ [⟨e, .task⟩] } := by
  have hget : ∀ (u : Nat) (th : Thread) (pc : Pc), pc ≠ .task → th.pc = pc →
      ((s.threads ++ [⟨e, .task⟩])[u]? = some th ↔ s.threads[u]? = some th) := by
    rintro u th - hne rfl
    rw [List.getElem?_append]
    split
    · rfl
    · rename_i hlt
      rw [List.getElem?_eq_none (l := s.threads) (by omega)]
      constructor
      · intro hu
        obtain rfl := List.mem_singleton.1 (List.mem_of_getElem? hu)
        exact absurd rfl hne
      · intro hu
        cases hu
  refine ⟨hex, h.nodup, fun u => ?_, fun hsem hring => ?_⟩
  · show u ∈ s.ring ↔ _
    rw [h.mem_ring]
    constructor
    · rintro ⟨th, c, hth, hpc⟩
      exact ⟨th, c, (hget u th _ (by simp) hpc).2 hth, hpc⟩
    · rintro ⟨th, c, hth, hpc⟩
      exact ⟨th, c, (hget u th _ (by simp) hpc).1 hth, hpc⟩
  · obtain ⟨u, th, c, hth, hpc⟩ := h.signalled hsem hring
    exact ⟨u, th, c, (hget u th _ (by simp) hpc).2 hth, hpc⟩

/-! ## Runs -/

/-- **Step lemma.** -/
theorem Waiters.step {a : Action} (h : Waiters s) (hok : NoBareExit s a) (hs : step s a = some s') : Waiters s' := by
  have hex := step_exclusive h.exclusive hok hs
  unfold KernelLock.step at hs
  cases hth : s.threads[a.thread]? with
  | none => simp [hth] at hs
  | some th =>
    simp only [hth] at hs
    cases a with
    | syscall t c =>
      simp only [stepThread, Option.ite_none_right_eq_some, Option.some.injEq] at hs
      obtain ⟨hpc, rfl⟩ := hs
      exact h.setPc hth hex (fun _ => by simp [hpc]) fun _ => by simp
    | test t =>
      simp only [stepThread] at hs
      split at hs
      · rename_i c why hpc
        cases hs
        exact h.testSem hth hpc
      · cases hs
    | kernelUnlock t =>
      simp only [stepThread, Option.ite_none_right_eq_some, Option.some.injEq] at hs
      obtain ⟨hpc, rfl⟩ := hs
      exact h.post hth hpc rfl fun _ => by simp
    | kernelWait t =>
      simp only [stepThread] at hs
      split at hs
      · rename_i c hpc
        cases hs
        exact h.post hth hpc rfl fun _ => by simp
      · cases hs
    | wake t =>
      simp only [stepThread] at hs
      split at hs
      · rename_i c hpc
        cases hs
        exact h.setPc hth hex (fun _ => by simp [hpc]) fun _ => by simp
      · cases hs
    | kernelSleep t =>
      simp only [stepThread, Option.ite_none_right_eq_some, Option.some.injEq] at hs
      obtain ⟨hpc, rfl⟩ := hs
      exact h.post hth hpc rfl fun _ => by simp
    | spawn t e =>
      simp only [stepThread, Option.ite_none_right_eq_some, Option.some.injEq] at hs
      obtain ⟨-, rfl⟩ := hs
      exact h.spawn e hex
    | taskReturns t =>
      simp only [stepThread, Option.ite_none_right_eq_some] at hs
      obtain ⟨hpc, hs⟩ := hs
      have hentry : th.entry = .startMainThread := by
        cases he : th.entry with
        | startMainThread => rfl
        | startMultiThreads => exact absurd (by simp only [Action.thread] at hth; simp [hth, he]) hok
      rw [hentry] at hs
      cases hs
      exact h.setPc hth hex (fun _ => by simp [hpc]) fun _ => by simp

theorem init_waiters (hs : anyThreads.init s) : Waiters s := by
  obtain ⟨hsem, hring, htask⟩ := hs
  have hinside : s.inside = 0 := List.countP_eq_zero.2 fun th hth => by simp [Thread.inside, htask th hth]
  refine ⟨⟨.inr hsem, by simp [hsem, hinside], by simp [hinside]⟩, by simp [hring], fun u => ?_, fun _ hne => ?_⟩
  · rw [hring]
    constructor
    · intro hu
      cases hu
    · rintro ⟨th, c, hth, hpc⟩
      cases (htask th (List.mem_of_getElem? hth)).symm.trans hpc
  · exact absurd hring hne

/-- **Run lemma.** -/
theorem reaches_waiters (hs : anyThreads.ReachesBy NoBareExit s) : Waiters s :=
  hs.invariant (fun _ hs => init_waiters hs) fun _ _ _ h hok hs => h.step hok hs

/-- **The kernel lock loses no wake-up.** If every thread enters the kernel through `kernel_lock`, `kernel_sem` is never
negative and at most one thread is inside; when `kernel_sem` is positive and a thread is in the ring, another one has
been signalled and has yet to test `kernel_sem`. -/
theorem no_lost_wakeup (hs : anyThreads.ReachesBy NoBareExit s) : 0 ≤ s.kernelSem ∧ s.inside ≤ 1 ∧
    (0 < s.kernelSem → ∀ t, s.Blocked t → ∃ u, u ≠ t ∧ s.Signalled u) := by
  have h := reaches_waiters hs
  obtain ⟨hsem, -, hinside⟩ := h.exclusive
  refine ⟨by omega, hinside, fun hpos t ht => ?_⟩
  have hring : s.ring ≠ [] := List.ne_nil_of_mem ((h.mem_ring t).2 ht)
  obtain ⟨u, hu⟩ := h.signalled hpos hring
  refine ⟨u, ?_, hu⟩
  rintro rfl
  obtain ⟨th, c, hth, hpc⟩ := ht
  obtain ⟨th', c', hth', hpc'⟩ := hu
  cases hth.symm.trans hth'
  cases hpc.symm.trans hpc'

/-- Three threads call `kernel_lock`, and the first one unlocks: the second one has been signalled, and the third one is
in the ring. -/
theorem no_lost_wakeup_three : ∃ s, anyThreads.ReachesBy NoBareExit s ∧ 0 < s.kernelSem ∧ s.Blocked 2 ∧
    ∃ u, u ≠ 2 ∧ s.Signalled u := by
  have hok : anyThreads.AllSteps NoBareExit ⟨1, [], .replicate 3 ⟨.startMultiThreads, .task⟩⟩
      [.syscall 0 .returning, .test 0, .syscall 1 .returning, .test 1, .syscall 2 .exiting, .test 2, .kernelUnlock 0] := by
    decide
  have hr : anyThreads.run ⟨1, [], .replicate 3 ⟨.startMultiThreads, .task⟩⟩
      [.syscall 0 .returning, .test 0, .syscall 1 .returning, .test 1, .syscall 2 .exiting, .test 2, .kernelUnlock 0] =
      some ⟨1, [2], [⟨.startMultiThreads, .task⟩, ⟨.startMultiThreads, .acquire .returning .signalled⟩,
        ⟨.startMultiThreads, .semWait .exiting⟩]⟩ := by decide
  have hreach := Lts.run_invariant (I := anyThreads.ReachesBy NoBareExit) (fun _ _ _ h hok hs => h.step hok hs)
    (.init ⟨rfl, rfl, by decide⟩) hok hr
  refine ⟨_, hreach, by decide, ?_, (no_lost_wakeup hreach).2.2 (by decide) 2 ?_⟩
  · exact ⟨⟨.startMultiThreads, .semWait .exiting⟩, .exiting, rfl, rfl⟩
  · exact ⟨⟨.startMultiThreads, .semWait .exiting⟩, .exiting, rfl, rfl⟩

end TinyOS.KernelLock
