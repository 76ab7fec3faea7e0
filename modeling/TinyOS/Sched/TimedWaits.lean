import TinyOS.Sched.Timeouts

/-!
# Timed waits

`Cond_TimedWait` and `sys_Connect` get a timeout in milliseconds and go to sleep for a `TimerDuration`, in microseconds:
`Cond_TimedWait` multiplies by 1000, modulo `2 ^ 64`, and `sys_Connect` passes the timeout on as it is. The sum of the
clock and the duration is again taken modulo `2 ^ 64`.

What follows the call is any run whatever of the scheduler, other threads with wake-up times that wrap around included,
so that the invariant of the scheduler cannot be used there.
-/

namespace TinyOS.Sched

open Deadlines (Ordered)

variable {nc : Nat}

/-! ## The two calls -/

inductive TimedCall
  | condTimedWait
  | connect
  deriving DecidableEq, Repr

namespace TimedCall

def cause : TimedCall → Cause
  | .condTimedWait => .schedUser
  | .connect => .schedPipe

/-- The `TimerDuration` for a timeout in milliseconds. -/
def duration : TimedCall → Nat → Nat
  | .condTimedWait, timeout => timeout * 1000 % 2 ^ 64
  | .connect, timeout => timeout

/-- A `timeout_t`, and for `sys_Connect` one that is not negative as a signed value. -/
def Valid : TimedCall → Nat → Prop
  | .condTimedWait, timeout => timeout < 2 ^ 64
  | .connect, timeout => timeout < 2 ^ 63

/-- The timeouts that the thread sleeps for. -/
def Kept : TimedCall → Nat → Nat → Prop
  | .condTimedWait, timeout, clock => clock + 1000 * timeout < noTimeout
  | .connect, timeout, clock => timeout = 0 ∧ clock < noTimeout

end TimedCall

namespace State

/-- The action can happen, at any clock and with any timeout. -/
def Possible (s : State nc) : Action nc → Prop
  | .sleep c state _ _ _ => s.pc c = .running ∧ s.current c ≠ .idle c ∧ (state = .stopped ∨ state = .exited)
  | a => s.Enabled a

instance (s : State nc) : ∀ a, Decidable (s.Possible a)
  | .sleep c state _ _ _ => inferInstanceAs (Decidable (s.pc c = .running ∧ s.current c ≠ .idle c ∧
      (state = .stopped ∨ state = .exited)))
  | .spawn => inferInstanceAs (Decidable True)
  | .wakeup t => inferInstanceAs (Decidable (s.Allocated t))
  | .yield c cause => inferInstanceAs (Decidable (s.pc c = .running ∨ s.pc c = .slept cause))
  | .yieldSection c _ _ => inferInstanceAs (Decidable ((s.pc c).isYielding = true))
  | .gain c => inferInstanceAs (Decidable (s.pc c = .switching))

end State

/-- The scheduler with any clock and any timeouts. -/
def freeSys (nc : Nat) : Lts (State nc) (Action nc) :=
  ⟨(· = State.boot nc), fun s a => if s.Possible a then s.exec a else none⟩

namespace State

variable {s s' : State nc} {t u : Ptr nc} {c : Fin nc} {k : Cause} {a : Action nc} {w clock : Nat}

/-- The wait of `t` goes on as long as `t` is stopped. Meanwhile it is not in `TIMEOUT_LIST` without a wake-up time; and
a scan that ends the wait, at a clock from `since` on, does not do so before `due`. -/
def OnTime (s : State nc) (t : Ptr nc) (due since : Nat) : Prop :=
  ∀ as s₁, (freeSys nc).run s as = some s₁ → (freeSys nc).AllStates (fun s => (s.tcb t).state = .stopped) s as →
    (t ∈ s₁.timeoutList → s₁.deadline t ≠ noTimeout) ∧
    ∀ c remaining clock s₂, (freeSys nc).step s₁ (.yieldSection c remaining clock) = some s₂ → clock < 2 ^ 64 →
      since ≤ clock → (s₂.tcb t).state ≠ .stopped → due ≤ clock

theorem freeSys_step : (freeSys nc).step s a = some s' ↔ s.Possible a ∧ s.exec a = some s' := by
  simp [freeSys]

/-! ## What the other threads do -/

/-- `sched_make_ready` changes the rings, and the state and the wake-up time of its thread. -/
theorem schedMakeReady_eq (he : s.schedMakeReady t = some s') : ∃ w l queue,
    s' = { s.setTcb t { s.tcb t with state := .ready, wakeupTime := w } with timeoutList := l, queue := queue } := by
  have hlast : ∀ s₁ : State nc, (∃ w l queue,
      s₁ = { s.setTcb t { s.tcb t with wakeupTime := w } with timeoutList := l, queue := queue }) →
      (let s₂ := s₁.setTcb t { s₁.tcb t with state := .ready }
       if (s₂.tcb t).phase = .ctxClean then s₂.schedQueueAdd t else pure s₂) = some s' → ∃ w l queue,
        s' = { s.setTcb t { s.tcb t with state := .ready, wakeupTime := w } with timeoutList := l, queue := queue } := by
    rintro s₁ ⟨w, l, queue, rfl⟩ he
    simp only [setTcb, Function.update_self, Function.update_idem] at he
    split at he
    · obtain ⟨queue', rfl⟩ := schedQueueAdd_eq he
      exact ⟨w, l, queue', rfl⟩
    · cases he
      exact ⟨w, l, queue, rfl⟩
  unfold schedMakeReady at he
  by_cases hst : (s.tcb t).state = .stopped ∨ (s.tcb t).state = .init
  · simp only [guard, hst, if_true, Option.bind_eq_bind, Option.pure_def, Option.bind_some] at he
    split at he
    · split at he
      · exact hlast _ ⟨_, _, _, rfl⟩ he
      · cases he
    · refine hlast s ⟨(s.tcb t).wakeupTime, s.timeoutList, s.queue, ?_⟩ he
      simp only [setTcb, Function.update_eq_self]
  · simp [guard, hst] at he

theorem schedMakeReady_spec (he : s.schedMakeReady t = some s') :
    (s'.tcb t).state = .ready ∧ (∀ u, u ≠ t → s'.tcb u = s.tcb u) ∧ s'.current = s.current ∧ s'.pc = s.pc := by
  obtain ⟨w, l, queue, rfl⟩ := schedMakeReady_eq he
  exact ⟨by simp only [setTcb, Function.update_self], fun u hu => setTcb_other _ hu, rfl, rfl⟩

/-- `wakeup` makes its thread ready, or does nothing. -/
theorem exec_wakeup {u : Ptr nc} (he : s.exec (.wakeup u) = some s') : s' = s ∨ s.schedMakeReady u = some s' := by
  simp only [State.exec, State.wakeup] at he
  split at he
  · rw [Option.map_map, Option.map_eq_some_iff] at he
    obtain ⟨s₁, hs₁, rfl⟩ := he
    exact .inr hs₁
  · cases he
    exact .inl rfl

/-- The scan leaves a thread alone, or makes it ready when its time has come. -/
theorem wakeupExpiredLoop_spec {n : Nat} (he : wakeupExpiredLoop clock n s = some s') (t : Ptr nc) :
    s'.current = s.current ∧ s'.pc = s.pc ∧
      (s'.tcb t = s.tcb t ∨ s.deadline t ≤ clock ∧ (s'.tcb t).state = .ready) := by
  induction n generalizing s with
  | zero =>
    cases he
    exact ⟨rfl, rfl, .inl rfl⟩
  | succ n ih =>
    unfold wakeupExpiredLoop at he
    split at he
    · cases he
      exact ⟨rfl, rfl, .inl rfl⟩
    · rename_i u l hl
      split at he
      · cases he
        exact ⟨rfl, rfl, .inl rfl⟩
      · rename_i hclock
        obtain ⟨s₁, hs₁, he⟩ := Option.bind_eq_some_iff.1 he
        obtain ⟨hready, hother, hcur, hpc⟩ := schedMakeReady_spec hs₁
        obtain ⟨hcur', hpc', hrest⟩ := ih he
        refine ⟨hcur'.trans hcur, hpc'.trans hpc, ?_⟩
        by_cases htu : t = u
        · subst htu
          refine .inr ⟨Nat.not_lt.1 hclock, ?_⟩
          rcases hrest with hsame | ⟨-, hst⟩
          · rw [hsame]
            exact hready
          · exact hst
        · rw [deadline, hother t htu] at hrest
          exact hrest

theorem boost_cores (s : State nc) : s.boost.current = s.current ∧ s.boost.pc = s.pc := by
  have hloop : ∀ (i n : Nat) (s : State nc), (boostLoop i n s).current = s.current ∧ (boostLoop i n s).pc = s.pc := by
    intro i n
    induction n with
    | zero => exact fun s => ⟨rfl, rfl⟩
    | succ n ih =>
      intro s
      cases hq : s.queue i with
      | nil =>
        rw [boostLoop, hq]
        exact ⟨rfl, rfl⟩
      | cons t rest =>
        rw [boostLoop_succ i n hq]
        exact ih _
  have hlevels : ∀ (n : Nat) (s : State nc), (boostLevels n s).current = s.current ∧ (boostLevels n s).pc = s.pc := by
    intro n
    induction n with
    | zero => exact fun s => ⟨rfl, rfl⟩
    | succ n ih =>
      intro s
      have h := hloop n (s.queue n).length s
      have h' := ih (boostLoop n (s.queue n).length s)
      exact ⟨h'.1.trans h.1, h'.2.trans h.2⟩
  unfold boost
  split
  · exact hlevels _ _
  · exact ⟨rfl, rfl⟩

/-- The section of `yield` leaves a thread alone, or makes it ready when its time has come. -/
theorem yieldSection_spec {remaining : Nat} (he : s.yieldSection c k remaining clock = some s') (t : Ptr nc) :
    (∀ c', c' ≠ c → s'.current c' = s.current c') ∧ s'.pc = Function.update s.pc c .switching ∧
      (((s'.tcb t).state = .stopped ↔ (s.tcb t).state = .stopped) ∧ s'.deadline t = s.deadline t ∨
        s.deadline t ≤ clock ∧ (s'.tcb t).state = .ready) := by
  have hleft := sameTimers_left s c k remaining
  obtain ⟨hcurrent, hpc⟩ := boost_cores (s.adjusted c k)
  rw [yieldSection_eq, Option.map_eq_some_iff] at he
  obtain ⟨s₁, hs₁, rfl⟩ := he
  obtain ⟨hcur₁, hpc₁, hscan⟩ := wakeupExpiredLoop_spec hs₁ t
  have hcur : s₁.current = s.current := hcur₁.trans hcurrent
  obtain ⟨next, queue, -, hsel⟩ := queueSelect_spec s₁ c
  rw [hcur] at hsel
  rw [hsel]
  have hnext : ∀ u, ((s₁.setTcb next { s₁.tcb next with its := quantum }).tcb u).state = (s₁.tcb u).state ∧
      ((s₁.setTcb next { s₁.tcb next with its := quantum }).tcb u).wakeupTime = (s₁.tcb u).wakeupTime := by
    intro u
    by_cases hu : u = next
    · subst hu
      simp
    · simp [setTcb_other _ hu]
  refine ⟨fun c' hc' => ?_, ?_, ?_⟩
  · exact (Function.update_of_ne hc' _ _).trans (congrFun hcur c')
  · exact congrArg (Function.update · c Pc.switching) (hpc₁.trans hpc)
  · rcases hscan with hsame | ⟨hd, hst⟩
    · refine .inl ⟨?_, ?_⟩
      · rw [(hnext t).1, hsame]
        exact hleft.stopped t
      · rw [deadline, (hnext t).2, hsame]
        exact congrFun hleft.deadline t
    · rw [hleft.deadline] at hd
      exact .inr ⟨hd, (hnext t).1.trans hst⟩

theorem gainPrevious_cores (he : s.gainPrevious t = some s') : s'.current = s.current ∧ s'.pc = s.pc := by
  unfold gainPrevious at he
  dsimp only at he
  split at he
  · split at he
    · obtain ⟨queue, rfl⟩ := schedQueueAdd_eq he
      exact ⟨rfl, rfl⟩
    · cases he
      exact ⟨rfl, rfl⟩
  · cases he
    exact ⟨rfl, rfl⟩
  · cases he
    exact ⟨rfl, rfl⟩
  · cases he
  · cases he

/-- `gain` makes the current thread run, and leaves the wake-up times of the others alone. -/
theorem gain_spec (he : s.gain c = some s') : s'.current = s.current ∧ s'.pc = Function.update s.pc c .running ∧
    (s'.tcb (s.current c)).state ≠ .stopped ∧ s'.deadline = s.deadline := by
  have hself : ((s.gainCurrent c).tcb (s.current c)).state ≠ .stopped := by simp [gainCurrent]
  have hdeadline : (s.gainCurrent c).deadline = s.deadline := by
    funext u
    rw [deadline, gainCurrent_tcb]
    split <;> rfl
  unfold gain at he
  split at he
  · cases he
  · split at he
    · obtain ⟨hcur, hpc⟩ := gainPrevious_cores he
      have hsame := sameTimers_gainPrevious he
      exact ⟨hcur, hpc, mt (hsame.stopped _).1 hself, hsame.deadline.trans hdeadline⟩
    · cases he
      exact ⟨rfl, rfl, hself, hdeadline⟩

/-! ## A thread that waits -/

/-- `t` is stopped, with wake-up time `w`; a core that is at `t` is on its way to `yield`. -/
structure Waiting (s : State nc) (t : Ptr nc) (w : Nat) : Prop where
  stopped : (s.tcb t).state = .stopped
  deadline : s.deadline t = w
  notRunning : ∀ c, s.current c = t → s.pc c ≠ .running

/-- A core that goes to a place where it does not run leaves the other cores as they are. -/
theorem update_ne_running {pc : Fin nc → Pc} {place : Pc} (hplace : place ≠ .running) {c c' : Fin nc}
    (hother : c' ≠ c → pc c' ≠ .running) : Function.update pc c place c' ≠ .running := by
  by_cases hcc : c' = c
  · rw [hcc, Function.update_self]
    exact hplace
  · rw [Function.update_of_ne hcc]
    exact hother hcc

/-- A step that does not end the wait. -/
theorem Waiting.step (h : s.Waiting t w) (hs : (freeSys nc).step s a = some s') (hst : (s'.tcb t).state = .stopped) :
    s'.Waiting t w := by
  obtain ⟨hen, he⟩ := freeSys_step.1 hs
  cases a with
  | spawn =>
    cases he
    have hne : t ≠ .thread s.spawned := by
      rintro rfl
      simp [State.spawnThread] at hst
    have htcb : (s.spawnThread).tcb t = s.tcb t := setTcb_other _ hne
    refine ⟨hst, ?_, h.notRunning⟩
    rw [State.deadline, htcb]
    exact h.deadline
  | wakeup u =>
    rcases exec_wakeup he with rfl | hready
    · exact h
    · obtain ⟨hready, hother, hcur, hpc⟩ := schedMakeReady_spec hready
      have hne : t ≠ u := by
        rintro rfl
        rw [hready] at hst
        cases hst
      refine ⟨hst, ?_, fun c hc => ?_⟩
      · rw [State.deadline, hother t hne]
        exact h.deadline
      · rw [hcur] at hc
        rw [hpc]
        exact h.notRunning c hc
  | sleep c st k timeout clock =>
    have hne : t ≠ s.current c := by
      rintro rfl
      exact h.notRunning c rfl hen.1
    have hslept : ∀ w' l, (s.slept c st k w' l).Waiting t w := fun w' l => by
      have htcb : (s.slept c st k w' l).tcb t = s.tcb t := setTcb_other _ hne
      refine ⟨by rw [htcb]; exact h.stopped, by rw [State.deadline, htcb]; exact h.deadline, fun c' hc' => ?_⟩
      show Function.update s.pc c (.slept k) c' ≠ .running
      exact update_ne_running (by simp) fun _ => h.notRunning c' hc'
    obtain ⟨-, ⟨-, rfl⟩ | ⟨-, -, rfl⟩⟩ := sleepReleasing_spec he
    · exact hslept _ _
    · exact hslept _ _
  | yield c k =>
    cases he
    refine ⟨h.stopped, h.deadline, fun c' hc' => ?_⟩
    show Function.update s.pc c (.yielding k) c' ≠ .running
    exact update_ne_running (by simp) fun _ => h.notRunning c' hc'
  | yieldSection c remaining clock =>
    simp only [State.exec] at he
    split at he
    · obtain ⟨hcur, hpc, ⟨-, hd⟩ | ⟨-, hready⟩⟩ := yieldSection_spec he t
      · refine ⟨hst, hd.trans h.deadline, fun c' hc' => ?_⟩
        rw [hpc]
        exact update_ne_running (by simp) fun hcc => h.notRunning c' ((hcur c' hcc).symm.trans hc')
      · rw [hready] at hst
        cases hst
    · cases he
  | gain c =>
    obtain ⟨hcur, hpc, hrun, hd⟩ := gain_spec he
    have hne : s.current c ≠ t := by
      rintro rfl
      exact hrun hst
    refine ⟨hst, (congrFun hd t).trans h.deadline, fun c' hc' => ?_⟩
    rw [hcur] at hc'
    rw [hpc]
    by_cases hcc : c' = c
    · subst hcc
      exact absurd hc' hne
    · rw [Function.update_of_ne hcc]
      exact h.notRunning c' hc'

/-- **Run lemma.** -/
theorem Waiting.run (h : s.Waiting t w) {as : List (Action nc)} (hr : (freeSys nc).run s as = some s')
    (hst : (freeSys nc).AllStates (fun s => (s.tcb t).state = .stopped) s as) : s'.Waiting t w := by
  induction as generalizing s with
  | nil =>
    cases hr
    exact h
  | cons a as ih =>
    obtain ⟨s₁, hs₁, hr⟩ := Lts.run_cons hr
    have hrest := hst.2 s₁ hs₁
    exact ih (h.step hs₁ hrest.head) hr hrest

/-- A thread that waits for a wake-up time not before `due` is on time. -/
theorem Waiting.onTime (h : s.Waiting t w) (hw : w ≠ noTimeout) {due : Nat} (hdue : due ≤ w) (since : Nat) :
    s.OnTime t due since := by
  intro as s₁ hr hst
  have h₁ := h.run hr hst
  refine ⟨fun _ => h₁.deadline.symm ▸ hw, fun c remaining clock s₂ hs₂ _ _ hends => ?_⟩
  obtain ⟨-, he⟩ := freeSys_step.1 hs₂
  simp only [State.exec] at he
  split at he
  · obtain ⟨-, -, ⟨hsame, -⟩ | ⟨hd, -⟩⟩ := yieldSection_spec he t
    · exact absurd (hsame.2 h₁.stopped) hends
    · rw [h₁.deadline] at hd
      exact hdue.trans hd
  · cases he

/-! ## Going to sleep -/

/-- The wake-up time. -/
def wakeAt (clock timeout : Nat) : Nat := (clock + timeout) % 2 ^ 64

theorem waiting_slept {l : List (Ptr nc)} (hcur : ∀ c', s.current c' = s.current c → c' = c) :
    (s.slept c .stopped k w l).Waiting (s.current c) w := by
  have htcb : (s.slept c .stopped k w l).tcb (s.current c) =
      { s.tcb (s.current c) with state := .stopped, wakeupTime := w } := setTcb_self _
  refine ⟨by rw [htcb], by rw [deadline, htcb], fun c' hc' => ?_⟩
  obtain rfl := hcur c' hc'
  simp [slept]

/-- A thread that sleeps until a time not before `due` is on time, from any state. -/
theorem onTime_of_le {timeout due : Nat} (hcur : ∀ c', s.current c' = s.current c → c' = c) (hto : timeout ≠ noTimeout)
    (he : s.sleepReleasing c .stopped k timeout clock = some s') (hw : wakeAt clock timeout ≠ noTimeout)
    (hdue : due ≤ wakeAt clock timeout) (since : Nat) : s'.OnTime (s.current c) due since := by
  obtain ⟨-, ⟨hno, -⟩ | ⟨-, -, rfl⟩⟩ := sleepReleasing_spec he
  · exact absurd hno (by simp [hto])
  · exact (waiting_slept hcur).onTime hw hdue since

/-- The current thread of a running core can go to sleep. -/
theorem Inv.sleeps (h : Inv s) (hpc : s.pc c = .running) (k : Cause) {timeout : Nat} (hto : timeout ≠ noTimeout)
    (clock : Nat) : s.sleepReleasing c .stopped k timeout clock = some (s.slept c .stopped k (wakeAt clock timeout)
      (insertTimeout (Function.update s.deadline (s.current c) (wakeAt clock timeout)) (s.current c) s.timeoutList)) := by
  have hlink : ∀ x y, ¬((s.setTcb (s.current c) x).setTcb (s.current c) y).Linked (s.current c) := by
    intro x y hl
    rcases h.linked (t := s.current c) hl with hst | ⟨-, hst, -⟩
    · rw [h.cur_running hpc] at hst
      cases hst
    · rw [h.cur_running hpc] at hst
      cases hst
  have hsome : (s.sleepReleasing c .stopped k timeout clock).isSome := by
    simp [State.sleepReleasing, schedRegisterTimeout, guard, hto, hlink]
  obtain ⟨s', hs'⟩ := Option.isSome_iff_exists.1 hsome
  obtain ⟨-, ⟨hno, -⟩ | ⟨-, -, rfl⟩⟩ := sleepReleasing_spec hs'
  · exact absurd hno (by simp [hto])
  · exact hs'

/-- The state after a call with a wake-up time: the invariant holds, and the timeout list is still in order. -/
theorem Inv.slept_timers {x : Nat × (Ptr nc → Nat)} (h : Inv s) (hx : s.InOrder x) (hpc : s.pc c = .running)
    (hni : s.current c ≠ .idle c) (k : Cause) {timeout clock : Nat} (hne : wakeAt clock timeout ≠ noTimeout)
    {l : List (Ptr nc)}
    (hl : l = insertTimeout (Function.update s.deadline (s.current c) (wakeAt clock timeout)) (s.current c)
      s.timeoutList) :
    let s₀ := s.slept c .stopped k (wakeAt clock timeout) l
    Inv s₀ ∧ s₀.InOrder (s.stamped (.sleep c .stopped k timeout clock) x) := by
  intro s₀
  have hnotin : s.current c ∉ s.timeoutList := fun hm => h.mem_timeout.1 hm (h.cur_noTimeout hpc)
  have hperm : l.Perm (s.current c :: s.timeoutList) := hl ▸ insertTimeout_perm _ _ _
  have hdeadline : s₀.deadline = Function.update s.deadline (s.current c) (wakeAt clock timeout) := deadline_setTcb _
  refine ⟨?_, ?_⟩
  · refine h.slept hpc hni k (.inl rfl) (fun u => ?_) (hperm.nodup_iff.2 (List.nodup_cons.2 ⟨hnotin, h.timeout_nodup⟩))
    rw [hperm.mem_iff, List.mem_cons]
    tauto
  · have hstep : TimerStep s s₀ (.sleep c .stopped k timeout clock) := by
      refine .insert c k timeout clock hnotin (fun u hu => ?_) ?_ (by rw [hdeadline]; exact hl)
      · rw [hdeadline, Function.update_of_ne]
        rintro rfl
        exact hnotin hu
      · rw [hdeadline, Function.update_self]
        rfl
    refine hstep.inOrder hx ?_
    rintro c' st k' timeout' clock' he
    cases he
    exact hnotin

/-- A thread that is on time has a wake-up time, and it is not before `due`, nor would a scan before `due` find it. -/
theorem Inv.le_of_onTime {x : Nat × (Ptr nc → Nat)} (h : Inv s) (hx : s.InOrder x) (hpc : s.pc c = .running)
    (hni : s.current c ≠ .idle c) {timeout due since : Nat} (hsince : since < 2 ^ 64) {l : List (Ptr nc)}
    (hl : l = insertTimeout (Function.update s.deadline (s.current c) (wakeAt clock timeout)) (s.current c)
      s.timeoutList)
    (hon : (s.slept c .stopped k (wakeAt clock timeout) l).OnTime (s.current c) due since) :
    wakeAt clock timeout ≠ noTimeout ∧ due ≤ max since (wakeAt clock timeout) := by
  set t := s.current c with ht
  set w := wakeAt clock timeout with hw
  set s₀ := s.slept c .stopped k w l with hs₀
  have hwait : s₀.Waiting t w := waiting_slept fun c' hc' => h.cur_inj hc'
  have hmem : t ∈ s₀.timeoutList := (hl ▸ insertTimeout_perm _ _ _ : l.Perm _).mem_iff.2 List.mem_cons_self
  -- before the thread has called `yield`
  have hne : w ≠ noTimeout := hwait.deadline ▸ (hon [] s₀ rfl hwait.stopped).1 hmem
  refine ⟨hne, ?_⟩
  obtain ⟨hinv₀, hx₀⟩ := h.slept_timers hx hpc hni k hne hl
  -- the scan that follows, at the later one of `since` and the wake-up time
  set s₁ : State nc := { s₀ with
    numofYields := s₀.numofYields + 1
    pc := Function.update s₀.pc c (.yielding k) } with hs₁
  have hpc₀ : s₀.pc c = .slept k := Function.update_self _ _ _
  have hpc₁ : s₁.pc c = .yielding k := Function.update_self _ _ _
  have hinv₁ : Inv s₁ := hinv₀.yielding (.inr hpc₀) _
  have hyield : (freeSys nc).step s₀ (.yield c k) = some s₁ := freeSys_step.2 ⟨.inr hpc₀, rfl⟩
  have hrun : (freeSys nc).run s₀ [.yield c k] = some s₁ := by
    rw [Lts.run, hyield]
    rfl
  have hall : (freeSys nc).AllStates (fun s => (s.tcb t).state = .stopped) s₀ [.yield c k] := by
    refine ⟨hwait.stopped, fun s' hs' => ?_⟩
    cases hyield.symm.trans hs'
    exact hwait.stopped
  obtain ⟨s₂, hs₂, -⟩ :=
    hinv₁.exec (a := .yieldSection c 0 (max since w)) (by simp [Enabled, hpc₁, Pc.isYielding])
  have hw64 : w < 2 ^ 64 := Nat.mod_lt _ (by decide)
  refine (hon _ _ hrun hall).2 c 0 (max since w) s₂ ?_ (by omega) (by omega) ?_
  · exact freeSys_step.2 ⟨by simp [Possible, Enabled, hpc₁, Pc.isYielding], hs₂⟩
  · simp only [State.exec, hpc₁] at hs₂
    obtain ⟨s₃, hscan, -, hstate⟩ := hinv₁.yieldSection_timers hpc₁ hx₀.ordered hs₂
    have hleft := sameTimers_left s₁ c k 0
    rw [hstate, hscan.ready t (by rw [hleft.list]; exact hmem) ?_]
    · simp
    · rw [hleft.deadline]
      show s₀.deadline t ≤ _
      rw [hwait.deadline]
      exact Nat.le_max_right _ _

end State

open State

/-- What a wake-up time modulo `2 ^ 64` is good for. -/
theorem TimedCall.kept_iff (call : TimedCall) {timeout clock since : Nat} (hv : call.Valid timeout)
    (hclock : clock < 2 ^ 64) (hsince : since ≤ clock) : call.duration timeout ≠ noTimeout ∧
      (call.Kept timeout clock → wakeAt clock (call.duration timeout) ≠ noTimeout ∧
        clock + 1000 * timeout ≤ wakeAt clock (call.duration timeout)) ∧
      (wakeAt clock (call.duration timeout) ≠ noTimeout ∧
        clock + 1000 * timeout ≤ max since (wakeAt clock (call.duration timeout)) → call.Kept timeout clock) := by
  cases call with
  | condTimedWait =>
    simp only [TimedCall.Valid, TimedCall.Kept, TimedCall.duration, wakeAt, noTimeout] at *
    omega
  | connect =>
    simp only [TimedCall.Valid, TimedCall.Kept, TimedCall.duration, wakeAt, noTimeout] at *
    omega

variable {s s' : State nc} {c : Fin nc} {timeout clock since : Nat}

/-- **No timed wait ends early**, exactly when the wake-up time is the one that was asked for. -/
theorem on_time_iff (hs : (sys nc).Reaches s) (hpc : s.pc c = .running) (hni : s.current c ≠ .idle c) (call : TimedCall)
    (hv : call.Valid timeout) (hclock : clock < 2 ^ 64) (hsince : since ≤ clock) :
    ∃ s', s.sleepReleasing c .stopped call.cause (call.duration timeout) clock = some s' ∧
      (s'.OnTime (s.current c) (clock + 1000 * timeout) since ↔ call.Kept timeout clock) := by
  obtain ⟨x, hx⟩ : ∃ x, (stampedSys nc).Reaches (s, x) := hs.exists_record
  obtain ⟨h, hx⟩ := stampedSys_reaches hx
  obtain ⟨hto, hgood, hbad⟩ := call.kept_iff hv hclock hsince
  have hsleeps := h.sleeps hpc call.cause hto clock
  refine ⟨_, hsleeps, fun hon => ?_, fun hk => ?_⟩
  · exact hbad (h.le_of_onTime hx hpc hni (by omega) rfl hon)
  · obtain ⟨hw, hdue⟩ := hgood hk
    exact onTime_of_le (fun c' hc' => h.cur_inj hc') hto hsleeps hw hdue since

/-- A thread that runs, and `Cond_TimedWait` with 5 milliseconds. -/
theorem on_time_iff_five : ∃ s : State 1, (sys 1).Reaches s ∧ s.pc 0 = .running ∧ s.current 0 = .thread 0 ∧
    ∃ s', s.sleepReleasing 0 .stopped .schedUser 5000 100 = some s' ∧
      (s'.OnTime (s.current 0) 5100 0 ↔ TimedCall.condTimedWait.Kept 5 100) := by
  have hrun : (((sys 1).run (State.boot 1)
      [.spawn, .wakeup (.thread 0), .yield 0 .schedIdle, .yieldSection 0 0 0, .gain 0]).map fun s =>
        (s.pc 0, s.current 0)) = some (.running, .thread 0) := by
    decide +kernel
  obtain ⟨s, hs, he⟩ := Option.map_eq_some_iff.1 hrun
  obtain ⟨hpc, hcur⟩ := Prod.mk.inj he
  have hr : (sys 1).Reaches s := Lts.reaches_of_run (.init rfl) hs
  have hni : s.current 0 ≠ .idle 0 := by
    rw [hcur]
    exact nofun
  exact ⟨s, hr, hpc, hcur, on_time_iff hr hpc hni .condTimedWait (by decide : (5 : Nat) < 2 ^ 64) (by decide : 100 < 2 ^ 64)
    (Nat.zero_le 100)⟩

/-- `sys_Connect` with 500 milliseconds at clock 0: the thread is ready again at clock 500. -/
theorem connect_expires_early : ∃ s s' : State 1, (sys 1).run (State.boot 1)
      [.spawn, .wakeup (.thread 0), .yield 0 .schedIdle, .yieldSection 0 0 0, .gain 0,
        .sleep 0 .stopped TimedCall.connect.cause (TimedCall.connect.duration 500) 0, .yield 0 .schedPipe] = some s ∧
    (s.tcb (.thread 0)).state = .stopped ∧ (sys 1).step s (.yieldSection 0 0 500) = some s' ∧
    (s'.tcb (.thread 0)).state = .ready ∧ 500 < 0 + 1000 * 500 := by
  have hrun : (((sys 1).run (State.boot 1)
      [.spawn, .wakeup (.thread 0), .yield 0 .schedIdle, .yieldSection 0 0 0, .gain 0,
        .sleep 0 .stopped TimedCall.connect.cause (TimedCall.connect.duration 500) 0, .yield 0 .schedPipe]).map fun s =>
        ((s.tcb (.thread 0)).state, ((sys 1).step s (.yieldSection 0 0 500)).map fun s' => (s'.tcb (.thread 0)).state)) =
      some (.stopped, some .ready) := by
    decide +kernel
  obtain ⟨s, hs, he⟩ := Option.map_eq_some_iff.1 hrun
  obtain ⟨hst, he⟩ := Prod.mk.inj he
  obtain ⟨s', hs', hready⟩ := Option.map_eq_some_iff.1 he
  exact ⟨s, s', hs, hst, hs', hready, by decide⟩

end TinyOS.Sched
