import Mathlib.Data.Nat.Basic
import TinyOS.Lib.Deadlines
import TinyOS.Sched.Sections

/-!
# `TIMEOUT_LIST`

The order of `TIMEOUT_LIST`, and what a scan of it does. A thread is stamped when it goes to sleep, so that the order of
the stamps is the order of insertion.
-/

namespace TinyOS.Sched

open Deadlines (Ordered)

variable {nc : Nat}

namespace State

variable {s s' : State nc} {t u : Ptr nc} {c : Fin nc} {k : Cause} {stamp : Ptr nc → Nat} {clock : Nat}

/-- `wakeup_time`. -/
def deadline (s : State nc) (t : Ptr nc) : Nat := (s.tcb t).wakeupTime

theorem insertTimeout_eq (w : Ptr nc → Nat) (t : Ptr nc) (l : List (Ptr nc)) :
    insertTimeout w t l = Deadlines.add w t l := by
  induction l with
  | nil => rfl
  | cons n l ih =>
    unfold insertTimeout Deadlines.add
    rw [ih]

/-! ## The scan -/

/-- The threads whose timeout has expired, in the order of the list. -/
def expired (s : State nc) (clock : Nat) : List (Ptr nc) := s.timeoutList.filter fun t => s.deadline t ≤ clock

/-- The threads of `l` leave `TIMEOUT_LIST` and become ready; those with a clean context are queued, in the order of
`l`. -/
def woken (s : State nc) (l : List (Ptr nc)) : State nc :=
  { s with
    tcb := fun u => if u ∈ l then { s.tcb u with state := .ready, wakeupTime := noTimeout } else s.tcb u
    timeoutList := s.timeoutList.filter (· ∉ l)
    queue := fun p => s.queue p ++ l.filter fun u => (s.tcb u).phase = .ctxClean ∧ (s.tcb u).priority = p }

theorem readied_eq_woken (hn : s.timeoutList.Nodup) (t : Ptr nc) : s.readied t = s.woken [t] := by
  unfold readied woken
  congr 1
  · funext u
    by_cases hu : u = t
    · subst hu
      simp
    · simp [hu]
  · funext p
    by_cases hp : (s.tcb t).phase = .ctxClean
    · by_cases hpr : (s.tcb t).priority = p
      · subst hpr
        simp [hp]
      · simp [hp, hpr, Function.update_of_ne (Ne.symm hpr)]
    · simp [hp]
  · rw [hn.erase_eq_filter]
    refine List.filter_congr fun u _ => ?_
    by_cases hu : u = t <;> simp [hu]

theorem woken_woken {l : List (Ptr nc)} (ht : t ∉ l) : (s.woken [t]).woken l = s.woken (t :: l) := by
  have hkeep : ∀ u, ((s.woken [t]).tcb u).phase = (s.tcb u).phase ∧ ((s.woken [t]).tcb u).priority = (s.tcb u).priority := by
    intro u
    by_cases hu : u = t <;> simp [woken, hu]
  show State.mk _ _ _ _ _ _ _ _ _ _ = State.mk _ _ _ _ _ _ _ _ _ _
  congr 1
  · funext u
    by_cases hu : u = t
    · subst hu
      simp [woken, ht]
    · simp [woken, hu]
  · funext p
    simp only [hkeep]
    simp only [woken, List.append_assoc, ← List.filter_append, List.singleton_append]
  · show ((s.timeoutList.filter _).filter _) = _
    rw [List.filter_filter]
    refine List.filter_congr fun u _ => ?_
    simp [Bool.and_comm]

/-- One thread after the other. -/
theorem foldl_readied {l : List (Ptr nc)} (hn : s.timeoutList.Nodup) (hl : l.Nodup) : l.foldl readied s = s.woken l := by
  induction l generalizing s with
  | nil => simp [woken]
  | cons t l ih =>
    obtain ⟨ht, hl⟩ := List.nodup_cons.1 hl
    rw [List.foldl_cons, ih (hn.erase t) hl, readied_eq_woken hn, woken_woken ht]

/-- **The loop.** It wakes up the threads that have expired, in the order of the list, and comes to an end. -/
theorem Inv.loop_eq (h : Inv s) (ho : Ordered s.deadline stamp s.timeoutList) {n : Nat} (hn : s.timeoutList.length ≤ n) :
    State.wakeupExpiredLoop clock n s = some ((s.expired clock).foldl State.readied s) := by
  induction n generalizing s with
  | zero =>
    have hnil : s.timeoutList = [] := List.eq_nil_of_length_eq_zero (Nat.le_zero.1 hn)
    rw [State.wakeupExpiredLoop, expired, hnil]
    rfl
  | succ n ih =>
    cases hl : s.timeoutList with
    | nil =>
      rw [expired, hl]
      simp [State.wakeupExpiredLoop, hl]
    | cons t l =>
      rw [hl] at ho hn
      by_cases hc : clock < s.deadline t
      · have hlt : clock < (s.tcb t).wakeupTime := hc
        rw [expired, hl, ho.expired_of_lt hc]
        simp [State.wakeupExpiredLoop, hl, hlt]
      · have hlt : ¬clock < (s.tcb t).wakeupTime := hc
        have ht : (s.tcb t).state = .stopped := h.timeout_stopped (h.mem_timeout.1 (by simp [hl]))
        have hnotin : t ∉ l := by
          have := h.timeout_nodup
          rw [hl] at this
          exact (List.nodup_cons.1 this).1
        have hkeys : ∀ u ∈ l, (s.readied t).deadline u = s.deadline u := fun u hu => by
          rw [deadline, readied_other (by rintro rfl; exact hnotin hu)]
          rfl
        have hrest : (s.readied t).timeoutList = l := by
          show s.timeoutList.erase t = l
          rw [hl, List.erase_cons_head]
        have hexp : s.expired clock = t :: (s.readied t).expired clock := by
          rw [expired, hl, List.filter_cons_of_pos (by simpa using hc), expired, hrest]
          congr 1
          exact List.filter_congr fun u hu => by rw [hkeys u hu]
        have hloop := ih (h.readied (.inl ht) (h.allocated (by simp [ht])))
          (by rw [hrest]; exact (ho.sublist (List.sublist_cons_self t l)).congr hkeys fun _ _ => rfl)
          (by rw [hrest]; exact Nat.le_of_succ_le_succ hn)
        rw [hexp, List.foldl_cons, ← hloop]
        simp [State.wakeupExpiredLoop, hl, hlt, h.makeReady (.inl ht)]

/-! ## What leaves the list alone -/

/-- `TIMEOUT_LIST` and the wake-up times are the same, and so are the stopped threads. -/
structure SameTimers (s s' : State nc) : Prop where
  list : s'.timeoutList = s.timeoutList
  deadline : s'.deadline = s.deadline
  stopped : ∀ u, (s'.tcb u).state = .stopped ↔ (s.tcb u).state = .stopped

theorem SameTimers.refl (s : State nc) : SameTimers s s := ⟨rfl, rfl, fun _ => Iff.rfl⟩

theorem SameTimers.trans {s₁ s₂ s₃ : State nc} (h : SameTimers s₁ s₂) (h' : SameTimers s₂ s₃) : SameTimers s₁ s₃ :=
  ⟨h'.list.trans h.list, h'.deadline.trans h.deadline, fun u => (h'.stopped u).trans (h.stopped u)⟩

theorem sameTimers_setTcb {x : Tcb} (hx : x.wakeupTime = (s.tcb t).wakeupTime)
    (hst : x.state = .stopped ↔ (s.tcb t).state = .stopped) : SameTimers s (s.setTcb t x) := by
  refine ⟨rfl, funext fun u => ?_, fun u => ?_⟩
  · by_cases hu : u = t
    · subst hu
      simp [State.deadline, hx]
    · simp [State.deadline, setTcb_other x hu]
  · by_cases hu : u = t
    · subst hu
      rw [setTcb_self]
      exact hst
    · rw [setTcb_other x hu]

theorem sameTimers_boostLoop (i n : Nat) (s : State nc) : SameTimers s (boostLoop i n s) := by
  induction n generalizing s with
  | zero => exact .refl s
  | succ n ih =>
    cases hq : s.queue i with
    | nil =>
      rw [boostLoop, hq]
      exact .refl s
    | cons t rest =>
      rw [boostLoop_succ i n hq]
      have hraise : SameTimers s (s.raise i t rest) :=
        ⟨rfl, funext fun u => (raise_keeps i rest u).2.2.2, fun u => by rw [(raise_keeps i rest u).2.1]⟩
      exact hraise.trans (ih _)

theorem sameTimers_boost (s : State nc) : SameTimers s s.boost := by
  have hlevels : ∀ (n : Nat) (s : State nc), SameTimers s (boostLevels n s) := by
    intro n
    induction n with
    | zero => exact .refl
    | succ n ih => exact fun s => (sameTimers_boostLoop n _ s).trans (ih _)
  unfold boost
  split
  · have h := hlevels (maxPriorities - 1) { s with numofYields := 0 }
    exact ⟨h.list, h.deadline, h.stopped⟩
  · exact .refl s

/-- The section of `yield` up to the scan. -/
theorem sameTimers_left (s : State nc) (c : Fin nc) (k : Cause) (remaining : Nat) :
    SameTimers s (s.left c k remaining) := by
  have hadjusted : SameTimers s (s.adjusted c k) := sameTimers_setTcb (by rfl) Iff.rfl
  refine (hadjusted.trans (sameTimers_boost _)).trans (sameTimers_setTcb (by rfl) ?_)
  obtain ⟨-, he | ⟨hrun, hready⟩⟩ := leaveCurrent_state k remaining ((s.adjusted c k).boost.tcb (s.current c))
  · rw [he]
  · rw [hrun, hready]
    simp

/-- The section of `yield` after the scan. -/
theorem sameTimers_switchTo (s : State nc) (c : Fin nc) (next : Ptr nc) (queue : Nat → List (Ptr nc)) :
    SameTimers s (s.switchTo c next queue) := by
  have h : SameTimers s (s.setTcb next { s.tcb next with its := quantum }) := sameTimers_setTcb (by rfl) Iff.rfl
  exact ⟨h.list, h.deadline, h.stopped⟩

theorem schedQueueAdd_eq (he : s.schedQueueAdd t = some s') : ∃ queue, s' = { s with queue := queue } := by
  unfold schedQueueAdd at he
  dsimp only at he
  split at he
  · cases he
  · cases he
    exact ⟨_, rfl⟩

theorem sameTimers_gainPrevious (he : s.gainPrevious t = some s') : SameTimers s s' := by
  have h : SameTimers s (s.setTcb t { s.tcb t with phase := .ctxClean }) := sameTimers_setTcb (by rfl) Iff.rfl
  have hadd : ∀ s₁ s₂ : State nc, SameTimers s s₁ → s₁.schedQueueAdd t = some s₂ → SameTimers s s₂ := by
    intro s₁ s₂ h₁ hs₂
    obtain ⟨queue, rfl⟩ := schedQueueAdd_eq hs₂
    exact ⟨h₁.list, h₁.deadline, h₁.stopped⟩
  unfold gainPrevious at he
  dsimp only at he
  split at he
  · split at he
    · exact hadd _ _ h he
    · cases he
      exact h
  · cases he
    exact ⟨h.list, h.deadline, h.stopped⟩
  · cases he
    exact h
  · cases he
  · cases he

theorem sameTimers_gain (he : s.gain c = some s') (hcur : (s.tcb (s.current c)).state ≠ .stopped) : SameTimers s s' := by
  have h : SameTimers s (s.setTcb (s.current c) { s.tcb (s.current c) with
      state := .running, phase := .ctxDirty, rts := (s.tcb (s.current c)).its }) :=
    sameTimers_setTcb (by rfl) (by simp [hcur])
  have hcurrent : SameTimers s (s.gainCurrent c) := ⟨h.list, h.deadline, h.stopped⟩
  unfold gain at he
  split at he
  · cases he
  · split at he
    · exact hcurrent.trans (sameTimers_gainPrevious he)
    · cases he
      exact hcurrent

/-! ## Steps -/

theorem deadline_setTcb (x : Tcb) : (s.setTcb t x).deadline = Function.update s.deadline t x.wakeupTime := by
  funext u
  by_cases hu : u = t
  · subst hu
    simp [deadline]
  · simp [deadline, setTcb_other x hu, hu]

theorem schedRegisterTimeout_spec {timeout : Nat} (hto : timeout ≠ noTimeout)
    (he : s.schedRegisterTimeout t timeout clock = some s') :
    s' = { s.setTcb t { s.tcb t with wakeupTime := (clock + timeout) % 2 ^ 64 } with
      timeoutList := insertTimeout (Function.update s.deadline t ((clock + timeout) % 2 ^ 64)) t s.timeoutList } := by
  unfold schedRegisterTimeout at he
  rw [if_pos hto] at he
  dsimp only at he
  split at he
  · cases he
  · cases he
    have h := deadline_setTcb (s := s) (t := t) { s.tcb t with wakeupTime := (clock + timeout) % 2 ^ 64 }
    simp only [← h]
    rfl

/-- `sleep_releasing`: without a timeout `TIMEOUT_LIST` is left alone. -/
theorem sleepReleasing_spec {st : ThreadState} {timeout : Nat} (he : s.sleepReleasing c st k timeout clock = some s') :
    (st = .stopped ∨ st = .exited) ∧
      ((st = .exited ∨ timeout = noTimeout) ∧ s' = s.slept c st k (s.deadline (s.current c)) s.timeoutList ∨
        st = .stopped ∧ timeout ≠ noTimeout ∧ s' = s.slept c st k ((clock + timeout) % 2 ^ 64)
          (insertTimeout (Function.update s.deadline (s.current c) ((clock + timeout) % 2 ^ 64)) (s.current c)
            s.timeoutList)) := by
  by_cases hst : st = .stopped ∨ st = .exited
  · refine ⟨hst, ?_⟩
    by_cases hto : st = .exited ∨ timeout = noTimeout
    · refine .inl ⟨hto, ?_⟩
      rcases hst with rfl | rfl
      · obtain rfl : timeout = noTimeout := by simpa using hto
        simp [sleepReleasing, schedRegisterTimeout, guard] at he
        exact he.symm
      · simp [sleepReleasing, guard] at he
        exact he.symm
    · obtain ⟨hne, htimed⟩ := not_or.1 hto
      obtain rfl : st = .stopped := hst.resolve_right hne
      have hbind : s.sleepReleasing c .stopped k timeout clock =
          ((s.setTcb (s.current c) { s.tcb (s.current c) with state := .stopped }).schedRegisterTimeout (s.current c)
            timeout clock).map fun s₁ => { s₁ with pc := Function.update s₁.pc c (.slept k) } := by
        simp [sleepReleasing, guard, Option.map_eq_bind]
      rw [hbind, Option.map_eq_some_iff] at he
      obtain ⟨s₁, hs₁, rfl⟩ := he
      refine .inr ⟨rfl, htimed, ?_⟩
      rw [schedRegisterTimeout_spec htimed hs₁, deadline_setTcb]
      simp [slept, setTcb]
  · simp [sleepReleasing, guard, hst] at he

/-- What a step does to `TIMEOUT_LIST`. -/
inductive TimerStep (s s' : State nc) : Action nc → Prop
  /-- The threads that stay in it stay in their order. -/
  | keep (a : Action nc) : s'.timeoutList.Sublist s.timeoutList → (∀ u ∈ s'.timeoutList, s'.deadline u = s.deadline u) →
      TimerStep s s' a
  | insert (c : Fin nc) (k : Cause) (timeout clock : Nat) : s.current c ∉ s.timeoutList →
      (∀ u ∈ s.timeoutList, s'.deadline u = s.deadline u) → s'.deadline (s.current c) = (clock + timeout) % 2 ^ 64 →
      s'.timeoutList = insertTimeout s'.deadline (s.current c) s.timeoutList →
      TimerStep s s' (.sleep c .stopped k timeout clock)

theorem SameTimers.timerStep (h : SameTimers s s') (a : Action nc) : TimerStep s s' a :=
  .keep a (by rw [h.list]) fun u _ => congrFun h.deadline u

theorem Inv.readied_timerStep (h : Inv s) (t : Ptr nc) (a : Action nc) : TimerStep s (s.readied t) a := by
  refine .keep a (List.erase_sublist) fun u hu => ?_
  have hne : u ≠ t := by
    rintro rfl
    exact h.timeout_nodup.not_mem_erase hu
  exact congrArg Tcb.wakeupTime (readied_other hne)

/-! ## The scan in `yield` -/

/-- The state after the scan. -/
structure Scanned (s : State nc) (clock : Nat) (s' : State nc) : Prop where
  list : s'.timeoutList = s.timeoutList.filter fun t => clock < s.deadline t
  ready : ∀ t ∈ s.timeoutList, s.deadline t ≤ clock →
    s'.tcb t = { s.tcb t with state := .ready, wakeupTime := noTimeout }
  other : ∀ t, ¬(t ∈ s.timeoutList ∧ s.deadline t ≤ clock) → s'.tcb t = s.tcb t
  queue : ∀ p, s'.queue p = s.queue p ++
    (s.expired clock).filter fun t => (s.tcb t).phase = .ctxClean ∧ (s.tcb t).priority = p

theorem mem_expired : t ∈ s.expired clock ↔ t ∈ s.timeoutList ∧ s.deadline t ≤ clock := by simp [expired]

theorem scanned_woken (s : State nc) (clock : Nat) : Scanned s clock (s.woken (s.expired clock)) where
  list := by
    refine List.filter_congr fun t ht => ?_
    simp [mem_expired, ht]
  ready t ht hd := if_pos (mem_expired.2 ⟨ht, hd⟩)
  other t hd := if_neg (mt mem_expired.1 hd)
  queue _ := rfl

theorem Inv.scan (h : Inv s) (ho : Ordered s.deadline stamp s.timeoutList) (clock : Nat) :
    ∃ s', (∀ n ≥ s.timeoutList.length, State.wakeupExpiredLoop clock n s = some s') ∧
      s' = (s.expired clock).foldl State.readied s ∧ Scanned s clock s' := by
  refine ⟨_, fun n hn => h.loop_eq ho hn, rfl, ?_⟩
  rw [foldl_readied h.timeout_nodup (l := s.expired clock) (h.timeout_nodup.filter _)]
  exact scanned_woken s clock

/-- A thread that the scan leaves in the list. -/
theorem Scanned.deadline_eq (h : Scanned s clock s') (hu : u ∈ s'.timeoutList) : s'.deadline u = s.deadline u := by
  rw [h.list, List.mem_filter, decide_eq_true_eq] at hu
  exact congrArg Tcb.wakeupTime (h.other u fun hx => absurd hx.2 (Nat.not_le.2 hu.2))

/-- The section of `yield`. -/
theorem Inv.yieldSection_timers (h : Inv s) (hpc : s.pc c = .yielding k) (ho : Ordered s.deadline stamp s.timeoutList)
    {remaining : Nat} (he : s.yieldSection c k remaining clock = some s') :
    ∃ s₁, Scanned (s.left c k remaining) clock s₁ ∧ SameTimers s₁ s' ∧ ∀ u, (s'.tcb u).state = (s₁.tcb u).state := by
  have hleft := sameTimers_left s c k remaining
  have ho' : Ordered (s.left c k remaining).deadline stamp (s.left c k remaining).timeoutList := by
    rw [hleft.list, hleft.deadline]
    exact ho
  obtain ⟨s₁, hloop, -, hscan⟩ := (h.left hpc remaining).scan ho' clock
  have hat : s.atSelect c k remaining clock = some s₁ := hloop _ (Nat.le_refl _)
  obtain ⟨s₁', hs₁', -, hsame⟩ := (h.left hpc remaining).wakeupExpired clock
  have hcur : s₁.current = s.current := by
    cases hat.symm.trans hs₁'
    exact hsame.current.trans (h.adjusted hpc).boost.2.current
  obtain ⟨next, queue, -, hsel⟩ := queueSelect_spec s₁ c
  rw [yieldSection_eq, hat, Option.map_some, ← hcur, hsel] at he
  obtain rfl := Option.some.inj he
  refine ⟨s₁, hscan, sameTimers_switchTo s₁ c next queue, fun u => ?_⟩
  by_cases hu : u = next
  · subst hu
    simp
  · simp [setTcb_other _ hu]

/-! ## Every step -/

theorem Inv.timerStep (h : Inv s) (ho : Ordered s.deadline stamp s.timeoutList) {a : Action nc}
    (hs : (sys nc).step s a = some s') : TimerStep s s' a := by
  obtain ⟨hen, he⟩ := step_eq_some.1 hs
  cases a with
  | spawn =>
    cases he
    refine .keep _ (List.Sublist.refl _) fun u hu => ?_
    have hne : u ≠ .thread s.spawned := by
      rintro rfl
      have := h.timeout_stopped (h.mem_timeout.1 hu)
      rw [h.fresh (Nat.le_refl _)] at this
      cases this
    exact congrArg Tcb.wakeupTime (setTcb_other _ hne)
  | wakeup t =>
    simp only [State.exec, State.wakeup] at he
    split at he
    · rename_i ht
      rw [h.makeReady ht] at he
      cases he
      exact h.readied_timerStep t _
    · cases he
      exact (SameTimers.refl s).timerStep _
  | sleep c st k timeout clock =>
    have hnoTimeout := h.cur_noTimeout hen.1
    have hnotin : s.current c ∉ s.timeoutList := fun hm => h.mem_timeout.1 hm hnoTimeout
    have hother : ∀ w l, ∀ u ∈ s.timeoutList, (s.slept c st k w l).deadline u = s.deadline u := by
      intro w l u hu
      have hne : u ≠ s.current c := by
        rintro rfl
        exact hnotin hu
      exact congrArg Tcb.wakeupTime (setTcb_other _ hne)
    obtain ⟨-, ⟨-, rfl⟩ | ⟨rfl, -, rfl⟩⟩ := sleepReleasing_spec he
    · exact .keep _ (List.Sublist.refl _) (hother _ _)
    · refine .insert c k timeout clock hnotin (hother _ _) (congrArg Tcb.wakeupTime (setTcb_self _)) ?_
      have hdeadline : ∀ w l, (s.slept c .stopped k w l).deadline = Function.update s.deadline (s.current c) w :=
        fun w l => deadline_setTcb _
      rw [hdeadline]
      rfl
  | yield c k =>
    cases he
    exact .keep _ (List.Sublist.refl _) fun _ _ => rfl
  | yieldSection c remaining clock =>
    simp only [State.exec] at he
    split at he
    · rename_i k hpc
      obtain ⟨s₁, hscan, hsame, -⟩ := h.yieldSection_timers hpc ho he
      have hleft := sameTimers_left s c k remaining
      refine .keep _ ?_ fun u hu => ?_
      · rw [hsame.list, hscan.list, ← hleft.list]
        exact List.filter_sublist
      · rw [hsame.list] at hu
        rw [congrFun hsame.deadline u, hscan.deadline_eq hu, hleft.deadline]
    · cases he
  | gain c =>
    have hready := h.cur_selected hen
    exact (sameTimers_gain he (by rw [hready]; simp)).timerStep _

/-! ## Stamps -/

/-- The number of calls of `sleep_releasing` so far, and the number of the latest one of each thread. -/
def stamped (s : State nc) (a : Action nc) (x : Nat × (Ptr nc → Nat)) : Nat × (Ptr nc → Nat) :=
  match a with
  | .sleep c _ _ _ _ => (x.1 + 1, Function.update x.2 (s.current c) x.1)
  | _ => x

/-- The list is in order, and its stamps are in use. -/
structure InOrder (s : State nc) (x : Nat × (Ptr nc → Nat)) : Prop where
  ordered : Ordered s.deadline x.2 s.timeoutList
  lt : ∀ u ∈ s.timeoutList, x.2 u < x.1

theorem TimerStep.inOrder {a : Action nc} {x : Nat × (Ptr nc → Nat)} (hs : TimerStep s s' a) (h : s.InOrder x)
    (hcur : ∀ c st k timeout clock, a = .sleep c st k timeout clock → s.current c ∉ s.timeoutList) :
    s'.InOrder (s.stamped a x) := by
  have hstamp : ∀ u ∈ s.timeoutList, (s.stamped a x).2 u = x.2 u ∧ x.1 ≤ (s.stamped a x).1 := by
    intro u hu
    cases a with
    | sleep c st k timeout clock =>
      have hne : u ≠ s.current c := by
        rintro rfl
        exact hcur c st k timeout clock rfl hu
      exact ⟨Function.update_of_ne hne _ _, Nat.le_succ _⟩
    | spawn | wakeup | yield | yieldSection | gain => exact ⟨rfl, Nat.le_refl _⟩
  cases hs with
  | keep _ hsub hdeadline =>
    refine ⟨(h.ordered.sublist hsub).congr hdeadline fun u hu => (hstamp u (hsub.subset hu)).1, fun u hu => ?_⟩
    obtain ⟨he, hle⟩ := hstamp u (hsub.subset hu)
    rw [he]
    exact Nat.lt_of_lt_of_le (h.lt u (hsub.subset hu)) hle
  | insert c k timeout clock hnotin hdeadline _ hlist =>
    have hold : ∀ u ∈ s.timeoutList, (s.stamped (.sleep c .stopped k timeout clock) x).2 u < x.1 := fun u hu => by
      rw [(hstamp u hu).1]
      exact h.lt u hu
    have hself : (s.stamped (.sleep c .stopped k timeout clock) x).2 (s.current c) = x.1 := Function.update_self _ _ _
    rw [insertTimeout_eq] at hlist
    refine ⟨?_, fun u hu => ?_⟩
    · rw [hlist]
      refine (h.ordered.congr hdeadline fun u hu => (hstamp u hu).1).add fun u hu => ?_
      rw [hself]
      exact hold u hu
    · rw [hlist] at hu
      rcases Deadlines.mem_add.1 hu with rfl | hu
      · rw [hself]
        exact Nat.lt_succ_self _
      · exact Nat.lt_succ_of_lt (hold u hu)

end State

open State

/-- The scheduler, with the stamps. -/
def stampedSys (nc : Nat) : Lts (State nc × (Nat × (Ptr nc → Nat))) (Action nc) :=
  (sys nc).record (fun _ => (0, fun _ => 0)) fun s a _ x => s.stamped a x

variable {s s' : State nc} {x : Nat × (Ptr nc → Nat)}

/-- **Run lemma.** -/
theorem stampedSys_reaches (hs : (stampedSys nc).Reaches (s, x)) : Inv s ∧ s.InOrder x := by
  refine hs.invariant (I := fun y => Inv y.1 ∧ y.1.InOrder y.2) ?_ ?_
  · rintro ⟨s, x⟩ ⟨hinit, -⟩
    obtain rfl : s = State.boot nc := hinit
    exact ⟨boot_inv, List.Pairwise.nil, fun u hu => by cases hu⟩
  · rintro ⟨s, x⟩ a ⟨s', x'⟩ ⟨h, hx⟩ he
    obtain ⟨hs, hx'⟩ := Lts.record_step.1 he
    dsimp only at hs hx' h hx ⊢
    obtain ⟨hen, hexec⟩ := step_eq_some.1 hs
    obtain ⟨s'', hs'', h'⟩ := h.exec hen
    cases hexec.symm.trans hs''
    refine ⟨h', ?_⟩
    rw [hx']
    refine (h.timerStep hx.ordered hs).inOrder hx ?_
    rintro c st k timeout clock rfl hm
    exact h.mem_timeout.1 hm (h.cur_noTimeout hen.1)

/-! ## Main theorem -/

structure TimeoutsInOrder (s : State nc) (stamp : Ptr nc → Nat) : Prop where
  sorted : s.timeoutList.Pairwise fun t u =>
    s.deadline t < s.deadline u ∨ s.deadline t = s.deadline u ∧ stamp t < stamp u
  /-- The call of `sched_wakeup_expired_timeouts` in `yield`. -/
  scan : ∀ c k remaining clock, s.pc c = .yielding k → ∃ s₁,
    (s.left c k remaining).timeoutList = s.timeoutList ∧ (s.left c k remaining).deadline = s.deadline ∧
    (∀ n ≥ s.timeoutList.length, wakeupExpiredLoop clock n (s.left c k remaining) = some s₁) ∧
    s₁ = (s.expired clock).foldl readied (s.left c k remaining) ∧ Scanned (s.left c k remaining) clock s₁
  /-- `wakeup` of a thread anywhere in the list. -/
  wakeup : ∀ t l₁ l₂, s.timeoutList = l₁ ++ t :: l₂ → ∃ s', s.wakeup t = some (true, s') ∧
    s'.timeoutList = l₁ ++ l₂ ∧ s'.tcb t = { s.tcb t with state := .ready, wakeupTime := noTimeout } ∧
    ∀ u, u ≠ t → s'.tcb u = s.tcb u

/-- **Timeouts expire in order.** -/
theorem timeouts_in_order (hs : (stampedSys nc).Reaches (s, x)) : TimeoutsInOrder s x.2 := by
  obtain ⟨h, hx⟩ := stampedSys_reaches hs
  refine ⟨hx.ordered, fun c k remaining clock hpc => ?_, fun t l₁ l₂ hl => ?_⟩
  · have hleft := sameTimers_left s c k remaining
    have hexp : (s.left c k remaining).expired clock = s.expired clock := by
      rw [expired, hleft.list, hleft.deadline]
      rfl
    have ho : Ordered (s.left c k remaining).deadline x.2 (s.left c k remaining).timeoutList := by
      rw [hleft.list, hleft.deadline]
      exact hx.ordered
    obtain ⟨s₁, hloop, hfold, hscan⟩ := (h.left hpc remaining).scan ho clock
    rw [hleft.list] at hloop
    exact ⟨s₁, hleft.list, hleft.deadline, hloop, by rw [hfold, hexp], hscan⟩
  · have hmem : t ∈ s.timeoutList := by
      rw [hl]
      simp
    have ht := h.timeout_stopped (h.mem_timeout.1 hmem)
    have hnotin : t ∉ l₁ := fun hm => by
      have hn := h.timeout_nodup
      rw [hl] at hn
      exact (List.nodup_append.1 hn).2.2 t hm t List.mem_cons_self rfl
    refine ⟨s.readied t, ?_, ?_, readied_self, fun u hu => readied_other hu⟩
    · simp [State.wakeup, ht, h.makeReady (.inl ht)]
    · show s.timeoutList.erase t = l₁ ++ l₂
      rw [hl, List.erase_append_right _ hnotin, List.erase_cons_head]

/-- Two cores; the thread that goes to sleep last wakes up first. -/
theorem timeouts_in_order_two : ∃ s x, (stampedSys 2).Reaches (s, x) ∧ s.timeoutList = [.thread 1, .thread 0] ∧
    TimeoutsInOrder s x.2 := by
  have hrun : (((stampedSys 2).run (State.boot 2, (0, fun _ => 0))
      [.spawn, .wakeup (.thread 0), .spawn, .wakeup (.thread 1), .yield 0 .schedIdle, .yieldSection 0 0 0, .gain 0,
        .yield 1 .schedIdle, .yieldSection 1 0 0, .gain 1, .sleep 0 .stopped .schedUser 9 0,
        .sleep 1 .stopped .schedUser 5 1]).map fun y => y.1.timeoutList) = some [.thread 1, .thread 0] := by
    decide +kernel
  obtain ⟨⟨s, x⟩, hs, hl⟩ := Option.map_eq_some_iff.1 hrun
  have hinit : (stampedSys 2).Reaches (State.boot 2, (0, fun _ => 0)) := .init ⟨rfl, rfl⟩
  have hr : (stampedSys 2).Reaches (s, x) := Lts.reaches_of_run hinit hs
  exact ⟨s, x, hr, hl, timeouts_in_order hr⟩

end TinyOS.Sched
