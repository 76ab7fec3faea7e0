import TinyOS.Proc.Table

/-!
# What threads wait for

- `step_waits`: a step makes a thread wait for a child only if its PCB is in use, and only threads of init wait in
  `sys_Exit`.
-/

namespace TinyOS.Proc

namespace State

variable {s s' : State} {cur p q : Pid} {i : ThreadId} {own tid : Tid} {w : Wait}

/-- A thread of `q` waits for `w`, or has been woken from it. -/
def Waits (s : State) (q : Pid) (w : Wait) : Prop :=
  ∃ th ∈ s.threads, th.ownerPcb = q ∧ ∃ woken, th.place = .waiting w woken

/-- What a thread of `q` may begin to wait for. -/
def MayWait (s : State) (q : Pid) : Wait → Prop
  | .specificChild child => s.tree.pstate child ≠ .free
  | .exitOfInit _ => q = initPid
  | .anyChild | .join _ => True

/-- Thread `i` belongs to `q`. -/
def Owns (s : State) (q : Pid) (i : ThreadId) : Prop := (s.threads[i]?).map Thread.ownerPcb = some q

theorem waits_modify {f : Thread → Thread} (pl : Place)
    (h : ∃ th ∈ s.threads.modify i f, th.ownerPcb = q ∧ ∃ woken, th.place = .waiting w woken)
    (hf : ∀ th, (f th).ownerPcb = th.ownerPcb ∧ (f th).place = pl) :
    s.Waits q w ∨ s.Owns q i ∧ ∃ woken, pl = .waiting w woken := by
  obtain ⟨th, hth, hq, woken, hp⟩ := h
  obtain ⟨j, hj⟩ := List.mem_iff_getElem?.1 hth
  by_cases hij : i = j
  · subst hij
    rw [List.getElem?_modify_eq] at hj
    obtain ⟨th₀, h₀, rfl⟩ := Option.map_eq_some_iff.1 hj
    exact .inr ⟨by rw [Owns, h₀, Option.map_some, ← hq, (hf th₀).1], woken, (hf th₀).2.symm.trans hp⟩
  · rw [List.getElem?_modify_ne _ _ hij] at hj
    exact .inl ⟨th, List.mem_of_getElem? hj, hq, woken, hp⟩

theorem waits_ret {v : Int} {out : Option Int} (h : (s.ret i v out).Waits q w) : s.Waits q w :=
  (waits_modify .user h fun _ => ⟨rfl, rfl⟩).resolve_right fun ⟨_, _, h⟩ => by cases h

theorem waits_exited (h : (s.setPlace i .exited).Waits q w) : s.Waits q w :=
  (waits_modify .exited h fun _ => ⟨rfl, rfl⟩).resolve_right fun ⟨_, _, h⟩ => by cases h

theorem waits_wait {w' : Wait} (h : (s.wait i w').Waits q w) : s.Waits q w ∨ s.Owns q i ∧ w = w' := by
  refine (waits_modify (.waiting w' false) h fun _ => ⟨rfl, rfl⟩).imp_right fun ⟨ho, _, h⟩ => ⟨ho, ?_⟩
  cases h
  rfl

theorem waits_wake {on : Thread → Wait → Bool} (h : (s.wake on).Waits q w) : s.Waits q w := by
  obtain ⟨th, hth, hq, woken, hp⟩ := h
  obtain ⟨th₀, h₀, rfl⟩ := List.mem_map.1 hth
  refine ⟨th₀, h₀, (Thread.wake_ownerPcb th₀ on).symm.trans hq, ?_⟩
  unfold Thread.wake at hp
  split at hp
  · rename_i w' b hw
    split at hp
    · cases hp
      exact ⟨b, hw⟩
    · exact ⟨woken, hp⟩
  · exact ⟨woken, hp⟩

theorem waits_startThread (task : Task) (argl : Int) (args : Args)
    (h : (s.startThread p tid task argl args).Waits q w) : s.Waits q w := by
  obtain ⟨th, hth, hq, woken, hp⟩ := h
  rcases List.mem_append.1 hth with hth | hth
  · exact ⟨th, hth, hq, woken, hp⟩
  · obtain rfl := List.mem_singleton.1 hth
    cases hp

theorem sysExec_waits {call : Option Task} {argl : Int} {args : Args}
    (h : (s.sysExec cur tid call argl args).2.Waits q w) : s.Waits q w := by
  unfold sysExec at h
  cases ht : s.tree.exec cur with
  | none =>
    rw [ht] at h
    exact h
  | some r =>
    rw [ht] at h
    have hsetup : ∀ h : (s.setupProcess cur r.1 r.2 call argl args).Waits q w, s.Waits q w := by
      unfold setupProcess
      dsimp only
      split <;> exact fun h => h
    cases call with
    | none => exact hsetup h
    | some task => exact hsetup (waits_startThread task argl args h)

theorem exitProcess_waits (he : s.exitProcess p = some s') (h : s'.Waits q w) : s.Waits q w := by
  unfold exitProcess at he
  obtain ⟨t, -, rfl⟩ := Option.map_eq_some_iff.1 he
  have hreport : ∀ h : (s.reportExit p t).Waits q w, s.Waits q w := by
    unfold reportExit broadcastChildExit
    intro h
    dsimp only at h
    split at h <;> split at h
    all_goals first | exact waits_wake (waits_wake h) | exact waits_wake h | exact h
  dsimp only at h
  split at h
  · exact hreport h
  · exact h

theorem sysThreadExit_waits {exitval : Int} (he : s.sysThreadExit i cur own exitval = some s') (h : s'.Waits q w) :
    s.Waits q w := by
  unfold sysThreadExit at he
  obtain ⟨x, hx, he⟩ := Option.bind_eq_some_iff.1 he
  obtain ⟨s₂, h₂, rfl⟩ := Option.map_eq_some_iff.1 he
  have hwake : ∀ s₁ : State, (if (s₁.pcb cur).threadCounter = 0 then s₁.exitProcess cur else some s₁) = some s₂ →
      s₁.Waits q w := by
    intro s₁ h₁
    split at h₁
    · exact exitProcess_waits h₁ (waits_exited h)
    · cases h₁
      exact waits_exited h
  have := hwake _ h₂
  split at this
  · exact waits_wake this
  · exact this

theorem joinLoop_waits (he : s.joinLoop i cur tid = some s') (h : s'.Waits q w) : s.Waits q w ∨ w = .join tid := by
  unfold joinLoop at he
  obtain ⟨x, hx, rfl⟩ := Option.map_eq_some_iff.1 he
  dsimp only at h
  split at h
  · exact (waits_wait h).imp_right And.right
  · split at h
    · exact .inl (waits_ret h)
    · have := waits_ret h
      split at this <;> exact .inl this

theorem sysThreadJoin_waits (he : s.sysThreadJoin i cur own tid = some s') (h : s'.Waits q w) :
    s.Waits q w ∨ w = .join tid := by
  unfold sysThreadJoin at he
  split at he
  · cases he
    exact .inl (waits_ret h)
  · split at he
    · cases he
      exact .inl (waits_ret h)
    · exact joinLoop_waits (s := s.setPtcb _ _) he h

theorem sysThreadDetach_waits (h : (s.sysThreadDetach i cur tid).Waits q w) : s.Waits q w := by
  unfold sysThreadDetach at h
  split at h
  · exact waits_ret h
  · split at h
    · exact waits_ret h
    · exact waits_wake (waits_ret h)

theorem specificLoop_waits {child : Pid} (h : (s.specificLoop i cur child).Waits q w) :
    s.Waits q w ∨ s.MayWait q w := by
  unfold specificLoop at h
  split at h
  · rename_i hal
    refine (waits_wait h).imp_right ?_
    rintro ⟨-, rfl⟩
    simp [MayWait, hal]
  · exact .inl (waits_ret h)

theorem waitForSpecificChild_waits {cpid : Int} (h : (s.waitForSpecificChild i cur cpid).Waits q w) :
    s.Waits q w ∨ s.MayWait q w := by
  unfold waitForSpecificChild at h
  split at h
  · exact .inl (waits_ret h)
  · split at h
    · exact .inl (waits_ret h)
    · exact specificLoop_waits h

theorem waitForAnyChild_waits (he : s.waitForAnyChild i cur = some s') (h : s'.Waits q w) :
    s.Waits q w ∨ w = .anyChild := by
  unfold waitForAnyChild at he
  split at he
  · cases he
    exact .inl (waits_ret h)
  · split at he
    · cases he
      exact .inl (waits_ret h)
    · cases he
  · cases he
    exact (waits_wait h).imp_right And.right

theorem exitLoop_waits {exitval : Int} : ∀ (n : Nat) {s : State}, s.exitLoop i cur own exitval n = some s' →
    s'.Waits q w → s.Waits q w ∨ s.Owns q i ∧ w = .exitOfInit exitval := by
  intro n
  induction n with
  | zero => intro s he; cases he
  | succ n ih =>
    intro s he h
    unfold exitLoop at he
    split at he
    · exact .inl (sysThreadExit_waits he h)
    · split at he
      · exact ih (s := s.cleanupZombie cur _) he h
      · cases he
    · cases he
      exact waits_wait h

/-- What threads begin to wait for. -/
theorem step_waits {a : Action} (hs : s.step a = some s') (h : s'.Waits q w) : s.Waits q w ∨ s.MayWait q w := by
  obtain ⟨i, call, th, rfl, hi, hp, he⟩ | ⟨i, w₀, th, rfl, hi, hp, he⟩ := step_cases hs
  · cases call with
    | exec tid call argl args =>
      simp only [perform] at he
      split at he
      · cases he
        exact .inl (sysExec_waits (waits_ret h))
      · cases he
    | createThread tid task argl args =>
      simp only [perform] at he
      split at he
      · cases he
        exact .inl (waits_startThread task argl args (waits_ret h))
      · cases he
    | threadJoin tid =>
      refine (sysThreadJoin_waits he h).imp_right ?_
      rintro rfl
      trivial
    | threadDetach tid =>
      cases he
      exact .inl (sysThreadDetach_waits h)
    | threadExit exitval => exact .inl (sysThreadExit_waits he h)
    | exit exitval =>
      simp only [perform, sysExit] at he
      split at he
      · rename_i hinit
        refine (exitLoop_waits (s := s.setPcb _ _) _ he h).imp_right ?_
        rintro ⟨ho, rfl⟩
        have ho : s.Owns q i := ho
        rw [Owns, hi, Option.map_some] at ho
        exact (Option.some.inj ho).symm.trans hinit
      · exact .inl (sysThreadExit_waits (s := s.setPcb _ _) he h)
    | waitChild cpid =>
      simp only [perform, sysWaitChild] at he
      split at he
      · cases he
        exact waitForSpecificChild_waits h
      · refine (waitForAnyChild_waits he h).imp_right ?_
        rintro rfl
        trivial
    | file call =>
      obtain ⟨v, -, rfl⟩ := Option.map_eq_some_iff.1 he
      exact .inl h
  · cases w₀ with
    | specificChild child =>
      cases he
      exact specificLoop_waits h
    | anyChild =>
      refine (waitForAnyChild_waits he h).imp_right ?_
      rintro rfl
      trivial
    | exitOfInit exitval =>
      refine .inl ((exitLoop_waits _ he h).elim id ?_)
      rintro ⟨ho, rfl⟩
      rw [Owns, hi, Option.map_some] at ho
      exact ⟨th, List.mem_of_getElem? hi, Option.some.inj ho, true, hp⟩
    | join tid =>
      refine (joinLoop_waits he h).imp_right ?_
      rintro rfl
      trivial

/-- At the start no thread waits. -/
theorem boot_waits {initTask : Task} {argl : Int} {args : Args} : ¬(boot tid initTask argl args).Waits q w := by
  intro h
  obtain ⟨th, hth, -⟩ := sysExec_waits (sysExec_waits h)
  cases hth

end State

end TinyOS.Proc
