import TinyOS.Sched.Steps

/-!
# What the scheduler guarantees

The two properties that `kernel_sched.h` asks of the scheduler, for every reachable state.

- `queues_consistent`: which threads are in a scheduler queue and which in `TIMEOUT_LIST`;
- `switches_safe`: which thread a core may switch to, and that no assertion fails.
-/

namespace TinyOS.Sched

open State

variable {nc : Nat}

/-- `t` is in one scheduler queue, once. -/
def State.InOneQueue (s : State nc) (t : Ptr nc) : Prop :=
  ∃ i < maxPriorities, (s.queue i).count t = 1 ∧ ∀ j, j ≠ i → t ∉ s.queue j

structure QueuesConsistent (s : State nc) : Prop where
  queue : ∀ t, (s.tcb t).type = .normalThread →
    (s.InOneQueue t ↔ (s.tcb t).state = .ready ∧ (s.tcb t).phase = .ctxClean ∧ ∀ c, ¬s.Selected c t)
  queue_only : ∀ t i, t ∈ s.queue i → s.InOneQueue t
  timeout : ∀ t, (s.tcb t).type = .normalThread →
    (s.timeoutList.count t = 1 ↔ (s.tcb t).wakeupTime ≠ noTimeout)
  timeout_only : ∀ t ∈ s.timeoutList, s.timeoutList.count t = 1
  stopped : ∀ t, (s.tcb t).wakeupTime ≠ noTimeout → (s.tcb t).state = .stopped
  disjoint : ∀ t i, ¬(t ∈ s.timeoutList ∧ t ∈ s.queue i)
  idle : ∀ t, (s.tcb t).type = .idleThread → t ∉ s.timeoutList ∧ ∀ i, t ∉ s.queue i

structure SwitchesSafe (s : State nc) : Prop where
  current : ∀ c c', s.current c = s.current c' → c = c'
  idle : ∀ c c', s.current c = .idle c' → c = c'
  next : ∀ c remaining clock s', (sys nc).step s (.yieldSection c remaining clock) = some s' →
    s'.current c = s.current c ∨
      (s'.tcb (s'.current c)).phase = .ctxClean ∧ ∀ c', c' ≠ c → s'.current c' ≠ s'.current c
  assertions : ∀ a, s.Enabled a → ((sys nc).step s a).isSome

namespace State

variable {s s' : State nc} {t : Ptr nc}

theorem Inv.type_normal (h : Inv s) (ht : (s.tcb t).type = .normalThread) : ∃ n, t = .thread n := by
  cases t with
  | idle c => rw [h.idle_type] at ht; cases ht
  | thread n => exact ⟨n, rfl⟩

theorem Inv.type_idle (h : Inv s) (ht : (s.tcb t).type = .idleThread) : ∃ c, t = .idle c := by
  cases t with
  | idle c => exact ⟨c, rfl⟩
  | thread n => rw [h.thread_type] at ht; cases ht

theorem Inv.inOneQueue (h : Inv s) : s.InOneQueue t ↔ s.Runnable t := by
  constructor
  · rintro ⟨i, -, hc, -⟩
    exact (h.mem_queue.1 (List.count_pos_iff.1 (by omega : 0 < (s.queue i).count t))).2
  · intro hr
    refine ⟨(s.tcb t).priority, h.priority_lt, List.count_eq_one_of_mem h.queue_nodup (h.mem_queue.2 ⟨rfl, hr⟩), ?_⟩
    intro j hj hm
    exact hj (h.mem_queue.1 hm).1.symm

/-- An idle thread never stops. -/
theorem Inv.idle_not_stopped (h : Inv s) (c : Fin nc) : (s.tcb (.idle c)).state ≠ .stopped := by
  rcases h.idle_state (c := c) with hi | hi <;> rw [hi] <;> simp

/-- What `yield` selects is the current thread again, or a thread that no core is at. -/
theorem Inv.next (h : Inv s) {c : Fin nc} {remaining clock : Nat}
    (he : s.exec (.yieldSection c remaining clock) = some s') :
    s'.current c = s.current c ∨
      (s'.tcb (s'.current c)).phase = .ctxClean ∧ ∀ c', c' ≠ c → s'.current c' ≠ s'.current c := by
  cases hpc : s.pc c with
  | yielding k =>
    obtain ⟨s₁, next, queue, hy, h₁, hcur, -, -, -, hsel⟩ := h.yieldSection hpc remaining clock
    simp only [State.exec, hpc, hy, Option.some.injEq] at he
    subst he
    have hnext : (s₁.switchTo c next queue).current c = next := by simp [State.switchTo]
    rw [hnext]
    rcases hsel.clean with hc | hc
    · exact .inl (hc.trans (congrFun hcur c))
    · refine .inr ⟨?_, fun c' hne => ?_⟩
      · rw [switchTo_keeps]
        exact hc
      · simpa [State.switchTo, Function.update_of_ne hne] using hsel.other hne
  | running => simp [State.exec, hpc] at he
  | slept k => simp [State.exec, hpc] at he
  | switching => simp [State.exec, hpc] at he

end State

/-! ## Main theorems -/

/-- **Queue invariant.** A normal thread is in a scheduler queue exactly when it is `READY`, `CTX_CLEAN` and selected by
no core, and in `TIMEOUT_LIST` exactly when it waits for a timeout. -/
theorem queues_consistent {s : State nc} (hs : (sys nc).Reaches s) : QueuesConsistent s := by
  have h := reaches_inv hs
  refine ⟨fun t ht => ?_, fun t i hm => h.inOneQueue.2 (h.mem_queue.1 hm).2, fun t _ => ?_,
    fun t hm => List.count_eq_one_of_mem h.timeout_nodup hm, fun t hw => h.timeout_stopped hw, ?_, ?_⟩
  · rw [h.inOneQueue]
    exact ⟨And.right, fun hr => ⟨h.type_normal ht, hr⟩⟩
  · rw [← h.mem_timeout]
    refine ⟨fun hc => List.count_pos_iff.1 (by omega), fun hm => List.count_eq_one_of_mem h.timeout_nodup hm⟩
  · rintro t i ⟨hm, hq⟩
    have hst := h.timeout_stopped (h.mem_timeout.1 hm)
    rw [(h.mem_queue.1 hq).2.2.1] at hst
    cases hst
  · intro t ht
    obtain ⟨c, rfl⟩ := h.type_idle ht
    refine ⟨fun hm => h.idle_not_stopped c (h.timeout_stopped (h.mem_timeout.1 hm)), fun i hm => ?_⟩
    obtain ⟨n, hn⟩ := (h.mem_queue.1 hm).2.1
    cases hn

/-- Two cores, a thread asleep with a timeout and a thread in the queue. -/
theorem queues_consistent_two_cores : ∃ s, (sys 2).run (State.boot 2)
      [.spawn, .wakeup (.thread 0), .yield 0 .schedIdle, .yieldSection 0 0 0, .gain 0,
        .sleep 0 .stopped .schedUser 5 0, .spawn, .wakeup (.thread 1)] = some s ∧
    s.timeoutList = [.thread 0] ∧ s.queue 999 = [.thread 1] ∧ QueuesConsistent s := by
  have hrun : (((sys 2).run (State.boot 2)
      [.spawn, .wakeup (.thread 0), .yield 0 .schedIdle, .yieldSection 0 0 0, .gain 0,
        .sleep 0 .stopped .schedUser 5 0, .spawn, .wakeup (.thread 1)]).map fun s => (s.timeoutList, s.queue 999)) =
      some ([.thread 0], [.thread 1]) := by
    decide +kernel
  obtain ⟨s, hs, he⟩ := Option.map_eq_some_iff.1 hrun
  obtain ⟨htl, hq⟩ : s.timeoutList = [.thread 0] ∧ s.queue 999 = [.thread 1] := by simpa using he
  exact ⟨s, hs, htl, hq, queues_consistent (Lts.reaches_of_run (.init rfl) hs)⟩

/-- **Context switches are safe.** No thread is at two cores, `yield` goes on with the current thread or takes one
whose context is saved, and no assertion fails. -/
theorem switches_safe {s : State nc} (hs : (sys nc).Reaches s) : SwitchesSafe s := by
  have h := reaches_inv hs
  refine ⟨fun c c' => h.cur_inj, fun c c' => h.cur_idle, fun c r k s' he => ?_, fun a ha => ?_⟩
  · exact h.next (by simpa [sys] using And.right (by simpa [sys] using he))
  · obtain ⟨s', he, -⟩ := h.exec ha
    simp [sys, ha, he]

/-- A thread woken up while its core switches away from it. -/
theorem switches_safe_woken_leaving : ∃ s, (sys 2).run (State.boot 2)
      [.spawn, .wakeup (.thread 0), .yield 0 .schedIdle, .yieldSection 0 0 0, .gain 0,
        .sleep 0 .stopped .schedUser 5 0, .yield 0 .schedUser, .yieldSection 0 0 0, .wakeup (.thread 0),
        .yield 1 .schedIdle] = some s ∧
    s.Leaving 0 (.thread 0) ∧ s.Enabled (.yieldSection 1 0 0) ∧ SwitchesSafe s := by
  have hrun : (((sys 2).run (State.boot 2)
      [.spawn, .wakeup (.thread 0), .yield 0 .schedIdle, .yieldSection 0 0 0, .gain 0,
        .sleep 0 .stopped .schedUser 5 0, .yield 0 .schedUser, .yieldSection 0 0 0, .wakeup (.thread 0),
        .yield 1 .schedIdle]).map fun s => (s.pc 0, s.previous 0, s.pc 1)) =
      some (.switching, some (.thread 0), .yielding .schedIdle) := by
    decide +kernel
  obtain ⟨s, hs, he⟩ := Option.map_eq_some_iff.1 hrun
  obtain ⟨hpc, hprev, hpc'⟩ : s.pc 0 = .switching ∧ s.previous 0 = some (.thread 0) ∧ s.pc 1 = .yielding .schedIdle := by
    simpa using he
  exact ⟨s, hs, ⟨hpc, hprev⟩, by simp [State.Enabled, hpc', Pc.isYielding],
    switches_safe (Lts.reaches_of_run (.init rfl) hs)⟩

end TinyOS.Sched
