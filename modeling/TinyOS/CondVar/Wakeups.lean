import Mathlib.Data.List.Nodup
import TinyOS.CondVar.Model

/-!
# No wake-up is lost or used twice

The invariant of the condition variable. Under `waitset_lock` one thread at a time changes the ring and the waiters,
so at most one waiter is between its removal and its mark: the target of the call that has the lock. Every other
waiter is in the ring, or is awake and knows whether a signal woke it.
-/

namespace TinyOS.CondVar

open Sched

variable {T M : Type}

/-! ## The invariant -/

/-- The thread has `waitset_lock`. -/
def Pc.holds : Pc T M → Bool
  | .enqueued .. | .releasing .. | .tidied _ | .sigTest _ | .sigWakeup .. | .sigMark .. | .sigUnlock _ => true
  | _ => false

/-- The waiter of the thread has been put into the ring, and not yet tidied up. -/
def Pc.queued : Pc T M → Bool
  | .enqueued .. | .releasing .. | .asleep _ => true
  | _ => false

/-- The waiter that a call has removed and not yet marked, and whether it has woken it up. -/
def Pc.target : Pc T M → Option (T × Bool)
  | .sigWakeup _ w => some (w, false)
  | .sigMark _ w => some (w, true)
  | _ => none

/-- What holds of a thread, given the target of the call that has the lock. -/
def ThreadOk (target : Option (T × Bool)) (t : T) (x : Thread T M) : Prop :=
  match x.pc with
  | .task => True
  | .waitLock .. | .enqueued .. | .releasing .. => Sleeper.Awake x.sched ∧ x.waiter = ⟨false, false⟩
  | .asleep _ =>
    (x.waiter.signalled = true → x.waiter.removed = true) ∧
    ((x.sched.state = .stopped ∧ x.wokenBy = .nobody ∧ x.waiter.signalled = false ∧
        (x.waiter.removed = true → target = some (t, false))) ∨
      (Sleeper.Awake x.sched ∧
        (x.wokenBy = .signal ↔ x.waiter.signalled = true ∨ target = some (t, true))))
  | .tidied _ | .relock _ => Sleeper.Awake x.sched ∧ (x.waiter.signalled = true ↔ x.wokenBy = .signal)
  | .sigLock _ | .sigTest _ | .sigWakeup .. | .sigMark .. | .sigUnlock _ => Sleeper.Awake x.sched

/-- The last waiter that was tried woke up, and those before it were awake. -/
def LastWoken (l : List (T × Bool)) : Prop := ∃ pre w, l = pre ++ [(w, true)] ∧ ∀ x ∈ pre, x.2 = false

def NoneWoken (l : List (T × Bool)) : Prop := ∀ x ∈ l, x.2 = false

/-- The waiters that a call has tried are awake, and with `rest` they are its first ring. -/
structure Tried (s : State T M) (f : Signal T) (rest : List T) : Prop where
  ring : f.ring = f.tried.map Prod.fst ++ rest
  awake : ∀ x ∈ f.tried, (s.thread x.1).sched.state ≠ .stopped

/-- The waiter of `w` is out of the ring and not yet marked. -/
structure Removed (s : State T M) (w : T) : Prop where
  asleep : ∃ m, (s.thread w).pc = .asleep m
  removed : (s.thread w).waiter = ⟨false, true⟩

/-- What holds of a call of `Cond_Signal` or `Cond_Broadcast`. -/
def CallOk (s : State T M) : Pc T M → Prop
  | .sigTest f => Tried s f s.waitset ∧ (f.broadcast = false → NoneWoken f.tried)
  | .sigWakeup f w => Tried s f (w :: s.waitset) ∧ Removed s w ∧ (f.broadcast = false → NoneWoken f.tried)
  | .sigMark f w => Tried s f s.waitset ∧ Removed s w ∧ (s.thread w).wokenBy = .signal ∧
      Sleeper.Awake (s.thread w).sched ∧ (f.broadcast = false → LastWoken f.tried)
  | .sigUnlock f => Tried s f s.waitset ∧ (f.broadcast = true → s.waitset = []) ∧
      (f.broadcast = false → LastWoken f.tried ∨ NoneWoken f.tried ∧ s.waitset = [])
  | _ => True

def State.target (s : State T M) : Option (T × Bool) := s.waitsetLock.bind fun h => (s.thread h).pc.target

/-- What a call that has returned did: a signal woke exactly the last waiter it tried, or no waiter of its ring is left
and none is asleep; a broadcast left no waiter in the ring. -/
structure DoneOk (d : Done T) : Prop where
  ring : d.call.ring = d.call.tried.map Prod.fst ++ d.left
  signal : d.call.broadcast = false →
    LastWoken d.call.tried ∨ NoneWoken d.call.tried ∧ d.left = [] ∧ d.stopped = []
  broadcast : d.call.broadcast = true → d.left = [] ∧ d.stopped = []

structure LogOk (s : State T M) : Prop where
  returns : ∀ r ∈ s.returns, r.result = true ↔ r.wokenBy = .signal
  signals : ∀ d ∈ s.signals, DoneOk d

structure Inv (s : State T M) : Prop where
  nodup : s.waitset.Nodup
  holder : ∀ t, s.waitsetLock = some t ↔ (s.thread t).pc.holds
  ring : ∀ t, t ∈ s.waitset ↔ (s.thread t).pc.queued ∧ (s.thread t).waiter.removed = false
  thread : ∀ t, ThreadOk s.target t (s.thread t)
  call : ∀ t, CallOk s (s.thread t).pc
  log : LogOk s

/-! ## Steps that take or have `waitset_lock` -/

variable {s s' : State T M} {t u w : T} {x : Thread T M}

theorem target_of_not_holds {p : Pc T M} (hp : p.holds = false) : p.target = none := by
  cases p <;> first | rfl | cases hp

/-- `waitset_lock` is free, or `t` has it. -/
def State.Turn (s : State T M) (t : T) : Prop := s.waitsetLock = none ∨ s.waitsetLock = some t

theorem Inv.turn_holds (h : Inv s) (ht : (s.thread t).pc.holds = true) : s.Turn t := .inr ((h.holder t).2 ht)

theorem Inv.turn_target (h : Inv s) (ht : s.Turn t) : s.target = (s.thread t).pc.target := by
  rcases ht with ht | ht
  · have hn : (s.thread t).pc.holds = false := by
      rw [← Bool.not_eq_true, ← h.holder t, ht]
      simp
    rw [State.target, ht, target_of_not_holds hn]
    rfl
  · rw [State.target, ht]
    rfl

theorem Inv.turn_other (h : Inv s) (ht : s.Turn t) (hu : u ≠ t) : (s.thread u).pc.holds = false := by
  rw [← Bool.not_eq_true, ← h.holder u]
  rcases ht with ht | ht <;> simp [ht, Ne.symm hu]

/-- Two targets other than `u` are the same to `u`. -/
theorem ThreadOk.other {a b : Option (T × Bool)} (h : ThreadOk a u x) (ha : ∀ r, a ≠ some (u, r))
    (hb : ∀ r, b ≠ some (u, r)) : ThreadOk b u x := by
  unfold ThreadOk at h ⊢
  cases hx : x.pc <;> simp_all

/-- A thread whose turn it is makes a step: what is left to show is about the waiters and about its own call. -/
theorem Inv.turn (h : Inv s) (ht : s.Turn t) (hpc : ∀ u, u ≠ t → (s'.thread u).pc = (s.thread u).pc)
    (hlock : s'.waitsetLock = if (s'.thread t).pc.holds then some t else none) (hnodup : s'.waitset.Nodup)
    (hring : ∀ u, u ∈ s'.waitset ↔ (s'.thread u).pc.queued ∧ (s'.thread u).waiter.removed = false)
    (hthread : ∀ u, ThreadOk (s'.thread t).pc.target u (s'.thread u)) (hcall : CallOk s' (s'.thread t).pc)
    (hlog : LogOk s') : Inv s' := by
  have hother : ∀ u, u ≠ t → (s'.thread u).pc.holds = false := fun u hu => by
    rw [hpc u hu]; exact h.turn_other ht hu
  refine ⟨hnodup, fun u => ?_, hring, fun u => ?_, fun u => ?_, hlog⟩
  · by_cases hu : u = t
    · subst u; rw [hlock]; split <;> simp_all
    · rw [hlock, hother u hu]; split <;> simp [Ne.symm hu]
  · have : s'.target = (s'.thread t).pc.target := by
      rw [State.target, hlock]
      split
      · rfl
      · rename_i hn
        rw [target_of_not_holds (Bool.not_eq_true _ ▸ hn)]
        rfl
    rw [this]
    exact hthread u
  · by_cases hu : u = t
    · subst u; exact hcall
    · have := hother u hu
      revert this
      cases (s'.thread u).pc <;> simp [Pc.holds, CallOk]

theorem Inv.notMem_waitset (h : Inv s) (ht : (s.thread t).pc.queued = false) : t ∉ s.waitset := fun hm => by
  rw [((h.ring t).1 hm).1] at ht
  cases ht

/-- The threads other than `t`, when `t` makes a step that leaves no target and there was none. -/
theorem Inv.thread_none (h : Inv s) (ht : s.Turn t) (hp : (s.thread t).pc.target = none) (u : T) :
    ThreadOk none u (s.thread u) := by
  have := h.thread u
  rwa [h.turn_target ht, hp] at this

/-- A waiter of the ring is asleep in `cv_wait` while another thread has the lock. -/
theorem Inv.waiter_asleep (h : Inv s) (ht : (s.thread t).pc.holds = true) (hne : u ≠ t) (hm : u ∈ s.waitset) :
    (∃ m, (s.thread u).pc = .asleep m) ∧ (s.thread u).waiter = ⟨false, false⟩ := by
  obtain ⟨hq, hr⟩ := (h.ring u).1 hm
  have hn := h.turn_other (h.turn_holds ht) hne
  have hok := h.thread u
  cases hp : (s.thread u).pc <;> simp_all [Pc.holds, Pc.queued, ThreadOk]
  cases hw : (s.thread u).waiter with
  | mk a b => simp_all

/-- Neither the mutexes nor the logs bear on the rest of the invariant. -/
theorem Inv.setRest (h : Inv s) (locked : M → Bool) (returns : List (Return T)) (signals : List (Done T))
    (hlog : LogOk { s with returns := returns, signals := signals }) :
    Inv { s with locked := locked, returns := returns, signals := signals } := by
  refine ⟨h.nodup, h.holder, h.ring, h.thread, fun u => ?_, ⟨hlog.1, hlog.2⟩⟩
  have hu := h.call u
  revert hu
  cases (s.thread u).pc with
  | sigTest f => exact fun hu => ⟨⟨hu.1.1, hu.1.2⟩, hu.2⟩
  | sigWakeup f w => exact fun hu => ⟨⟨hu.1.1, hu.1.2⟩, ⟨hu.2.1.1, hu.2.1.2⟩, hu.2.2⟩
  | sigMark f w => exact fun hu => ⟨⟨hu.1.1, hu.1.2⟩, ⟨hu.2.1.1, hu.2.1.2⟩, hu.2.2⟩
  | sigUnlock f => exact fun hu => ⟨⟨hu.1.1, hu.1.2⟩, hu.2⟩
  | _ => exact fun _ => trivial

/-- A waiter that a call is about to mark is awake. -/
theorem Inv.marked_awake (h : Inv s) (ht : s.target = some (w, true)) : Sleeper.Awake (s.thread w).sched := by
  unfold State.target at ht
  cases hl : s.waitsetLock with
  | none => simp [hl] at ht
  | some a =>
    rw [hl] at ht
    have hcall := h.call a
    cases hp : (s.thread a).pc <;> simp_all [Pc.target, CallOk]

theorem State.Initial.inv (h : s.Initial) : Inv s := by
  have htask : ∀ t, (s.thread t).pc = .task := h.pc
  refine ⟨by simp [h.waitset], fun t => ?_, fun t => ?_, fun t => ?_, fun t => ?_, ⟨by simp [h.returns], by simp [h.signals]⟩⟩
  · simp [h.waitsetLock, htask, Pc.holds]
  · simp [h.waitset, htask, Pc.queued]
  · simp [ThreadOk, htask]
  · simp [CallOk, htask]

/-! ## Steps outside `waitset_lock` -/

/-- A thread changes with the lock and the ring as they are: it goes on holding the lock or not, and keeps its waiter
if it is asleep in `cv_wait`. -/
structure Aside (y x : Thread T M) : Prop where
  pc : x.pc = y.pc ∨ y.pc.holds = false ∧ x.pc.holds = false ∧ y.pc.queued = false ∧ x.pc.queued = false
  waiter : y.pc.queued = true → x.waiter = y.waiter
  woken : y.wokenBy = .signal → Sleeper.Awake y.sched → y.pc.queued = true →
    x.wokenBy = .signal ∧ Sleeper.Awake x.sched
  stopped : x.sched.state = .stopped → y.sched.state = .stopped

namespace Aside

theorem holds (hx : Aside (s.thread t) x) : x.pc.holds = (s.thread t).pc.holds := by
  rcases hx.pc with hpc | hpc
  · rw [hpc]
  · rw [hpc.1, hpc.2.1]

theorem queued (hx : Aside (s.thread t) x) : x.pc.queued = (s.thread t).pc.queued := by
  rcases hx.pc with hpc | hpc
  · rw [hpc]
  · rw [hpc.2.2.1, hpc.2.2.2]

end Aside

variable [DecidableEq T]

theorem setThread_apply (s : State T M) (t u : T) (x : Thread T M) :
    (s.setThread t x).thread u = if u = t then x else s.thread u := Function.update_apply _ _ _ _

namespace Aside

theorem target (h : Inv s) (hx : Aside (s.thread t) x) : (s.setThread t x).target = s.target := by
  cases hl : s.waitsetLock with
  | none => simp [State.target, State.setThread, hl]
  | some a =>
    have ha := (h.holder a).1 hl
    simp only [State.target, State.setThread, hl, Option.bind_some, Function.update_apply]
    split
    · subst a
      rcases hx.pc with hpc | hpc
      · rw [hpc]
      · rw [hpc.1] at ha; cases ha
    · rfl

theorem tried (hx : Aside (s.thread t) x) {f : Signal T} {l : List T} (hf : Tried s f l) :
    Tried (s.setThread t x) f l := by
  refine ⟨hf.ring, fun y hy hs => hf.awake y hy ?_⟩
  rw [setThread_apply] at hs
  split at hs
  · rename_i hu
    rw [hu]
    exact hx.stopped hs
  · exact hs

theorem removed (hx : Aside (s.thread t) x) (hu : Removed s u) : Removed (s.setThread t x) u := by
  obtain ⟨⟨m, ham⟩, hr⟩ := hu
  by_cases hu : u = t
  · subst u
    have hq : (s.thread t).pc.queued = true := by rw [ham]; rfl
    refine ⟨⟨m, ?_⟩, ?_⟩ <;> rw [setThread_apply, if_pos rfl]
    · rcases hx.pc with hpc | hpc
      · rw [hpc, ham]
      · rw [hpc.2.2.1] at hq; cases hq
    · rw [hx.waiter hq, hr]
  · exact ⟨⟨m, by rwa [setThread_apply, if_neg hu]⟩, by rwa [setThread_apply, if_neg hu]⟩

theorem callOk (hx : Aside (s.thread t) x) {p : Pc T M} (hp : CallOk s p) : CallOk (s.setThread t x) p := by
  cases p with
  | sigTest f => exact ⟨hx.tried hp.1, hp.2⟩
  | sigWakeup f w => exact ⟨hx.tried hp.1, hx.removed hp.2.1, hp.2.2⟩
  | sigUnlock f => exact ⟨hx.tried hp.1, hp.2⟩
  | sigMark f w =>
    obtain ⟨hf, hr, hw, ha, hb⟩ := hp
    have hq : (s.thread w).pc.queued = true := by
      obtain ⟨m, ham⟩ := hr.asleep
      rw [ham]; rfl
    refine ⟨hx.tried hf, hx.removed hr, ?_, ?_, hb⟩ <;> rw [setThread_apply] <;> split
    · subst w; exact (hx.woken hw ha hq).1
    · exact hw
    · subst w; exact (hx.woken hw ha hq).2
    · exact ha
  | _ => trivial

end Aside

theorem Inv.setThread (h : Inv s) (hx : Aside (s.thread t) x) (hok : ThreadOk s.target t x) :
    Inv (s.setThread t x) := by
  have hget := setThread_apply s t
  refine ⟨h.nodup, fun u => ?_, fun u => ?_, fun u => ?_, fun u => ?_, ⟨h.log.1, h.log.2⟩⟩
  · rw [hget]
    refine (h.holder u).trans ?_
    split
    · subst u; rw [hx.holds]
    · rfl
  · rw [hget]
    refine (h.ring u).trans ?_
    split
    · subst u
      rw [hx.queued]
      refine and_congr_right fun hq => ?_
      rw [hx.waiter hq]
    · rfl
  · rw [hget, hx.target h]
    split
    · subst u; exact hok
    · exact h.thread u
  · rw [hget]
    split
    · subst u
      rcases hx.pc with hpc | hpc
      · rw [hpc]; exact hx.callOk (h.call t)
      · have hholds := hpc.2.1
        revert hholds
        cases x.pc <;> simp [Pc.holds, CallOk]
    · exact hx.callOk (h.call u)

/-! ## The steps of `cv_wait` -/

/-- Only `t` itself changes, and no call is between a removal and a mark. -/
theorem Inv.turnSelf (h : Inv s) (ht : s.Turn t) (hold : (s.thread t).pc.target = none)
    (hth : s'.thread = Function.update s.thread t x) (hx : x.pc.target = none)
    (hlock : s'.waitsetLock = if x.pc.holds then some t else none) (hnodup : s'.waitset.Nodup)
    (hself : t ∈ s'.waitset ↔ x.pc.queued ∧ x.waiter.removed = false)
    (hring : ∀ u, u ≠ t → (u ∈ s'.waitset ↔ u ∈ s.waitset)) (hok : ThreadOk none t x) (hcall : CallOk s' x.pc)
    (hlog : LogOk s') : Inv s' := by
  have hget : ∀ u, s'.thread u = if u = t then x else s.thread u := fun u => by
    rw [hth, Function.update_apply]
  have hx' : s'.thread t = x := by rw [hget, if_pos rfl]
  refine h.turn ht (fun u hu => ?_) (by rwa [hx']) hnodup (fun u => ?_) (fun u => ?_) (by rwa [hx']) hlog
  · rw [hget, if_neg hu]
  · by_cases hu : u = t
    · subst u; rw [hx']; exact hself
    · rw [hget, if_neg hu, hring u hu]; exact h.ring u
  · rw [hx', hx]
    by_cases hu : u = t
    · subst u; rw [hx']; exact hok
    · rw [hget, if_neg hu]; exact h.thread_none ht hold u

theorem Inv.enqueue (h : Inv s) (hl : s.waitsetLock = none) {m : M} {timeout : Nat}
    (hpc : (s.thread t).pc = .waitLock m timeout) :
    Inv ({ s.enqueue t with waitsetLock := some t }.setPc t (.enqueued m timeout)) := by
  have hok := h.thread t
  simp only [ThreadOk, hpc] at hok
  have hmem := h.notMem_waitset (t := t) (by rw [hpc]; rfl)
  refine h.turnSelf (.inl hl) (by rw [hpc]; rfl) rfl rfl rfl ?_ ?_ (fun u hu => ?_) hok trivial ⟨h.log.1, h.log.2⟩
  · exact h.nodup.append (List.nodup_singleton t) (by simpa using hmem)
  · simp [State.setPc, State.setThread, State.enqueue, Pc.queued, hok.2]
  · simp [State.setPc, State.setThread, State.enqueue, hu]

theorem Inv.releaseMutex [DecidableEq M] (h : Inv s) {m : M} {timeout : Nat} (hpc : (s.thread t).pc = .enqueued m timeout) :
    Inv ({ s with locked := Function.update s.locked m false }.setPc t (.releasing m timeout)) := by
  have hok := h.thread t
  simp only [ThreadOk, hpc] at hok
  have hl := (h.holder t).2 (by rw [hpc]; rfl)
  refine h.turnSelf (.inr hl) (by rw [hpc]; rfl) rfl rfl hl h.nodup ?_ (fun u _ => .rfl) hok trivial ⟨h.log.1, h.log.2⟩
  have := h.ring t
  rw [hpc] at this
  exact this

theorem Inv.sleepReleasing (h : Inv s) {m : M} {timeout : Nat} (hpc : (s.thread t).pc = .releasing m timeout) :
    Inv (s.sleepReleasing t m timeout) := by
  have hok := h.thread t
  simp only [ThreadOk, hpc] at hok
  have hl := (h.holder t).2 (by rw [hpc]; rfl)
  refine h.turnSelf (.inr hl) (by rw [hpc]; rfl) rfl rfl rfl h.nodup ?_ (fun u _ => .rfl) ?_ trivial ⟨h.log.1, h.log.2⟩
  · have := h.ring t
    rw [hpc] at this
    exact this
  · simp [ThreadOk, Sleeper.sleep, hok.2]

/-- The assertion of `cv_wait` holds: a waiter that is still in the ring has not been signalled. -/
theorem Inv.tidy (h : Inv s) (hl : s.waitsetLock = none) {m : M} (hpc : (s.thread t).pc = .asleep m)
    (hrun : (s.thread t).sched.state = .running) :
    ∃ s', ({ s with waitsetLock := some t }.setPc t (.tidied m)).tidy t = some s' ∧ Inv s' := by
  have hok := h.thread_none (t := t) (.inl hl) (by rw [hpc]; rfl) t
  simp only [ThreadOk, hpc, hrun] at hok
  obtain ⟨hsr, hst | ⟨hawake, hw⟩⟩ := hok
  · simp at hst
  have hring := h.ring t
  rw [hpc] at hring
  have hnew : ThreadOk none t { s.thread t with pc := .tidied m } := by
    refine ⟨hawake, ?_⟩
    simpa using hw.symm
  set s₁ := { s with waitsetLock := some t }.setPc t (.tidied m) with hs₁
  have hself : (s₁.thread t) = { s.thread t with pc := .tidied m } := by simp [hs₁, State.setPc, State.setThread]
  by_cases hr : (s.thread t).waiter.removed = true
  · refine ⟨s₁, by simp [State.tidy, hself, hr], ?_⟩
    refine h.turnSelf (.inl hl) (by rw [hpc]; rfl) rfl rfl rfl h.nodup ?_ (fun u _ => .rfl) hnew trivial
      ⟨h.log.1, h.log.2⟩
    exact hring.trans (by simp [hr, Pc.queued])
  · have hsig : (s.thread t).waiter.signalled = false := by
      rw [← Bool.not_eq_true]
      exact fun hs => hr (hsr hs)
    refine ⟨s₁.removeFromRing t, by simp [State.tidy, hself, hr, hsig], ?_⟩
    refine h.turnSelf (.inl hl) (by rw [hpc]; rfl) rfl rfl rfl (h.nodup.erase t) ?_ (fun u hu => ?_) hnew trivial
      ⟨h.log.1, h.log.2⟩
    · exact iff_of_false (List.Nodup.not_mem_erase h.nodup) (by simp [Pc.queued])
    · exact List.mem_erase_of_ne hu

theorem Inv.unlock (h : Inv s) {m : M} (hpc : (s.thread t).pc = .tidied m) :
    Inv ({ s with waitsetLock := none }.setPc t (.relock m)) := by
  have hok := h.thread t
  simp only [ThreadOk, hpc] at hok
  have hring := h.ring t
  rw [hpc] at hring
  exact h.turnSelf (h.turn_holds (by rw [hpc]; rfl)) (by rw [hpc]; rfl) rfl rfl rfl h.nodup hring (fun u _ => .rfl) hok
    trivial ⟨h.log.1, h.log.2⟩

theorem Inv.waitReturns (h : Inv s) {m : M} (hpc : (s.thread t).pc = .relock m) (locked : M → Bool) :
    Inv ({ s with locked := locked }.waitReturns t) := by
  have hok := h.thread t
  simp only [ThreadOk, hpc] at hok
  have hi : Inv (s.setPc t .task) :=
    h.setThread ⟨.inr (by simp [hpc, Pc.holds, Pc.queued]), fun _ => rfl, by simp [hpc, Pc.queued], fun hs => hs⟩ trivial
  refine hi.setRest locked _ s.signals ⟨fun r hr => ?_, h.log.2⟩
  rcases List.mem_cons.1 hr with rfl | hr
  · exact hok.2
  · exact h.log.1 r hr

/-! ## The steps of `Cond_Signal` and `Cond_Broadcast` -/

theorem Inv.sigLock (h : Inv s) (hl : s.waitsetLock = none) {b : Bool} (hpc : (s.thread t).pc = .sigLock b) :
    Inv ({ s with waitsetLock := some t }.setPc t (.sigTest ⟨b, s.waitset, []⟩)) := by
  have hok := h.thread t
  simp only [ThreadOk, hpc] at hok
  have hring := h.ring t
  rw [hpc] at hring
  refine h.turnSelf (.inl hl) (by rw [hpc]; rfl) rfl rfl rfl h.nodup hring (fun u _ => .rfl) hok ?_ ⟨h.log.1, h.log.2⟩
  exact ⟨⟨rfl, by simp⟩, fun _ => by simp [NoneWoken]⟩

/-- `cv->waitset` is `NULL`. -/
theorem Inv.sigEmpty (h : Inv s) {f : Signal T} (hpc : (s.thread t).pc = .sigTest f) (hw : s.waitset = []) :
    Inv (s.setPc t (.sigUnlock f)) := by
  have hok := h.thread t
  have hcall := h.call t
  simp only [ThreadOk, CallOk, hpc] at hok hcall
  have hring := h.ring t
  rw [hpc] at hring
  have hl := (h.holder t).2 (by rw [hpc]; rfl)
  obtain ⟨⟨hf, hawake⟩, hnone⟩ := hcall
  refine h.turnSelf (.inr hl) (by rw [hpc]; rfl) rfl rfl hl h.nodup hring (fun u _ => .rfl) hok ?_ ⟨h.log.1, h.log.2⟩
  refine ⟨⟨hf, fun y hy hs => hawake y hy ?_⟩, fun _ => hw, fun hb => .inr ⟨hnone hb, hw⟩⟩
  rw [State.setPc, setThread_apply] at hs
  split at hs
  · rename_i he; rw [he]; exact hs
  · exact hs

theorem Inv.pop (h : Inv s) {f : Signal T} (hpc : (s.thread t).pc = .sigTest f) {rest : List T}
    (hw : s.waitset = w :: rest) : Inv ((s.pop w).setPc t (.sigWakeup f w)) := by
  have hok := h.thread t
  have hcall := h.call t
  simp only [ThreadOk, CallOk, hpc] at hok hcall
  have hholds : (s.thread t).pc.holds = true := by rw [hpc]; rfl
  have hnot := h.notMem_waitset (t := t) (by rw [hpc]; rfl)
  have hne : w ≠ t := by rintro rfl; exact hnot (hw ▸ List.mem_cons_self)
  obtain ⟨⟨m, ham⟩, hwaiter⟩ := h.waiter_asleep hholds hne (hw ▸ List.mem_cons_self)
  obtain ⟨⟨hf, hawake⟩, hnone⟩ := hcall
  have hnd : w ∉ rest ∧ rest.Nodup := List.nodup_cons.1 (hw ▸ h.nodup)
  set s' := (s.pop w).setPc t (.sigWakeup f w) with hs'
  have hget : ∀ u, s'.thread u = if u = t then { s.thread t with pc := .sigWakeup f w }
      else if u = w then { s.thread w with waiter := ⟨false, true⟩ } else s.thread u := fun u => by
    simp [hs', State.setPc, State.pop, State.setThread, Function.update_apply, Ne.symm hne, hwaiter]
  have hws : s'.waitset = rest := by simp [hs', State.setPc, State.pop, State.setThread, hw]
  have ht' : s'.thread t = { s.thread t with pc := .sigWakeup f w } := by rw [hget, if_pos rfl]
  have hw' : s'.thread w = { s.thread w with waiter := ⟨false, true⟩ } := by rw [hget, if_neg hne, if_pos rfl]
  have hl := (h.holder t).2 hholds
  refine h.turn (t := t) (.inr hl) (fun u hu => ?_) (by rw [ht']; exact hl) (hws ▸ hnd.2) (fun u => ?_) (fun u => ?_) ?_
    ⟨h.log.1, h.log.2⟩
  · rw [hget, if_neg hu]
    split
    · subst u; rfl
    · rfl
  · have hr := h.ring u
    rw [hws, hget]
    split
    · subst u; simp [Pc.queued]; intro hm; exact hnot (hw ▸ List.mem_cons_of_mem _ hm)
    · split
      · subst u; simp [hnd.1]
      · rw [← hr, hw]; simp_all
  · have hu := h.thread_none (.inr hl) (by rw [hpc]; rfl) u
    rw [ht', hget]
    split
    · subst u; exact hok
    · split
      · subst u
        simp only [ThreadOk, ham, hwaiter] at hu ⊢
        simpa [Pc.target] using hu.2
      · rename_i huw
        exact hu.other (by simp) (by simp [Pc.target, Ne.symm huw])
  · rw [ht']
    refine ⟨⟨by rw [hws, ← hw]; exact hf, fun y hy hs => hawake y hy ?_⟩, ⟨⟨m, by rw [hw']; exact ham⟩, by rw [hw']⟩, hnone⟩
    rw [hget] at hs
    split at hs
    · rename_i he; rw [he]; exact hs
    · split at hs
      · rename_i he; rw [he]; exact hs
      · exact hs

/-- What a call knows at `wakeup(waiter->thread)`. -/
structure InHand (s : State T M) (t w : T) (f : Signal T) : Prop where
  locked : s.waitsetLock = some t
  ne : w ≠ t
  awake : Sleeper.Awake (s.thread t).sched
  call : CallOk s (.sigWakeup f w)
  waiter : ThreadOk (some (w, false)) w (s.thread w)
  other : ∀ u, u ≠ w → ∀ woken : Bool, ThreadOk (if woken then some (w, true) else none) u (s.thread u)

omit [DecidableEq T] in
theorem Inv.inHand (h : Inv s) {f : Signal T} (hpc : (s.thread t).pc = .sigWakeup f w) : InHand s t w f := by
  have hok := h.thread t
  have hcall := h.call t
  simp only [ThreadOk, hpc] at hok hcall
  have hl : s.waitsetLock = some t := (h.holder t).2 (by rw [hpc]; rfl)
  have htarget : s.target = some (w, false) := by rw [h.turn_target (.inr hl), hpc]; rfl
  refine ⟨hl, ?_, hok, hcall, htarget ▸ h.thread w, fun u hu woken => ?_⟩
  · obtain ⟨m, ham⟩ := hcall.2.1.asleep
    rintro rfl
    rw [ham] at hpc; cases hpc
  · have hu' := h.thread u
    rw [htarget] at hu'
    exact hu'.other (by simp [Ne.symm hu]) (by cases woken <;> simp [Ne.symm hu])

/-- The waiter becomes ready, and the call goes on to mark it. -/
theorem Inv.wakeup_stopped (h : Inv s) {f : Signal T} (hpc : (s.thread t).pc = .sigWakeup f w) :
    Inv ((s.setThread w { s.thread w with sched := ⟨.ready, false⟩, wokenBy := .signal }).setPc t
      (.sigMark { f with tried := f.tried ++ [(w, true)] } w)) := by
  have hhand := h.inHand hpc
  obtain ⟨⟨hf, hawake⟩, ⟨⟨m, ham⟩, hwaiter⟩, hnone⟩ := hhand.call
  set f' : Signal T := { f with tried := f.tried ++ [(w, true)] } with hf'
  set s' := (s.setThread w { s.thread w with sched := ⟨.ready, false⟩, wokenBy := .signal }).setPc t (.sigMark f' w)
    with hs'
  have hget : ∀ u, s'.thread u = if u = t then { s.thread t with pc := .sigMark f' w }
      else if u = w then { s.thread w with sched := ⟨.ready, false⟩, wokenBy := .signal } else s.thread u := fun u => by
    simp [hs', State.setPc, State.setThread, Function.update_apply, Ne.symm hhand.ne]
  have ht' : s'.thread t = { s.thread t with pc := .sigMark f' w } := by rw [hget, if_pos rfl]
  have hw' : s'.thread w = { s.thread w with sched := ⟨.ready, false⟩, wokenBy := .signal } := by
    rw [hget, if_neg hhand.ne, if_pos rfl]
  refine h.turn (.inr hhand.locked) (fun u hu => ?_) (by rw [ht']; exact hhand.locked) h.nodup (fun u => ?_)
    (fun u => ?_) ?_ ⟨h.log.1, h.log.2⟩
  · rw [hget, if_neg hu]
    split
    · subst u; rfl
    · rfl
  · refine (h.ring u).trans ?_
    rw [hget]
    split
    · subst u; rw [hpc]; rfl
    · split
      · subst u; rfl
      · rfl
  · rw [ht', hget]
    split
    · exact hhand.awake
    · split
      · subst u
        simp [ThreadOk, ham, hwaiter, Pc.target, Sleeper.Awake]
      · rename_i huw
        exact hhand.other u huw true
  · rw [ht']
    have hready : (s'.thread w).sched = ⟨.ready, false⟩ := by rw [hw']
    refine ⟨⟨by simp [hf', hf, hs', State.setPc, State.setThread], fun y hy => ?_⟩,
      ⟨⟨m, by rw [hw']; exact ham⟩, by rw [hw']; exact hwaiter⟩, by rw [hw'], by rw [hready]; exact .inl rfl,
      fun hb => ⟨f.tried, w, rfl, hnone hb⟩⟩
    rcases List.mem_append.1 hy with hy | hy
    · rw [hget]
      split
      · rename_i he; exact congrArg (fun u => (s.thread u).sched.state) he ▸ hawake y hy
      · split
        · simp
        · exact hawake y hy
    · rw [List.mem_singleton.1 hy, hready]
      simp

/-- The timeout of the waiter has expired, and the call goes on to the next one. -/
theorem Inv.wakeup_awake (h : Inv s) {f : Signal T} (hpc : (s.thread t).pc = .sigWakeup f w)
    (haw : Sleeper.Awake (s.thread w).sched) :
    Inv (s.setPc t (.sigTest { f with tried := f.tried ++ [(w, false)] })) := by
  have hhand := h.inHand hpc
  obtain ⟨⟨hf, hawake⟩, ⟨⟨m, ham⟩, hwaiter⟩, hnone⟩ := hhand.call
  have hst : (s.thread w).sched.state ≠ .stopped := by rcases haw with haw | haw <;> simp [haw]
  have hget := setThread_apply s t
  refine h.turn (t := t) (.inr hhand.locked) (fun u hu => ?_) ?_ h.nodup (fun u => ?_) (fun u => ?_) ?_
    ⟨h.log.1, h.log.2⟩
  · rw [State.setPc, hget, if_neg hu]
  · rw [State.setPc, hget, if_pos rfl]; exact hhand.locked
  · refine (h.ring u).trans ?_
    rw [State.setPc, hget]
    split
    · subst u; rw [hpc]; rfl
    · rfl
  · rw [State.setPc, hget, hget, if_pos rfl]
    split
    · exact hhand.awake
    · by_cases huw : u = w
      · subst u
        have hwok := hhand.waiter
        simp only [ThreadOk, ham, hwaiter, Pc.target] at hwok ⊢
        obtain ⟨-, ⟨hstop, -⟩ | ⟨-, hwb⟩⟩ := hwok
        · exact absurd hstop hst
        · exact ⟨fun _ => trivial, .inr ⟨haw, by simpa using hwb⟩⟩
      · exact hhand.other u huw false
  · rw [State.setPc, hget, if_pos rfl]
    refine ⟨⟨by simp [hf, State.setThread], fun y hy => ?_⟩, fun hb y hy => ?_⟩
    · rcases List.mem_append.1 hy with hy | hy
      · rw [hget]
        split
        · rename_i he; exact he ▸ hawake y hy
        · exact hawake y hy
      · rw [List.mem_singleton.1 hy, hget, if_neg hhand.ne]
        exact hst
    · rcases List.mem_append.1 hy with hy | hy
      · exact hnone hb y hy
      · rw [List.mem_singleton.1 hy]

theorem Inv.wakeup (h : Inv s) {f : Signal T} (hpc : (s.thread t).pc = .sigWakeup f w) :
    ∃ woken s₁, s.wakeup w = (woken, s₁) ∧ (woken = true ↔ (s.thread w).sched.state = .stopped) ∧
      Inv (s₁.setPc t (if woken then .sigMark { f with tried := f.tried ++ [(w, woken)] } w
        else .sigTest { f with tried := f.tried ++ [(w, woken)] })) := by
  have hwok := (h.inHand hpc).waiter
  obtain ⟨m, ham⟩ := (h.inHand hpc).call.2.1.asleep
  simp only [ThreadOk, ham] at hwok
  rcases hwok.2 with ⟨hst, -⟩ | ⟨haw, -⟩
  · refine ⟨true, s.setThread w { s.thread w with sched := ⟨.ready, false⟩, wokenBy := .signal }, ?_, by simp [hst],
      h.wakeup_stopped hpc⟩
    simp [State.wakeup, Sleeper.wakeup, Sleeper.makeReady, hst]
  · have hst : (s.thread w).sched.state ≠ .stopped ∧ (s.thread w).sched.state ≠ .init := by
      rcases haw with haw | haw <;> simp [haw]
    exact ⟨false, s, by simp [State.wakeup, Sleeper.wakeup, hst], by simp [hst], h.wakeup_awake hpc haw⟩

theorem Inv.mark (h : Inv s) {f : Signal T} (hpc : (s.thread t).pc = .sigMark f w) :
    Inv ((s.mark w).setPc t (if f.broadcast then .sigTest f else .sigUnlock f)) := by
  have hok := h.thread t
  have hcall := h.call t
  simp only [ThreadOk, CallOk, hpc] at hok hcall
  have hholds : (s.thread t).pc.holds = true := by rw [hpc]; rfl
  have hl := (h.holder t).2 hholds
  have hring := h.ring t
  rw [hpc] at hring
  obtain ⟨⟨hf, hawake⟩, ⟨⟨m, ham⟩, hwaiter⟩, hby, haw, hlast⟩ := hcall
  have hne : w ≠ t := by rintro rfl; rw [ham] at hpc; cases hpc
  have hringw := h.ring w
  have htarget : s.target = some (w, true) := by rw [h.turn_target (.inr hl), hpc]; rfl
  set pc' : Pc T M := if f.broadcast then .sigTest f else .sigUnlock f with hpc'
  have htgt : pc'.target = none := by rw [hpc']; split <;> rfl
  set s' := (s.mark w).setPc t pc' with hs'
  have hget : ∀ u, s'.thread u = if u = t then { s.thread t with pc := pc' }
      else if u = w then { s.thread w with waiter := ⟨true, true⟩ } else s.thread u := fun u => by
    simp [hs', State.setPc, State.mark, State.setThread, Function.update_apply, Ne.symm hne, hwaiter]
  have ht' : s'.thread t = { s.thread t with pc := pc' } := by rw [hget, if_pos rfl]
  have hsched : ∀ u, (s'.thread u).sched = (s.thread u).sched := fun u => by
    rw [hget]
    split
    · subst u; rfl
    · split
      · subst u; rfl
      · rfl
  have htried : Tried s' f s'.waitset := ⟨hf, fun y hy => by rw [hsched]; exact hawake y hy⟩
  refine h.turn (.inr hl) (fun u hu => ?_) ?_ h.nodup (fun u => ?_) (fun u => ?_) ?_ ⟨h.log.1, h.log.2⟩
  · rw [hget, if_neg hu]
    split
    · subst u; rfl
    · rfl
  · have : pc'.holds = true := by rw [hpc']; split <;> rfl
    rw [ht', if_pos this]
    exact hl
  · rw [hget]
    split
    · subst u
      have : pc'.queued = false := by rw [hpc']; split <;> rfl
      rw [this]
      exact hring
    · split
      · subst u
        rw [hwaiter] at hringw
        exact hringw
      · exact h.ring u
  · rw [ht', htgt, hget]
    split
    · subst u
      rw [hpc']
      cases f.broadcast <;> exact hok
    · split
      · subst u
        simp only [ThreadOk, ham]
        exact ⟨fun _ => trivial, .inr ⟨haw, by simp [hby]⟩⟩
      · rename_i huw
        have hu := h.thread u
        rw [htarget] at hu
        exact hu.other (by simp [Ne.symm huw]) (by simp)
  · rw [ht', hpc']
    cases hb : f.broadcast with
    | true => exact ⟨htried, by simp [hb]⟩
    | false => exact ⟨htried, by simp [hb], fun _ => .inl (hlast hb)⟩

theorem Inv.signalReturns (h : Inv s) {f : Signal T} (hpc : (s.thread t).pc = .sigUnlock f) :
    Inv (s.signalReturns t f) := by
  have hcall := h.call t
  simp only [CallOk, hpc] at hcall
  obtain ⟨⟨hf, hawake⟩, hbroad, hsig⟩ := hcall
  have hring := h.ring t
  rw [hpc] at hring
  have hi : Inv { s.setPc t .task with waitsetLock := none } :=
    h.turnSelf (h.turn_holds (by rw [hpc]; rfl)) (by rw [hpc]; rfl) rfl rfl rfl h.nodup hring (fun u _ => .rfl) trivial
      trivial ⟨h.log.1, h.log.2⟩
  refine hi.setRest s.locked s.returns _ ⟨h.log.1, fun d hd => ?_⟩
  rcases List.mem_cons.1 hd with rfl | hd
  · have hstopped : s.waitset = [] → (f.ring.filter fun w => (s.thread w).sched.state = .stopped) = [] := by
      intro hw
      rw [hf, hw, List.append_nil, List.filter_eq_nil_iff]
      rintro u hu
      obtain ⟨y, hy, rfl⟩ := List.mem_map.1 hu
      simpa using hawake y hy
    refine ⟨hf, fun hb => ?_, fun hb => ⟨hbroad hb, hstopped (hbroad hb)⟩⟩
    rcases hsig hb with hlast | ⟨hnone, hw⟩
    · exact .inl hlast
    · exact .inr ⟨hnone, hw, hstopped hw⟩
  · exact h.log.2 d hd

/-! ## Every step -/

/-- The scheduler runs or preempts a thread that is not asleep. -/
theorem Inv.setSched (h : Inv s) {y : Sleeper} (hold : Sleeper.Awake (s.thread t).sched) (hy : Sleeper.Awake y) :
    Inv (s.setSched t y) := by
  have hns : ∀ {z : Sleeper}, Sleeper.Awake z → z.state ≠ .stopped := by rintro z (hz | hz) <;> simp [hz]
  have hok := h.thread t
  refine h.setThread ⟨.inl rfl, fun _ => rfl, fun hw _ _ => ⟨hw, hy⟩, fun hs => absurd hs (hns hy)⟩ ?_
  revert hok
  unfold ThreadOk
  dsimp only
  cases (s.thread t).pc with
  | task => exact fun _ => trivial
  | asleep m =>
    rintro ⟨hs, ⟨hst, -⟩ | ⟨-, hw⟩⟩
    · exact absurd hst (hns hold)
    · exact ⟨hs, .inr ⟨hy, hw⟩⟩
  | waitLock | enqueued | releasing | tidied | relock => exact fun hok => ⟨hy, hok.2⟩
  | sigLock | sigTest | sigWakeup | sigMark | sigUnlock => exact fun _ => hy

/-- An expired timeout wakes up a thread that no signal has woken. -/
theorem Inv.expire (h : Inv s) (he : (s.thread t).sched.Expirable) :
    Inv (s.setThread t { s.thread t with sched := (s.thread t).sched.makeReady, wokenBy := .timeout }) := by
  have hok := h.thread t
  have hna : ¬Sleeper.Awake (s.thread t).sched := by rintro (ha | ha) <;> simp [he.1] at ha
  refine h.setThread ⟨.inl rfl, fun _ => rfl, fun _ ha => absurd ha hna, by simp [Sleeper.makeReady]⟩ ?_
  revert hok
  unfold ThreadOk
  dsimp only
  cases (s.thread t).pc with
  | task => exact fun _ => trivial
  | asleep m =>
    rintro ⟨hs, ⟨-, -, hsig, hr⟩ | ⟨ha, -⟩⟩
    · refine ⟨hs, .inr ⟨.inl rfl, ?_⟩⟩
      have hnt : s.target ≠ some (t, true) := fun ht => hna (h.marked_awake ht)
      simp [hsig, hnt]
    · exact absurd ha hna
  | waitLock | enqueued | releasing | tidied | relock => exact fun hok => absurd hok.1 hna
  | sigLock | sigTest | sigWakeup | sigMark | sigUnlock => exact fun hok => absurd hok hna

theorem Inv.wait (h : Inv s) (hpc : (s.thread t).pc = .task) (hrun : s.Running t) (m : M) (timeout : Nat) :
    Inv (s.setThread t { s.thread t with pc := .waitLock m timeout, waiter := ⟨false, false⟩ }) :=
  h.setThread ⟨.inr (by simp [hpc, Pc.holds, Pc.queued]), by simp [hpc, Pc.queued], by simp [hpc, Pc.queued],
    fun hs => hs⟩ ⟨.inr hrun, rfl⟩

theorem Inv.signal (h : Inv s) (hpc : (s.thread t).pc = .task) (hrun : s.Running t) (b : Bool) :
    Inv (s.setPc t (.sigLock b)) :=
  h.setThread ⟨.inr (by simp [hpc, Pc.holds, Pc.queued]), fun _ => rfl, by simp [hpc, Pc.queued], fun hs => hs⟩
    (.inr hrun)

variable [DecidableEq M]

/-- A thread that does not spin passes the assertion. -/
theorem Inv.runThread (h : Inv s) (hrun : s.Running t) (hpc : (s.thread t).pc ≠ .task) (hspin : ¬s.Spins t) :
    ∃ s', s.runThread t = some s' ∧ Inv s' := by
  unfold State.runThread
  unfold State.Spins at hspin
  cases hp : (s.thread t).pc with
  | task => exact absurd hp hpc
  | waitLock m timeout =>
    have hl : s.waitsetLock = none := by simpa [hp] using hspin
    exact ⟨_, by simp only [hl, if_true], h.enqueue hl hp⟩
  | enqueued m timeout => exact ⟨_, rfl, h.releaseMutex hp⟩
  | releasing m timeout => exact ⟨_, rfl, h.sleepReleasing hp⟩
  | asleep m =>
    have hl : s.waitsetLock = none := by simpa [hp] using hspin
    simp only [hl, if_true]
    exact h.tidy hl hp hrun
  | tidied m => exact ⟨_, rfl, h.unlock hp⟩
  | relock m =>
    have hl : s.locked m = false := by simpa [hp] using hspin
    exact ⟨_, by simp only [hl, if_true]; rfl, h.waitReturns hp _⟩
  | sigLock b =>
    have hl : s.waitsetLock = none := by simpa [hp] using hspin
    exact ⟨_, by simp only [hl, if_true], h.sigLock hl hp⟩
  | sigTest f =>
    cases hw : s.waitset with
    | nil => exact ⟨_, rfl, h.sigEmpty hp hw⟩
    | cons w rest => exact ⟨_, rfl, h.pop hp hw⟩
  | sigWakeup f w =>
    obtain ⟨woken, s₁, he, -, hi⟩ := h.wakeup hp
    exact ⟨_, by simp only [he], hi⟩
  | sigMark f w => exact ⟨_, rfl, h.mark hp⟩
  | sigUnlock f => exact ⟨_, rfl, h.signalReturns hp⟩

/-- **Step lemma.** An enabled action has a result, and the result keeps the invariant. -/
theorem Inv.exec (h : Inv s) : ∀ {a : Action T M}, s.Enabled a → ∃ s', s.exec a = some s' ∧ Inv s'
  | .dispatch _, he => ⟨_, rfl, h.setSched (.inl he) (.inr rfl)⟩
  | .preempt _, he => ⟨_, rfl, h.setSched (.inr he) (.inl rfl)⟩
  | .expire _, he => ⟨_, rfl, h.expire he⟩
  | .mutexLock .., _ => ⟨_, rfl, h.setRest _ _ _ ⟨h.log.1, h.log.2⟩⟩
  | .mutexUnlock .., _ => ⟨_, rfl, h.setRest _ _ _ ⟨h.log.1, h.log.2⟩⟩
  | .wait _ m timeout, ⟨hrun, hpc⟩ => ⟨_, rfl, h.wait hpc hrun m timeout⟩
  | .signal _ b, ⟨hrun, hpc⟩ => ⟨_, rfl, h.signal hpc hrun b⟩
  | .run _, ⟨hrun, hpc, hspin⟩ => h.runThread hrun hpc hspin

/-- **Run lemma.** The invariant holds in every reachable state. -/
theorem reaches_inv (hs : (sys T M).Reaches s) : Inv s := by
  refine hs.invariant (fun s hs => State.Initial.inv (s := s) hs) (fun s a s' h he => ?_)
  obtain ⟨hen, he⟩ : s.Enabled a ∧ s.exec a = some s' := by simpa [sys] using he
  obtain ⟨s'', he', hs''⟩ := h.exec hen
  rw [he] at he'
  cases he'
  exact hs''

/-! ## Main theorem -/

/-- The thread is inside `cv_wait`. -/
def Pc.waiting : Pc T M → Bool
  | .waitLock .. | .enqueued .. | .releasing .. | .asleep _ | .tidied _ | .relock _ => true
  | _ => false

structure WakeupsCorrect (s : State T M) : Prop where
  /-- With the lock free, whoever is asleep in `cv_wait` is in the ring. -/
  linked : s.waitsetLock = none → ∀ t, (s.thread t).pc.waiting → (s.thread t).sched.state = .stopped → t ∈ s.waitset
  signals : ∀ d ∈ s.signals, DoneOk d
  returns : ∀ r ∈ s.returns, r.result = true ↔ r.wokenBy = .signal
  /-- No assertion fails. -/
  assertion : ∀ a, s.Enabled a → ((sys T M).step s a).isSome

/-- **No wake-up is lost or used twice.** -/
theorem wakeups_correct (hs : (sys T M).Reaches s) : WakeupsCorrect s := by
  have h := reaches_inv hs
  refine ⟨fun hl t hp hst => ?_, h.log.2, h.log.1, fun a ha => ?_⟩
  · have hok := h.thread t
    have htgt : s.target = none := by rw [State.target, hl]; rfl
    rw [h.ring t]
    revert hok hp
    unfold ThreadOk
    cases hpc : (s.thread t).pc <;> simp_all [Sleeper.Awake, Pc.waiting, Pc.queued]
  · obtain ⟨s', he, -⟩ := h.exec ha
    simp [sys, ha, he]

/-- Three threads: 0 waits with a timeout that expires, then 1 waits for ever; the signal of 2 passes over 0 and wakes
up 1. -/
theorem wakeups_correct_expired : ∃ s : State (Fin 3) Unit,
    (sys (Fin 3) Unit).Reaches s ∧ s.signals = [⟨⟨false, [0, 1], [(0, false), (1, true)]⟩, [], []⟩] ∧
      s.returns = [⟨1, true, .signal⟩, ⟨0, false, .timeout⟩] ∧ WakeupsCorrect s := by
  let start : State (Fin 3) Unit :=
    ⟨fun _ => ⟨⟨.running, false⟩, .task, ⟨false, false⟩, .nobody⟩, [], none, fun _ => false, [], []⟩
  have hrun : (((sys (Fin 3) Unit).run start
      [.wait 0 () 5, .run 0, .run 0, .run 0, .wait 1 () noTimeout, .run 1, .run 1, .run 1, .expire 0, .dispatch 0,
        .signal 2 false, .run 2, .run 2, .run 2, .run 2, .run 2, .run 2, .run 2, .run 0, .run 0, .run 0, .dispatch 1,
        .run 1, .run 1, .mutexUnlock 2 (), .run 1]).map fun s => (s.signals, s.returns)) =
      some ([⟨⟨false, [0, 1], [(0, false), (1, true)]⟩, [], []⟩], [⟨1, true, .signal⟩, ⟨0, false, .timeout⟩]) := by
    decide +kernel
  obtain ⟨s, hs, he⟩ := Option.map_eq_some_iff.1 hrun
  obtain ⟨hsig, hret⟩ := Prod.mk.inj he
  have hr : (sys (Fin 3) Unit).Reaches s :=
    Lts.reaches_of_run (.init ⟨fun _ => rfl, rfl, rfl, rfl, rfl⟩) hs
  exact ⟨s, hr, hsig, hret, wakeups_correct hr⟩

end TinyOS.CondVar
