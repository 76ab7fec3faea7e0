import TinyOS.Proc.Events
import TinyOS.Proc.Waits

/-!
# What ends with a process

- `step_cleanedUp`: the thread that takes `threadCounter` to 0 gives the children of its process to init, and leaves
  nothing else behind;
- `step_kept`: a step other than `sys_Exec` leaves the main tasks and the incarnations alone.
-/

namespace TinyOS.Proc

namespace State

/-- The state `s'` after the exit of the last thread of `p` in `s`. -/
structure CleanedUp (s s' : State) (p : Pid) : Prop where
  pstate : s'.tree.pstate p = .zombie
  children : s'.tree.childrenList p = []
  exited : s'.tree.exitedList p = []
  orphans : p ≠ initPid → ∀ c ∈ s.tree.childrenList p, s'.tree.parent c = some initPid
  args : (s'.pcb p).args = none
  fidt : ∀ fid, (s'.pcb p).fidt fid = none
  mainThread : (s'.pcb p).mainThread = none

/-- No process of `s` has got another main task in `s'`, and no PCB has been acquired. -/
structure Kept (s s' : State) : Prop where
  serial : s'.serial = s.serial
  mainTask : ∀ p, (s'.pcb p).mainTask = (s.pcb p).mainTask

variable {s s' s₁ : State} {cur p : Pid} {i : ThreadId} {own tid : Tid} {x : Pcb}

/-! ## The exit of a process -/

theorem exit_cleanedUp {t t' : Tree} (h : t.exit p = some t') :
    t'.pstate p = .zombie ∧ t'.childrenList p = [] ∧ t'.exitedList p = [] ∧
      (p ≠ initPid → ∀ c ∈ t.childrenList p, t'.parent c = some initPid) := by
  have hst := Tree.exit_pstate h
  obtain ⟨t₁, h₁, hz⟩ := Option.bind_eq_some_iff.1 h
  unfold Tree.becomeZombie at hz
  split at hz
  · rename_i hempty
    cases hz
    refine ⟨Function.update_self .., hempty.1, hempty.2, fun hp c hc => ?_⟩
    rw [if_pos hp] at h₁
    unfold Tree.bequeath at h₁
    split at h₁
    · cases h₁
    · obtain ⟨q, -, rfl⟩ := Option.map_eq_some_iff.1 h₁
      show ((t.reparent p (t.childrenList p).length).appendExited p).parent c = _
      rw [Tree.reparent_eq hp _ _ (Nat.le_refl _)]
      exact if_pos hc
  · cases hz

theorem exitProcess_cleanedUp (he : s.exitProcess p = some s') : CleanedUp s s' p := by
  unfold exitProcess at he
  obtain ⟨t, ht, rfl⟩ := Option.map_eq_some_iff.1 he
  obtain ⟨hz, hch, hex, hor⟩ := exit_cleanedUp ht
  refine ⟨hz, hch, hex, hor, ?_, fun fid => ?_, ?_⟩
  all_goals simp only [cleanupProcess, setView, setPcb, Function.update_self]
  rw [Streams.View.cleanup_fidt, if_pos (List.mem_finRange fid)]

/-- The thread that takes `threadCounter` to 0 is the last one. -/
theorem sysThreadExit_cleanedUp {exitval : Int} (he : s.sysThreadExit i cur own exitval = some s')
    (h0 : (s'.pcb cur).threadCounter = 0) : CleanedUp s s' cur := by
  unfold sysThreadExit at he
  obtain ⟨x, hx, he⟩ := Option.bind_eq_some_iff.1 he
  obtain ⟨s₂, h₂, rfl⟩ := Option.map_eq_some_iff.1 he
  have hexit : ∀ s₁ : State, s₁.tree = s.tree →
      (if (s₁.pcb cur).threadCounter = 0 then s₁.exitProcess cur else some s₁) = some s₂ → CleanedUp s s₂ cur := by
    intro s₁ htree h₁
    split at h₁
    · have h := exitProcess_cleanedUp h₁
      exact { h with orphans := htree ▸ h.orphans }
    · cases h₁
      exact absurd h0 ‹_›
  have h := hexit _ (by split <;> rfl) h₂
  exact { h with }

theorem exitLoop_cleanedUp {exitval : Int} (hcur : cur = initPid) : ∀ (n : Nat) {s : State},
    s.exitLoop i cur own exitval n = some s' → s'.hasExited i = true → (s'.pcb cur).threadCounter = 0 →
    CleanedUp s s' cur := by
  intro n
  induction n with
  | zero => intro s he; cases he
  | succ n ih =>
    intro s he hex h0
    unfold exitLoop at he
    split at he
    · exact sysThreadExit_cleanedUp he h0
    · split at he
      · exact { ih (s := s.cleanupZombie cur _) he hex h0 with orphans := fun hn => absurd hcur hn }
      · cases he
    · cases he
      cases hi : s.threads[i]? <;> simp [hasExited, wait, setPlace, hi] at hex

/-- A thread that exits and leaves `threadCounter` at 0 cleans up after its process. -/
theorem step_cleanedUp {a : Action} {th : Thread} (hinv : s.links.Inv)
    (hroot : ∀ q v, s.Waits q (.exitOfInit v) → q = initPid)
    (hs : s.step a = some s') {exitval : Int} (he : s.event a s' = .exited i exitval) (hi : s.threads[i]? = some th)
    (h0 : (s'.pcb th.ownerPcb).threadCounter = 0) : CleanedUp s s' th.ownerPcb := by
  have hex := hasExited_of_event hinv hs he
  obtain ⟨j, c, th', rfl, hj, hp, hperf⟩ | ⟨j, w, th', rfl, hj, hp, hperf⟩ := step_cases hs
  · rcases event_exited he with ha | ha | ⟨ha, -⟩
    · cases ha
      cases hi.symm.trans hj
      exact sysThreadExit_cleanedUp hperf h0
    · cases ha
      cases hi.symm.trans hj
      simp only [perform, sysExit] at hperf
      split at hperf
      · have h := exitLoop_cleanedUp (s := s.setPcb _ _) ‹_› _ hperf hex h0
        exact { h with }
      · have h := sysThreadExit_cleanedUp (s := s.setPcb _ _) hperf h0
        exact { h with }
    · cases ha
  · rcases event_exited he with ha | ha | ⟨ha, woken, hplace⟩
    · cases ha
    · cases ha
    · cases ha
      cases hi.symm.trans hj
      rw [hi, Option.map_some, hp] at hplace
      cases hplace
      exact exitLoop_cleanedUp (hroot _ exitval ⟨th, List.mem_of_getElem? hi, rfl, true, hp⟩) _ hperf hex h0

/-! ## Steps other than `sys_Exec` -/

theorem Kept.refl (s : State) : Kept s s := ⟨rfl, fun _ => rfl⟩

theorem Kept.trans (h : Kept s s₁) (h' : Kept s₁ s') : Kept s s' :=
  ⟨h'.serial.trans h.serial, fun p => (h'.mainTask p).trans (h.mainTask p)⟩

theorem kept_setPcb (hx : x.mainTask = (s.pcb p).mainTask) : Kept s (s.setPcb p x) := by
  refine ⟨rfl, fun q => ?_⟩
  by_cases hq : q = p
  · subst hq
    simp [setPcb, hx]
  · simp [setPcb, hq]

theorem kept_setView (v : Streams.View) : Kept s (s.setView p v) := by
  obtain ⟨hs, hm⟩ := (kept_setPcb rfl : Kept s (s.setPcb p { s.pcb p with fidt := v.fidt }))
  exact ⟨hs, hm⟩

theorem exitProcess_kept (he : s.exitProcess p = some s') : Kept s s' := by
  unfold exitProcess at he
  obtain ⟨t, -, rfl⟩ := Option.map_eq_some_iff.1 he
  have hclean : ∀ s₁ : State, Kept s s₁ → Kept s (s₁.cleanupProcess p) := fun s₁ h₁ =>
    h₁.trans ((kept_setPcb rfl : Kept s₁ (s₁.setPcb p { s₁.pcb p with args := none, mainThread := none })).trans
      (kept_setView _))
  have hreport : Kept s (s.reportExit p t) := by
    unfold reportExit
    dsimp only
    split <;> split <;> exact ⟨rfl, fun _ => rfl⟩
  dsimp only
  split
  · exact ⟨(hclean _ hreport).serial, (hclean _ hreport).mainTask⟩
  · exact ⟨(hclean s (.refl s)).serial, (hclean s (.refl s)).mainTask⟩

theorem sysThreadExit_kept {exitval : Int} (he : s.sysThreadExit i cur own exitval = some s') : Kept s s' := by
  unfold sysThreadExit at he
  obtain ⟨x, hx, he⟩ := Option.bind_eq_some_iff.1 he
  obtain ⟨s₂, h₂, rfl⟩ := Option.map_eq_some_iff.1 he
  have hexit : ∀ s₁ : State, Kept s s₁ →
      (if (s₁.pcb cur).threadCounter = 0 then s₁.exitProcess cur else some s₁) = some s₂ → Kept s s₂ := by
    intro s₁ h h₁
    split at h₁
    · exact h.trans (exitProcess_kept h₁)
    · cases h₁
      exact h
  have h : Kept s s₂ := by
    refine hexit _ ?_ h₂
    have hpcb : Kept s (s.setPcb cur { s.pcb cur with threadCounter := (s.pcb cur).threadCounter - 1 }) := kept_setPcb rfl
    split <;> exact ⟨hpcb.serial, hpcb.mainTask⟩
  exact ⟨h.serial, h.mainTask⟩

theorem joinLoop_kept (he : s.joinLoop i cur tid = some s') : Kept s s' := by
  unfold joinLoop at he
  obtain ⟨x, -, rfl⟩ := Option.map_eq_some_iff.1 he
  dsimp only
  split
  · exact ⟨rfl, fun _ => rfl⟩
  · split
    · exact ⟨rfl, fun _ => rfl⟩
    · split
      · have hpcb : Kept s (s.setPcb cur { s.pcb cur with ptcbList := (s.pcb cur).ptcbList.erase tid }) := kept_setPcb rfl
        exact ⟨hpcb.serial, hpcb.mainTask⟩
      · exact ⟨rfl, fun _ => rfl⟩

theorem sysThreadJoin_kept (he : s.sysThreadJoin i cur own tid = some s') : Kept s s' := by
  unfold sysThreadJoin at he
  split at he
  · cases he
    exact ⟨rfl, fun _ => rfl⟩
  · split at he
    · cases he
      exact ⟨rfl, fun _ => rfl⟩
    · have h := joinLoop_kept he
      exact ⟨h.serial, h.mainTask⟩

theorem sysThreadDetach_kept : Kept s (s.sysThreadDetach i cur tid) := by
  unfold sysThreadDetach
  split
  · exact ⟨rfl, fun _ => rfl⟩
  · split <;> exact ⟨rfl, fun _ => rfl⟩

theorem specificLoop_kept (child : Pid) : Kept s (s.specificLoop i cur child) := by
  unfold specificLoop
  split <;> exact ⟨rfl, fun _ => rfl⟩

theorem waitForSpecificChild_kept (cpid : Int) : Kept s (s.waitForSpecificChild i cur cpid) := by
  unfold waitForSpecificChild
  split
  · exact ⟨rfl, fun _ => rfl⟩
  · split
    · exact ⟨rfl, fun _ => rfl⟩
    · exact specificLoop_kept _

theorem waitForAnyChild_kept (he : s.waitForAnyChild i cur = some s') : Kept s s' := by
  unfold waitForAnyChild at he
  split at he
  · cases he
    exact ⟨rfl, fun _ => rfl⟩
  · split at he
    · cases he
      exact ⟨rfl, fun _ => rfl⟩
    · cases he
  · cases he
    exact ⟨rfl, fun _ => rfl⟩

theorem exitLoop_kept {exitval : Int} : ∀ (n : Nat) {s : State}, s.exitLoop i cur own exitval n = some s' →
    Kept s s' := by
  intro n
  induction n with
  | zero => intro s he; cases he
  | succ n ih =>
    intro s he
    unfold exitLoop at he
    split at he
    · exact sysThreadExit_kept he
    · split at he
      · have h := ih he
        exact ⟨h.serial, h.mainTask⟩
      · cases he
    · cases he
      exact ⟨rfl, fun _ => rfl⟩

theorem startThread_kept (p : Pid) (tid : Tid) (task : Task) (argl : Int) (args : Args) :
    Kept s (s.startThread p tid task argl args) := by
  obtain ⟨hs, hm⟩ := (kept_setPcb rfl : Kept s (s.setPcb p
    { s.pcb p with threadCounter := (s.pcb p).threadCounter + 1, ptcbList := (s.pcb p).ptcbList ++ [tid] }))
  exact ⟨hs, hm⟩

/-- Only `sys_Exec` acquires a PCB, and sets a main task. -/
theorem step_kept {a : Action} (ha : ∀ i tid call argl args, a ≠ .call i (.exec tid call argl args))
    (hs : s.step a = some s') : Kept s s' := by
  obtain ⟨i, c, th, rfl, hi, hp, he⟩ | ⟨i, w, th, rfl, hi, hp, he⟩ := step_cases hs
  · cases c with
    | exec tid call argl args => exact absurd rfl (ha i tid call argl args)
    | createThread tid task argl args =>
      simp only [perform] at he
      split at he
      · cases he
        have h := startThread_kept (s := s) th.ownerPcb tid task argl args
        exact ⟨h.serial, h.mainTask⟩
      · cases he
    | threadJoin tid => exact sysThreadJoin_kept he
    | threadDetach tid =>
      cases he
      exact sysThreadDetach_kept
    | threadExit exitval => exact sysThreadExit_kept he
    | exit exitval =>
      have hpcb : Kept s (s.setPcb th.ownerPcb { s.pcb th.ownerPcb with exitval := exitval }) := kept_setPcb rfl
      simp only [perform, sysExit] at he
      split at he
      · exact hpcb.trans (exitLoop_kept _ he)
      · exact hpcb.trans (sysThreadExit_kept he)
    | waitChild cpid =>
      simp only [perform, sysWaitChild] at he
      split at he
      · cases he
        exact waitForSpecificChild_kept cpid
      · exact waitForAnyChild_kept he
    | file c =>
      obtain ⟨v, -, rfl⟩ := Option.map_eq_some_iff.1 he
      exact kept_setView v
  · cases w with
    | specificChild child =>
      cases he
      exact specificLoop_kept child
    | anyChild => exact waitForAnyChild_kept he
    | exitOfInit exitval => exact exitLoop_kept _ he
    | join tid => exact joinLoop_kept he

end State

end TinyOS.Proc
