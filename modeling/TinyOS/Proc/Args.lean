import TinyOS.Proc.FreeList
import TinyOS.Proc.Info

/-!
# What a process was executed with

- `run_lasts`: as long as a process lives, its PCB holds the main task and the arguments that `sys_Exec` has stored there;
- `procinfoRead_main`: a record of the process on an info stream has them too.
-/

namespace TinyOS.Proc

open Relation

/-- What `start_main_thread` calls, with which arguments. -/
def Pcb.mainCall (x : Pcb) : Option Task × Int × Args := (x.mainTask, x.argl, x.args)

namespace State

/-- From `s` to `s'`: if the PCB `p` still holds the same process, alive, then it holds the same call. -/
structure Lasts (p : Pid) (s s' : State) : Prop where
  serial_le : s.serial p ≤ s'.serial p
  same : s'.serial p = s.serial p → s'.tree.pstate p = .alive →
    s.tree.pstate p = .alive ∧ (s'.pcb p).mainCall = (s.pcb p).mainCall

variable {s s' s₁ : State} {cur p q : Pid} {i : ThreadId} {own tid : Tid} {x : Pcb}

theorem Lasts.refl (p : Pid) (s : State) : Lasts p s s := ⟨le_refl _, fun _ h => ⟨h, rfl⟩⟩

theorem Lasts.trans (h : Lasts p s s₁) (h' : Lasts p s₁ s') : Lasts p s s' := by
  refine ⟨h.serial_le.trans h'.serial_le, fun hser hal => ?_⟩
  have hle := h.serial_le
  have hle' := h'.serial_le
  obtain ⟨hal₁, hcall'⟩ := h'.same (by omega) hal
  obtain ⟨hal₀, hcall⟩ := h.same (by omega) hal₁
  exact ⟨hal₀, hcall'.trans hcall⟩

/-- Changes of the threads, the PTCBs and the files. -/
theorem lasts_of_eq (htree : s'.tree = s.tree) (hpcb : s'.pcb = s.pcb) (hser : s'.serial = s.serial) :
    Lasts p s s' := by
  refine ⟨by rw [hser], fun _ hal => ?_⟩
  rw [htree] at hal
  exact ⟨hal, by rw [hpcb]⟩

theorem lasts_setPtcb {y : Option Ptcb} : Lasts p s (s.setPtcb tid y) := lasts_of_eq rfl rfl rfl

theorem lasts_setPcb (hx : x.mainCall = (s.pcb q).mainCall) : Lasts p s (s.setPcb q x) := by
  refine ⟨le_refl _, fun _ hal => ⟨hal, ?_⟩⟩
  by_cases hp : p = q
  · subst hp
    simp [setPcb, hx]
  · simp [setPcb, hp]

theorem lasts_setView (v : Streams.View) : Lasts p s (s.setView q v) :=
  (lasts_setPcb rfl : Lasts p s (s.setPcb q { s.pcb q with fidt := v.fidt })).trans (lasts_of_eq rfl rfl rfl)

/-- A change of the tree after which `q` is not alive, whatever becomes of its PCB. -/
theorem lasts_of_dead {t : Tree} {st : PidState} (hst : t.pstate = Function.update s.tree.pstate q st) (hne : st ≠ .alive)
    (hpcb : ∀ r, r ≠ q → (s'.pcb r).mainCall = (s.pcb r).mainCall) (htree : s'.tree = t)
    (hser : s'.serial = s.serial) : Lasts p s s' := by
  refine ⟨by rw [hser], fun _ hal => ?_⟩
  rw [htree, hst] at hal
  by_cases hp : p = q
  · subst hp
    rw [Function.update_self] at hal
    exact absurd hal hne
  · rw [Function.update_of_ne hp] at hal
    exact ⟨hal, hpcb p hp⟩

theorem exitProcess_lasts (he : s.exitProcess q = some s') : Lasts p s s' := by
  unfold exitProcess at he
  obtain ⟨t, ht, rfl⟩ := Option.map_eq_some_iff.1 he
  have hreport : (s.reportExit q t).pcb = s.pcb ∧ (s.reportExit q t).serial = s.serial := by
    unfold reportExit broadcastChildExit
    dsimp only
    split <;> split <;> exact ⟨rfl, rfl⟩
  refine lasts_of_dead (Tree.exit_pstate ht) PidState.noConfusion (fun r hr => ?_) rfl ?_
  · split <;> simp [cleanupProcess, setView, setPcb, hr, hreport.1]
  · split
    · exact hreport.2
    · rfl

theorem cleanupZombie_lasts (cur child : Pid) : Lasts p s (s.cleanupZombie cur child) :=
  lasts_of_dead rfl PidState.noConfusion (fun _ _ => rfl) rfl rfl

theorem startThread_lasts (task : Task) (argl : Int) (args : Args) : Lasts p s (s.startThread q tid task argl args) :=
  (lasts_setPcb rfl : Lasts p s (s.setPcb q
    { s.pcb q with threadCounter := (s.pcb q).threadCounter + 1, ptcbList := (s.pcb q).ptcbList ++ [tid] })).trans
    (lasts_of_eq rfl rfl rfl)

/-- A new process in PCB `q`. -/
theorem setupProcess_lasts {t : Tree} (hst : t.pstate = Function.update s.tree.pstate q .alive) (call : Option Task)
    (argl : Int) (args : Args) : Lasts p s (s.setupProcess cur q t call argl args) := by
  by_cases hp : p = q
  · subst hp
    have hser : (s.setupProcess cur p t call argl args).serial p = s.serial p + 1 := by
      unfold setupProcess inheritFidt
      dsimp only
      split <;> simp [setPcb, setView]
    exact ⟨by omega, fun h => by omega⟩
  · unfold setupProcess inheritFidt
    dsimp only
    refine ⟨?_, fun _ hal => ⟨?_, ?_⟩⟩
    · split <;> simp [setPcb, setView, hp]
    · have htree : t.pstate p = .alive := by
        split at hal <;> exact hal
      rwa [hst, Function.update_of_ne hp] at htree
    · split <;> simp [setPcb, setView, hp]

/-! ## The system calls -/

theorem sysExec_lasts (cur : Pid) (tid : Tid) (call : Option Task) (argl : Int) (args : Args) :
    Lasts p s (s.sysExec cur tid call argl args).2 := by
  unfold sysExec
  split
  · exact .refl p s
  · rename_i q t ht
    have hsetup : Lasts p s (s.setupProcess cur q t call argl args) := setupProcess_lasts (Tree.exec_some ht).2.1 call argl args
    cases call with
    | none => exact hsetup
    | some task =>
      refine hsetup.trans (.trans ?_ (startThread_lasts task argl args))
      exact lasts_setPcb rfl

theorem sysThreadExit_lasts {exitval : Int} (he : s.sysThreadExit i cur own exitval = some s') : Lasts p s s' := by
  unfold sysThreadExit at he
  obtain ⟨x, -, he⟩ := Option.bind_eq_some_iff.1 he
  obtain ⟨s₂, h₂, rfl⟩ := Option.map_eq_some_iff.1 he
  have hexit : ∀ s₁ : State, Lasts p s s₁ →
      (if (s₁.pcb cur).threadCounter = 0 then s₁.exitProcess cur else some s₁) = some s₂ → Lasts p s s₂ := by
    intro s₁ h h₁
    split at h₁
    · exact h.trans (exitProcess_lasts h₁)
    · cases h₁
      exact h
  refine Lasts.trans (hexit _ ?_ h₂) (lasts_of_eq rfl rfl rfl)
  have hpcb : Lasts p s (s.setPcb cur { s.pcb cur with threadCounter := (s.pcb cur).threadCounter - 1 }) := lasts_setPcb rfl
  split
  · exact hpcb.trans (lasts_of_eq rfl rfl rfl)
  · exact hpcb.trans (lasts_of_eq rfl rfl rfl)

theorem joinLoop_lasts (he : s.joinLoop i cur tid = some s') : Lasts p s s' := by
  unfold joinLoop at he
  obtain ⟨x, -, rfl⟩ := Option.map_eq_some_iff.1 he
  dsimp only
  split
  · exact lasts_of_eq rfl rfl rfl
  · split
    · exact lasts_of_eq rfl rfl rfl
    · split
      · have hpcb : Lasts p s (s.setPcb cur { s.pcb cur with ptcbList := (s.pcb cur).ptcbList.erase tid }) :=
          lasts_setPcb rfl
        exact hpcb.trans (lasts_of_eq rfl rfl rfl)
      · exact lasts_of_eq rfl rfl rfl

theorem sysThreadJoin_lasts (he : s.sysThreadJoin i cur own tid = some s') : Lasts p s s' := by
  unfold sysThreadJoin at he
  split at he
  · cases he
    exact lasts_of_eq rfl rfl rfl
  · split at he
    · cases he
      exact lasts_of_eq rfl rfl rfl
    · exact lasts_setPtcb.trans (joinLoop_lasts he)

theorem sysThreadDetach_lasts : Lasts p s (s.sysThreadDetach i cur tid) := by
  unfold sysThreadDetach
  split
  · exact lasts_of_eq rfl rfl rfl
  · split <;> exact lasts_of_eq rfl rfl rfl

theorem reap_lasts (child : Pid) : Lasts p s (s.reap i cur child) :=
  (cleanupZombie_lasts cur child).trans (lasts_of_eq rfl rfl rfl)

theorem waitForSpecificChild_lasts (cpid : Int) : Lasts p s (s.waitForSpecificChild i cur cpid) := by
  unfold waitForSpecificChild specificLoop
  split
  · exact lasts_of_eq rfl rfl rfl
  · split
    · exact lasts_of_eq rfl rfl rfl
    · split
      · exact lasts_of_eq rfl rfl rfl
      · exact reap_lasts _

theorem waitForAnyChild_lasts (he : s.waitForAnyChild i cur = some s') : Lasts p s s' := by
  unfold waitForAnyChild at he
  split at he
  · cases he
    exact lasts_of_eq rfl rfl rfl
  · split at he
    · cases he
      exact reap_lasts _
    · cases he
  · cases he
    exact lasts_of_eq rfl rfl rfl

theorem exitLoop_lasts {exitval : Int} (n : Nat) (he : s.exitLoop i cur own exitval n = some s') : Lasts p s s' := by
  induction n generalizing s with
  | zero => cases he
  | succ n ih =>
    unfold exitLoop at he
    split at he
    · exact sysThreadExit_lasts he
    · split at he
      · exact (cleanupZombie_lasts cur _).trans (ih he)
      · cases he
    · cases he
      exact lasts_of_eq rfl rfl rfl

/-- The step lemma. -/
theorem step_lasts {a : Action} (hs : s.step a = some s') : Lasts p s s' := by
  obtain ⟨i, c, th, rfl, hi, hp, he⟩ | ⟨i, w, th, rfl, hi, hp, he⟩ := step_cases hs
  · cases c with
    | exec tid call argl args =>
      simp only [perform] at he
      split at he
      · cases he
        exact (sysExec_lasts _ tid call argl args).trans (lasts_of_eq rfl rfl rfl)
      · cases he
    | createThread tid task argl args =>
      simp only [perform] at he
      split at he
      · cases he
        exact (startThread_lasts task argl args).trans (lasts_of_eq rfl rfl rfl)
      · cases he
    | threadJoin tid => exact sysThreadJoin_lasts he
    | threadDetach tid =>
      cases he
      exact sysThreadDetach_lasts
    | threadExit exitval => exact sysThreadExit_lasts he
    | exit exitval =>
      have hpcb : Lasts p s (s.setPcb th.ownerPcb { s.pcb th.ownerPcb with exitval := exitval }) := lasts_setPcb rfl
      simp only [perform, sysExit] at he
      split at he
      · exact hpcb.trans (exitLoop_lasts _ he)
      · exact hpcb.trans (sysThreadExit_lasts he)
    | waitChild cpid =>
      simp only [perform, sysWaitChild] at he
      split at he
      · cases he
        exact waitForSpecificChild_lasts cpid
      · exact waitForAnyChild_lasts he
    | file c =>
      obtain ⟨v, -, rfl⟩ := Option.map_eq_some_iff.1 he
      exact lasts_setView v
  · cases w with
    | specificChild child =>
      cases he
      unfold specificLoop
      split
      · exact lasts_of_eq rfl rfl rfl
      · exact reap_lasts child
    | anyChild => exact waitForAnyChild_lasts he
    | exitOfInit exitval => exact exitLoop_lasts _ he
    | join tid => exact joinLoop_lasts he

/-- The run lemma. -/
theorem run_lasts (p : Pid) {as : List Action} (hr : system.run s as = some s') : Lasts p s s' :=
  Lts.run_keeps (I := Lasts p s) (fun _ _ _ h hs => h.trans (step_lasts hs)) (.refl p s) hr

/-! ## The call of a new process -/

/-- `sys_Exec` stores the call in the PCB of the new process. -/
theorem sysExec_mainCall {call : Option Task} {argl : Int} {args : Args}
    (he : s.sysExec cur tid call argl args = (some p, s')) : (s'.pcb p).mainCall = (call, argl, args) := by
  unfold sysExec at he
  split at he
  · cases he
  · rename_i q t ht
    have hsetup : ((s.setupProcess cur q t call argl args).pcb q).mainCall = (call, argl, args) := by
      unfold setupProcess
      simp [setPcb, Pcb.mainCall]
    cases call with
    | none =>
      cases he
      exact hsetup
    | some task =>
      cases he
      simpa [startMain, startThread, setPcb, setPtcb, Pcb.mainCall] using hsetup

theorem prefix_copyArgs {argl : Int} {args : List UInt8} {old new : Fin maxArgsSize → UInt8}
    (h : copyArgs argl args old = some new) : args <+: List.ofFn new := by
  unfold copyArgs at h
  split at h
  · rename_i hfit
    cases h
    refine List.prefix_iff_getElem?.2 fun i hi => ?_
    have hmax : i < maxArgsSize := hi.trans_le hfit.2
    simp [hmax, hi]
  · cases h

/-- A record of `p` has the call in it; `args` of the record begins with the arguments. -/
theorem procinfoRead_main {cb cb' : ProcinfoCb} {r : Procinfo} {task : Task} {argl : Int} {args : List UInt8}
    (hp : s.FirstInUse cb.ptCursor p) (hcall : (s.pcb p).mainCall = (some task, argl, some args))
    (hr : s.procinfoRead false cb = some (some r, cb')) :
    r.mainTask = some task ∧ r.argl = argl ∧ args <+: List.ofFn r.args := by
  obtain ⟨hmain, hargl, hargs⟩ : (s.pcb p).mainTask = some task ∧ (s.pcb p).argl = argl ∧ (s.pcb p).args = some args := by
    simpa [Pcb.mainCall] using hcall
  rcases s.skipFree_cases cb with ⟨hrest, -⟩ | ⟨hlt, q, hq, hfirst⟩
  · exact absurd hp.2.1 (hrest p hp.1)
  · rw [← hp.unique hfirst] at hq
    simp only [procinfoRead, dif_pos hlt, hq, fillPcb, hargs, hmain, hargl, Bool.false_eq_true, if_false, Option.map_map,
      Option.map_eq_some_iff, Function.comp_apply, Prod.mk.injEq, Option.some.injEq] at hr
    obtain ⟨new, hnew, rfl, -⟩ := hr
    exact ⟨rfl, rfl, prefix_copyArgs hnew⟩

end State

end TinyOS.Proc
