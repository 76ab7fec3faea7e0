import Mathlib.Logic.Relation
import TinyOS.Lib.Count
import TinyOS.Proc.Model

/-!
# The process table

What the system calls do to the processes and to the numbers of their threads, and nothing else. `State.table` reads the
table off a state of the system; `Table.Step` are its moves.

- `perform_table`: a system call makes moves of the table, at most one of them other than a reaping;
- `resume_table`: so does a woken thread, unless it waits for a PCB that is no longer its child.
-/

namespace TinyOS.Proc

open Relation

/-- The tree, `threadCounter` and the number of threads that have not exited, and the history. -/
@[ext] structure Table where
  tree : Tree
  counter : Pid → Int
  live : Pid → Nat
  serial : Pid → Nat
  reaps : List Reap

namespace Table

def newThread (t : Table) (p : Pid) : Table :=
  { t with counter := Function.update t.counter p (t.counter p + 1), live := Function.update t.live p (t.live p + 1) }

/-- A new process `p`; `main` says whether it gets a thread. -/
def create (t : Table) (p : Pid) (tree : Tree) (main : Bool) : Table :=
  let t := { t with tree := tree, serial := Function.update t.serial p (t.serial p + 1) }
  if main then t.newThread p else t

def endThread (t : Table) (p : Pid) : Table :=
  { t with counter := Function.update t.counter p (t.counter p - 1), live := Function.update t.live p (t.live p - 1) }

def reap (t : Table) (cur child : Pid) : Table :=
  { t with
    tree := t.tree.cleanupZombie child
    reaps := ⟨cur, child, t.serial child, t.tree.pstate child, t.tree.parent child⟩ :: t.reaps }

/-- What a thread of `cur` does to the table. -/
inductive Step (cur : Pid) (t : Table) : Table → Prop
  | newThread : 0 < t.live cur → Step cur t (t.newThread cur)
  | exec {p : Pid} {tree : Tree} (main : Bool) : 0 < t.live cur → t.tree.exec cur = some (p, tree) →
      Step cur t (t.create p tree main)
  | endThread : 0 < t.live cur → t.counter cur ≠ 1 → Step cur t (t.endThread cur)
  | endProcess {tree : Tree} : 0 < t.live cur → t.counter cur = 1 → t.tree.exit cur = some tree →
      Step cur t { t.endThread cur with tree := tree }
  | reap {child : Pid} : 0 < t.live cur → t.tree.pstate child = .zombie →
      t.tree.parent child = some cur ∨ child ∈ t.tree.exitedList cur → Step cur t (t.reap cur child)

section Create

variable (t : Table) (p q : Pid) (tree : Tree) (main : Bool)

@[simp] theorem create_tree : (t.create p tree main).tree = tree := by cases main <;> rfl

@[simp] theorem create_serial : (t.create p tree main).serial = Function.update t.serial p (t.serial p + 1) := by
  cases main <;> rfl

@[simp] theorem create_counter : (t.create p tree main).counter q = t.counter q + if q = p ∧ main then 1 else 0 := by
  cases main with
  | false => simp [create]
  | true => by_cases hq : q = p <;> simp [create, newThread, hq]

@[simp] theorem create_live : (t.create p tree main).live q = t.live q + if q = p ∧ main then 1 else 0 := by
  cases main with
  | false => simp [create]
  | true => by_cases hq : q = p <;> simp [create, newThread, hq]

end Create

end Table

/-! ## The table of a state -/

namespace Thread

variable (th : Thread) (on : Thread → Wait → Bool)

@[simp] theorem wake_ownerPcb : (th.wake on).ownerPcb = th.ownerPcb := by
  unfold wake
  split <;> [split; skip] <;> rfl

@[simp] theorem wake_place_eq_exited : (th.wake on).place = .exited ↔ th.place = .exited := by
  unfold wake
  split
  · rename_i h
    split <;> simp [h]
  · rfl

end Thread

namespace State

/-- The threads of `p` that have not exited. -/
def live (s : State) (p : Pid) : Nat := s.threads.countP fun th => th.ownerPcb = p ∧ th.place ≠ .exited

def table (s : State) : Table := ⟨s.tree, fun p => (s.pcb p).threadCounter, s.live, s.serial, s.reaps⟩

/-- Thread `i` belongs to `cur` and has not exited. -/
def Runs (s : State) (i : ThreadId) (cur : Pid) : Prop :=
  ∃ th, s.threads[i]? = some th ∧ th.ownerPcb = cur ∧ th.place ≠ .exited

variable {s s' : State} {cur p q : Pid} {i : ThreadId} {own tid : Tid} {x : Pcb}

theorem Runs.live_pos (h : s.Runs i cur) : 0 < s.live cur := by
  obtain ⟨th, hi, hp, hl⟩ := h
  exact List.countP_pos_iff.2 ⟨th, List.mem_of_getElem? hi, by simp [hp, hl]⟩

/-! ### Changes that the table does not show -/

theorem table_setPlace (h : s.Runs i cur) {pl : Place} (hpl : pl ≠ .exited) : (s.setPlace i pl).table = s.table := by
  obtain ⟨th, hi, _, hl⟩ := h
  ext1
  case live => exact funext fun p => List.countP_modify_of_eq _ hi (by simp [hpl, hl])
  all_goals rfl

theorem table_ret (h : s.Runs i cur) (v : Int) (out : Option Int) : (s.ret i v out).table = s.table := by
  obtain ⟨th, hi, _, hl⟩ := h
  ext1
  case live => exact funext fun p => List.countP_modify_of_eq _ hi (by simp [hl])
  all_goals rfl

theorem table_wait (h : s.Runs i cur) (w : Wait) : (s.wait i w).table = s.table := table_setPlace h (by simp)

@[simp] theorem table_wake (on : Thread → Wait → Bool) : (s.wake on).table = s.table := by
  ext1
  case live =>
    funext p
    show List.countP _ (List.map _ _) = _
    rw [List.countP_map]
    exact List.countP_congr fun th _ => by simp
  all_goals rfl

/-- Changes of a PCB that keep `threadCounter`. -/
theorem table_setPcb (hx : x.threadCounter = (s.pcb p).threadCounter) : (s.setPcb p x).table = s.table := by
  ext1
  case counter =>
    funext q
    by_cases hq : q = p
    · subst hq
      simp [table, setPcb, hx]
    · simp [table, setPcb, hq]
  all_goals rfl

theorem table_counter (n : Int) : (s.setPcb p { s.pcb p with threadCounter := n }).table =
    { s.table with counter := Function.update s.table.counter p n } := by
  ext1
  case counter =>
    funext q
    by_cases hq : q = p
    · subst hq
      simp [table, setPcb]
    · simp [table, setPcb, hq]
  all_goals rfl

@[simp] theorem table_setView (v : Streams.View) : (s.setView p v).table = s.table :=
  (table_setPcb rfl : (s.setPcb p { s.pcb p with fidt := v.fidt }).table = s.table)

@[simp] theorem table_freePtcb : (s.freePtcb p tid).table = s.table :=
  (table_setPcb rfl : (s.setPcb p { s.pcb p with ptcbList := (s.pcb p).ptcbList.erase tid }).table = s.table)

/-! ### Changes that it shows -/

theorem table_startThread (task : Task) (argl : Int) (args : Args) :
    (s.startThread p tid task argl args).table = s.table.newThread p := by
  ext1
  case counter =>
    funext q
    by_cases hq : q = p
    · subst hq
      simp [table, startThread, setPcb, setPtcb, Table.newThread]
    · simp [table, startThread, setPcb, setPtcb, Table.newThread, hq]
  case live =>
    funext q
    show List.countP _ (_ ++ _) = _
    rw [List.countP_append]
    by_cases hq : q = p
    · subst hq
      simp [Table.newThread, table, live]
    · simp [Table.newThread, table, live, hq, Ne.symm hq]
  all_goals rfl

/-- One thread of `cur` fewer. -/
theorem table_exited (h : s.Runs i cur) :
    (s.setPlace i .exited).table = { s.table with live := Function.update s.live cur (s.live cur - 1) } := by
  obtain ⟨th, hi, hp, hl⟩ := h
  ext1
  case live =>
    funext q
    have := List.countP_modify_add (p := fun th : Thread => th.ownerPcb = q ∧ th.place ≠ .exited)
      (fun th => { th with place := .exited }) hi
    show List.countP _ (List.modify _ _ _) = _
    by_cases hq : q = cur
    · subst hq
      simp only [hp, hl, ne_eq, not_false_eq_true, and_self, decide_true, if_true, not_true_eq_false, and_false,
        decide_false, Bool.false_eq_true, if_false, Nat.add_zero] at this
      simp only [live, Function.update_self, ne_eq]
      omega
    · simpa [hp, hq, Ne.symm hq, live] using this
  all_goals rfl

theorem Runs.wake (h : s.Runs i cur) (on : Thread → Wait → Bool) : (s.wake on).Runs i cur := by
  obtain ⟨th, hi, hp, hl⟩ := h
  refine ⟨th.wake on, ?_, by simpa, by simpa⟩
  show (List.map _ _)[i]? = _
  rw [List.getElem?_map, hi]
  rfl

theorem Runs.reportExit (h : s.Runs i cur) (p : Pid) (t : Tree) : (s.reportExit p t).Runs i cur := by
  unfold State.reportExit
  have h₁ : (if s.tree.exitedList p = [] then s else s.broadcastChildExit initPid).Runs i cur := by
    split
    · exact h
    · exact h.wake _
  dsimp only
  split
  · exact h₁.wake _
  · exact h₁

@[simp] theorem table_reportExit (t : Tree) : (s.reportExit p t).table = s.table := by
  unfold reportExit broadcastChildExit
  dsimp only
  split <;> split <;> simp

@[simp] theorem table_cleanupProcess : (s.cleanupProcess p).table = s.table :=
  (table_setView _).trans (table_setPcb rfl)

theorem exitProcess_table (h : s.Runs i cur) (he : s.exitProcess p = some s') :
    s'.Runs i cur ∧ ∃ t, s.tree.exit p = some t ∧ s'.table = { s.table with tree := t } := by
  unfold exitProcess at he
  obtain ⟨t, ht, rfl⟩ := Option.map_eq_some_iff.1 he
  refine ⟨?_, t, ht, ?_⟩
  · split
    · exact h.reportExit p t
    · exact h
  · have htab : ∀ s₁ : State, s₁.table = s.table →
        State.table { s₁.cleanupProcess p with tree := t } = { s.table with tree := t } := by
      intro s₁ h₁
      rw [← h₁, ← table_cleanupProcess (s := s₁) (p := p)]
      rfl
    split
    · exact htab _ (table_reportExit t)
    · exact htab _ rfl

/-! ## The system calls -/

theorem sysThreadExit_table {exitval : Int} (h : s.Runs i cur) (he : s.sysThreadExit i cur own exitval = some s') :
    Table.Step cur s.table s'.table := by
  unfold sysThreadExit at he
  obtain ⟨x, -, he⟩ := Option.bind_eq_some_iff.1 he
  obtain ⟨s₂, h₂, rfl⟩ := Option.map_eq_some_iff.1 he
  -- the state after the broadcast
  obtain ⟨s₁, hs₁, h₁, hr, hc⟩ : ∃ s₁ : State,
      (if (s₁.pcb cur).threadCounter = 0 then s₁.exitProcess cur else some s₁) = some s₂ ∧
      s₁.table = { s.table with counter := Function.update s.table.counter cur (s.table.counter cur - 1) } ∧
      s₁.Runs i cur ∧ (s₁.pcb cur).threadCounter = s.table.counter cur - 1 := by
    refine ⟨_, h₂, ?_, ?_, ?_⟩
    · split <;> simp only [broadcastExit, table_wake, table_counter] <;> rfl
    · split
      · exact Runs.wake (i := i) h _
      · exact h
    · split <;> simp [setPcb, setPtcb, broadcastExit, State.wake, table]
  have hlive := h.live_pos
  have htree : s₁.tree = s.tree := congrArg Table.tree h₁
  have hl₁ : s₁.live = s.live := congrArg Table.live h₁
  split at hs₁
  · rename_i h0
    obtain ⟨hr₂, t, ht, h₂⟩ := exitProcess_table hr hs₁
    have hl₂ : s₂.live = s.live := (congrArg Table.live h₂).trans hl₁
    rw [table_exited hr₂, h₂, h₁, hl₂]
    rw [htree] at ht
    exact .endProcess hlive (by omega) ht
  · rename_i h0
    cases hs₁
    rw [table_exited hr, h₁, hl₁]
    exact .endThread hlive (by omega)

theorem inheritFidt_table : (s.inheritFidt cur p).table = s.table := table_setView _

theorem setupProcess_table (s : State) (cur p : Pid) (tree : Tree) (call : Option Task) (argl : Int) (args : Args) :
    (s.setupProcess cur p tree call argl args).table = s.table.create p tree false := by
  unfold setupProcess
  refine Eq.trans (table_setPcb rfl) ?_
  split
  · rfl
  · exact inheritFidt_table

theorem startMain_table (task : Task) (argl : Int) (args : Args) :
    (s.startMain p tid task argl args).table = s.table.newThread p :=
  have hmain : (s.setPcb p { s.pcb p with mainThread := some s.threads.length }).table = s.table := table_setPcb rfl
  (table_startThread _ _ _).trans (congrArg (·.newThread p) hmain)

theorem Runs.startThread (h : s.Runs i cur) (p : Pid) (tid : Tid) (task : Task) (argl : Int) (args : Args) :
    (s.startThread p tid task argl args).Runs i cur := by
  obtain ⟨th, hi, ht⟩ := h
  exact ⟨th, (List.getElem?_append_left (List.getElem?_eq_some_iff.1 hi).1).trans hi, ht⟩

theorem Runs.setupProcess (h : s.Runs i cur) (p : Pid) (tree : Tree) (call : Option Task) (argl : Int) (args : Args) :
    (s.setupProcess cur p tree call argl args).Runs i cur := by
  unfold State.setupProcess
  dsimp only
  split <;> exact h

theorem Runs.sysExec (h : s.Runs i cur) (tid : Tid) (call : Option Task) (argl : Int) (args : Args) :
    (s.sysExec cur tid call argl args).2.Runs i cur := by
  unfold State.sysExec
  cases s.tree.exec cur with
  | none => exact h
  | some r =>
    have hr := h.setupProcess r.1 r.2 call argl args
    cases call with
    | none => exact hr
    | some task => exact Runs.startThread (s := State.setPcb _ _ _) hr r.1 tid task argl args

theorem sysExec_none (he : s.tree.exec cur = none) (tid : Tid) (call : Option Task) (argl : Int) (args : Args) :
    s.sysExec cur tid call argl args = (none, s) := by
  unfold sysExec
  rw [he]

/-- `sys_Exec` makes the process that the tree adopts. -/
theorem sysExec_table {tree : Tree} (he : s.tree.exec cur = some (p, tree)) (tid : Tid) (call : Option Task)
    (argl : Int) (args : Args) : (s.sysExec cur tid call argl args).2.table = s.table.create p tree call.isSome := by
  unfold sysExec
  rw [he]
  have ht := setupProcess_table s cur p tree call argl args
  cases call with
  | none => exact ht
  | some task => exact (startMain_table _ _ _).trans (congrArg (·.newThread p) ht)

theorem joinLoop_table (h : s.Runs i cur) (he : s.joinLoop i cur tid = some s') : s'.table = s.table := by
  unfold joinLoop at he
  obtain ⟨x, -, rfl⟩ := Option.map_eq_some_iff.1 he
  dsimp only
  split
  · exact table_wait h _
  · split
    · exact table_ret (s := s.setPtcb _ _) h _ _
    · split
      · exact (table_ret (s := (s.setPtcb _ _).freePtcb _ _) h _ _).trans (table_freePtcb (s := s.setPtcb _ _))
      · exact table_ret (s := s.setPtcb _ _) h _ _

theorem sysThreadJoin_table (h : s.Runs i cur) (he : s.sysThreadJoin i cur own tid = some s') :
    s'.table = s.table := by
  unfold sysThreadJoin at he
  split at he
  · cases he
    exact table_ret h _ _
  · split at he
    · cases he
      exact table_ret h _ _
    · exact joinLoop_table (s := s.setPtcb _ _) h he

theorem sysThreadDetach_table (h : s.Runs i cur) : (s.sysThreadDetach i cur tid).table = s.table := by
  unfold sysThreadDetach
  split
  · exact table_ret h _ _
  · split
    · exact table_ret h _ _
    · exact (table_ret (Runs.wake (s := s.setPtcb _ _) h _) _ _).trans (table_wake _)

/-! ### Waiting for children -/

theorem reap_table (h : s.Runs i cur) (child : Pid) : (s.reap i cur child).table = s.table.reap cur child :=
  table_ret (s := s.cleanupZombie cur child) h _ _

theorem waitForSpecificChild_table (h : s.Runs i cur) (cpid : Int) :
    ReflTransGen (Table.Step cur) s.table (s.waitForSpecificChild i cur cpid).table := by
  unfold waitForSpecificChild
  split
  · rw [table_ret h]
  · rename_i child hc
    split
    · rw [table_ret h]
    · rename_i hpar
      have hfree : s.tree.pstate child ≠ .free := by
        unfold getPcb at hc
        split at hc
        · split at hc
          · cases hc
          · cases hc
            assumption
        · cases hc
      unfold specificLoop
      split
      · rw [table_wait h]
      · rename_i hal
        rw [reap_table h]
        refine .single (.reap h.live_pos ?_ (.inl (not_not.1 hpar)))
        show s.tree.pstate child = _
        cases hs : s.tree.pstate child <;> simp_all

/-- What `wait_for_any_child` finds is the head of `exited_list`. -/
theorem findExited_exited {child : Pid} (h : s.findExited cur = .exited child) :
    ∃ l, s.tree.exitedList cur = child :: l := by
  unfold findExited at h
  split at h
  · cases h
  · cases h
    exact ⟨_, ‹_›⟩
  · cases h

theorem waitForAnyChild_table (h : s.Runs i cur) (he : s.waitForAnyChild i cur = some s') :
    ReflTransGen (Table.Step cur) s.table s'.table := by
  unfold waitForAnyChild at he
  split at he
  · cases he
    rw [table_ret h]
  · rename_i child hf
    split at he
    · rename_i hz
      cases he
      obtain ⟨l, hl⟩ := findExited_exited hf
      rw [reap_table h]
      exact .single (.reap h.live_pos hz (.inr (by simp [table, hl])))
    · cases he
  · cases he
    rw [table_wait h]

theorem exitLoop_table {exitval : Int} : ∀ (n : Nat) {s : State}, s.Runs i cur →
    s.exitLoop i cur own exitval n = some s' → ReflTransGen (Table.Step cur) s.table s'.table := by
  intro n
  induction n with
  | zero => intro s _ he; cases he
  | succ n ih =>
    intro s h he
    unfold exitLoop at he
    split at he
    · exact .single (sysThreadExit_table h he)
    · rename_i child hf
      split at he
      · rename_i hz
        obtain ⟨l, hl⟩ := findExited_exited hf
        have hs : Table.Step cur s.table (s.cleanupZombie cur child).table :=
          .reap h.live_pos hz (.inr (by simp [table, hl]))
        exact .head hs (ih (s := s.cleanupZombie cur child) h he)
      · cases he
    · cases he
      rw [table_wait h]

theorem sysExit_table {exitval : Int} (h : s.Runs i cur) (he : s.sysExit i cur own exitval = some s') :
    ReflTransGen (Table.Step cur) s.table s'.table := by
  unfold sysExit at he
  rw [← (table_setPcb rfl : (s.setPcb cur { s.pcb cur with exitval := exitval }).table = s.table)]
  dsimp only at he
  split at he
  · exact exitLoop_table _ (s := s.setPcb _ _) h he
  · exact .single (sysThreadExit_table (s := s.setPcb _ _) h he)

/-! ### Steps -/

/-- A system call makes moves of the table. -/
theorem perform_table {c : Call} (h : s.Runs i cur) (he : s.perform i cur own c = some s') :
    ReflTransGen (Table.Step cur) s.table s'.table := by
  cases c with
  | exec tid call argl args =>
    simp only [perform] at he
    split at he
    · cases he
      rw [table_ret (h.sysExec tid call argl args)]
      cases ht : s.tree.exec cur with
      | none => rw [sysExec_none ht]
      | some r =>
        rw [sysExec_table ht]
        exact .single (.exec _ h.live_pos ht)
    · cases he
  | createThread tid task argl args =>
    simp only [perform] at he
    split at he
    · cases he
      rw [table_ret (h.startThread cur tid task argl args), table_startThread]
      exact .single (.newThread h.live_pos)
    · cases he
  | threadJoin tid => rw [sysThreadJoin_table h he]
  | threadDetach tid =>
    cases he
    rw [sysThreadDetach_table h]
  | threadExit exitval => exact .single (sysThreadExit_table h he)
  | exit exitval => exact sysExit_table h he
  | waitChild cpid =>
    simp only [perform, sysWaitChild] at he
    split at he
    · cases he
      exact waitForSpecificChild_table h cpid
    · exact waitForAnyChild_table h he
  | file c =>
    obtain ⟨v, -, rfl⟩ := Option.map_eq_some_iff.1 he
    rw [table_setView]

/-- A woken thread of `cur` that waits for `child` makes one move, or looks at the PCB and sleeps again. -/
theorem specificLoop_table (h : s.Runs i cur) (child : Pid) :
    (s.specificLoop i cur child).table =
      if s.tree.pstate child = .alive then s.table else s.table.reap cur child := by
  unfold specificLoop
  split
  · exact table_wait h _
  · exact reap_table h child

/-- The child that a thread of `cur` waits for is no longer alive, but not its zombie either. -/
def Lost (s : State) (cur : Pid) : Wait → Prop
  | .specificChild child => s.tree.pstate child = .free ∨ s.tree.pstate child = .zombie ∧ s.tree.parent child ≠ some cur
  | _ => False

instance (s : State) (cur : Pid) : ∀ w, Decidable (s.Lost cur w)
  | .specificChild _ => inferInstanceAs (Decidable (_ ∨ _))
  | .anyChild | .exitOfInit _ | .join _ => inferInstanceAs (Decidable False)

/-- So does a woken thread, unless it has lost its child. -/
theorem resume_table {w : Wait} (h : s.Runs i cur) (hw : ¬s.Lost cur w) (he : s.resume i cur own w = some s') :
    ReflTransGen (Table.Step cur) s.table s'.table := by
  cases w with
  | specificChild child =>
    cases he
    rw [specificLoop_table h]
    obtain ⟨hnf, hz⟩ := not_or.1 hw
    split
    · rfl
    · rename_i hal
      have hzom : s.tree.pstate child = .zombie := by cases hs : s.tree.pstate child <;> simp_all
      exact .single (.reap h.live_pos hzom (.inl (by_contra fun hp => hz ⟨hzom, hp⟩)))
  | anyChild => exact waitForAnyChild_table h he
  | exitOfInit exitval => exact exitLoop_table _ h he
  | join tid => rw [joinLoop_table h he]

end State

end TinyOS.Proc
