import TinyOS.Lib.Lts

/-!
# The kernel lock

`kernel_cc.c` builds the kernel lock as a semaphore: `kernel_sem` guarded by `kernel_mutex`, with the waiters of
`kernel_sem_cv` in a ring. Each section under `kernel_mutex` is one step here. A thread reaches the kernel through the
`SYSCALL` and `SYSCALLV` wrappers (`kernel_lock`, `sys_*`, `kernel_unlock`), except that `start_multi_threads` calls
`sys_ThreadExit` with no wrapper around it.

- `step`: the sections of `kernel_lock`, `kernel_unlock`, `kernel_wait_wchan`, `kernel_sleep` and the ways in;
- `Exclusive`: `kernel_sem` and the threads inside the kernel add up to one;
- `exclusive_iff_no_bare_exit`: a run stays exclusive exactly when no thread returns into `start_multi_threads`.
-/

namespace TinyOS.KernelLock

/-! ## Threads and their steps -/

/-- The function that runs a thread's task. -/
inductive Entry
  | startMainThread
  | startMultiThreads
  deriving DecidableEq, Repr

/-- System calls that come back to their wrapper, and `Exit`/`ThreadExit`, which end in `kernel_sleep`. -/
inductive Call
  | returning
  | exiting
  deriving DecidableEq, Repr

/-- Why a thread is about to test `kernel_sem`. -/
inductive Test
  /-- It has just called `kernel_lock`. -/
  | fresh
  /-- A signal has removed it from the ring of `kernel_sem_cv`. -/
  | signalled
  /-- It woke up from its channel inside `kernel_wait_wchan`. -/
  | woken
  deriving DecidableEq, Repr

inductive Pc
  /-- In its task, outside the kernel. -/
  | task
  /-- At the section that tests `kernel_sem`. -/
  | acquire (c : Call) (why : Test)
  /-- Asleep in the ring of `kernel_sem_cv`. -/
  | semWait (c : Call)
  /-- Executing a `sys_*` function. -/
  | inKernel (c : Call)
  /-- Asleep on its channel inside `kernel_wait_wchan`. -/
  | wchanWait (c : Call)
  | exited
  deriving DecidableEq, Repr

structure Thread where
  entry : Entry
  pc : Pc
  deriving DecidableEq, Repr

def Thread.inside (th : Thread) : Bool :=
  match th.pc with
  | .inKernel _ => true
  | _ => false

structure State where
  kernelSem : Int
  /-- The waitset of `kernel_sem_cv`, longest waiting first. -/
  ring : List Nat
  /-- Every thread started so far. -/
  threads : List Thread
  deriving DecidableEq, Repr

def State.setPc (s : State) (t : Nat) (th : Thread) (pc : Pc) : State :=
  { s with threads := s.threads.set t { th with pc := pc } }

/-- `Cond_Signal(&kernel_sem_cv)`: these waiters sleep without a timeout, so the first one is asleep and wakes up. -/
def condSignal (s : State) : State :=
  match s.ring with
  | [] => s
  | w :: ws =>
    match s.threads[w]? with
    | some ⟨e, .semWait c⟩ => ({ s with ring := ws }).setPc w ⟨e, .semWait c⟩ (.acquire c .signalled)
    | _ => { s with ring := ws }

/-- The body of the loops in `kernel_lock` and `kernel_wait_wchan`: sleep while `kernel_sem <= 0`, else take it. -/
def testSem (s : State) (t : Nat) (th : Thread) (c : Call) : State :=
  if s.kernelSem ≤ 0 then { s.setPc t th (.semWait c) with ring := s.ring ++ [t] }
  else { s.setPc t th (.inKernel c) with kernelSem := s.kernelSem - 1 }

/-- `kernel_sem++; Cond_Signal(&kernel_sem_cv)`, the start of the three sections that leave the kernel. -/
def post (s : State) : State := condSignal { s with kernelSem := s.kernelSem + 1 }

inductive Action
  /-- A task calls a system call through its wrapper. -/
  | syscall (t : Nat) (c : Call)
  /-- The section that tests `kernel_sem`. -/
  | test (t : Nat)
  | kernelUnlock (t : Nat)
  /-- `kernel_wait_wchan` up to its sleep. -/
  | kernelWait (t : Nat)
  /-- A signal, a broadcast or a timeout ends the sleep on the channel. -/
  | wake (t : Nat)
  | kernelSleep (t : Nat)
  /-- `Exec` or `CreateThread` starts a thread. -/
  | spawn (t : Nat) (e : Entry)
  /-- The task of a thread returns to the function that called it. -/
  | taskReturns (t : Nat)
  deriving DecidableEq, Repr

/-- What thread `t`, at `th`, does. -/
def stepThread (s : State) (t : Nat) (th : Thread) : Action → Option State
  | .syscall _ c => if th.pc = .task then some (s.setPc t th (.acquire c .fresh)) else none
  | .test _ =>
    match th.pc with
    | .acquire c _ => some (testSem s t th c)
    | _ => none
  | .kernelUnlock _ => if th.pc = .inKernel .returning then some ((post s).setPc t th .task) else none
  | .kernelWait _ =>
    match th.pc with
    | .inKernel c => some ((post s).setPc t th (.wchanWait c))
    | _ => none
  | .wake _ =>
    match th.pc with
    | .wchanWait c => some (s.setPc t th (.acquire c .woken))
    | _ => none
  | .kernelSleep _ => if th.pc = .inKernel .exiting then some ((post s).setPc t th .exited) else none
  | .spawn _ e => if th.inside then some { s with threads := s.threads ++ [⟨e, .task⟩] } else none
  | .taskReturns _ =>
    if th.pc = .task then
      match th.entry with
      | .startMainThread => some (s.setPc t th (.acquire .exiting .fresh))
      -- `start_multi_threads` calls `sys_ThreadExit` itself, not the wrapper `ThreadExit`
      | .startMultiThreads => some (s.setPc t th (.inKernel .exiting))
    else none

def Action.thread : Action → Nat
  | .syscall t _ | .test t | .kernelUnlock t | .kernelWait t | .wake t | .kernelSleep t | .spawn t _
  | .taskReturns t => t

def step (s : State) (a : Action) : Option State :=
  match s.threads[a.thread]? with
  | some th => stepThread s a.thread th a
  | none => none

/-- The machine boots with one thread, the main thread of init, and `kernel_sem = 1`. -/
def boot : State := ⟨1, [], [⟨.startMainThread, .task⟩]⟩

def sys : Lts State Action := ⟨(· = boot), step⟩

/-! ## Mutual exclusion -/

/-- The number of threads executing a `sys_*` function. -/
def State.inside (s : State) : Nat := s.threads.countP Thread.inside

/-- `kernel_sem` is 0 or 1 and adds up to one with the threads inside; so at most one thread is inside. -/
def Exclusive (s : State) : Prop :=
  (s.kernelSem = 0 ∨ s.kernelSem = 1) ∧ s.kernelSem + s.inside = 1 ∧ s.inside ≤ 1

/-- The step is not the return of a thread from its task into `start_multi_threads`. -/
def NoBareExit (s : State) : Action → Prop
  | .taskReturns t => (s.threads[t]?).map Thread.entry ≠ some .startMultiThreads
  | _ => True

instance : DecidablePred Exclusive := fun _ => by unfold Exclusive; infer_instance

instance (s : State) : ∀ a, Decidable (NoBareExit s a)
  | .taskReturns t => inferInstanceAs (Decidable ((s.threads[t]?).map Thread.entry ≠ some .startMultiThreads))
  | .syscall .. | .test _ | .kernelUnlock _ | .kernelWait _ | .wake _ | .kernelSleep _ | .spawn .. =>
    inferInstanceAs (Decidable True)

variable {s s' : State} {t : Nat} {th : Thread}

def one (b : Bool) : Int := if b then 1 else 0

theorem inside_setPc (h : s.threads[t]? = some th) (pc : Pc) :
    ((s.setPc t th pc).inside : Int) = s.inside - one th.inside + one (Thread.inside { th with pc := pc }) := by
  obtain ⟨ht, rfl⟩ := List.getElem?_eq_some_iff.1 h
  have hle := List.boole_getElem_le_countP (p := Thread.inside) ht
  have hset := List.countP_set (p := Thread.inside) (a := { s.threads[t] with pc := pc }) ht
  simp only [State.inside, State.setPc, one]
  rw [hset]
  split_ifs at hle ⊢ <;> omega

/-- A signal moves no thread into or out of the kernel. -/
theorem condSignal_inside (s : State) : (condSignal s).inside = s.inside := by
  unfold condSignal
  cases s.ring with
  | nil => rfl
  | cons w ws =>
    dsimp only
    split
    · rename_i e c hw
      have hset := inside_setPc (s := { s with ring := ws }) hw (.acquire c .signalled)
      simp only [one, Thread.inside, State.inside, Bool.false_eq_true, if_false] at hset ⊢
      omega
    · rfl

theorem condSignal_sem (s : State) : (condSignal s).kernelSem = s.kernelSem := by
  unfold condSignal
  split
  · rfl
  · split <;> rfl

theorem condSignal_get (h : s.threads[t]? = some th) (hpc : ∀ c, th.pc ≠ .semWait c) :
    (condSignal s).threads[t]? = some th := by
  unfold condSignal
  split
  · exact h
  · rename_i w ws _
    split
    · rename_i e c hw
      have hne : w ≠ t := by
        rintro rfl
        cases h.symm.trans hw
        exact hpc c rfl
      simpa [State.setPc, List.getElem?_set_ne hne] using h
    · exact h

/-- Leaving the kernel through `post` adds to `kernel_sem` what it takes from the threads inside. -/
theorem post_setPc {c : Call} (h : s.threads[t]? = some th) (hin : th.pc = .inKernel c) (pc : Pc)
    (hpc : Thread.inside { th with pc := pc } = false) :
    ((post s).setPc t th pc).kernelSem = s.kernelSem + 1 ∧
      (((post s).setPc t th pc).inside : Int) = s.inside - 1 := by
  have hg : (post s).threads[t]? = some th := condSignal_get (s := { s with kernelSem := s.kernelSem + 1 }) h (by simp [hin])
  have hth : th.inside = true := by simp [Thread.inside, hin]
  refine ⟨condSignal_sem _, ?_⟩
  rw [inside_setPc hg, hpc, hth, post, condSignal_inside]
  simp [one, State.inside]

/-- A thread of `CreateThread` that returns from its task is inside the kernel without having taken `kernel_sem`. -/
theorem bare_exit_inside (h : s.threads[t]? = some th) (hpc : th.pc = .task) :
    ((s.setPc t th (.inKernel .exiting)).inside : Int) = s.inside + 1 := by
  rw [inside_setPc h]
  simp [one, Thread.inside, hpc]

/-- A step of a thread that neither leaves the kernel nor enters it keeps the kernel exclusive. -/
theorem setPc_exclusive (hb : Exclusive s) (h : s.threads[t]? = some th) {pc : Pc} (hout : th.inside = false)
    (hpc : Thread.inside { th with pc := pc } = false) : Exclusive (s.setPc t th pc) := by
  obtain ⟨hsem, hsum, hle⟩ := hb
  have hin := inside_setPc h pc
  rw [hout, hpc] at hin
  simp only [one, Bool.false_eq_true, if_false] at hin
  exact ⟨hsem, by simp only [State.setPc] at hin ⊢; omega⟩

/-- The section that tests `kernel_sem` keeps the kernel exclusive: it takes the semaphore only when it is positive. -/
theorem testSem_exclusive (hb : Exclusive s) (h : s.threads[t]? = some th) {c : Call} {w : Test}
    (hpc : th.pc = .acquire c w) : Exclusive (testSem s t th c) := by
  have hout : th.inside = false := by simp [Thread.inside, hpc]
  unfold testSem
  split
  · exact setPc_exclusive hb h hout rfl
  · obtain ⟨hsem, hsum, hle⟩ := hb
    have hin := inside_setPc h (.inKernel c)
    rw [hout] at hin
    simp only [one, Thread.inside, Bool.false_eq_true, if_false, if_true] at hin
    refine ⟨by simp only; omega, ?_⟩
    simp only [State.inside, State.setPc] at hin hsum ⊢
    omega

/-- The sections that leave the kernel keep the kernel exclusive. -/
theorem post_exclusive {c : Call} (hb : Exclusive s) (h : s.threads[t]? = some th) (hin : th.pc = .inKernel c)
    {pc : Pc} (hpc : Thread.inside { th with pc := pc } = false) : Exclusive ((post s).setPc t th pc) := by
  obtain ⟨hsem, hsum, hle⟩ := hb
  obtain ⟨hs, hi⟩ := post_setPc h hin pc hpc
  have hth : th.inside = true := by simp [Thread.inside, hin]
  -- the thread itself is inside, so `kernel_sem` is 0 before the section
  have hpos : 0 < s.inside := List.countP_pos_iff.2 ⟨th, List.mem_of_getElem? h, hth⟩
  exact ⟨by omega, by omega⟩

/-- Every step other than a bare exit keeps the kernel exclusive. -/
theorem step_exclusive {a : Action} (hb : Exclusive s) (hok : NoBareExit s a) (h : step s a = some s') :
    Exclusive s' := by
  unfold step at h
  cases hth : s.threads[a.thread]? with
  | none => simp [hth] at h
  | some th =>
    simp only [hth] at h
    cases a with
    | syscall t c =>
      simp only [stepThread, Option.ite_none_right_eq_some, Option.some.injEq] at h
      obtain ⟨hpc, rfl⟩ := h
      exact setPc_exclusive hb hth (by simp [Thread.inside, hpc]) rfl
    | test t =>
      simp only [stepThread] at h
      split at h
      · rename_i c w hpc
        cases h
        exact testSem_exclusive hb hth hpc
      · cases h
    | kernelUnlock t =>
      simp only [stepThread, Option.ite_none_right_eq_some, Option.some.injEq] at h
      obtain ⟨hpc, rfl⟩ := h
      exact post_exclusive hb hth hpc rfl
    | kernelWait t =>
      simp only [stepThread] at h
      split at h
      · rename_i c hpc
        cases h
        exact post_exclusive hb hth hpc rfl
      · cases h
    | wake t =>
      simp only [stepThread] at h
      split at h
      · rename_i c hpc
        cases h
        exact setPc_exclusive hb hth (by simp [Thread.inside, hpc]) rfl
      · cases h
    | kernelSleep t =>
      simp only [stepThread, Option.ite_none_right_eq_some, Option.some.injEq] at h
      obtain ⟨hpc, rfl⟩ := h
      exact post_exclusive hb hth hpc rfl
    | spawn t e =>
      simp only [stepThread, Option.ite_none_right_eq_some, Option.some.injEq] at h
      obtain ⟨_, rfl⟩ := h
      obtain ⟨hsem, hsum, hle⟩ := hb
      refine ⟨hsem, ?_⟩
      simpa [State.inside, Thread.inside] using And.intro hsum hle
    | taskReturns t =>
      simp only [stepThread, Option.ite_none_right_eq_some] at h
      obtain ⟨hpc, h⟩ := h
      have hentry : th.entry = .startMainThread := by
        cases he : th.entry with
        | startMainThread => rfl
        | startMultiThreads => exact absurd (by simp only [Action.thread] at hth; simp [hth, he]) hok
      rw [hentry] at h
      cases h
      exact setPc_exclusive hb hth (by simp [Thread.inside, hpc]) rfl

/-- A bare exit lets a second thread in. -/
theorem bare_exit_breaks {a : Action} (hb : Exclusive s) (hok : ¬NoBareExit s a) (h : step s a = some s') :
    ¬Exclusive s' := by
  cases a with
  | taskReturns t =>
    obtain ⟨th, hth, hentry⟩ := Option.map_eq_some_iff.1 (not_not.1 hok)
    simp only [step, Action.thread, hth, stepThread, hentry, Option.ite_none_right_eq_some,
      Option.some.injEq] at h
    obtain ⟨hpc, rfl⟩ := h
    rintro ⟨_, hsum, _⟩
    have hin := bare_exit_inside hth hpc
    have := hb.2.1
    simp only [State.setPc] at hin hsum
    omega
  | _ => exact absurd trivial hok

theorem boot_exclusive : Exclusive boot := by decide

/-- **A run keeps the kernel exclusive exactly when no thread returns from its task into `start_multi_threads`.** -/
theorem exclusive_iff_no_bare_exit (as : List Action) (s : State) (h : sys.run boot as = some s) :
    sys.AllStates Exclusive boot as ↔ sys.AllSteps NoBareExit boot as :=
  Lts.allStates_iff_allSteps (I := Exclusive) (fun _ h => h) (fun _ _ _ hb hok hs => step_exclusive hb hok hs)
    (fun _ _ _ hb hok hs => bare_exit_breaks hb hok hs) boot_exclusive h

/-- The main thread creates a thread inside the kernel and comes back. -/
def createThread : List Action :=
  [.syscall 0 .returning, .test 0, .spawn 0 .startMultiThreads, .kernelUnlock 0]

theorem createThread_exclusive : sys.AllStates Exclusive boot createThread :=
  (exclusive_iff_no_bare_exit createThread _ rfl).2 (by decide)

/-- The created thread then returns from its task, and the main thread enters the kernel beside it. -/
theorem bare_exit_not_exclusive : ¬∀ s, sys.Reaches s → Exclusive s := by
  intro h
  have hr : sys.run boot (createThread ++ [.taskReturns 1, .syscall 0 .returning, .test 0]) =
      some ⟨0, [], [⟨.startMainThread, .inKernel .returning⟩, ⟨.startMultiThreads, .inKernel .exiting⟩]⟩ := by decide
  have := h _ (Lts.reaches_of_run (Lts.Reaches.init rfl) hr)
  revert this
  decide

end TinyOS.KernelLock
