import TinyOS.Proc.FreeList
import TinyOS.Proc.Table

/-!
# Reaping

- `Table.Inv`: what holds of the process table as long as no woken thread has lost the child it waits for, kept by every
  move of the table (`Table.Inv.step`);
- `reaped_iff_kept`: every process is reaped as it should along a run exactly when no thread that goes on in
  `wait_for_specific_child` has lost its child;
- `second_waiter_reaps_free`: two threads that wait for one child.
-/

namespace TinyOS.Proc

open Relation

/-- Process 0. -/
def idlePid : Pid := ⟨0, maxProc_pos⟩

namespace Table

/-- The process table as long as nothing has gone wrong. -/
structure Inv (t : Table) : Prop where
  consistent : t.tree.Consistent
  complete : t.tree.Complete
  counter : ∀ p, t.counter p = t.live p
  alive : ∀ p, 0 < t.live p → t.tree.pstate p = .alive
  idle : t.tree.pstate idlePid = .alive ∧ t.live idlePid = 0
  childless : ∀ p, t.tree.pstate p ≠ .free → t.tree.parent p ≠ some idlePid
  parented : ∀ p : Pid, 1 < p.val → t.tree.pstate p ≠ .free → t.tree.parent p ≠ none
  zombies : ∀ r ∈ t.reaps, r.pstate = .zombie ∧ r.parent = some r.caller
  once : (t.reaps.map fun r => (r.child, r.serial)).Nodup
  serial : ∀ r ∈ t.reaps,
    r.serial ≤ t.serial r.child ∧ (t.tree.pstate r.child ≠ .free → r.serial < t.serial r.child)

namespace Inv

variable {t t' : Table} {cur p q child : Pid} {tree : Tree}

theorem ne_idle (h : t.Inv) (hl : 0 < t.live cur) : cur ≠ idlePid := by
  rintro rfl
  rw [h.idle.2] at hl
  cases hl

/-- Init is alive while there is a process with a parent. -/
theorem init_alive (h : t.Inv) (hp : t.tree.pstate p ≠ .free) (hq : t.tree.parent p = some q) :
    t.tree.pstate initPid = .alive := by
  have hends := h.consistent.ends p hp
  induction hends generalizing q with
  | root hr =>
    rw [hr.2] at hq
    cases hq
  | @step a b hab hb ih =>
    have hbal := h.consistent.parent_alive hp hab
    cases hb with
    | root hr =>
      have h0 : b ≠ idlePid := by
        rintro rfl
        exact h.childless a hp hab
      have h1 : b = initPid := by
        have : b.val ≠ 0 := fun h => h0 (Fin.ext h)
        exact Fin.ext (by have := hr.1; simp only [initPid]; omega)
      exact h1 ▸ hbal
    | step hbc _ => exact ih (by simp [hbal]) hbc

/-- A live process other than init has a parent. -/
theorem exists_parent (h : t.Inv) (hl : 0 < t.live cur) (hi : cur ≠ initPid) : ∃ q, t.tree.parent cur = some q := by
  have h0 := h.ne_idle hl
  have h1 : 1 < cur.val := by
    have h0 : cur.val ≠ 0 := fun h => h0 (Fin.ext h)
    have h1 : cur.val ≠ 1 := fun h => hi (Fin.ext h)
    omega
  exact Option.ne_none_iff_exists'.1 (h.parented cur h1 (by simp [h.alive cur hl]))

/-! ### The moves -/

/-- The numbers of threads change, and stay equal. -/
theorem recount (h : t.Inv) {counter : Pid → Int} {live : Pid → Nat} (heq : ∀ a, counter a = live a)
    (hal : ∀ a, 0 < live a → t.tree.pstate a = .alive) (h0 : live idlePid = 0) :
    Inv { t with counter := counter, live := live } :=
  { h with counter := heq, alive := hal, idle := ⟨h.idle.1, h0⟩ }

theorem newThread (h : t.Inv) (hp : t.tree.pstate p = .alive) (h0 : p ≠ idlePid) : (t.newThread p).Inv := by
  refine h.recount (fun a => ?_) (fun a ha => ?_) ?_
  · by_cases hap : a = p
    · subst hap
      simp [h.counter a]
    · simp [hap, h.counter a]
  · by_cases hap : a = p
    · exact hap ▸ hp
    · rw [Function.update_of_ne hap] at ha
      exact h.alive a ha
  · rw [Function.update_of_ne (Ne.symm h0)]
    exact h.idle.2

theorem endThread (h : t.Inv) (hl : 0 < t.live cur) : (t.endThread cur).Inv := by
  refine h.recount (fun a => ?_) (fun a ha => ?_) ?_
  · by_cases hac : a = cur
    · subst hac
      have := h.counter a
      simp only [Function.update_self]
      omega
    · simp [hac, h.counter a]
  · by_cases hac : a = cur
    · exact hac ▸ h.alive cur hl
    · rw [Function.update_of_ne hac] at ha
      exact h.alive a ha
  · rw [Function.update_of_ne (Ne.symm (h.ne_idle hl))]
    exact h.idle.2

/-- A new process without a thread. -/
theorem create_false (h : t.Inv) (hl : 0 < t.live cur) (he : t.tree.exec cur = some (p, tree)) :
    (t.create p tree false).Inv := by
  obtain ⟨hf, hst, hpar, -, -⟩ := Tree.exec_some he
  have hfree : t.tree.pstate p = .free := (h.consistent.freelist_head hf none).1
  have hne : ∀ {a}, t.tree.pstate a = .alive → a ≠ p := by rintro a ha rfl; rw [hfree] at ha; cases ha
  have hsta : ∀ {a}, a ≠ p → tree.pstate a = t.tree.pstate a := fun ha => by rw [hst, Function.update_of_ne ha]
  have hpara : ∀ {a}, a ≠ p → tree.parent a = t.tree.parent a := fun ha => by rw [hpar, Function.update_of_ne ha]
  constructor
  case consistent => exact h.consistent.exec (fun _ => h.alive cur hl) he
  case complete => exact h.complete.exec he
  case counter => exact h.counter
  case alive =>
    intro a ha
    have hal := h.alive a ha
    exact (hsta (hne hal)).trans hal
  case idle => exact ⟨(hsta (hne h.idle.1)).trans h.idle.1, h.idle.2⟩
  case childless =>
    intro a ha
    by_cases hap : a = p
    · subst hap
      show tree.parent a ≠ _
      rw [hpar, Function.update_self]
      split
      · simp
      · simpa using h.ne_idle hl
    · show tree.parent a ≠ _
      rw [hpara hap]
      exact h.childless a (by rwa [← hsta hap])
  case parented =>
    intro a ha1 ha
    by_cases hap : a = p
    · subst hap
      show tree.parent a ≠ _
      rw [hpar, Function.update_self, if_neg (by omega)]
      simp
    · show tree.parent a ≠ _
      rw [hpara hap]
      exact h.parented a ha1 (by rwa [← hsta hap])
  case zombies => exact h.zombies
  case once => exact h.once
  case serial =>
    intro r hr
    obtain ⟨hle, hlt⟩ := h.serial r hr
    show _ ≤ Function.update t.serial p _ _ ∧ (_ → _ < Function.update t.serial p _ _)
    by_cases hap : r.child = p
    · rw [hap] at hle ⊢
      rw [Function.update_self]
      exact ⟨by omega, fun _ => by omega⟩
    · rw [Function.update_of_ne hap]
      exact ⟨hle, fun hnf => hlt (by rwa [← hsta hap])⟩

theorem create (h : t.Inv) (hl : 0 < t.live cur) (he : t.tree.exec cur = some (p, tree)) (main : Bool) :
    (t.create p tree main).Inv := by
  have h₁ := h.create_false hl he
  obtain ⟨hf, hst, -, -, -⟩ := Tree.exec_some he
  cases main with
  | false => exact h₁
  | true =>
    have hp : p ≠ idlePid := by
      rintro rfl
      have hfree := (h.consistent.freelist_head hf none).1
      rw [h.idle.1] at hfree
      cases hfree
    refine h₁.newThread ?_ hp
    show tree.pstate p = _
    rw [hst, Function.update_self]

/-- The last thread of a process is gone, and its process becomes a zombie. -/
theorem endProcess_of (h : t.Inv) (hl : 0 < t.live cur) (hc : t.counter cur = 1)
    (hcons : tree.Consistent) (hst : tree.pstate = Function.update t.tree.pstate cur .zombie)
    (hpar : ∀ a, tree.parent a = t.tree.parent a ∨ t.tree.pstate a ≠ .free ∧ tree.parent a = some initPid)
    (hf : tree.pcbFreelist = t.tree.pcbFreelist) (hcount : tree.processCount = t.tree.processCount) :
    Inv { t.endThread cur with tree := tree } := by
  have h₁ := h.endThread hl
  have hcur : t.tree.pstate cur ≠ .free := by simp [h.alive cur hl]
  have hzero : (t.endThread cur).live cur = 0 := by
    have := h.counter cur
    simp only [Table.endThread, Function.update_self]
    omega
  have hfree : ∀ {a}, tree.pstate a = .free ↔ t.tree.pstate a = .free := by
    intro a
    rw [hst]
    by_cases ha : a = cur
    · subst ha
      simp [hcur]
    · rw [Function.update_of_ne ha]
  constructor
  case consistent => exact hcons
  case complete =>
    refine h.complete.zombie hcur hst (fun a ha => ?_) hf hcount
    exact (hpar a).resolve_right fun hn => hn.1 ha
  case counter => exact h₁.counter
  case alive =>
    intro a ha
    have hac : a ≠ cur := by
      rintro rfl
      rw [hzero] at ha
      cases ha
    show tree.pstate a = _
    rw [hst, Function.update_of_ne hac]
    exact h₁.alive a ha
  case idle =>
    refine ⟨?_, h₁.idle.2⟩
    show tree.pstate _ = _
    rw [hst, Function.update_of_ne (Ne.symm (h.ne_idle hl))]
    exact h.idle.1
  case childless =>
    intro a ha
    rcases hpar a with hp | ⟨-, hp⟩
    · show tree.parent a ≠ _
      rw [hp]
      exact h.childless a (hfree.not.1 ha)
    · show tree.parent a ≠ _
      rw [hp]
      decide
  case parented =>
    intro a ha1 ha
    rcases hpar a with hp | ⟨-, hp⟩
    · show tree.parent a ≠ _
      rw [hp]
      exact h.parented a ha1 (hfree.not.1 ha)
    · show tree.parent a ≠ _
      rw [hp]
      simp
  case zombies => exact h.zombies
  case once => exact h.once
  case serial => exact fun r hr => ⟨(h.serial r hr).1, fun hnf => (h.serial r hr).2 (hfree.not.1 hnf)⟩

theorem endProcess (h : t.Inv) (hl : 0 < t.live cur) (hc : t.counter cur = 1) (he : t.tree.exit cur = some tree) :
    Inv { t.endThread cur with tree := tree } := by
  have hal := h.alive cur hl
  by_cases hi : cur = initPid
  · subst hi
    obtain ⟨hch, hex, rfl⟩ := Tree.exit_init he
    have hnone := h.consistent.roots initPid (by decide) (by simp [hal])
    exact h.endProcess_of hl hc (h.consistent.exit_root hal hnone hch hex) rfl (fun a => .inl rfl) rfl rfl
  · obtain ⟨q, hq⟩ := h.exists_parent hl hi
    have hnf : t.tree.pstate cur ≠ .free := by simp [hal]
    have hinit := h.init_alive hnf hq
    rw [h.consistent.exit_eq hinit hal hq] at he
    cases he
    refine h.endProcess_of hl hc (h.consistent.exited hinit hal hq) rfl (fun a => ?_) rfl rfl
    by_cases ha : a ∈ t.tree.childrenList cur
    · exact .inr ⟨(h.consistent.mem_children.1 ha).1, if_pos ha⟩
    · exact .inl (if_neg ha)

theorem reap (h : t.Inv) (hz : t.tree.pstate child = .zombie) (hp : t.tree.parent child = some cur) :
    (t.reap cur child).Inv := by
  have hne : ∀ {a}, t.tree.pstate a = .alive → a ≠ child := by rintro a ha rfl; rw [hz] at ha; cases ha
  have hnf : t.tree.pstate child ≠ .free := by simp [hz]
  have hst : ∀ {a}, a ≠ child → (t.tree.cleanupZombie child).pstate a = t.tree.pstate a := fun ha =>
    Function.update_of_ne ha _ _
  have hpar : ∀ {a}, a ≠ child → (t.tree.cleanupZombie child).parent a = t.tree.parent a := fun ha =>
    Function.update_of_ne ha _ _
  have hfree : (t.tree.cleanupZombie child).pstate child = .free := Function.update_self _ _ _
  constructor
  case consistent => exact h.consistent.cleanupZombie hz hp
  case complete => exact h.complete.cleanupZombie hnf
  case counter => exact h.counter
  case alive => exact fun a ha => (hst (hne (h.alive a ha))).trans (h.alive a ha)
  case idle => exact ⟨(hst (hne h.idle.1)).trans h.idle.1, h.idle.2⟩
  case childless =>
    intro a ha
    have hac : a ≠ child := by rintro rfl; exact ha hfree
    show (t.tree.cleanupZombie child).parent a ≠ _
    rw [hpar hac]
    exact h.childless a (by rwa [← hst hac])
  case parented =>
    intro a ha1 ha
    have hac : a ≠ child := by rintro rfl; exact ha hfree
    show (t.tree.cleanupZombie child).parent a ≠ _
    rw [hpar hac]
    exact h.parented a ha1 (by rwa [← hst hac])
  case zombies =>
    intro r hr
    rcases List.mem_cons.1 hr with rfl | hr
    · exact ⟨hz, hp⟩
    · exact h.zombies r hr
  case once =>
    refine List.nodup_cons.2 ⟨fun hm => ?_, h.once⟩
    obtain ⟨r, hr, hrc⟩ := List.mem_map.1 hm
    obtain ⟨hchild, hserial⟩ := Prod.mk.inj hrc
    have := (h.serial r hr).2 (hchild ▸ hnf)
    rw [hchild, hserial] at this
    exact Nat.lt_irrefl _ this
  case serial =>
    intro r hr
    rcases List.mem_cons.1 hr with rfl | hr
    · exact ⟨Nat.le_refl _, fun hn => absurd hfree hn⟩
    · refine ⟨(h.serial r hr).1, fun hn => ?_⟩
      have hac : r.child ≠ child := fun he => hn (he ▸ hfree)
      exact (h.serial r hr).2 (by rwa [← hst hac])

/-- Every move keeps the invariant. -/
theorem step (h : t.Inv) (hs : Step cur t t') : t'.Inv := by
  cases hs with
  | newThread hl => exact h.newThread (h.alive cur hl) (h.ne_idle hl)
  | exec main hl he => exact h.create hl he main
  | endThread hl _ => exact h.endThread hl
  | endProcess hl hc he => exact h.endProcess hl hc he
  | reap _ hz hp => exact h.reap hz (hp.elim id fun hm => (h.consistent.mem_exited.1 hm).2)

theorem steps (h : t.Inv) (hs : ReflTransGen (Step cur) t t') : t'.Inv := by
  induction hs with
  | refl => exact h
  | tail _ hs ih => exact ih.step hs

end Inv

end Table

namespace State

variable {s s' : State} {i : ThreadId} {a : Action}

/-- What every process is owed: each `cleanup_zombie` is applied to a zombie child of the caller, no process is reaped
twice, and the list of free PCBs and `process_count` are right. -/
structure Reaped (s : State) : Prop where
  zombies : ∀ r ∈ s.reaps, r.pstate = .zombie ∧ r.parent = some r.caller
  once : (s.reaps.map fun r => (r.child, r.serial)).Nodup
  freelist : ∃ l, Chain s.tree.parent s.tree.pcbFreelist l ∧ l.Nodup ∧ ∀ p, p ∈ l ↔ s.tree.pstate p = .free
  count : s.tree.processCount = s.tree.numProcesses

/-- What a woken thread has waited for. -/
def wokenFrom (s : State) (i : ThreadId) : Option (Pid × Wait) :=
  match s.threads[i]? with
  | some ⟨cur, _, .waiting w true, _, _⟩ => some (cur, w)
  | _ => none

/-- No thread goes on that has lost the child it waits for. -/
def Keeps (s : State) : Action → Prop
  | .call _ _ => True
  | .resume i => ∀ x ∈ s.wokenFrom i, ¬s.Lost x.1 x.2

instance (s : State) : ∀ a, Decidable (s.Keeps a)
  | .call _ _ => inferInstanceAs (Decidable True)
  | .resume i => inferInstanceAs (Decidable (∀ x ∈ s.wokenFrom i, ¬s.Lost x.1 x.2))

theorem wokenFrom_eq {th : Thread} {w : Wait} (hi : s.threads[i]? = some th) (hp : th.place = .waiting w true) :
    s.wokenFrom i = some (th.ownerPcb, w) := by
  cases th
  cases hp
  simp [wokenFrom, hi]

/-! ## The start -/

/-- The first two `sys_Exec` take the first two PCBs. -/
theorem boot_table (tid : Tid) (initTask : Task) (argl : Int) (args : Args) :
    ∃ t t', Tree.initial.exec idlePid = some (idlePid, t) ∧ t.exec idlePid = some (initPid, t') ∧
      (boot tid initTask argl args).table = (initial.table.create idlePid t false).create initPid t' true := by
  obtain ⟨t, t', h₁, h₂⟩ : ∃ t t', Tree.initial.exec idlePid = some (idlePid, t) ∧ t.exec idlePid = some (initPid, t') :=
    ⟨_, _, rfl, rfl⟩
  have he₁ := sysExec_table (s := initial) h₁ tid none 0 none
  have htree : (initial.sysExec idlePid tid none 0 none).2.tree = t := congrArg Table.tree he₁
  have he₂ := sysExec_table (htree ▸ h₂) tid (some initTask) argl args
  rw [he₁] at he₂
  exact ⟨t, t', h₁, h₂, he₂⟩

/-- At the start there are the idle process, and init with one thread. -/
theorem boot_inv (tid : Tid) (initTask : Task) (argl : Int) (args : Args) :
    (boot tid initTask argl args).table.Inv := by
  obtain ⟨t, t', h₁, h₂, he⟩ := boot_table tid initTask argl args
  have hcons : t'.Consistent :=
    (Tree.initial_consistent.exec (fun h => absurd h (by decide)) h₁).exec (fun h => absurd h (by decide)) h₂
  have hcomp : t'.Complete := (Tree.initial_complete.exec h₁).exec h₂
  obtain ⟨-, hst₁, hpar₁, -, -⟩ := Tree.exec_some h₁
  obtain ⟨-, hst₂, hpar₂, -, -⟩ := Tree.exec_some h₂
  have hst : ∀ {p}, t'.pstate p ≠ .free → p = initPid ∨ p = idlePid := by
    intro p hp
    rw [hst₂, hst₁] at hp
    by_contra hne
    obtain ⟨h1, h0⟩ := not_or.1 hne
    rw [Function.update_of_ne h1, Function.update_of_ne h0] at hp
    exact hp rfl
  have hroot : ∀ {p}, t'.pstate p ≠ .free → t'.parent p = none := by
    intro p hp
    refine hcons.roots p ?_ hp
    rcases hst hp with rfl | rfl <;> decide
  rw [he]
  have hlive : ∀ p, ((initial.table.create idlePid t false).create initPid t' true).live p = if p = initPid then 1 else 0 := by
    intro p
    by_cases hp : p = initPid
    · subst hp
      simp [table, live, initial]
    · simp [table, live, initial, hp]
  constructor
  case consistent => exact hcons
  case complete => exact hcomp
  case counter =>
    intro p
    rw [hlive]
    by_cases hp : p = initPid
    · subst hp
      simp [table, initial]
    · simp [table, initial, hp]
  case alive =>
    intro p hp
    rw [hlive] at hp
    have hi : p = initPid := by
      by_contra hn
      rw [if_neg hn] at hp
      cases hp
    show t'.pstate p = _
    rw [hst₂, hi, Function.update_self]
  case idle =>
    refine ⟨?_, (hlive _).trans (if_neg (by decide))⟩
    show t'.pstate idlePid = _
    rw [hst₂, hst₁, Function.update_of_ne (by decide), Function.update_self]
  case childless =>
    intro p hp
    show t'.parent p ≠ _
    rw [hroot hp]
    simp
  case parented =>
    intro p h1 hp
    rcases hst hp with rfl | rfl <;> simp [idlePid, initPid] at h1
  all_goals simp [Table.create, Table.newThread, table, initial]

/-! ## Steps -/

theorem runs_of_place {th : Thread} (hi : s.threads[i]? = some th) (hp : th.place ≠ .exited) :
    s.Runs i th.ownerPcb := ⟨th, hi, rfl, hp⟩

theorem step_inv (h : s.table.Inv) (ha : s.Keeps a) (hs : s.step a = some s') : s'.table.Inv := by
  obtain ⟨i, c, th, rfl, hi, hp, he⟩ | ⟨i, w, th, rfl, hi, hp, he⟩ := step_cases hs
  · exact h.steps (perform_table (runs_of_place hi (by simp [hp])) he)
  · exact h.steps (resume_table (runs_of_place hi (by simp [hp])) (ha _ (wokenFrom_eq hi hp)) he)

/-- A thread that has lost its child reaps what it finds in the PCB. -/
theorem lost_not_reaped (ha : ¬s.Keeps a) (hs : s.step a = some s') : ¬s'.Reaped := by
  intro hr
  obtain ⟨i, c, th, rfl, hi, hp, he⟩ | ⟨i, w, th, rfl, hi, hp, he⟩ := step_cases hs
  · exact ha trivial
  · refine ha fun x hx hl => ?_
    obtain rfl : (th.ownerPcb, w) = x := Option.some.inj ((wokenFrom_eq hi hp).symm.trans hx)
    cases w with
    | specificChild child =>
      cases he
      have htab := specificLoop_table (runs_of_place hi (by simp [hp])) child
      have hal : s.tree.pstate child ≠ .alive := by
        rcases hl with hf | ⟨hz, -⟩
        · simp [hf]
        · simp [hz]
      rw [if_neg hal] at htab
      have hmem : ⟨th.ownerPcb, child, s.serial child, s.tree.pstate child, s.tree.parent child⟩ ∈
          (s.specificLoop i th.ownerPcb child).reaps := by
        rw [show State.reaps _ = _ from congrArg Table.reaps htab]
        exact List.mem_cons_self
      obtain ⟨hz, hpar⟩ := hr.zombies _ hmem
      rcases hl with hf | ⟨-, hne⟩
      · rw [show s.tree.pstate child = .zombie from hz] at hf
        cases hf
      · exact hne hpar
    | anyChild => exact hl
    | exitOfInit exitval => exact hl
    | join tid => exact hl

theorem Reaped.of_inv (h : s.table.Inv) : s.Reaped := ⟨h.zombies, h.once, h.complete.freelist, h.complete.count⟩

end State

/-- **Reaping.** Along a run of the system every process is reaped as it should exactly when no thread of the run that
goes on in `wait_for_specific_child` has lost its child. -/
theorem reaped_iff_kept {s s' : State} {as : List Action} (hs : system.init s) (hr : system.run s as = some s') :
    system.AllStates State.Reaped s as ↔ system.AllSteps State.Keeps s as := by
  obtain ⟨tid, initTask, argl, args, -, rfl⟩ := hs
  exact Lts.allStates_iff_allSteps (I := fun s => s.table.Inv) (fun _ h => .of_inv h)
    (fun _ _ _ h ha hs => State.step_inv h ha hs) (fun _ _ _ _ ha hs => State.lost_not_reaped ha hs)
    (State.boot_inv tid initTask argl args) hr

/-- A process whose parent waits for it while it exits. -/
theorem reaped_iff_kept_one_waiter :
    let as := [.call 0 (.exec 2 (some 0) 0 none), .call 0 (.waitChild 2), .call 1 (.exit 7), .resume 0]
    system.AllStates State.Reaped (State.boot 1 0 0 none) as := by
  intro as
  obtain ⟨s', hr⟩ : ∃ s', system.run (State.boot 1 0 0 none) as = some s' :=
    Option.isSome_iff_exists.1 (by decide +kernel)
  exact (reaped_iff_kept ⟨1, 0, 0, none, by decide, rfl⟩ hr).2 (by decide +kernel)

/-- Init with two threads. Both wait for process 2, which exits: the second one reaps the PCB that the first one has
released, and ties a knot in the list of free PCBs. -/
theorem second_waiter_reaps_free :
    ∃ s, system.Reaches s ∧ ¬s.Reaped ∧ ∃ p, s.tree.pcbFreelist = some p ∧ s.tree.parent p = some p := by
  obtain ⟨s, hr, hs⟩ := Option.map_eq_some_iff.1 (show
    (system.run (State.boot 1 0 0 none)
      [.call 0 (.createThread 2 0 0 none), .call 0 (.exec 3 (some 0) 0 none), .call 0 (.waitChild 2),
        .call 1 (.waitChild 2), .call 2 (.exit 7), .resume 0, .resume 1]).map
      (fun s => (s.reaps.map Reap.pstate, s.tree.pcbFreelist, s.tree.parent ⟨2, by decide⟩)) =
      some ([.free, .zombie], some ⟨2, by decide⟩, some ⟨2, by decide⟩) by decide +kernel)
  obtain ⟨hst, hf, hp⟩ : _ ∧ _ ∧ _ := by simpa only [Prod.mk.injEq] using hs
  refine ⟨s, Lts.reaches_of_run (.init ⟨1, 0, 0, none, by decide, rfl⟩) hr, fun h => ?_, _, hf, hp⟩
  obtain ⟨r, hr, hfree⟩ := List.mem_map.1 (show PidState.free ∈ s.reaps.map Reap.pstate by rw [hst]; decide)
  have hz := (h.zombies r hr).1
  rw [hfree] at hz
  cases hz

end TinyOS.Proc
