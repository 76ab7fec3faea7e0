import TinyOS.Proc.Links
import TinyOS.Proc.Reaping
import TinyOS.Proc.Waits

/-!
# Recycled PCBs

- `Used`: what holds in every state reached about the PTCBs of the processes that have ended; the PTCB of the last thread
  of a process is never taken off its list;
- `recycled_never_new`: a process in a recycled PCB never has the PTCB list of a new process;
- `stale_thread_joined`: its main thread joins a thread of the process that had the PCB before.
-/

namespace TinyOS.Proc

open Relation

/-! ## Who waits for which child -/

/-- The child that a thread at this place waits for. -/
def Place.child : Place → Option Pid
  | .waiting (.specificChild child) _ => some child
  | _ => none

namespace State

variable {s s' : State} {cur p c : Pid} {i : ThreadId} {own tid : Tid}

/-- The children that threads wait for in `wait_for_specific_child`. -/
def waited (s : State) : List Pid := s.threads.filterMap (·.place.child)

theorem mem_waited : c ∈ s.waited ↔ ∃ th ∈ s.threads, th.place.child = some c := List.mem_filterMap

theorem waited_iff : c ∈ s.waited ↔ ∃ q, s.Waits q (.specificChild c) := by
  have hchild : ∀ pl : Place, pl.child = some c ↔ ∃ woken, pl = .waiting (.specificChild c) woken := by
    intro pl
    cases pl with
    | waiting w woken => cases w <;> simp [Place.child]
    | _ => simp [Place.child]
  rw [mem_waited]
  constructor
  · rintro ⟨th, hth, hc⟩
    exact ⟨th.ownerPcb, th, hth, rfl, (hchild th.place).1 hc⟩
  · rintro ⟨q, th, hth, -, hp⟩
    exact ⟨th, hth, (hchild th.place).2 hp⟩

/-- Only the entry of `wait_for_specific_child` makes a thread wait for another child. -/
theorem step_waited {a : Action} (hs : s.step a = some s') (hc : c ∈ s'.waited) :
    c ∈ s.waited ∨ s.tree.pstate c ≠ .free := by
  obtain ⟨q, hw⟩ := waited_iff.1 hc
  exact (step_waits hs hw).imp_left fun hw => waited_iff.2 ⟨q, hw⟩

end State

/-! ## Processes that have ended -/

/-- The PTCB lists of the processes that have ended are not empty. -/
structure Table.Used (t : Table) (list : Pid → List Tid) : Prop where
  zombies : ∀ p, t.tree.pstate p = .zombie → list p ≠ []
  reaped : ∀ r ∈ t.reaps, list r.child ≠ []

/-- The PCB `p` is or has been in use. -/
def Table.Known (t : Table) (p : Pid) : Prop := t.tree.pstate p ≠ .free ∨ ∃ r ∈ t.reaps, r.child = p

namespace Table

variable {t t' : Table} {cur p child : Pid} {list : Pid → List Tid} {tree : Tree}

theorem Used.mono (h : t.Used list) {list' : Pid → List Tid} (hl : ∀ p, list p ≠ [] → list' p ≠ []) : t.Used list' :=
  ⟨fun p hp => hl p (h.zombies p hp), fun r hr => hl _ (h.reaped r hr)⟩

theorem Used.of_known (h : t.Used list) (hp : t.Known p) (hal : t.tree.pstate p ≠ .alive) : list p ≠ [] := by
  rcases hp with hnf | ⟨r, hr, rfl⟩
  · refine h.zombies p ?_
    cases hs : t.tree.pstate p <;> simp_all
  · exact h.reaped r hr

/-- Reaping, whatever the state of the PCB. -/
theorem Used.reap (h : t.Used list) (hc : list child ≠ []) : (t.reap cur child).Used list := by
  refine ⟨fun p hp => h.zombies p ?_, fun r hr => ?_⟩
  · by_cases hpc : p = child
    · subst hpc
      simp [Table.reap, Tree.cleanupZombie, Tree.releasePcb] at hp
    · simpa [Table.reap, Tree.cleanupZombie, Tree.releasePcb, hpc] using hp
  · rcases List.mem_cons.1 hr with rfl | hr
    · exact hc
    · exact h.reaped r hr

theorem Known.reap (h : t.Known p) : (t.reap cur child).Known p := by
  by_cases hpc : p = child
  · exact .inr ⟨_, List.mem_cons_self, hpc.symm⟩
  · refine h.imp (fun hnf => ?_) fun ⟨r, hr, hrp⟩ => ⟨r, List.mem_cons_of_mem _ hr, hrp⟩
    simpa [Table.reap, Tree.cleanupZombie, Tree.releasePcb, hpc] using hnf

/-- The moves of a process whose PTCB list is not empty. -/
theorem Used.step (h : t.Used list) (hcur : list cur ≠ []) (hs : Step cur t t') : t'.Used list := by
  cases hs with
  | newThread _ => exact ⟨h.zombies, h.reaped⟩
  | @exec p tree main _ he =>
    obtain ⟨-, hst, -, -, -⟩ := Tree.exec_some he
    have hz : ∀ q, tree.pstate q = .zombie → list q ≠ [] := by
      intro q hq
      rw [hst] at hq
      by_cases hqp : q = p
      · subst hqp
        simp at hq
      · rw [Function.update_of_ne hqp] at hq
        exact h.zombies q hq
    cases main <;> exact ⟨hz, h.reaped⟩
  | endThread _ _ => exact ⟨h.zombies, h.reaped⟩
  | endProcess _ _ he =>
    refine ⟨fun q hq => ?_, h.reaped⟩
    dsimp only at hq
    rw [Tree.exit_pstate he] at hq
    by_cases hqc : q = cur
    · exact hqc ▸ hcur
    · rw [Function.update_of_ne hqc] at hq
      exact h.zombies q hq
  | reap _ hz _ => exact h.reap (h.zombies _ hz)

theorem Known.step (h : t.Known p) (hs : Step cur t t') : t'.Known p := by
  have hupd : ∀ {q : Pid} {x : PidState} {tree : Tree}, tree.pstate = Function.update t.tree.pstate q x → x ≠ .free →
      ∀ t₁ : Table, t₁.tree = tree → t₁.reaps = t.reaps → t₁.Known p := by
    intro q x tree hst hx t₁ ht hr
    refine h.imp (fun hnf => ?_) fun hr' => hr ▸ hr'
    rw [ht, hst]
    by_cases hpq : p = q
    · subst hpq
      simpa using hx
    · simpa [hpq] using hnf
  cases hs with
  | newThread _ => exact h
  | @exec p tree main _ he =>
    obtain ⟨-, hst, -, -, -⟩ := Tree.exec_some he
    cases main <;> exact hupd hst (by simp) _ rfl rfl
  | endThread _ _ => exact h
  | endProcess _ _ he => exact hupd (Tree.exit_pstate he) (by simp) _ rfl rfl
  | reap _ _ _ => exact h.reap

theorem Used.steps (h : t.Used list) (hcur : list cur ≠ []) (hs : ReflTransGen (Step cur) t t') : t'.Used list := by
  induction hs with
  | refl => exact h
  | tail _ hs ih => exact ih.step hcur hs

theorem Known.steps (h : t.Known p) (hs : ReflTransGen (Step cur) t t') : t'.Known p := by
  induction hs with
  | refl => exact h
  | tail _ hs ih => exact ih.step hs

end Table

namespace State

variable {s s' : State} {cur p : Pid} {i : ThreadId} {a : Action} {tid : Tid}

structure Used (s : State) : Prop where
  links : s.links.Inv
  table : s.table.Used s.links.list
  waited : ∀ c ∈ s.waited, s.table.Known c

/-- A step is moves of the table, or the reaping of a PCB that a thread was waiting for. -/
theorem step_table (hs : s.step a = some s') :
    ∃ (i : ThreadId) (th : Thread), s.threads[i]? = some th ∧ th.place ≠ .exited ∧
      (ReflTransGen (Table.Step th.ownerPcb) s.table s'.table ∨
        ∃ child, child ∈ s.waited ∧ s.tree.pstate child ≠ .alive ∧ s'.table = s.table.reap th.ownerPcb child) := by
  obtain ⟨i, call, th, rfl, hi, hp, he⟩ | ⟨i, w, th, rfl, hi, hp, he⟩ := step_cases hs
  · have hr := runs_of_place hi (by simp [hp])
    exact ⟨i, th, hi, by simp [hp], .inl (perform_table hr he)⟩
  · have hr := runs_of_place hi (by simp [hp])
    refine ⟨i, th, hi, by simp [hp], ?_⟩
    by_cases hl : s.Lost th.ownerPcb w
    · cases w with
      | specificChild child =>
        cases he
        have hal : s.tree.pstate child ≠ .alive := by
          rcases hl with hf | ⟨hz, -⟩
          · simp [hf]
          · simp [hz]
        refine .inr ⟨child, mem_waited.2 ⟨th, List.mem_of_getElem? hi, by rw [hp]; rfl⟩, hal, ?_⟩
        rw [specificLoop_table hr, if_neg hal]
      | _ => exact hl.elim
    · exact .inl (resume_table hr hl he)

theorem Used.step (h : s.Used) (hs : s.step a = some s') : s'.Used := by
  obtain ⟨i, th, hi, hp, hlinks⟩ := step_links h.links hs
  obtain ⟨j, th', hj, hp', htable⟩ := step_table hs
  have hmono : s.table.Used s'.links.list := h.table.mono fun p hp => h.links.steps_ne_nil hlinks hp
  have hown : s.links.list th'.ownerPcb ≠ [] :=
    List.ne_nil_of_mem (h.links.own j _ (acts_of_place hj hp') rfl).1
  refine ⟨h.links.steps hlinks, ?_, fun c hc => ?_⟩
  · rcases htable with hsteps | ⟨child, hchild, hal, he⟩
    · exact hmono.steps (h.links.steps_ne_nil hlinks hown) hsteps
    · rw [he]
      exact hmono.reap (hmono.of_known (h.waited child hchild) hal)
  · have hknown : s.table.Known c := (step_waited hs hc).elim (h.waited c) .inl
    rcases htable with hsteps | ⟨child, -, -, he⟩
    · exact hknown.steps hsteps
    · rw [he]
      exact hknown.reap

theorem used (h : system.Reaches s) : s.Used := by
  refine Lts.Reaches.invariant (I := Used) ?_ (fun s a s' hu hs => hu.step hs) h
  rintro s ⟨tid, initTask, argl, args, -, rfl⟩
  obtain ⟨t, t', h₁, h₂, he⟩ := boot_table tid initTask argl args
  obtain ⟨-, hst₁, -, -, -⟩ := Tree.exec_some h₁
  obtain ⟨-, hst₂, -, -, -⟩ := Tree.exec_some h₂
  refine ⟨boot_links_inv tid initTask argl args, ⟨fun p hp => ?_, fun r hr => ?_⟩, fun c hc => ?_⟩
  · rw [he] at hp
    have hp : t'.pstate p = .zombie := hp
    rw [hst₂, hst₁] at hp
    simp only [Function.update_apply] at hp
    split at hp
    · cases hp
    · split at hp <;> cases hp
  · rw [he] at hr
    cases hr
  · obtain ⟨q, hw⟩ := waited_iff.1 hc
    exact absurd hw boot_waits

/-- The process `p`, just made by `parent`, is as in a PCB that was never used: one thread, with the PTCB `tid`. -/
structure AsNew (s : State) (parent p : Pid) (tid : Tid) : Prop where
  ptcbList : (s.pcb p).ptcbList = [tid]
  threadCounter : (s.pcb p).threadCounter = 1
  children : s.tree.childrenList p = []
  exited : s.tree.exitedList p = []
  fidt : (s.pcb p).fidt = (s.pcb parent).fidt

/-- `sys_Exec` with a main thread puts its PTCB behind those that the list already holds. -/
theorem exec_ptcbList {th : Thread} {task : Task} {argl : Int} {args : Args} (hi : s.threads[i]? = some th)
    (hs : s.step (.call i (.exec tid (some task) argl args)) = some s')
    (hret : (s'.threads[i]?).map Thread.ret = some (p.val : Int)) :
    (s'.pcb p).ptcbList = (s.pcb p).ptcbList ++ [tid] := by
  obtain ⟨j, c, th', hj, hi', hp, he⟩ | ⟨j, w, th', hj, -, -, -⟩ := step_cases hs
  · cases hj
    cases hi.symm.trans hi'
    simp only [perform] at he
    split at he
    · cases he
      have hval : ∀ {s₁ : State} {v : Int}, ((s₁.ret i v none).threads[i]?).map Thread.ret = some (p.val : Int) →
          v = p.val := by
        intro s₁ v h
        simp only [ret, List.getElem?_modify_eq] at h
        obtain ⟨th₁, h₁, h⟩ := Option.map_eq_some_iff.1 h
        obtain ⟨th₂, -, rfl⟩ := Option.map_eq_some_iff.1 h₁
        exact h
      have hv := hval hret
      cases ht : s.tree.exec th.ownerPcb with
      | none =>
        rw [sysExec_none ht] at hv
        simp only [Option.elim, noproc] at hv
        omega
      | some r =>
        have hr : (s.sysExec th.ownerPcb tid (some task) argl args).1 = some r.1 := by
          unfold sysExec
          rw [ht]
        rw [hr] at hv
        obtain rfl : r.1 = p := Fin.ext (Int.ofNat.inj hv)
        have hl := congrFun (congrArg Links.list (sysExec_links ht tid (some task) argl args)) r.1
        refine Eq.trans ?_ (hl.trans (Function.update_self _ _ _))
        rfl
    · cases he
  · cases hj

end State

/-- **Recycled PCBs.** A process that `sys_Exec` makes in a PCB that was released before is never as in a new PCB: its
`PTCB_List` still holds PTCBs of the processes that had the PCB. -/
theorem recycled_never_new {s s' : State} {i : ThreadId} {th : Thread} {tid : Tid} {task : Task} {argl : Int} {args : Args}
    {p : Pid} (hr : system.Reaches s) (hi : s.threads[i]? = some th)
    (hs : s.step (.call i (.exec tid (some task) argl args)) = some s')
    (hret : (s'.threads[i]?).map Thread.ret = some (p.val : Int)) (hp : ∃ r ∈ s.reaps, r.child = p) :
    ¬s'.AsNew th.ownerPcb p tid := by
  intro hnew
  obtain ⟨r, hr', rfl⟩ := hp
  have hne : (s.pcb r.child).ptcbList ≠ [] := (State.used hr).table.reaped r hr'
  have hlist := (State.exec_ptcbList hi hs hret).symm.trans hnew.ptcbList
  exact hne (by simpa using hlist)

/-- Init makes process 2, reaps it and makes another process 2. -/
theorem recycled_never_new_pid_two :
    ∃ s s', system.Reaches s ∧ s.step (.call 0 (.exec 3 (some 0) 0 none)) = some s' ∧
      ¬s'.AsNew initPid ⟨2, by decide⟩ 3 := by
  obtain ⟨s, hr, hs⟩ := Option.map_eq_some_iff.1 (show
    (system.run (State.boot 1 0 0 none) [.call 0 (.exec 2 (some 0) 0 none), .call 1 (.exit 7), .call 0 (.waitChild 2)]).map
      (fun s => (s.reaps.map Reap.child, (s.threads[0]?).map Thread.ownerPcb,
        (s.step (.call 0 (.exec 3 (some 0) 0 none))).map fun s' => (s'.threads[0]?).map Thread.ret)) =
      some ([⟨2, by decide⟩], some initPid, some (some 2)) by decide +kernel)
  obtain ⟨hp, hth, hs⟩ : _ ∧ _ ∧ _ := by simpa only [Prod.mk.injEq] using hs
  obtain ⟨th, hi, hown⟩ := Option.map_eq_some_iff.1 hth
  obtain ⟨s', hs, hret⟩ := Option.map_eq_some_iff.1 hs
  have hreach : system.Reaches s := Lts.reaches_of_run (.init ⟨1, 0, 0, none, by decide, rfl⟩) hr
  have hnew := recycled_never_new hreach hi hs hret (List.mem_map.1 (by rw [hp]; exact List.mem_singleton_self _))
  rw [hown] at hnew
  exact ⟨s, s', hreach, hs, hnew⟩

/-- In the same run, the main thread of the second process 2 joins the one of the first: the call returns 0. -/
theorem stale_thread_joined :
    ∃ s, system.Reaches s ∧ (∃ r ∈ s.reaps, r.child = ⟨2, by decide⟩) ∧
      ∃ s', s.step (.call 0 (.exec 3 (some 0) 0 none)) = some s' ∧ (s'.threads[0]?).map Thread.ret = some 2 ∧
        ¬s'.AsNew initPid ⟨2, by decide⟩ 3 ∧
        ∃ s'', s'.step (.call 2 (.threadJoin 2)) = some s'' ∧ (s''.threads[2]?).map Thread.ret = some 0 := by
  have hrun : ((system.run (State.boot 1 0 0 none)
      [.call 0 (.exec 2 (some 0) 0 none), .call 1 (.exit 7), .call 0 (.waitChild 2)]).bind fun s =>
        (s.step (.call 0 (.exec 3 (some 0) 0 none))).bind fun s' =>
          (s'.step (.call 2 (.threadJoin 2))).map fun s'' =>
            (s.reaps.map Reap.child, (s'.threads[0]?).map Thread.ret, (s'.pcb ⟨2, by decide⟩).ptcbList,
              (s''.threads[2]?).map Thread.ret)) =
      some ([⟨2, by decide⟩], some 2, [2, 3], some 0) := by decide +kernel
  obtain ⟨s, hr, hrun⟩ := Option.bind_eq_some_iff.1 hrun
  obtain ⟨s', hs, hrun⟩ := Option.bind_eq_some_iff.1 hrun
  obtain ⟨s'', hjoin, hrun⟩ := Option.map_eq_some_iff.1 hrun
  obtain ⟨hp, hret, hlist, hzero⟩ : _ ∧ _ ∧ _ ∧ _ := by simpa only [Prod.mk.injEq] using hrun
  refine ⟨s, Lts.reaches_of_run (.init ⟨1, 0, 0, none, by decide, rfl⟩) hr,
    List.mem_map.1 (by rw [hp]; exact List.mem_singleton_self _), s', hs, hret, fun h => ?_, s'', hjoin, hzero⟩
  rw [h.ptcbList] at hlist
  cases hlist

end TinyOS.Proc
