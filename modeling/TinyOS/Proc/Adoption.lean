import TinyOS.Proc.Reaping

/-!
# The tree under Exec, exit and reaping

- `sysThreadExit_last`: the last thread of a process passes the assertions, and the tree loses the process;
- `tree_invariant`: `sys_Exec`, the exit of a process and `cleanup_zombie` keep a consistent tree consistent, and init
  gets the children of a process that exits.
-/

namespace TinyOS.Proc

/-- How the tree `t'` comes out of `t` by the exit of `p`, a child of `q`. -/
structure Adopted (t t' : Tree) (p q : Pid) : Prop where
  pstate : t'.pstate = Function.update t.pstate p .zombie
  parent : ∀ c, t'.parent c = if c ∈ t.childrenList p then some initPid else t.parent c
  children : t'.childrenList initPid = (t.childrenList p).reverse ++ t.childrenList initPid
  exited : t'.exitedList initPid =
    (if q = initPid then [p] else []) ++ (t.exitedList initPid ++ t.exitedList p)
  nodup : (t'.childrenList initPid).Nodup ∧ (t'.exitedList initPid).Nodup
  empty : t'.childrenList p = [] ∧ t'.exitedList p = []
  others : ∀ r, r ≠ p → r ≠ initPid →
    t'.childrenList r = t.childrenList r ∧ t'.exitedList r = (if q = r then [p] else []) ++ t.exitedList r

variable {t : Tree} {s : State} {p q : Pid} {i : ThreadId} {own : Tid} {x : Ptcb}

/-- No list of a consistent tree has a process twice. -/
theorem Tree.Consistent.nodup (h : t.Consistent) (q : Pid) : (t.childrenList q).Nodup ∧ (t.exitedList q).Nodup := by
  constructor
  · refine List.nodup_iff_count_le_one.2 fun c => ?_
    by_cases hc : c ∈ t.childrenList q
    · obtain ⟨hnf, hq⟩ := h.mem_children.1 hc
      exact Nat.le_of_eq (h.listed c q hnf hq).child
    · rw [List.count_eq_zero.2 hc]
      exact Nat.zero_le _
  · refine List.nodup_iff_count_le_one.2 fun c => ?_
    by_cases hc : c ∈ t.exitedList q
    · obtain ⟨hz, hq⟩ := h.mem_exited.1 hc
      rw [(h.listed c q (by simp [hz]) hq).exited, if_pos hz]
    · rw [List.count_eq_zero.2 hc]
      exact Nat.zero_le _

/-- What the children of a process get when it exits. -/
theorem Tree.Consistent.adopted (h : t.Consistent) (hinit : t.pstate initPid = .alive) (hp : t.pstate p = .alive)
    (hq : t.parent p = some q) : Adopted t (t.exited p q) p q := by
  have hpi : initPid ≠ p := by
    rintro rfl
    rw [h.roots initPid (by decide) (by simp [hinit])] at hq
    cases hq
  have hqp : q ≠ p := h.ne_parent (by simp [hp]) hq
  refine ⟨rfl, fun c => rfl, ?_, ?_, (h.exited hinit hp hq).nodup _, ?_, fun r hr hi => ?_⟩
  · simp [Tree.exited, hpi]
  · by_cases hqi : q = initPid
    · subst hqi
      simp [Tree.exited, hpi]
    · simp [Tree.exited, hpi, hqi, Ne.symm hqi]
  · simp [Tree.exited, Ne.symm hqp]
  · by_cases hqr : q = r
    · subst hqr
      simp [Tree.exited, hr, hi]
    · simp [Tree.exited, hr, hi, hqr, Ne.symm hqr]

namespace State

/-- The last thread of `p` exits, and `p` with it. -/
theorem sysThreadExit_last (hx : s.ptcb own = some x) (hc : (s.pcb p).threadCounter = 1) (he : s.tree.exit p = some t)
    (exitval : Int) : ∃ s', s.sysThreadExit i p own exitval = some s' ∧ s'.tree = t := by
  unfold sysThreadExit exitProcess
  rw [hx]
  simp only [Option.bind_some]
  have htree : ∀ s₁ : State, s₁.tree = s.tree → (s₁.pcb p).threadCounter = 0 →
      ∃ s', ((if (s₁.pcb p).threadCounter = 0 then s₁.exitProcess p else some s₁).map fun s => s.setPlace i .exited) =
        some s' ∧ s'.tree = t := by
    intro s₁ h₁ h0
    rw [if_pos h0, exitProcess, h₁, he]
    exact ⟨_, rfl, rfl⟩
  refine htree _ ?_ ?_
  · split <;> rfl
  · split <;> simp [setPcb, setPtcb, broadcastExit, wake, hc]

end State

/-- **The process tree.** -/
theorem tree_invariant (h : s.tree.Consistent) (hinit : s.tree.pstate initPid = .alive) :
    (∀ cur tid call argl args, s.tree.pstate cur = .alive →
      (s.sysExec cur tid call argl args).2.tree.Consistent) ∧
    (∀ i p q own x exitval, s.tree.pstate p = .alive → s.tree.parent p = some q → s.ptcb own = some x →
      (s.pcb p).threadCounter = 1 →
      ∃ s', s.sysThreadExit i p own exitval = some s' ∧ s'.tree.Consistent ∧ Adopted s.tree s'.tree p q) ∧
    (∀ cur child, s.tree.pstate child = .zombie → s.tree.parent child = some cur →
      (s.cleanupZombie cur child).tree.Consistent) ∧
    (∀ p c, c ∈ s.tree.childrenList p ↔ s.tree.pstate c ≠ .free ∧ s.tree.parent c = some p) ∧
    (∀ p c, c ∈ s.tree.exitedList p ↔ s.tree.pstate c = .zombie ∧ s.tree.parent c = some p) := by
  refine ⟨fun cur tid call argl args hcur => ?_, fun i p q own x exitval hp hq hx hc => ?_, fun cur child hz hp => ?_,
    fun p c => h.mem_children, fun p c => h.mem_exited⟩
  · cases he : s.tree.exec cur with
    | none => rwa [State.sysExec_none he]
    | some r =>
      have htree : (s.sysExec cur tid call argl args).2.tree = (s.table.create r.1 r.2 call.isSome).tree :=
        congrArg Table.tree (State.sysExec_table he tid call argl args)
      rw [htree, Table.create_tree]
      exact h.exec (fun _ => hcur) he
  · obtain ⟨s', hs, ht⟩ := State.sysThreadExit_last (i := i) hx hc (h.exit_eq hinit hp hq) exitval
    exact ⟨s', hs, ht ▸ h.exited hinit hp hq, ht ▸ h.adopted hinit hp hq⟩
  · exact h.cleanupZombie hz hp

/-- Process 2 exits after its child 3, which init gets. -/
theorem tree_invariant_orphan :
    ∃ s s', system.Reaches s ∧ s.sysThreadExit 1 ⟨2, by decide⟩ 2 0 = some s' ∧ s'.tree.Consistent ∧
      ⟨3, by decide⟩ ∈ s'.tree.exitedList initPid := by
  let as : List Action := [.call 0 (.exec 2 (some 0) 0 none), .call 1 (.exec 3 (some 0) 0 none), .call 2 (.exit 7)]
  obtain ⟨s, hr, hs⟩ := Option.map_eq_some_iff.1 (show
    (system.run (State.boot 1 0 0 none) as).map
      (fun s => ((s.tree.pstate initPid, s.tree.pstate ⟨2, by decide⟩, s.tree.parent ⟨2, by decide⟩),
        (s.ptcb 2).isSome, (s.pcb ⟨2, by decide⟩).threadCounter, s.tree.exitedList ⟨2, by decide⟩)) =
      some ((.alive, .alive, some initPid), true, 1, [⟨3, by decide⟩]) by decide +kernel)
  obtain ⟨⟨hinit, hp, hq⟩, hx, hc, hex⟩ : (_ ∧ _ ∧ _) ∧ _ ∧ _ ∧ _ := by simpa only [Prod.mk.injEq] using hs
  obtain ⟨x, hx⟩ := Option.isSome_iff_exists.1 hx
  have hinv : s.table.Inv := Lts.run_invariant (I := fun s => s.table.Inv)
    (fun _ _ _ h ha hs => State.step_inv h ha hs) (State.boot_inv 1 0 0 none)
    (show system.AllSteps State.Keeps _ as by decide +kernel) hr
  obtain ⟨s', hs', hcons, had⟩ := (tree_invariant hinv.consistent hinit).2.1 1 _ _ 2 x 0 hp hq hx hc
  refine ⟨s, s', Lts.reaches_of_run (.init ⟨1, 0, 0, none, by decide, rfl⟩) hr, hs', hcons, ?_⟩
  rw [had.exited, hex]
  simp

end TinyOS.Proc
