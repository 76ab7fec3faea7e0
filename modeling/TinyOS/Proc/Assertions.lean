import TinyOS.Proc.Census

/-!
# The assertions at the exit of a process

- `State.exitLoop_isSome`, `State.sysThreadExit_isSome`: on a consistent tree a thread that exits passes the assertions,
  unless it is the last one of init and init has children;
- `assertions_iff`: along a run on which no thread loses its child, the assertions hold exactly if the last thread of init
  never calls `sys_ThreadExit` while init has children.
-/

namespace TinyOS.Proc

namespace State

/-- A thread is about to go on in a system call in which it exits, or waits for the children of init. -/
def Exiting (s : State) : Action → Prop
  | .call i (.threadExit _) | .call i (.exit _) => (s.threads[i]?).map Thread.place = some .user
  | .resume i => ∃ exitval, (s.threads[i]?).map Thread.place = some (.waiting (.exitOfInit exitval) true)
  | _ => False

/-- What the assertions of `sys_ThreadExit` are there for. -/
structure Passes (s : State) (a : Action) : Prop where
  /-- No assertion fails. -/
  goesOn : s.Exiting a → (s.step a).isSome
  empty : ∀ s' p, s.step a = some s' → s.endsProcess a s' p = true →
    s'.tree.childrenList p = [] ∧ s'.tree.exitedList p = []
  /-- Init does not end before its children. -/
  init : ∀ s', s.step a = some s' → s'.tree.pstate initPid ≠ .alive → ∀ c, s'.tree.pstate c ≠ .free →
    s'.tree.parent c ≠ some initPid

/-- The last thread of init does not call `sys_ThreadExit` while init has children; a thread of `CreateThread` also calls it
when it returns. -/
def InitChildless (s : State) : Action → Prop
  | .call i (.threadExit _) =>
    (s.threads[i]?).map (fun th => (th.ownerPcb, th.place)) = some (initPid, .user) → (s.pcb initPid).threadCounter = 1 →
      s.tree.childrenList initPid = []
  | _ => True

instance (s : State) : ∀ a, Decidable (s.InitChildless a)
  | .call i (.threadExit _) => inferInstanceAs (Decidable
      ((s.threads[i]?).map (fun th => (th.ownerPcb, th.place)) = some (initPid, .user) →
        (s.pcb initPid).threadCounter = 1 → s.tree.childrenList initPid = []))
  | .call _ (.exec _ _ _ _) | .call _ (.createThread _ _ _ _) | .call _ (.threadJoin _) | .call _ (.threadDetach _)
  | .call _ (.exit _) | .call _ (.waitChild _) | .call _ (.file _) | .resume _ => inferInstanceAs (Decidable True)

variable {s s' : State} {cur p : Pid} {i : ThreadId} {own : Tid} {a : Action} {x : Ptcb}

/-! ## Exits that pass -/

/-- A thread that is not the last one passes, and so does one whose process may exit. -/
theorem sysThreadExit_isSome {exitval : Int} (hx : s.ptcb own = some x) :
    (s.sysThreadExit i cur own exitval).isSome ↔ ((s.pcb cur).threadCounter = 1 → (s.tree.exit cur).isSome) := by
  unfold sysThreadExit
  rw [hx, Option.bind_some, Option.isSome_map]
  have hexit : ∀ s₁ : State, s₁.tree = s.tree → (s₁.pcb cur).threadCounter = (s.pcb cur).threadCounter - 1 →
      ((if (s₁.pcb cur).threadCounter = 0 then s₁.exitProcess cur else some s₁).isSome ↔
        ((s.pcb cur).threadCounter = 1 → (s.tree.exit cur).isSome)) := by
    intro s₁ htree hc
    split
    · have hone : (s.pcb cur).threadCounter = 1 := by omega
      unfold exitProcess
      rw [Option.isSome_map, htree]
      exact ⟨fun h _ => h, fun h => h hone⟩
    · have hne : (s.pcb cur).threadCounter ≠ 1 := by omega
      exact ⟨fun _ h => absurd h hne, fun _ => rfl⟩
  refine hexit _ ?_ ?_
  · split <;> rfl
  · split <;> simp [setPcb, setPtcb, broadcastExit, wake]

/-- A process with a live thread may exit if it is not init with children. -/
theorem exit_isSome (hinv : s.table.Inv) (hl : 0 < s.live cur) (hi : cur = initPid → s.tree.childrenList initPid = []) :
    (s.tree.exit cur).isSome := by
  have hal : s.tree.pstate cur = .alive := hinv.alive cur hl
  by_cases hinit : cur = initPid
  · subst hinit
    have hch := hi rfl
    have hex : s.tree.exitedList initPid = [] := by
      rw [List.eq_nil_iff_forall_not_mem]
      intro c hc
      obtain ⟨hz, hp⟩ := hinv.consistent.mem_exited.1 hc
      have hm := hinv.consistent.mem_children.2 ⟨by rw [hz]; simp, hp⟩
      rw [show s.table.tree.childrenList initPid = [] from hch] at hm
      cases hm
    simp [Tree.exit, Tree.becomeZombie, hch, hex]
  · obtain ⟨q, hq⟩ := hinv.exists_parent hl hinit
    have hroot := hinv.init_alive (by rw [show s.table.tree.pstate cur = _ from hal]; simp) hq
    rw [show s.tree.exit cur = _ from hinv.consistent.exit_eq hroot hal hq]
    rfl

/-- The loop of `sys_Exit` comes to its end. -/
theorem exitLoop_isSome {exitval : Int} : ∀ (n : Nat) {s : State}, s.table.Inv → s.Runs i cur → s.ptcb own = some x →
    (s.tree.exitedList cur).length < n → (s.exitLoop i cur own exitval n).isSome := by
  intro n
  induction n with
  | zero => intro s _ _ _ hn; cases hn
  | succ n ih =>
    intro s hinv hr hx hn
    unfold exitLoop
    split
    · rename_i hf
      refine (sysThreadExit_isSome hx).2 fun _ => exit_isSome hinv hr.live_pos ?_
      rintro rfl
      unfold findExited at hf
      split at hf
      · assumption
      · cases hf
      · cases hf
    · rename_i child hf
      obtain ⟨l, hl⟩ := findExited_exited hf
      have hm : child ∈ s.tree.exitedList cur := by rw [hl]; exact List.mem_cons_self
      obtain ⟨hz, hp⟩ := hinv.consistent.mem_exited.1 hm
      have hz : s.tree.pstate child = .zombie := hz
      rw [if_pos hz]
      refine ih (s := s.cleanupZombie cur child) (hinv.reap hz hp) hr hx ?_
      show ((s.tree.exitedList cur).erase child).length < n
      have hpos := List.length_pos_of_mem hm
      rw [List.length_erase_of_mem hm]
      omega
    · rfl

theorem sysExit_isSome {exitval : Int} (hinv : s.table.Inv) (hr : s.Runs i cur) (hx : s.ptcb own = some x) :
    (s.sysExit i cur own exitval).isSome := by
  have htable : (s.setPcb cur { s.pcb cur with exitval := exitval }).table = s.table := table_setPcb rfl
  unfold sysExit
  dsimp only
  split
  · exact exitLoop_isSome _ (htable ▸ hinv) hr hx (Nat.lt_succ_self _)
  · exact (sysThreadExit_isSome (s := s.setPcb _ _) hx).2 fun _ =>
      exit_isSome (s := s.setPcb _ _) (htable ▸ hinv) hr.live_pos fun hi => absurd hi ‹_›

/-! ## Steps -/

/-- What the assertions rest on. -/
structure Orderly (s : State) : Prop where
  table : s.table.Inv
  links : s.links.Inv
  root : ∀ q v, s.Waits q (.exitOfInit v) → q = initPid

namespace Orderly

theorem step (h : s.Orderly) (ha : s.Keeps a) (hs : s.step a = some s') : s'.Orderly where
  table := step_inv h.table ha hs
  links := step_links_inv h.links hs
  root q v hw := (step_waits hs hw).elim (h.root q v) id

theorem boot (tid : Tid) (initTask : Task) (argl : Int) (args : Args) : (State.boot tid initTask argl args).Orderly where
  table := boot_inv tid initTask argl args
  links := boot_links_inv tid initTask argl args
  root _ _ hw := absurd hw boot_waits

/-- The thread that is about to exit has its PTCB. -/
theorem ptcb {th : Thread} (h : s.Orderly) (hi : s.threads[i]? = some th) (hp : th.place ≠ .exited) :
    ∃ x, s.ptcb th.ownerPtcb = some x := by
  obtain ⟨-, x, hx, -⟩ := h.links.own i th.key (key_of_thread hi) (key_live.2 hp)
  exact ⟨x, hx⟩

end Orderly

theorem step_call {th : Thread} {c : Call} (hi : s.threads[i]? = some th) (hp : th.place = .user) :
    s.step (.call i c) = s.perform i th.ownerPcb th.ownerPtcb c := by
  cases th
  cases hp
  simp only [step, hi]

theorem step_resume {th : Thread} {w : Wait} (hi : s.threads[i]? = some th) (hp : th.place = .waiting w true) :
    s.step (.resume i) = s.resume i th.ownerPcb th.ownerPtcb w := by
  cases th
  cases hp
  simp only [step, hi]

/-- No assertion fails while the last thread of init does not leave children behind. -/
theorem Orderly.goesOn (h : s.Orderly) (hi : s.InitChildless a) (hex : s.Exiting a) : (s.step a).isSome := by
  cases a with
  | call i c =>
    have hcall : (s.threads[i]?).map Thread.place = some .user →
        ∃ th x, s.threads[i]? = some th ∧ th.place = .user ∧ s.Runs i th.ownerPcb ∧ s.ptcb th.ownerPtcb = some x := by
      intro hp
      obtain ⟨th, hth, hp⟩ := Option.map_eq_some_iff.1 hp
      obtain ⟨x, hx⟩ := h.ptcb hth (by simp [hp])
      exact ⟨th, x, hth, hp, runs_of_place hth (by simp [hp]), hx⟩
    cases c with
    | threadExit exitval =>
      obtain ⟨th, x, hth, hp, hr, hx⟩ := hcall hex
      rw [step_call hth hp]
      refine (sysThreadExit_isSome hx).2 fun hc => exit_isSome h.table hr.live_pos fun hinit => ?_
      exact hi (by rw [hth, Option.map_some, hinit, hp]) (hinit ▸ hc)
    | exit exitval =>
      obtain ⟨th, x, hth, hp, hr, hx⟩ := hcall hex
      rw [step_call hth hp]
      exact sysExit_isSome h.table hr hx
    | _ => cases hex
  | resume i =>
    obtain ⟨exitval, hp⟩ := hex
    obtain ⟨th, hth, hp⟩ := Option.map_eq_some_iff.1 hp
    obtain ⟨x, hx⟩ := h.ptcb hth (by simp [hp])
    rw [step_resume hth hp]
    exact exitLoop_isSome _ h.table (runs_of_place hth (by simp [hp])) hx (Nat.lt_succ_self _)

theorem Orderly.passes (h : s.Orderly) (ha : s.Keeps a) (hi : s.InitChildless a) : s.Passes a where
  goesOn := h.goesOn hi
  empty s' p hs he := by
    have hc := endsProcess_cleanedUp h.links h.root hs he
    exact ⟨hc.children, hc.exited⟩
  init s' hs hal c hc hp := hal ((h.step ha hs).table.init_alive hc hp)

/-- The first assertion fails when the last thread of init leaves children behind. -/
theorem Orderly.initChildless (h : s.Orderly) (hp : s.Passes a) : s.InitChildless a := by
  unfold InitChildless
  split
  · rename_i i exitval
    intro hth hc
    obtain ⟨th, hth, hown⟩ := Option.map_eq_some_iff.1 hth
    obtain ⟨hown, hplace⟩ : th.ownerPcb = initPid ∧ th.place = .user := by simpa using hown
    obtain ⟨x, hx⟩ := h.ptcb hth (by simp [hplace])
    have hstep := hp.goesOn (by simp [Exiting, hth, hplace])
    rw [step_call hth hplace] at hstep
    obtain ⟨t, ht⟩ := Option.isSome_iff_exists.1 ((sysThreadExit_isSome hx).1 hstep (hown ▸ hc))
    rw [hown] at ht
    exact (Tree.exit_init ht).1
  · trivial

end State

/-- **The exit assertions.** Along a run on which no thread loses its child, the assertions of `sys_ThreadExit` hold exactly
if the last thread of init never calls it while init has children. -/
theorem assertions_iff {tid : Tid} {initTask : Task} {argl : Int} {args : Args} {as : List Action}
    (hk : system.AllSteps State.Keeps (.boot tid initTask argl args) as) :
    system.AllSteps State.Passes (.boot tid initTask argl args) as ↔
      system.AllSteps State.InitChildless (.boot tid initTask argl args) as := by
  have hboot := State.Orderly.boot tid initTask argl args
  constructor
  · intro hp
    refine Lts.allSteps_of_allSteps (I := State.Orderly) (fun s a s' h ha hs => h.step ha.1 hs) ?_ hboot (hk.and hp)
    exact fun s a h ha => h.initChildless ha.2
  · intro hi
    refine Lts.allSteps_of_allSteps (I := State.Orderly) (fun s a s' h ha hs => h.step ha.1 hs) ?_ hboot (hk.and hi)
    exact fun s a h ha => h.passes ha.1 ha.2

/-- Init has two threads and a child. Its main thread waits in `sys_Exit` for the child, and the other thread is the last. -/
theorem assertions_iff_two_threads :
    system.AllSteps State.Passes (.boot 1 0 0 none)
      [.call 0 (.exec 2 (some 0) 0 none), .call 0 (.createThread 3 0 0 none), .call 0 (.exit 0), .call 1 (.exit 7),
        .resume 0, .call 2 (.threadExit 1)] :=
  (assertions_iff (by decide +kernel)).2 (by decide +kernel)

/-- Init makes a process and calls `sys_ThreadExit`. -/
theorem init_leaves_child :
    ∃ s, system.Reaches s ∧ s.tree.childrenList initPid = [⟨2, by decide⟩] ∧ ¬s.Passes (.call 0 (.threadExit 0)) := by
  let as : List Action := [.call 0 (.exec 2 (some 0) 0 none)]
  obtain ⟨s, hr, hx⟩ := Option.map_eq_some_iff.1 (show
    (system.run (State.boot 1 0 0 none) as).map (fun s => (s.tree.childrenList initPid,
        (s.threads[0]?).map Thread.place, (s.step (.call 0 (.threadExit 0))).isSome)) =
      some ([⟨2, by decide⟩], some .user, false) by decide +kernel)
  obtain ⟨hch, hplace, hstep⟩ : _ ∧ _ ∧ _ := by simpa only [Prod.mk.injEq] using hx
  refine ⟨s, Lts.reaches_of_run (.init ⟨1, 0, 0, none, by decide, rfl⟩) hr, hch, fun hp => ?_⟩
  rw [hp.goesOn hplace] at hstep
  cases hstep

end TinyOS.Proc
