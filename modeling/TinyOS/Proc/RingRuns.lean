import TinyOS.Proc.Intact
import TinyOS.Proc.OnRings

/-!
# Processes and threads: runs on the rings

Every step of the system of processes and threads does in memory what it does on the lists (`step_agrees`), and so does
every run (`process_runs_agree`) in which no thread that goes on in `wait_for_specific_child` finds the PCB of its child
released, whatever was in memory before `initialize_processes` and whatever is written to PTCBs that have been freed. In
such runs, and in no others, the rings and the list of free PCBs stay in order (`tables_consistent_iff`).
-/

namespace TinyOS.Proc.Rings

open Rlist Streams
open Function (update)

variable {h : Nodes Addr Obj} {r : State} {s s' : Proc.State} {p q cur child : Pid} {i : ThreadId} {own tid : Tid}
  {th : Thread} {fuel n : Nat}

/-! ## Every step -/

theorem perform (hm : InMemory h s) (hi : s.Intact) (hf : maxProc < fuel) (hl : s.threads.length < fuel)
    (hal : s.tree.pstate cur = .alive) (i : ThreadId) (own : Tid) (c : Call) :
    Agree ((withNodes s h).perform fuel i cur own c) (s.perform i cur own c) := by
  obtain ⟨hch, hex⟩ := hi.length_le cur
  have hchildren := Nat.lt_of_le_of_lt hch hf
  have hexited := Nat.lt_of_le_of_lt hex hf
  have hout := hi.notMem_exited hal
  have hshort : (s.pcb cur).ptcbList.length < fuel := by
    refine Nat.lt_of_le_of_lt (hi.short cur) ?_
    rwa [State.links, List.length_map]
  cases c with
  | exec tid call argl args =>
    have hfresh : (withNodes s h).Fresh tid ↔ s.Fresh tid := Iff.rfl
    simp only [State.perform, Proc.State.perform, hfresh]
    by_cases htid : s.Fresh tid
    · have hfree : s.ptcb tid = none := by simpa using htid.2
      obtain ⟨hpid, h₁, hr, hm₁⟩ := sysExec hm cur hfree (fun p hp => hi.head_unlisted hp) call argl args
      rw [if_pos htid, if_pos htid, hpid, hr]
      exact .some ⟨h₁, rfl, hm₁.threads _⟩
    · rw [if_neg htid, if_neg htid]
      exact .none
  | createThread tid task argl args =>
    have hfresh : (withNodes s h).Fresh tid ↔ s.Fresh tid := Iff.rfl
    simp only [State.perform, Proc.State.perform, hfresh]
    by_cases htid : s.Fresh tid
    · have hfree : s.ptcb tid = none := by simpa using htid.2
      obtain ⟨h₁, hr, hm₁⟩ := startThread hm hfree cur task argl args
      rw [if_pos htid, if_pos htid, hr]
      exact .some ⟨h₁, rfl, hm₁.threads _⟩
    · rw [if_neg htid, if_neg htid]
      exact .none
  | threadJoin tid => exact sysThreadJoin hm hshort i own tid
  | threadDetach tid => exact sysThreadDetach hm hshort i tid
  | threadExit exitval => exact sysThreadExit hm hout hchildren i own exitval
  | exit exitval => exact sysExit hm hout hchildren hexited i own exitval
  | waitChild cpid => exact sysWaitChild hm i cur cpid
  | file c =>
    have hview : (withNodes s h).view cur = s.view cur := rfl
    simp only [State.perform, Proc.State.perform, hview]
    cases c.apply (s.view cur) with
    | none => exact .none
    | some v => exact .some ⟨h, withNodes_setView v, hm.setView v⟩

theorem resume (hm : InMemory h s) (hi : s.Intact) (hf : maxProc < fuel) (hth : s.threads[i]? = some th) {w : Wait}
    (hp : th.place = .waiting w true) : Agree ((withNodes s h).resume fuel i th.ownerPcb th.ownerPtcb w)
      (s.resume i th.ownerPcb th.ownerPtcb w) := by
  have hal := hi.alive hth (by simp [hp])
  obtain ⟨hch, hex⟩ := hi.length_le th.ownerPcb
  cases w with
  | specificChild child => exact .some (specificLoop hm i th.ownerPcb child)
  | anyChild => exact waitForAnyChild hm i th.ownerPcb
  | exitOfInit exitval =>
    exact exitOfInit hm (hi.notMem_exited hal) (Nat.lt_of_le_of_lt hch hf) (Nat.lt_of_le_of_lt hex hf) i _ exitval
  | join tid =>
    have hkey : s.links.keys[i]? = some th.key := by simp [State.links, hth]
    have hjoins : th.key.joins = some tid := by simp [Thread.key, hp, Place.joins]
    exact joinLoop hm (hi.links.joins i th.key tid hkey hjoins).2.1 i

/-- Other code may write to memory that is free. -/
theorem overwrite (hm : InMemory h s) (hfree : s.ptcb tid = none) (obj : Obj) (prev next : Addr) :
    Refines ((withNodes s h).overwrite tid obj prev next) s := by
  have hne : ∀ {m}, Live s m → (.inr m : Addr) ≠ ptcbListNode tid := fun hl he => by
    rw [Sum.inr.inj he] at hl
    simp [Live, hfree] at hl
  refine ⟨_, rfl, hm.rings.congr id hm.rings.live (fun j => ?_) fun m hl => ?_, fun m hl => ?_⟩
  · have hni : (.inl j : Addr) ≠ ptcbListNode tid := Sum.inl_ne_inr
    exact ⟨Function.update_of_ne hni next h.next, Function.update_of_ne hni prev h.prev⟩
  · have hnext : update h.next (ptcbListNode tid) next (.inr m) = h.next (.inr m) := Function.update_of_ne (hne hl) ..
    have hprev : update h.prev (ptcbListNode tid) prev (.inr m) = h.prev (.inr m) := Function.update_of_ne (hne hl) ..
    exact ⟨hnext, hprev⟩
  · have hobj : update h.obj (ptcbListNode tid) obj (.inr m) = h.obj (.inr m) := Function.update_of_ne (hne hl) ..
    exact hobj.trans (hm.keys m hl)

/-- The system on lists, where it does not matter what memory that is free holds. -/
def lists : Lts Proc.State Action where
  init := Proc.system.init
  step s
    | .sys a => s.step a
    | .overwrite tid .. => if (s.ptcb tid).isNone then some s else none

/-- **Step lemma.** -/
theorem step_agrees (hm : InMemory h s) (hi : s.Intact) (hf : maxProc < fuel) (hl : s.threads.length < fuel) (a : Action) :
    Agree ((withNodes s h).step fuel a) (lists.step s a) := by
  have hthreads : (withNodes s h).threads = s.threads := rfl
  cases a with
  | overwrite tid obj prev next =>
    have hptcb : (withNodes s h).ptcb = s.ptcb := rfl
    simp only [State.step, lists, hptcb]
    by_cases hfree : (s.ptcb tid).isNone
    · rw [if_pos hfree, if_pos hfree]
      exact .some (overwrite hm (by simpa using hfree) obj prev next)
    · rw [if_neg hfree, if_neg hfree]
      exact .none
  | sys a =>
    cases a with
    | call i c =>
      simp only [State.step, lists, Proc.State.step, hthreads]
      cases hth : s.threads[i]? with
      | none => exact .none
      | some th =>
        obtain ⟨cur, own, place, ret, out⟩ := th
        cases place with
        | user => exact perform hm hi hf hl (hi.alive hth (by simp)) i own c
        | waiting w woken => exact .none
        | exited => exact .none
    | resume i =>
      simp only [State.step, lists, Proc.State.step, hthreads]
      cases hth : s.threads[i]? with
      | none => exact .none
      | some th =>
        obtain ⟨cur, own, place, ret, out⟩ := th
        cases place with
        | user => exact .none
        | exited => exact .none
        | waiting w woken =>
          cases woken with
          | false => exact .none
          | true => exact resume hm hi hf hth rfl

/-! ## Boot -/

/-- The pointers that `initialize_PCB` writes. -/
def initialObj : Addr → Obj
  | .inl _ => .null
  | .inr n => n.obj

def nodesOf (p : Pid) : List Addr := [childrenList p, exitedList p, childrenNode p, exitedNode p, ptcbList p]

theorem foldl_initializePcb (nodes : Nodes Addr Obj) : (List.finRange maxProc).foldl State.initializePcb nodes =
    ((List.finRange maxProc).flatMap nodesOf).foldl (fun h a => rlnodeInit h a (initialObj a)) nodes := by
  rw [List.foldl_flatMap]
  rfl

theorem initial_inMemory (nodes : Nodes Addr Obj) :
    ∃ h, State.initial nodes = withNodes Proc.State.initial h ∧ InMemory h Proc.State.initial := by
  refine ⟨_, rfl, ?_⟩
  rw [foldl_initializePcb]
  have hmem : ∀ {p a}, a ∈ nodesOf p → a ∈ (List.finRange maxProc).flatMap nodesOf := fun {p a} ha =>
    List.mem_flatMap.2 ⟨p, List.mem_finRange p, ha⟩
  generalize (List.finRange maxProc).flatMap nodesOf = l at *
  obtain ⟨hin, -⟩ := Lists.foldl_init (h := nodes) (f := fun a => a) (v := initialObj) (fun he => congrArg initialObj he) l
  have hlist : ∀ j, listOf Proc.State.initial j = [] := fun j => by cases j <;> rfl
  have hempty : ∀ {j n}, n ∉ listOf Proc.State.initial j := fun {j n} hn => by
    rw [hlist] at hn
    exact absurd hn List.not_mem_nil
  have hnode : ∀ {n}, Live Proc.State.initial n → (.inr n : Addr) ∈ l := by
    intro n hl
    cases n with
    | childrenNode p => exact hmem (p := p) (by simp [nodesOf, childrenNode])
    | exitedNode p => exact hmem (p := p) (by simp [nodesOf, exitedNode])
    | ptcbListNode tid => simp [Live, Proc.State.initial] at hl
  refine ⟨⟨fun j => ?_, fun hl _ => (hin _ (hnode hl)).1, fun hn => absurd hn hempty, fun hn => absurd hn hempty⟩,
    fun n hl => (hin _ (hnode hl)).2⟩
  rw [hlist]
  refine (hin (.inl j) ?_).1
  cases j with
  | childrenList p => exact hmem (p := p) (by simp [nodesOf, childrenList])
  | exitedList p => exact hmem (p := p) (by simp [nodesOf, exitedList])
  | ptcbList p => exact hmem (p := p) (by simp [nodesOf, ptcbList])

theorem boot_refines (nodes : Nodes Addr Obj) (tid : Tid) (initTask : Task) (argl : Int) (args : Args) :
    Refines (State.boot nodes tid initTask argl args) (Proc.State.boot tid initTask argl args) := by
  obtain ⟨h, hr, hm⟩ := initial_inMemory nodes
  obtain ⟨t, -, ht, -, -⟩ := Proc.State.boot_table tid initTask argl args
  have hnone : Proc.State.initial.ptcb tid = none := rfl
  have hidle := (sysExec hm idlePid hnone (fun p _ q => List.not_mem_nil) none 0 none).2
  have htree : (Proc.State.initial.sysExec idlePid tid none 0 none).2.tree = t :=
    congrArg Table.tree (Proc.State.sysExec_table (s := Proc.State.initial) ht tid none 0 none)
  have hptcb : (Proc.State.initial.sysExec idlePid tid none 0 none).2.ptcb tid = none := rfl
  have hcons : t.Consistent := Tree.initial_consistent.exec (fun h => absurd h (by decide)) ht
  have hfree : ∀ p, t.pcbFreelist = some p → ∀ q, p ∉ t.childrenList q := fun p hp q =>
    (hcons.unlisted p (.inl (hcons.freelist_head hp none).1) q).1
  obtain ⟨h₁, hr₁, hm₁⟩ := hidle
  have hinit := (sysExec hm₁ idlePid hptcb (htree ▸ hfree) (some initTask) argl args).2
  rw [← hr₁, ← hr] at hinit
  exact hinit

/-! ## Every run -/

/-- `n` steps before the end of a run. -/
structure Represents (fuel n : Nat) (r : State) (s : Proc.State) : Prop where
  refines : Refines r s
  intact : s.Intact
  bound : s.threads.length + n < fuel

theorem boot_represents (nodes : Nodes Addr Obj) (tid : Tid) (initTask : Task) (argl : Int) (args : Args)
    (hf : maxProc + n < fuel) : Represents fuel n (State.boot nodes tid initTask argl args)
      (Proc.State.boot tid initTask argl args) := by
  refine ⟨boot_refines nodes tid initTask argl args, .boot tid initTask argl args, ?_⟩
  have hlen : (Proc.State.boot tid initTask argl args).threads.length = 1 := rfl
  have hpos := maxProc_pos
  omega

theorem mem_awaited : child ∈ r.awaited i ↔
    ∃ th, r.threads[i]? = some th ∧ th.place = .waiting (.specificChild child) true := by
  unfold State.awaited
  constructor
  · intro hc
    split at hc
    · rename_i hth
      cases hc
      exact ⟨_, hth, rfl⟩
    · cases hc
  · rintro ⟨⟨cur, own, place, ret, out⟩, hth, hp⟩
    obtain rfl : place = .waiting (.specificChild child) true := hp
    rw [hth]
    rfl

theorem finds_iff {a : Proc.Action} : (withNodes s h).Finds (.sys a) ↔ s.FindsChild a := by
  cases a with
  | call i c => exact Iff.rfl
  | resume i =>
    constructor
    · intro hf th child hth hp
      exact hf child (mem_awaited.2 ⟨th, hth, hp⟩)
    · intro hf child hc
      obtain ⟨th, hth, hp⟩ := mem_awaited.1 hc
      exact hf th child hth hp

/-- A step on the lists that finds the child. -/
theorem lists_step (hi : s.Intact) {a : Action} (ha : (withNodes s h).Finds a) (hs : lists.step s a = some s') :
    s'.Intact ∧ s'.threads.length ≤ s.threads.length + 1 := by
  cases a with
  | sys a =>
    refine ⟨hi.step (finds_iff.1 ha) hs, ?_⟩
    have hlen := (Proc.State.step_effect hi.links hs).links.length_le_succ
    simpa only [State.links, List.length_map] using hlen
  | overwrite tid obj prev next =>
    obtain ⟨-, rfl⟩ : (s.ptcb tid).isNone ∧ s = s' := by simpa [lists] using hs
    exact ⟨hi, Nat.le_succ _⟩

namespace Represents

/-- The same steps are possible in memory as on the lists. -/
theorem step (hrep : Represents fuel (n + 1) r s) (hf : maxProc < fuel) {a : Action} (ha : r.Finds a) :
    Option.Rel (Represents fuel n) (r.step fuel a) (lists.step s a) := by
  obtain ⟨⟨h, rfl, hm⟩, hi, hb⟩ := hrep
  have hagree := step_agrees hm hi hf (by omega) a
  cases hs : lists.step s a with
  | none =>
    rw [hs] at hagree
    rw [hagree.eq_none]
    exact .none
  | some s' =>
    rw [hs] at hagree
    obtain ⟨h', hr, hm'⟩ := hagree.eq_some
    obtain ⟨hi', hlen⟩ := lists_step hi ha hs
    rw [hr]
    exact .some ⟨hm'.refines, hi', by omega⟩

theorem run {nodes : Nodes Addr Obj} {as : List Action} (hrep : Represents fuel as.length r s) (hf : maxProc < fuel)
    (hok : (system fuel nodes).AllSteps State.Finds r as) :
    Option.Rel (Represents fuel 0) ((system fuel nodes).run r as) (lists.run s as) := by
  induction as generalizing r s with
  | nil => exact .some hrep
  | cons a as ih =>
    have hstep : Option.Rel (Represents fuel as.length) ((system fuel nodes).step r a) (lists.step s a) :=
      hrep.step hf hok.1
    have hnext := hok.2
    rw [Lts.run, Lts.run]
    generalize (system fuel nodes).step r a = x at hstep hnext ⊢
    generalize lists.step s a = y at hstep ⊢
    cases hstep with
    | none => exact .none
    | some hr => exact ih hr (hnext _ rfl)

end Represents

/-- **The rings are the lists.** The same runs are possible in memory as on the lists, and lead to the same states. -/
theorem process_runs_agree (nodes : Nodes Addr Obj) (tid : Tid) (initTask : Task) (argl : Int) (args : Args)
    {as : List Action} (hf : maxProc + as.length < fuel)
    (hok : (system fuel nodes).AllSteps State.Finds (State.boot nodes tid initTask argl args) as) :
    Option.Rel Refines ((system fuel nodes).run (State.boot nodes tid initTask argl args) as)
      (lists.run (Proc.State.boot tid initTask argl args) as) := by
  have hrel := (boot_represents nodes tid initTask argl args hf).run (Nat.lt_of_le_of_lt (Nat.le_add_right ..) hf) hok
  generalize (system fuel nodes).run (State.boot nodes tid initTask argl args) as = x at hrel ⊢
  generalize lists.run (Proc.State.boot tid initTask argl args) as = y at hrel ⊢
  cases hrel with
  | some hr => exact .some hr.refines
  | none => exact .none

/-- Memory in which every link is to the `children_list` of the idle process. -/
def junk : Nodes Addr Obj := ⟨fun _ => .null, fun _ => childrenList idlePid, fun _ => childrenList idlePid⟩

/-- Init starts a process that starts another one; the younger one exits, then the older one. Memory that is free is
written to at first. -/
def orphanedZombie : List Action :=
  [.overwrite 3 .null (childrenList idlePid) (childrenList idlePid), .sys (.call 0 (.exec 2 (some 0) 0 none)),
    .sys (.call 1 (.exec 3 (some 0) 0 none)), .sys (.call 2 (.exit 7)), .sys (.call 1 (.exit 0))]

theorem finds_of_mem_orphanedZombie : ∀ a ∈ orphanedZombie, ∀ r : State, r.Finds a := by
  simp [orphanedZombie, State.Finds]

theorem process_runs_agree_orphan :
    ∃ r, (system (maxProc + 6) junk).run (State.boot junk 1 0 0 none) orphanedZombie = some r ∧
      r.nodes.Ring [childrenList initPid, childrenNode ⟨3, by decide⟩, childrenNode ⟨2, by decide⟩] ∧
      r.nodes.Ring [exitedList initPid, exitedNode ⟨2, by decide⟩, exitedNode ⟨3, by decide⟩] := by
  have hrel := process_runs_agree junk 1 0 0 none (show maxProc + orphanedZombie.length < maxProc + 6 by decide)
    (Lts.allSteps_of_forall_mem finds_of_mem_orphanedZombie _)
  have hrun : (lists.run (Proc.State.boot 1 0 0 none) orphanedZombie).map
      (fun s => (s.tree.childrenList initPid, s.tree.exitedList initPid)) =
        some ([⟨3, by decide⟩, ⟨2, by decide⟩], [⟨2, by decide⟩, ⟨3, by decide⟩]) := by decide +kernel
  obtain ⟨s, hs, hlists⟩ := Option.map_eq_some_iff.1 hrun
  obtain ⟨hchildren, hexited⟩ := Prod.mk.inj hlists
  rw [hs] at hrel
  generalize (system (maxProc + 6) junk).run (State.boot junk 1 0 0 none) orphanedZombie = x at hrel ⊢
  cases hrel with
  | some hr =>
    obtain ⟨h, rfl, hm⟩ := hr
    have hchildrenRing := hm.rings.ring (.childrenList initPid)
    have hexitedRing := hm.rings.ring (.exitedList initPid)
    rw [listOf, hchildren] at hchildrenRing
    rw [listOf, hexited] at hexitedRing
    exact ⟨_, rfl, hchildrenRing, hexitedRing⟩

/-! ## What the rings hold -/

namespace State

/-- `p` should be in the `children_list` of `q`. -/
def ChildOf (r : State) (p q : Pid) : Prop := (r.pt p).pstate ≠ .free ∧ (r.pt p).parent = some q

/-- `p` should be in the `exited_list` of `q`. -/
def ExitedOf (r : State) (p q : Pid) : Prop := (r.pt p).pstate = .zombie ∧ (r.pt p).parent = some q

/-- The PTCB `tid` was made for a thread of `q`. -/
def MadeFor (r : State) (tid : Tid) (q : Pid) : Prop := ∃ th ∈ r.threads, th.ownerPcb = q ∧ th.ownerPtcb = tid

/-- And the thread has not exited. -/
def ThreadOf (r : State) (tid : Tid) (q : Pid) : Prop :=
  ∃ th ∈ r.threads, th.place ≠ .exited ∧ th.ownerPcb = q ∧ th.ownerPtcb = tid

/-- The links from `&q->PTCB_List` lead through the nodes of `l`. -/
def PtcbList (r : State) (q : Pid) (l : List Tid) : Prop :=
  r.nodes.Ring (listRing (.ptcbList q) (l.map .ptcbListNode))

end State

structure TablesConsistent (r : State) : Prop where
  /-- From `&q->children_list`, the links lead through the nodes of the processes whose parent is `q`. -/
  children : ∀ q, ∃ l : List Pid, r.nodes.Ring (listRing (.childrenList q) (l.map .childrenNode)) ∧
    ∀ p, p ∈ l ↔ r.ChildOf p q
  /-- From `&q->exited_list`, through those of the zombies among them. -/
  exited : ∀ q, ∃ l : List Pid, r.nodes.Ring (listRing (.exitedList q) (l.map .exitedNode)) ∧
    ∀ p, p ∈ l ↔ r.ExitedOf p q
  /-- All other nodes of PCBs are alone. -/
  alone : ∀ p, ((∀ q, ¬r.ChildOf p q) → r.nodes.Ring [childrenNode p]) ∧
    ((∀ q, ¬r.ExitedOf p q) → r.nodes.Ring [exitedNode p])
  /-- The nodes in `PTCB_List` are those of PTCBs that are allocated and were made for threads of the process; the ones
  of its threads that have not exited are among them. -/
  threads : ∀ q, ∃ l, r.PtcbList q l ∧ (∀ tid ∈ l, (r.ptcb tid).isSome ∧ r.MadeFor tid q) ∧
    ∀ tid, r.ThreadOf tid q → tid ∈ l
  /-- Every PTCB that is allocated is in the list of one process. -/
  ptcbs : ∀ tid, (r.ptcb tid).isSome → ∃ q l, r.PtcbList q l ∧ tid ∈ l ∧ ∀ q' l', r.PtcbList q' l' → tid ∈ l' → q' = q
  keys : ∀ p, r.nodes.obj (childrenNode p) = .pcb p ∧ r.nodes.obj (exitedNode p) = .pcb p
  ptcbKeys : ∀ tid, (r.ptcb tid).isSome → r.nodes.obj (ptcbListNode tid) = .ptcb tid
  /-- A process has a parent that is alive, but for the first two; the parents lead to one of these. -/
  parents : ∀ p q, r.ChildOf p q → (r.pt q).pstate = .alive
  roots : ∀ p, (r.pt p).pstate ≠ .free →
    Ends (fun p => (r.pt p).parent) (fun p => p.val ≤ 1 ∧ (r.pt p).parent = none) p
  /-- From `pcb_freelist`, the `parent`s lead through the PCBs that are FREE. -/
  freelist : ∃ l, Chain (fun p => (r.pt p).parent) r.pcbFreelist l ∧ l.Nodup ∧ ∀ p, p ∈ l ↔ (r.pt p).pstate = .free
  count : r.processCount = countArgs (fun p => (r.pt p).pstate) (· ≠ .free)

theorem Represents.consistent (hrep : Represents fuel n r s) : TablesConsistent r := by
  obtain ⟨⟨h, rfl, hm⟩, hi, -⟩ := hrep
  have hcons : s.tree.Consistent := hi.table.consistent
  have hcomp : s.tree.Complete := hi.table.complete
  constructor
  case children => exact fun q => ⟨_, hm.rings.ring (.childrenList q), fun p => hcons.mem_children⟩
  case exited => exact fun q => ⟨_, hm.rings.ring (.exitedList q), fun p => hcons.mem_exited⟩
  case alone =>
    refine fun p => ⟨fun hp => ?_, fun hp => ?_⟩
    · refine hm.rings.alone (x := .childrenNode p) trivial fun j hj => ?_
      cases j with
      | childrenList q =>
        obtain ⟨p', hp', he⟩ := List.mem_map.1 hj
        obtain rfl := childrenNode_injective he
        exact hp q (hcons.mem_children.1 hp')
      | exitedList q | ptcbList q => simp [listOf] at hj
    · refine hm.rings.alone (x := .exitedNode p) trivial fun j hj => ?_
      cases j with
      | exitedList q =>
        obtain ⟨p', hp', he⟩ := List.mem_map.1 hj
        obtain rfl := exitedNode_injective he
        exact hp q (hcons.mem_exited.1 hp')
      | childrenList q | ptcbList q => simp [listOf] at hj
  case threads =>
    refine fun q => ⟨_, hm.rings.ring (.ptcbList q), fun tid ht => ⟨hi.links.listed q tid ht, ?_⟩, fun tid ht => ?_⟩
    · obtain ⟨k, hk, rfl, rfl⟩ := hi.held.started q tid ht
      obtain ⟨th, hth, rfl⟩ := List.mem_map.1 hk
      exact ⟨th, hth, rfl, rfl⟩
    obtain ⟨th, hth, hp, rfl, rfl⟩ := ht
    obtain ⟨i, hith⟩ : ∃ i : ThreadId, s.threads[i]? = some th := List.getElem?_of_mem hth
    have hkey : s.links.keys[i]? = some th.key := by simp [Proc.State.links, hith]
    exact (hi.links.own i th.key hkey (by simpa [Thread.key] using hp)).1
  case ptcbs =>
    intro tid ht
    obtain ⟨q, hq⟩ := hi.held.listed tid ht
    have hring := hm.rings.ring (.ptcbList q)
    refine ⟨q, _, hring, hq, fun q' l' hl' hmem => ?_⟩
    -- the two rings have a node in common, so the sentinel of one is in the other
    have hnode : ∀ {l : List Tid} {a}, tid ∈ l → ptcbListNode tid ∈ listRing (.ptcbList a) (l.map .ptcbListNode) :=
      fun hl => inr_mem_listRing.2 (List.mem_map_of_mem hl)
    have hsentinel := (hl'.circuit.mem_iff_mem hring.circuit (hnode hmem) (hnode hq)).1 (inl_mem_listRing.2 rfl)
    exact Head.ptcbList.inj (inl_mem_listRing.1 hsentinel)
  case keys => exact fun p => ⟨hm.keys (.childrenNode p) trivial, hm.keys (.exitedNode p) trivial⟩
  case ptcbKeys => exact fun tid ht => hm.keys (.ptcbListNode tid) ht
  case parents => exact fun p q hpq => hcons.parent_alive hpq.1 hpq.2
  case roots => exact hcons.ends
  case freelist => exact hcomp.freelist
  case count => exact hcomp.count

/-- The PCB that is released once more leaves `process_count` too small. -/
theorem not_consistent_of_not_finds (hi : s.Intact) {a : Action} (ha : ¬(withNodes s h).Finds a)
    (hs : (withNodes s h).step fuel a = some r) : ¬TablesConsistent r := by
  intro hcons
  obtain ⟨i, th, child, rfl, hth, hp, hfree⟩ : ∃ i th child, a = .sys (.resume i) ∧ s.threads[i]? = some th ∧
      th.place = .waiting (.specificChild child) true ∧ s.tree.pstate child = .free := by
    cases a with
    | overwrite tid obj prev next => exact absurd trivial ha
    | sys a =>
      cases a with
      | call i c => exact absurd trivial ha
      | resume i =>
        obtain ⟨child, hc, hf⟩ : ∃ child ∈ (withNodes s h).awaited i, s.tree.pstate child = .free := by
          by_contra hno
          exact ha fun child hc hf => hno ⟨child, hc, hf⟩
        obtain ⟨th, hth, hp⟩ := mem_awaited.1 hc
        exact ⟨i, th, child, rfl, hth, hp, hf⟩
  have hreap : (withNodes s h).reap i child = r := by
    obtain ⟨cur, own, place, ret, out⟩ := th
    obtain rfl : place = .waiting (.specificChild child) true := hp
    have hthreads : (withNodes s h).threads[i]? = some _ := hth
    have hstate : ((withNodes s h).pt child).pstate = .free := hfree
    simpa only [State.step, hthreads, State.resume, State.specificLoop, hstate, reduceCtorEq, if_false,
      Option.some.injEq] using hs
  have hcount := hcons.count
  have hpstate : (fun p => (r.pt p).pstate) = s.tree.pstate := by
    funext p
    by_cases hpc : p = child
    · subst hpc
      simp [← hreap, State.reap, State.cleanupZombie, State.releasePcb, State.setPcb, State.ret, hfree]
    · simp [← hreap, State.reap, State.cleanupZombie, State.releasePcb, State.setPcb, State.ret, State.setNodes,
        withNodes, ofPcb, hpc]
  have hless : r.processCount = s.tree.processCount - 1 := by
    rw [← hreap]
    rfl
  have hold : s.tree.processCount = countArgs s.tree.pstate (· ≠ .free) := hi.table.complete.count
  have hidle : s.tree.pstate idlePid = .alive := hi.table.idle.1
  have hpos : 0 < countArgs s.tree.pstate (· ≠ .free) := countArgs_pos.2 ⟨idlePid, by simp [hidle]⟩
  rw [hpstate, hless] at hcount
  omega

/-- **When the tables are in order.** In the runs in which no thread that goes on in `wait_for_specific_child` finds the
PCB of its child released, all along; in the others, not after the first step that does. -/
theorem tables_consistent_iff (nodes : Nodes Addr Obj) (tid : Tid) (initTask : Task) (argl : Int) (args : Args)
    {as : List Action} (hf : maxProc + as.length < fuel)
    (hr : (system fuel nodes).run (State.boot nodes tid initTask argl args) as = some r) :
    (system fuel nodes).AllStates TablesConsistent (State.boot nodes tid initTask argl args) as ↔
      (system fuel nodes).AllSteps State.Finds (State.boot nodes tid initTask argl args) as := by
  have hmax : maxProc < fuel := Nat.lt_of_le_of_lt (Nat.le_add_right ..) hf
  refine Lts.allStates_iff_allSteps_countdown (I := fun n r => ∃ s, Represents fuel n r s) ?_ ?_ ?_
    ⟨_, boot_represents nodes tid initTask argl args hf⟩ hr
  · rintro n r ⟨s, hrep⟩
    exact hrep.consistent
  · rintro n r a r' ⟨s, hrep⟩ ha hs
    have hrel := hrep.step hmax ha
    have hs : r.step fuel a = some r' := hs
    rw [hs] at hrel
    generalize lists.step s a = y at hrel
    cases hrel with
    | some hrep' => exact ⟨_, hrep'⟩
  · rintro n r a r' ⟨s, ⟨⟨h, rfl, -⟩, hi, -⟩⟩ ha hs
    exact not_consistent_of_not_finds hi ha hs

/-- The same run leaves the tables in order. -/
theorem tables_consistent_iff_orphan :
    (system (maxProc + 6) junk).AllStates TablesConsistent (State.boot junk 1 0 0 none) orphanedZombie := by
  have hlen : maxProc + orphanedZombie.length < maxProc + 6 := by decide
  have hmax : maxProc < maxProc + 6 := by decide
  have hok : (system (maxProc + 6) junk).AllSteps State.Finds (State.boot junk 1 0 0 none) orphanedZombie :=
    Lts.allSteps_of_forall_mem finds_of_mem_orphanedZombie _
  have hrel := (boot_represents junk 1 0 0 none hlen).run hmax hok
  have hrun : (lists.run (Proc.State.boot 1 0 0 none) orphanedZombie).isSome = true := by decide +kernel
  obtain ⟨s, hs⟩ := Option.isSome_iff_exists.1 hrun
  cases hr : (system (maxProc + 6) junk).run (State.boot junk 1 0 0 none) orphanedZombie with
  | none =>
    rw [hs, hr] at hrel
    cases hrel
  | some r => exact (tables_consistent_iff junk 1 0 0 none hlen hr).2 hok

end TinyOS.Proc.Rings
