import TinyOS.Proc.Links
import TinyOS.Proc.Rings
import TinyOS.Rlist.Family
import TinyOS.Rlist.Walks

/-!
# The rings of the processes

The lists in the model of processes and threads are the rings in memory. `InMemory h s` says that the sentinels and nodes
of `h` are the lists of `s`, with the nodes of the PTCBs that are allocated; `Agree x y` that a function in memory gives
what the function on lists gives, in memory. There is a lemma for each function that touches a ring.

A node must not be linked when it is pushed: `sys_Exec` has to take a PCB that is nobody's child, and a process that exits
must not be in an `exited_list` already.
-/

namespace TinyOS.Proc.Rings

open Rlist Streams
open Function (update)

/-! ## States in memory -/

def Node.obj : Node → Obj
  | .childrenNode p | .exitedNode p => .pcb p
  | .ptcbListNode tid => .ptcb tid

/-- The node is in a PCB or in a PTCB that is allocated. -/
def Live (s : Proc.State) : Node → Prop
  | .ptcbListNode tid => (s.ptcb tid).isSome
  | _ => True

/-- The lists of the sentinels. -/
def listOf (s : Proc.State) : Head → List Node
  | .childrenList p => (s.tree.childrenList p).map .childrenNode
  | .exitedList p => (s.tree.exitedList p).map .exitedNode
  | .ptcbList p => (s.pcb p).ptcbList.map .ptcbListNode

/-- The nodes of `h` are the lists of `s`. -/
structure InMemory (h : Nodes Addr Obj) (s : Proc.State) : Prop where
  rings : Lists h (Live s) (listOf s)
  keys : ∀ n, Live s n → h.obj (.inr n) = n.obj

/-- A PCB in memory. -/
def ofPcb (st : PidState) (parent : Option Pid) (x : Proc.Pcb) : Pcb :=
  ⟨st, parent, x.exitval, x.mainThread, x.mainTask, x.argl, x.args, x.fidt, x.threadCounter⟩

/-- The state in memory with the nodes `h`, without the history. -/
def withNodes (s : Proc.State) (h : Nodes Addr Obj) : State where
  pt p := ofPcb (s.tree.pstate p) (s.tree.parent p) (s.pcb p)
  processCount := s.tree.processCount
  pcbFreelist := s.tree.pcbFreelist
  nodes := h
  ptcb := s.ptcb
  threads := s.threads
  files := s.files

/-- What the state in memory is for. -/
def Refines (r : State) (s : Proc.State) : Prop := ∃ h, r = withNodes s h ∧ InMemory h s

def Agree (x : Option State) (y : Option Proc.State) : Prop := Option.Rel Refines x y

variable {h : Nodes Addr Obj} {r : State} {s s' : Proc.State} {p q cur child : Pid} {i : ThreadId} {own tid : Tid}
  {t : Tree} {x : Option State} {y : Option Proc.State} {fuel n : Nat}

theorem InMemory.refines (hm : InMemory h s) : Refines (withNodes s h) s := ⟨h, rfl, hm⟩

theorem InMemory.agree (hm : InMemory h s) : Agree (some (withNodes s h)) (some s) := .some hm.refines

theorem Agree.eq_none (hx : Agree x none) : x = none := by
  cases hx
  rfl

theorem Agree.eq_some (hx : Agree x (some s)) : ∃ h, x = some (withNodes s h) ∧ InMemory h s := by
  cases hx with
  | some hr =>
    obtain ⟨h, rfl, hm⟩ := hr
    exact ⟨h, rfl, hm⟩

theorem Agree.map {f : State → State} {g : Proc.State → Proc.State} (hx : Agree x y)
    (hf : ∀ {h s}, InMemory h s → Refines (f (withNodes s h)) (g s)) : Agree (x.map f) (y.map g) := by
  cases hx with
  | none => exact .none
  | some hr =>
    obtain ⟨h, rfl, hm⟩ := hr
    exact .some (hf hm)

/-! ## Changes outside the rings -/

namespace InMemory

/-- What is in memory depends on the lists only. -/
theorem congr (hm : InMemory h s) (hl : listOf s' = listOf s) (hlive : Live s' = Live s) : InMemory h s' := by
  refine ⟨?_, ?_⟩
  · rw [hl, hlive]
    exact hm.rings
  · rw [hlive]
    exact hm.keys

theorem threads (hm : InMemory h s) (l : List Thread) : InMemory h { s with threads := l } := ⟨hm.rings, hm.keys⟩

theorem setPcb (hm : InMemory h s) {x : Proc.Pcb} (hx : x.ptcbList = (s.pcb p).ptcbList) : InMemory h (s.setPcb p x) := by
  refine hm.congr (funext fun i => ?_) rfl
  cases i with
  | ptcbList q =>
    by_cases hq : q = p
    · subst hq
      simp [listOf, Proc.State.setPcb, hx]
    · simp [listOf, Proc.State.setPcb, hq]
  | _ => rfl

/-- A PTCB that is allocated changes. -/
theorem setPtcb (hm : InMemory h s) (hx : (s.ptcb tid).isSome) (z : Ptcb) : InMemory h (s.setPtcb tid (some z)) := by
  refine hm.congr rfl (funext fun n => ?_)
  cases n with
  | ptcbListNode a =>
    by_cases ha : a = tid
    · subst ha
      simp [Live, Proc.State.setPtcb, hx]
    · simp [Live, Proc.State.setPtcb, ha]
  | _ => rfl

theorem setTree (hm : InMemory h s) (hc : t.childrenList = s.tree.childrenList) (he : t.exitedList = s.tree.exitedList) :
    InMemory h { s with tree := t } := by
  refine hm.congr (funext fun i => ?_) rfl
  cases i with
  | childrenList q => exact congrArg (fun l => (l q).map Node.childrenNode) hc
  | exitedList q => exact congrArg (fun l => (l q).map Node.exitedNode) he
  | ptcbList q => rfl

theorem setView (hm : InMemory h s) (v : View) : InMemory h (s.setView p v) :=
  ⟨(hm.setPcb (p := p) (x := { s.pcb p with fidt := v.fidt }) rfl).rings, hm.keys⟩

end InMemory

theorem withNodes_pt {st : PidState} {q : Option Pid} {z : Pcb} {x : Proc.Pcb} (hz : z = ofPcb st q x) :
    (withNodes s h).setPcb p z = withNodes
      { s.setPcb p x with
        tree := { s.tree with pstate := update s.tree.pstate p st, parent := update s.tree.parent p q } } h := by
  rw [hz]
  unfold State.setPcb withNodes
  congr 1
  funext a
  by_cases ha : a = p
  · subst ha
    simp [Proc.State.setPcb]
  · simp [Proc.State.setPcb, ha]

/-- A change of the PCB that leaves `pstate` and `parent`. -/
theorem withNodes_setPcb {z : Pcb} {x : Proc.Pcb} (hz : z = ofPcb (s.tree.pstate p) (s.tree.parent p) x) :
    (withNodes s h).setPcb p z = withNodes (s.setPcb p x) h := by
  rw [withNodes_pt hz, Function.update_eq_self, Function.update_eq_self]
  rfl

/-- In memory, the list is not in the PCB. -/
theorem withNodes_ptcbList (l : List Tid) : withNodes (s.setPcb p { s.pcb p with ptcbList := l }) h = withNodes s h := by
  have he : (withNodes s h).setPcb p ((withNodes s h).pt p) = withNodes s h := by
    rw [State.setPcb, Function.update_eq_self]
  exact (withNodes_setPcb rfl).symm.trans he

theorem setPcb_self (s : Proc.State) (p : Pid) : s.setPcb p (s.pcb p) = s := by
  rw [Proc.State.setPcb, Function.update_eq_self]

/-- A change of `pstate` and `parent`. -/
theorem withNodes_setTree (st : PidState) (q : Option Pid) : (withNodes s h).setPcb p
      { (withNodes s h).pt p with pstate := st, parent := q } =
    withNodes
      { s with tree := { s.tree with pstate := update s.tree.pstate p st, parent := update s.tree.parent p q } } h := by
  refine (withNodes_pt (x := s.pcb p) rfl).trans ?_
  rw [setPcb_self]

theorem withNodes_setParent (q : Option Pid) : (withNodes s h).setPcb p { (withNodes s h).pt p with parent := q } =
    withNodes { s with tree := s.tree.setParent p q } h := by
  refine (withNodes_setTree (s.tree.pstate p) q).trans ?_
  rw [Function.update_eq_self]
  rfl

theorem withNodes_setView (v : View) : (withNodes s h).setView p v = withNodes (s.setView p v) h := by
  unfold State.setView Proc.State.setView
  have he : (withNodes s h).setPcb p { (withNodes s h).pt p with fidt := v.fidt } =
      withNodes (s.setPcb p { s.pcb p with fidt := v.fidt }) h := withNodes_setPcb rfl
  exact congrArg (fun r : State => { r with files := v.files }) he

/-! ## The rings -/

theorem childrenNode_mem {j : Head} : .childrenNode p ∈ listOf s j ↔ ∃ q, j = .childrenList q ∧ p ∈ s.tree.childrenList q := by
  cases j <;> simp [listOf]

theorem exitedNode_mem {j : Head} : .exitedNode p ∈ listOf s j ↔ ∃ q, j = .exitedList q ∧ p ∈ s.tree.exitedList q := by
  cases j <;> simp [listOf]

theorem ptcbListNode_mem {j : Head} :
    .ptcbListNode tid ∈ listOf s j ↔ ∃ q, j = .ptcbList q ∧ tid ∈ (s.pcb q).ptcbList := by
  cases j <;> simp [listOf]

/-- One list of children changes. -/
theorem listOf_children {l : List Pid} (hc : t.childrenList = update s.tree.childrenList q l)
    (he : t.exitedList = s.tree.exitedList) :
    listOf { s with tree := t } = update (listOf s) (.childrenList q) (l.map .childrenNode) := by
  funext j
  cases j with
  | childrenList a =>
    by_cases ha : a = q
    · subst ha
      simp [listOf, hc]
    · simp [listOf, hc, ha]
  | exitedList a => simp [listOf, he]
  | ptcbList a => simp [listOf]

theorem listOf_exited {l : List Pid} (hc : t.childrenList = s.tree.childrenList)
    (he : t.exitedList = update s.tree.exitedList q l) :
    listOf { s with tree := t } = update (listOf s) (.exitedList q) (l.map .exitedNode) := by
  funext j
  cases j with
  | childrenList a => simp [listOf, hc]
  | exitedList a =>
    by_cases ha : a = q
    · subst ha
      simp [listOf, he]
    · simp [listOf, he, ha]
  | ptcbList a => simp [listOf]

namespace InMemory

theorem isRlistEmpty_children (hm : InMemory h s) : isRlistEmpty h (childrenList p) = decide (s.tree.childrenList p = []) := by
  rw [Bool.eq_iff_iff, childrenList, hm.rings.isRlistEmpty_iff, decide_eq_true_eq, listOf, List.map_eq_nil_iff]

theorem isRlistEmpty_exited (hm : InMemory h s) : isRlistEmpty h (exitedList p) = decide (s.tree.exitedList p = []) := by
  rw [Bool.eq_iff_iff, exitedList, hm.rings.isRlistEmpty_iff, decide_eq_true_eq, listOf, List.map_eq_nil_iff]

theorem pushChild (hm : InMemory h s) (hn : ∀ a, p ∉ s.tree.childrenList a) :
    InMemory (rlistPushFront h (childrenList q) (childrenNode p)) { s with tree := s.tree.pushChild q p } := by
  have hout : ∀ j, Node.childrenNode p ∉ listOf s j := fun j hmem => by
    obtain ⟨a, -, ha⟩ := childrenNode_mem.1 hmem
    exact hn a ha
  have hlive : Live s (.childrenNode p) := trivial
  refine ⟨?_, hm.keys⟩
  rw [listOf_children (t := s.tree.pushChild q p) rfl rfl]
  exact hm.rings.pushFront hlive hout (.childrenList q)

theorem pushExited (hm : InMemory h s) (hn : ∀ a, p ∉ s.tree.exitedList a) :
    InMemory (rlistPushFront h (exitedList q) (exitedNode p)) { s with tree := s.tree.pushExited q p } := by
  have hout : ∀ j, Node.exitedNode p ∉ listOf s j := fun j hmem => by
    obtain ⟨a, -, ha⟩ := exitedNode_mem.1 hmem
    exact hn a ha
  have hlive : Live s (.exitedNode p) := trivial
  refine ⟨?_, hm.keys⟩
  rw [listOf_exited (t := s.tree.pushExited q p) rfl rfl]
  exact hm.rings.pushFront hlive hout (.exitedList q)

end InMemory

/-! ## `sys_Exec` -/

theorem acquirePcb_eq : (withNodes s h).acquirePcb =
    s.tree.acquirePcb.map fun x => (x.1, withNodes { s with tree := x.2 } h) := by
  unfold State.acquirePcb Tree.acquirePcb
  have hf : (withNodes s h).pcbFreelist = s.tree.pcbFreelist := rfl
  rw [hf]
  cases s.tree.pcbFreelist with
  | none => rfl
  | some p =>
    have he := withNodes_setTree (s := s) (h := h) (p := p) .alive (s.tree.parent p)
    rw [Function.update_eq_self] at he
    simp only [Option.map_some, Option.some.injEq, Prod.mk.injEq, true_and]
    exact congrArg (fun r : State =>
      { r with pcbFreelist := s.tree.parent p, processCount := s.tree.processCount + 1 }) he

theorem inheritFrom (hm : InMemory h s) (cur : Pid) (hn : ∀ a, p ∉ s.tree.childrenList a) :
    ∃ h', (withNodes s h).inheritFrom cur p =
      withNodes (State.inheritFidt { s with tree := (s.tree.setParent p (some cur)).pushChild cur p } cur p) h' ∧
    InMemory h' (State.inheritFidt { s with tree := (s.tree.setParent p (some cur)).pushChild cur p } cur p) := by
  have hm₁ : InMemory h { s with tree := s.tree.setParent p (some cur) } := hm.setTree rfl rfl
  have hm₂ := hm₁.pushChild (p := p) (q := cur) hn
  refine ⟨rlistPushFront h (childrenList cur) (childrenNode p), ?_, hm₂.setView _⟩
  unfold State.inheritFrom
  rw [withNodes_setParent]
  exact withNodes_setView _

/-- The node of a new PTCB enters the list of its process. -/
theorem startThread (hm : InMemory h s) (hfree : s.ptcb tid = none) (p : Pid) (task : Task) (argl : Int) (args : Args) :
    Refines ((withNodes s h).startThread p tid task argl args) (s.startThread p tid task argl args) := by
  have hdead : ¬Live s (.ptcbListNode tid) := by simp [Live, hfree]
  have hlive : ∀ m, Live (s.startThread p tid task argl args) m ↔ m = .ptcbListNode tid ∨ Live s m := by
    intro m
    cases m with
    | ptcbListNode a =>
      by_cases ha : a = tid
      · subst ha
        simp [Live, Proc.State.startThread, Proc.State.setPtcb]
      · simp [Live, Proc.State.startThread, Proc.State.setPtcb, Proc.State.setPcb, ha]
    | _ => simp [Live]
  have hlist : listOf (s.startThread p tid task argl args) =
      update (listOf s) (.ptcbList p) (listOf s (.ptcbList p) ++ [.ptcbListNode tid]) := by
    funext j
    cases j with
    | ptcbList a =>
      by_cases ha : a = p
      · subst ha
        simp [listOf, Proc.State.startThread, Proc.State.setPtcb, Proc.State.setPcb]
      · simp [listOf, Proc.State.startThread, Proc.State.setPtcb, Proc.State.setPcb, ha]
    | _ => simp [listOf, Proc.State.startThread, Proc.State.setPtcb, Proc.State.setPcb]
  have hinit := hm.rings.init hdead (v := .ptcb tid) hlive
  have hin := hinit.pushBack ((hlive _).2 (.inl rfl)) (fun j hmem => hdead (hm.rings.live hmem)) (.ptcbList p)
  rw [← hlist] at hin
  refine ⟨_, ?_, hin, fun m hl => ?_⟩
  · have he : (withNodes s h).setPcb p { (withNodes s h).pt p with threadCounter := (s.pcb p).threadCounter + 1 } =
        withNodes (s.setPcb p { s.pcb p with
          threadCounter := (s.pcb p).threadCounter + 1, ptcbList := (s.pcb p).ptcbList ++ [tid] }) h :=
      withNodes_setPcb rfl
    unfold State.startThread
    rw [show ((withNodes s h).pt p).threadCounter = (s.pcb p).threadCounter from rfl, he]
    rfl
  · rcases (hlive m).1 hl with rfl | hl
    · exact rlnodeInit_obj
    · have hne : Sum.inr m ≠ ptcbListNode tid := fun he => hdead (Sum.inr.inj he ▸ hl)
      exact (rlnodeInit_frame hne).2.2.trans (hm.keys m hl)

theorem startMain (hm : InMemory h s) (hfree : s.ptcb tid = none) (p : Pid) (task : Task) (argl : Int) (args : Args) :
    Refines ((withNodes s h).startMain p tid task argl args) (s.startMain p tid task argl args) := by
  have he : (withNodes s h).setPcb p { (withNodes s h).pt p with mainThread := some s.threads.length } =
      withNodes (s.setPcb p { s.pcb p with mainThread := some s.threads.length }) h := withNodes_setPcb rfl
  have hm₁ : InMemory h (s.setPcb p { s.pcb p with mainThread := some s.threads.length }) := hm.setPcb rfl
  unfold State.startMain Proc.State.startMain
  rw [show (withNodes s h).threads = s.threads from rfl, he]
  exact startThread hm₁ hfree p task argl args

theorem acquirePcb_lists (hacq : s.tree.acquirePcb = some (p, t)) : s.tree.pcbFreelist = some p ∧
    t.childrenList = s.tree.childrenList ∧ t.exitedList = s.tree.exitedList := by
  unfold Tree.acquirePcb at hacq
  split at hacq
  · cases hacq
  · rename_i a hf
    cases hacq
    exact ⟨hf, rfl, rfl⟩

theorem Refines.setMain (hr : Refines r s) (call : Option Task) (argl : Int) (args : Args) :
    Refines (r.setPcb p { r.pt p with mainTask := call, argl := argl, args := args })
      (s.setPcb p { s.pcb p with mainTask := call, argl := argl, args := args }) := by
  obtain ⟨h, rfl, hm⟩ := hr
  exact ⟨h, withNodes_setPcb rfl, hm.setPcb rfl⟩

/-- The PCB of a new process, which is nobody's child yet. -/
theorem setupProcess (hm : InMemory h s) (cur : Pid) (hacq : s.tree.acquirePcb = some (p, t))
    (hn : ∀ a, p ∉ s.tree.childrenList a) (call : Option Task) (argl : Int) (args : Args) :
    Refines ((withNodes { s with tree := t } h).setupProcess cur p call argl args)
      (s.setupProcess cur p (if p.val ≤ 1 then t.setParent p none else (t.setParent p (some cur)).pushChild cur p) call
        argl args) := by
  obtain ⟨-, hch, hex⟩ := acquirePcb_lists hacq
  have hm₁ : InMemory h { s with tree := t, serial := update s.serial p (s.serial p + 1) } :=
    (hm.setTree hch hex).congr rfl rfl
  unfold State.setupProcess Proc.State.setupProcess
  refine Refines.setMain ?_ call argl args
  by_cases hp : p.val ≤ 1
  · simp only [if_pos hp]
    have hm₂ : InMemory h { s with tree := t.setParent p none } := hm.setTree hch hex
    exact ⟨h, withNodes_setParent none, hm₂.congr rfl rfl⟩
  · simp only [if_neg hp]
    have hout : ∀ a, p ∉ t.childrenList a := by rwa [hch]
    exact inheritFrom hm₁ cur hout

theorem exec_acquired (hacq : s.tree.acquirePcb = some (p, t)) : s.tree.exec cur =
    some (p, if p.val ≤ 1 then t.setParent p none else (t.setParent p (some cur)).pushChild cur p) := by
  unfold Tree.exec
  rw [hacq]
  by_cases hp : p.val ≤ 1
  · simp only [if_pos hp]
  · simp only [if_neg hp]

/-- `sys_Exec` takes a PCB that is nobody's child. -/
theorem sysExec (hm : InMemory h s) (cur : Pid) (hfree : s.ptcb tid = none)
    (hn : ∀ p, s.tree.pcbFreelist = some p → ∀ a, p ∉ s.tree.childrenList a) (call : Option Task) (argl : Int)
    (args : Args) : ((withNodes s h).sysExec cur tid call argl args).1 = (s.sysExec cur tid call argl args).1 ∧
      Refines ((withNodes s h).sysExec cur tid call argl args).2 (s.sysExec cur tid call argl args).2 := by
  unfold State.sysExec Proc.State.sysExec
  rw [acquirePcb_eq]
  cases hacq : s.tree.acquirePcb with
  | none =>
    have hexec : s.tree.exec cur = none := by
      unfold Tree.exec
      rw [hacq]
    rw [hexec]
    exact ⟨rfl, h, rfl, hm⟩
  | some x =>
    obtain ⟨p, t⟩ := x
    rw [exec_acquired hacq]
    obtain ⟨h', hr, hm'⟩ := setupProcess hm cur hacq (hn p (acquirePcb_lists hacq).1) call argl args
    have hptcb : ∀ t : Tree, (s.setupProcess cur p t call argl args).ptcb = s.ptcb := fun t =>
      congrArg Links.ptcb (Proc.State.setupProcess_links s cur p t call argl args)
    refine ⟨rfl, ?_⟩
    simp only [Option.map_some, hr]
    cases call with
    | none => exact ⟨h', rfl, hm'⟩
    | some task => exact startMain hm' ((congrFun (hptcb _) tid).trans hfree) p task argl args

/-! ## `cleanup_zombie` and `sys_WaitChild` -/

theorem childrenNode_injective : Function.Injective Node.childrenNode := fun _ _ => Node.childrenNode.inj

theorem exitedNode_injective : Function.Injective Node.exitedNode := fun _ _ => Node.exitedNode.inj

theorem ptcbListNode_injective : Function.Injective Node.ptcbListNode := fun _ _ => Node.ptcbListNode.inj

/-- Both nodes leave their lists. -/
theorem InMemory.unlink (hm : InMemory h s) (p : Pid) {t : Tree}
    (hc : t.childrenList = fun q => (s.tree.childrenList q).erase p)
    (he : t.exitedList = fun q => (s.tree.exitedList q).erase p) :
    InMemory (rlistRemove (rlistRemove h (childrenNode p)).2 (exitedNode p)).2 { s with tree := t } := by
  have hchild : Live s (.childrenNode p) := trivial
  have hexit : Live s (.exitedNode p) := trivial
  have hlist : listOf { s with tree := t } = fun j => ((listOf s j).erase (.childrenNode p)).erase (.exitedNode p) := by
    funext j
    cases j with
    | childrenList q =>
      have hno : ∀ l : List Pid, Node.exitedNode p ∉ l.map Node.childrenNode := fun l => by simp
      simp only [listOf, hc]
      rw [← List.map_erase childrenNode_injective, List.erase_of_not_mem (hno _)]
    | exitedList q =>
      have hno : ∀ l : List Pid, Node.childrenNode p ∉ l.map Node.exitedNode := fun l => by simp
      simp only [listOf, he]
      rw [List.erase_of_not_mem (hno _), ← List.map_erase exitedNode_injective]
    | ptcbList q =>
      have hno : ∀ l : List Tid, Node.childrenNode p ∉ l.map Node.ptcbListNode ∧
        Node.exitedNode p ∉ l.map Node.ptcbListNode := fun l => by simp
      simp only [listOf]
      rw [List.erase_of_not_mem (hno _).1, List.erase_of_not_mem (hno _).2]
  refine ⟨?_, hm.keys⟩
  rw [hlist]
  exact (hm.rings.removeAny hchild).removeAny hexit

theorem cleanupZombie (hm : InMemory h s) (cur p : Pid) : Refines ((withNodes s h).cleanupZombie p) (s.cleanupZombie cur p) := by
  refine ⟨rlistRemove (rlistRemove h (childrenNode p)).2 (exitedNode p) |>.2, ?_, ?_⟩
  · have he := withNodes_setTree (s := s) (h := (rlistRemove (rlistRemove h (childrenNode p)).2 (exitedNode p)).2) (p := p)
      .free s.tree.pcbFreelist
    exact congrArg (fun r : State =>
      { r with pcbFreelist := some p, processCount := s.tree.processCount - 1 }) he
  · exact (hm.unlink p (t := s.tree.cleanupZombie p) rfl rfl).congr rfl rfl

theorem reap (hm : InMemory h s) (i : ThreadId) (cur child : Pid) :
    Refines ((withNodes s h).reap i child) (s.reap i cur child) := by
  obtain ⟨h', hr, hm'⟩ := cleanupZombie hm cur child
  refine ⟨h', ?_, hm'.threads _⟩
  unfold State.reap
  rw [hr]
  rfl

theorem specificLoop (hm : InMemory h s) (i : ThreadId) (cur child : Pid) :
    Refines ((withNodes s h).specificLoop i child) (s.specificLoop i cur child) := by
  unfold State.specificLoop Proc.State.specificLoop
  have hst : ((withNodes s h).pt child).pstate = s.tree.pstate child := rfl
  rw [hst]
  by_cases hal : s.tree.pstate child = .alive
  · rw [if_pos hal, if_pos hal]
    exact ⟨h, rfl, hm.threads _⟩
  · rw [if_neg hal, if_neg hal]
    exact reap hm i cur child

theorem getPcb_eq (cpid : Int) : (State.pidOf cpid).bind (withNodes s h).getPcb = s.getPcb cpid := by
  unfold State.pidOf Proc.State.getPcb
  by_cases hpos : 0 ≤ cpid
  · by_cases hlt : cpid.toNat < maxProc
    · rw [if_pos hpos, dif_pos hlt, dif_pos ⟨hpos, hlt⟩]
      rfl
    · rw [if_pos hpos, dif_neg hlt, dif_neg fun hc => hlt hc.2]
      rfl
  · rw [if_neg hpos, dif_neg fun hc => hpos hc.1]
    rfl

theorem waitForSpecificChild (hm : InMemory h s) (i : ThreadId) (cur : Pid) (cpid : Int) :
    Refines ((withNodes s h).waitForSpecificChild i cur cpid) (s.waitForSpecificChild i cur cpid) := by
  unfold State.waitForSpecificChild Proc.State.waitForSpecificChild
  rw [getPcb_eq]
  cases s.getPcb cpid with
  | none => exact ⟨h, rfl, hm.threads _⟩
  | some child =>
    have hpar : ((withNodes s h).pt child).parent = s.tree.parent child := rfl
    simp only [hpar]
    by_cases hp : s.tree.parent child ≠ some cur
    · rw [if_pos hp, if_pos hp]
      exact ⟨h, rfl, hm.threads _⟩
    · rw [if_neg hp, if_neg hp]
      exact specificLoop hm i cur child

/-- The `pcb` of the first node of `exited_list` is the first exited child. -/
theorem findExited_eq (hm : InMemory h s) (cur : Pid) : (withNodes s h).findExited cur = some (s.findExited cur) := by
  unfold State.findExited Proc.State.findExited
  have hnodes : (withNodes s h).nodes = h := rfl
  rw [hnodes, hm.isRlistEmpty_children, hm.isRlistEmpty_exited]
  cases hc : s.tree.childrenList cur with
  | nil => simp
  | cons c cs =>
    cases he : s.tree.exitedList cur with
    | nil => simp
    | cons e es =>
      have hnext : h.next (exitedList cur) = exitedNode e := by
        have hs := hm.rings.next_sentinel (.exitedList cur)
        rwa [show listOf s (.exitedList cur) = .exitedNode e :: es.map .exitedNode by simp [listOf, he]] at hs
      have hobj : h.obj (exitedNode e) = .pcb e := hm.keys (.exitedNode e) trivial
      simp [hnext, hobj, Obj.toPcb]

theorem waitForAnyChild (hm : InMemory h s) (i : ThreadId) (cur : Pid) :
    Agree ((withNodes s h).waitForAnyChild i cur) (s.waitForAnyChild i cur) := by
  unfold State.waitForAnyChild Proc.State.waitForAnyChild
  rw [findExited_eq hm, Option.bind_some]
  cases s.findExited cur with
  | noChildren => exact .some ⟨h, rfl, hm.threads _⟩
  | wait => exact .some ⟨h, rfl, hm.threads _⟩
  | exited child =>
    have hst : ((withNodes s h).pt child).pstate = s.tree.pstate child := rfl
    simp only [hst]
    by_cases hz : s.tree.pstate child = .zombie
    · rw [if_pos hz, if_pos hz]
      exact .some (reap hm i cur child)
    · rw [if_neg hz, if_neg hz]
      exact .none

theorem sysWaitChild (hm : InMemory h s) (i : ThreadId) (cur : Pid) (cpid : Int) :
    Agree ((withNodes s h).sysWaitChild i cur cpid) (s.sysWaitChild i cur cpid) := by
  unfold State.sysWaitChild Proc.State.sysWaitChild
  by_cases hc : cpid ≠ noproc
  · rw [if_pos hc, if_pos hc]
    exact .some (waitForSpecificChild hm i cur cpid)
  · rw [if_neg hc, if_neg hc]
    exact waitForAnyChild hm i cur

/-! ## `sys_ThreadJoin` and `sys_ThreadDetach` -/

/-- A PTCB leaves the list of its process, and its memory is free. -/
theorem freePtcb (hm : InMemory h s) (hl : tid ∈ (s.pcb cur).ptcbList) :
    Refines ((withNodes s h).freePtcb tid) (s.freePtcb cur tid) := by
  have hmem : Node.ptcbListNode tid ∈ listOf s (.ptcbList cur) := ptcbListNode_mem.2 ⟨cur, rfl, hl⟩
  have hremoved := hm.rings.remove hmem
  have hlist : listOf (s.freePtcb cur tid) =
      update (listOf s) (.ptcbList cur) ((listOf s (.ptcbList cur)).erase (.ptcbListNode tid)) := by
    funext j
    cases j with
    | ptcbList a =>
      by_cases ha : a = cur
      · subst ha
        rw [Function.update_self]
        simp only [listOf, Proc.State.freePtcb, Proc.State.setPtcb, Proc.State.setPcb, Function.update_self]
        exact List.map_erase ptcbListNode_injective _
      · simp [listOf, Proc.State.freePtcb, Proc.State.setPtcb, Proc.State.setPcb, ha]
    | _ => simp [listOf, Proc.State.freePtcb, Proc.State.setPtcb, Proc.State.setPcb]
  have hlive : ∀ m, Live (s.freePtcb cur tid) m ↔ Live s m ∧ m ≠ .ptcbListNode tid := by
    intro m
    cases m with
    | ptcbListNode a =>
      by_cases ha : a = tid
      · subst ha
        simp [Live, Proc.State.freePtcb, Proc.State.setPtcb]
      · simp [Live, Proc.State.freePtcb, Proc.State.setPtcb, Proc.State.setPcb, ha]
    | _ => simp [Live]
  have hgone : ∀ j, Node.ptcbListNode tid ∉
      update (listOf s) (.ptcbList cur) ((listOf s (.ptcbList cur)).erase (.ptcbListNode tid)) j := by
    intro j hj
    by_cases hjc : j = .ptcbList cur
    · subst hjc
      rw [Function.update_self] at hj
      exact (hm.rings.nodup _).not_mem_erase hj
    · rw [Function.update_of_ne hjc] at hj
      exact hjc (hm.rings.one hj hmem)
  refine ⟨(rlistRemove h (ptcbListNode tid)).2, ?_, ?_, fun m hl => hm.keys m ((hlive m).1 hl).1⟩
  · exact congrArg (fun r : State => r.setPtcb tid none) (withNodes_ptcbList ((s.pcb cur).ptcbList.erase tid)).symm
  rw [hlist]
  refine hremoved.congr (fun hl => ((hlive _).1 hl).1) (fun {j m} hj => (hlive m).2 ⟨hremoved.live hj, ?_⟩)
    (fun _ => ⟨rfl, rfl⟩) fun _ _ => ⟨rfl, rfl⟩
  rintro rfl
  exact hgone j hj

theorem joinLoop (hm : InMemory h s) (hl : tid ∈ (s.pcb cur).ptcbList) (i : ThreadId) :
    Agree ((withNodes s h).joinLoop i tid) (s.joinLoop i cur tid) := by
  unfold State.joinLoop Proc.State.joinLoop
  have hptcb : (withNodes s h).ptcb = s.ptcb := rfl
  rw [hptcb]
  cases hx : s.ptcb tid with
  | none => exact .none
  | some x =>
    refine .some ?_
    dsimp only
    have hset : InMemory h (s.setPtcb tid (some { x with refcount := x.refcount - 1 })) := hm.setPtcb (by simp [hx]) _
    split
    · exact ⟨h, rfl, hm.threads _⟩
    · split
      · exact ⟨h, rfl, hset.threads _⟩
      · split
        · obtain ⟨h', hr, hm'⟩ := freePtcb hset hl
          refine ⟨h', ?_, hm'.threads _⟩
          exact congrArg (fun r : State => r.ret i 0 (some x.exitval)) hr
        · exact ⟨h, rfl, hset.threads _⟩

/-- The walk finds the PTCB if it is in the list of the process. -/
theorem rlistFind_ptcb (hm : InMemory h s) (hf : (s.pcb cur).ptcbList.length < fuel) (tid : Tid) :
    ∃ found, rlistFind fuel h (ptcbList cur) (.ofTid tid) none = some found ∧
      (found = none ↔ tid = nothread ∨ tid ∉ (s.pcb cur).ptcbList) := by
  have hr := hm.rings.ring (.ptcbList cur)
  have hlen : ((listOf s (.ptcbList cur)).map (Sum.inr : Node → Addr)).length < fuel := by simpa [listOf] using hf
  refine ⟨_, rlistFind_eq hr hlen, ?_⟩
  have hkey : ∀ a ∈ (s.pcb cur).ptcbList, h.obj (ptcbListNode a) = .ptcb a := fun a ha =>
    hm.keys (.ptcbListNode a) (hm.rings.live (ptcbListNode_mem.2 ⟨cur, rfl, ha⟩))
  rw [Option.or_none, List.find?_eq_none]
  simp only [listOf, List.mem_map, forall_exists_index, and_imp, forall_apply_eq_imp_iff₂, decide_eq_true_eq]
  constructor
  · intro hall
    by_cases htid : tid = nothread
    · exact .inl htid
    · refine .inr fun hmem => hall tid hmem ?_
      rw [Obj.ofTid, if_neg htid]
      exact hkey tid hmem
  · rintro hno a ha he
    have hobj : h.obj (ptcbListNode a) = Obj.ofTid tid := he
    rw [hkey a ha] at hobj
    unfold Obj.ofTid at hobj
    split at hobj
    · cases hobj
    · rename_i htid
      cases hobj
      exact hno.elim htid fun hn => hn ha

theorem sysThreadJoin (hm : InMemory h s) (hf : (s.pcb cur).ptcbList.length < fuel) (i : ThreadId) (own tid : Tid) :
    Agree ((withNodes s h).sysThreadJoin fuel i cur own tid) (s.sysThreadJoin i cur own tid) := by
  obtain ⟨found, hfind, hfound⟩ := rlistFind_ptcb hm hf tid
  have hnodes : (withNodes s h).nodes = h := rfl
  have hptcb : (withNodes s h).ptcb = s.ptcb := rfl
  unfold State.sysThreadJoin Proc.State.sysThreadJoin
  rw [hnodes, hfind, hptcb]
  simp only [Option.bind_eq_bind, Option.bind_some, hfound]
  have hret : Agree (some ((withNodes s h).ret i (-1) none)) (some (s.ret i (-1) none)) := .some ⟨h, rfl, hm.threads _⟩
  by_cases hbad : tid = nothread ∨ tid ∉ (s.pcb cur).ptcbList
  · rw [if_pos (.inl hbad)]
    cases hx : s.ptcb tid with
    | none => exact hret
    | some x =>
      dsimp only
      rw [if_pos (hbad.elim (fun hz => .inr (.inl hz)) .inl)]
      exact hret
  · obtain ⟨hz, hmem⟩ := not_or.1 hbad
    have hmem : tid ∈ (s.pcb cur).ptcbList := not_not.1 hmem
    obtain ⟨x, hx⟩ : ∃ x, s.ptcb tid = some x :=
      Option.isSome_iff_exists.1 (hm.rings.live (ptcbListNode_mem.2 ⟨cur, rfl, hmem⟩))
    rw [if_neg (not_or.2 ⟨hbad, hz⟩), hx]
    simp only [Option.bind_some, hmem, hz, not_true_eq_false, false_or]
    by_cases hd : x.detached = true ∨ own = tid
    · rw [if_pos hd, if_pos hd]
      exact hret
    · rw [if_neg hd, if_neg hd]
      exact joinLoop (s := s.setPtcb tid (some { x with refcount := x.refcount + 1 }))
        (hm.setPtcb (by simp [hx]) _) hmem i

theorem sysThreadDetach (hm : InMemory h s) (hf : (s.pcb cur).ptcbList.length < fuel) (i : ThreadId) (tid : Tid) :
    Agree ((withNodes s h).sysThreadDetach fuel i cur tid) (some (s.sysThreadDetach i cur tid)) := by
  obtain ⟨found, hfind, hfound⟩ := rlistFind_ptcb hm hf tid
  have hnodes : (withNodes s h).nodes = h := rfl
  have hptcb : (withNodes s h).ptcb = s.ptcb := rfl
  unfold State.sysThreadDetach Proc.State.sysThreadDetach
  rw [hnodes, hfind, hptcb]
  simp only [Option.bind_eq_bind, Option.bind_some, hfound]
  have hret : Refines ((withNodes s h).ret i (-1) none) (s.ret i (-1) none) := ⟨h, rfl, hm.threads _⟩
  by_cases hz : tid = nothread
  · rw [if_pos hz]
    refine .some ?_
    cases s.ptcb tid with
    | none => exact hret
    | some x =>
      dsimp only
      rw [if_pos (.inl hz)]
      exact hret
  · rw [if_neg hz]
    by_cases hmem : tid ∈ (s.pcb cur).ptcbList
    · obtain ⟨x, hx⟩ : ∃ x, s.ptcb tid = some x :=
        Option.isSome_iff_exists.1 (hm.rings.live (ptcbListNode_mem.2 ⟨cur, rfl, hmem⟩))
      have hin : ¬(tid = nothread ∨ tid ∉ (s.pcb cur).ptcbList) := by simp [hz, hmem]
      rw [if_neg hin, hx]
      simp only [Option.bind_some, hz, hmem, not_true_eq_false, false_or]
      by_cases he : x.exited = true
      · rw [if_pos he, if_pos he]
        exact .some hret
      · rw [if_neg he, if_neg he]
        have hset : InMemory h (s.setPtcb tid (some { x with detached := true })) := hm.setPtcb (by simp [hx]) _
        exact .some ⟨h, rfl, (hset.threads _).threads _⟩
    · rw [if_pos (.inr hmem)]
      refine .some ?_
      cases s.ptcb tid with
      | none => exact hret
      | some x =>
        dsimp only
        rw [if_pos (.inr (.inl hmem))]
        exact hret

/-! ## The exit of a process -/

/-- A child leaves the list of `p`, and is in no list then. -/
theorem InMemory.popChild (hm : InMemory h s) {c : Pid} {rest : List Pid} (hc : s.tree.childrenList p = c :: rest) :
    (rlistPopFront h (childrenList p)).1 = childrenNode c ∧
      InMemory (rlistPopFront h (childrenList p)).2
        { s with tree := { s.tree with childrenList := update s.tree.childrenList p rest } } ∧
      ∀ a, c ∉ update s.tree.childrenList p rest a := by
  have hl : listOf s (.childrenList p) = .childrenNode c :: rest.map .childrenNode := by simp [listOf, hc]
  obtain ⟨hfirst, hrest, hout⟩ := hm.rings.popFront hl
  have hlist := listOf_children (s := s) (t := { s.tree with childrenList := update s.tree.childrenList p rest })
    (q := p) (l := rest) rfl rfl
  refine ⟨hfirst, ⟨?_, hm.keys⟩, fun a ha => hout (.childrenList a) ?_⟩
  · rw [hlist]
    exact hrest
  · rw [← hlist]
    exact childrenNode_mem.2 ⟨a, rfl, ha⟩

/-- The children of `p` become children of init. -/
theorem reparentLoop_some (hp : p ≠ initPid) : ∀ {n : Nat} {h : Nodes Addr Obj} {s : Proc.State} {fuel : Nat},
    InMemory h s → (s.tree.childrenList p).length = n → n < fuel → ∃ r,
      State.reparentLoop p (some initPid) fuel (withNodes s h) = some r ∧
        Refines r { s with tree := s.tree.reparent p n } := by
  intro n
  induction n with
  | zero =>
    intro h s fuel hm hn hf
    obtain ⟨fuel, rfl⟩ := Nat.exists_eq_succ_of_ne_zero (Nat.ne_zero_of_lt hf)
    have hnil : s.tree.childrenList p = [] := List.eq_nil_of_length_eq_zero hn
    refine ⟨withNodes s h, ?_, h, rfl, hm⟩
    rw [State.reparentLoop, if_pos]
    rw [show (withNodes s h).nodes = h from rfl, hm.isRlistEmpty_children, hnil]
    rfl
  | succ n ih =>
    intro h s fuel hm hn hf
    obtain ⟨fuel, rfl⟩ := Nat.exists_eq_succ_of_ne_zero (Nat.ne_zero_of_lt hf)
    obtain ⟨c, rest, hc⟩ := List.exists_cons_of_length_eq_add_one hn
    obtain ⟨hfirst, hm₁, hout⟩ := hm.popChild hc
    obtain ⟨t₁, ht₁⟩ : ∃ t, t = Tree.setParent { s.tree with childrenList := update s.tree.childrenList p rest } c
      (some initPid) := ⟨_, rfl⟩
    have hm₂ : InMemory (rlistPopFront h (childrenList p)).2 { s with tree := t₁ } :=
      ht₁ ▸ hm₁.setTree (t := Tree.setParent { s.tree with childrenList := update s.tree.childrenList p rest } c
        (some initPid)) rfl rfl
    have hm₃ := hm₂.pushChild (p := c) (q := initPid) (by rw [ht₁]; exact hout)
    have hlen : ((t₁.pushChild initPid c).childrenList p).length = n := by
      rw [hc] at hn
      simpa [ht₁, Tree.pushChild, Tree.setParent, hp] using hn
    obtain ⟨r, hr, hrefines⟩ := ih hm₃ hlen (Nat.lt_of_succ_lt_succ hf)
    refine ⟨r, ?_, ?_⟩
    · have hobj : ((rlistPopFront h (childrenList p)).2.obj (rlistPopFront h (childrenList p)).1).toPcb = some c := by
        rw [hfirst]
        exact congrArg Obj.toPcb (hm.keys (.childrenNode c) trivial)
      have hpar : (withNodes s (rlistPopFront h (childrenList p)).2).setPcb c
          { (withNodes s (rlistPopFront h (childrenList p)).2).pt c with parent := some initPid } =
          withNodes { s with tree := t₁ } (rlistPopFront h (childrenList p)).2 := by
        rw [withNodes_setParent, ht₁]
        rfl
      have hne : ¬isRlistEmpty (withNodes s h).nodes (childrenList p) = true := by
        rw [show (withNodes s h).nodes = h from rfl, hm.isRlistEmpty_children, hc]
        simp
      rw [← hr, State.reparentLoop, if_neg hne]
      show (((rlistPopFront h (childrenList p)).2.obj (rlistPopFront h (childrenList p)).1).toPcb).bind _ = _
      rw [hobj, Option.bind_some]
      refine (congrArg (fun r : State => State.reparentLoop p (some initPid) fuel
        (r.setNodes (rlistPushFront r.nodes (childrenList initPid) (rlistPopFront h (childrenList p)).1))) hpar).trans ?_
      dsimp only
      rw [hfirst]
      rfl
    · rw [Tree.reparent, hc]
      simpa [ht₁] using hrefines

/-- Without init, `p` may have no children. -/
theorem reparentLoop_none (hm : InMemory h s) (hf : 0 < fuel) : State.reparentLoop p none fuel (withNodes s h) =
    if s.tree.childrenList p = [] then some (withNodes s h) else none := by
  obtain ⟨fuel, rfl⟩ := Nat.exists_eq_succ_of_ne_zero (Nat.ne_zero_of_lt hf)
  have hempty : isRlistEmpty (withNodes s h).nodes (childrenList p) = decide (s.tree.childrenList p = []) :=
    hm.isRlistEmpty_children
  rw [State.reparentLoop, hempty]
  by_cases hc : s.tree.childrenList p = []
  · rw [if_pos (by simpa using hc), if_pos hc]
  · rw [if_neg (by simpa using hc), if_neg hc]
    show (((rlistPopFront h (childrenList p)).2.obj (rlistPopFront h (childrenList p)).1).toPcb).bind _ = none
    cases ((rlistPopFront h (childrenList p)).2.obj (rlistPopFront h (childrenList p)).1).toPcb with
    | none => rfl
    | some c => rfl

theorem appendExited_nil (hx : t.exitedList p = []) : t.appendExited p = t := by
  have hself : update (update t.exitedList initPid (t.exitedList initPid ++ t.exitedList p)) p [] = t.exitedList := by
    rw [hx, List.append_nil, Function.update_eq_self, ← hx, Function.update_eq_self]
  show { t with exitedList := _ } = t
  rw [hself]

/-- The exited children of `p` become exited children of init, which hears of them. -/
theorem appendExited (hm : InMemory h s) (hp : p ≠ initPid) : ∃ r,
    (withNodes s h).appendExited p (some initPid) = some r ∧
      Refines r { (if s.tree.exitedList p = [] then s else s.broadcastChildExit initPid) with
        tree := s.tree.appendExited p } := by
  have hempty : isRlistEmpty (withNodes s h).nodes (exitedList p) = decide (s.tree.exitedList p = []) :=
    hm.isRlistEmpty_exited
  unfold State.appendExited
  rw [hempty]
  by_cases hx : s.tree.exitedList p = []
  · rw [if_pos (by simpa using hx), if_pos hx, appendExited_nil hx]
    exact ⟨_, rfl, h, rfl, hm⟩
  · rw [if_neg (by simpa using hx), if_neg hx]
    have hne : Head.exitedList initPid ≠ .exitedList p := by simpa using Ne.symm hp
    have hlists := hm.rings.append hne
    have hlist : listOf { s with tree := s.tree.appendExited p } =
        update (update (listOf s) (.exitedList initPid) (listOf s (.exitedList initPid) ++ listOf s (.exitedList p)))
          (.exitedList p) [] := by
      funext j
      cases j with
      | exitedList a =>
        by_cases ha : a = p
        · subst ha
          simp [listOf, Tree.appendExited]
        · by_cases hi : a = initPid
          · subst hi
            simp [listOf, Tree.appendExited, ha]
          · simp [listOf, Tree.appendExited, ha, hi]
      | _ => simp [listOf, Tree.appendExited]
    rw [← hlist] at hlists
    have hm' : InMemory (rlistAppend h (exitedList initPid) (exitedList p)) { s with tree := s.tree.appendExited p } :=
      ⟨hlists, hm.keys⟩
    exact ⟨_, rfl, _, rfl, hm'.threads _⟩

/-- `p` enters the list of its parent, which hears of it. -/
theorem pushExited (hm : InMemory h s) (hn : ∀ a, p ∉ s.tree.exitedList a) : Agree ((withNodes s h).pushExited p)
    ((s.tree.parent p).map fun q => { s.broadcastChildExit q with tree := s.tree.pushExited q p }) := by
  unfold State.pushExited
  have hpar : ((withNodes s h).pt p).parent = s.tree.parent p := rfl
  rw [hpar]
  cases s.tree.parent p with
  | none => exact .none
  | some q => exact .some ⟨_, rfl, (hm.pushExited (q := q) hn).threads _⟩

/-- The first two loops of the exit. -/
theorem giveAway (hm : InMemory h s) (hp : p ≠ initPid) (hf : (s.tree.childrenList p).length < fuel) :
    Agree ((State.reparentLoop p ((withNodes s h).getPcb initPid) fuel (withNodes s h)).bind fun r =>
        r.appendExited p ((withNodes s h).getPcb initPid))
      (if s.tree.pstate initPid = .free ∧ (s.tree.childrenList p ≠ [] ∨ s.tree.exitedList p ≠ []) then none
      else some { (if s.tree.exitedList p = [] then s else s.broadcastChildExit initPid) with
        tree := (s.tree.reparent p (s.tree.childrenList p).length).appendExited p }) := by
  by_cases hinit : s.tree.pstate initPid = .free
  · have hget : (withNodes s h).getPcb initPid = none := if_pos hinit
    rw [hget, reparentLoop_none hm (Nat.zero_lt_of_lt hf)]
    by_cases hc : s.tree.childrenList p = []
    · have hempty : isRlistEmpty (withNodes s h).nodes (exitedList p) = decide (s.tree.exitedList p = []) :=
        hm.isRlistEmpty_exited
      rw [if_pos hc, Option.bind_some]
      unfold State.appendExited
      rw [hempty]
      by_cases hx : s.tree.exitedList p = []
      · have hsame : (s.tree.reparent p (s.tree.childrenList p).length).appendExited p = s.tree := by
          rw [hc]
          exact appendExited_nil hx
        rw [if_pos (by simpa using hx), if_neg (by simp [hc, hx]), if_pos hx, hsame]
        exact hm.agree
      · rw [if_neg (by simpa using hx), if_pos ⟨hinit, .inr hx⟩]
        exact .none
    · rw [if_neg hc, if_pos ⟨hinit, .inl hc⟩]
      exact .none
  · have hget : (withNodes s h).getPcb initPid = some initPid := if_neg hinit
    obtain ⟨r, hr, h₁, rfl, hm₁⟩ := reparentLoop_some hp hm rfl hf
    obtain ⟨r₂, hr₂, hrefines⟩ := appendExited hm₁ hp
    rw [hget, hr, Option.bind_some, hr₂, if_neg (fun hn => hinit hn.1)]
    refine .some ?_
    have hex : (s.tree.reparent p (s.tree.childrenList p).length).exitedList = s.tree.exitedList := by
      rw [Tree.reparent_eq hp _ _ (Nat.le_refl _)]
    rw [hex] at hrefines
    by_cases hx : s.tree.exitedList p = []
    · rw [if_pos hx] at hrefines ⊢
      exact hrefines
    · rw [if_neg hx] at hrefines ⊢
      exact hrefines

theorem notMem_appendExited (hn : ∀ a, p ∉ t.exitedList a) (q a : Pid) : p ∉ (t.appendExited q).exitedList a := by
  unfold Tree.appendExited
  by_cases ha : a = q
  · subst ha
    simp
  · by_cases hi : a = initPid
    · subst hi
      simp [ha, hn]
    · simp [ha, hi, hn]

theorem bequeath (hm : InMemory h s) (hp : p ≠ initPid) (hn : ∀ a, p ∉ s.tree.exitedList a)
    (hf : (s.tree.childrenList p).length < fuel) : Agree ((withNodes s h).bequeath fuel p)
      ((s.tree.bequeath p).map fun t => { s.reportExit p t with tree := t }) := by
  have hgive := giveAway hm hp hf
  have hex : (s.tree.reparent p (s.tree.childrenList p).length).exitedList = s.tree.exitedList := by
    rw [Tree.reparent_eq hp _ _ (Nat.le_refl _)]
  have hn' := notMem_appendExited (t := s.tree.reparent p (s.tree.childrenList p).length) (by rwa [hex]) p
  unfold State.bequeath Tree.bequeath
  simp only [Option.bind_eq_bind]
  rw [← Option.bind_assoc]
  by_cases hbad : s.tree.pstate initPid = .free ∧ (s.tree.childrenList p ≠ [] ∨ s.tree.exitedList p ≠ [])
  · rw [if_pos hbad] at hgive ⊢
    rw [hgive.eq_none]
    exact .none
  · rw [if_neg hbad] at hgive ⊢
    generalize (s.tree.reparent p (s.tree.childrenList p).length).appendExited p = t at hgive hn' ⊢
    obtain ⟨h₁, hr, hm₁⟩ := hgive.eq_some
    rw [hr, Option.bind_some]
    have hpush := pushExited hm₁ hn'
    dsimp only at hpush
    cases hq : t.parent p with
    | none =>
      rw [hq] at hpush
      exact hpush
    | some q =>
      rw [hq] at hpush
      have hpar : (t.pushExited q p).parent p = some q := hq
      simp only [Option.map_some] at hpush ⊢
      unfold Proc.State.reportExit
      rw [hpar]
      exact hpush

/-- The PCB of a process that has exited. -/
theorem cleanupProcess (hm : InMemory h s) (p : Pid) : Refines ((withNodes s h).cleanupProcess p)
    { s.cleanupProcess p with tree := { s.tree with pstate := update s.tree.pstate p .zombie } } := by
  refine ⟨h, ?_, ?_⟩
  · obtain ⟨s₁, hs₁⟩ : ∃ s₁, s.setPcb p { s.pcb p with args := none } = s₁ := ⟨_, rfl⟩
    have hargs : (withNodes s h).setPcb p { (withNodes s h).pt p with args := none } = withNodes s₁ h :=
      hs₁ ▸ withNodes_setPcb rfl
    have hview : (withNodes s₁ h).view p = s.view p := by
      rw [← hs₁]
      simp [State.view, withNodes, ofPcb, Proc.State.view, Proc.State.setPcb]
    unfold State.cleanupProcess Proc.State.cleanupProcess
    rw [hargs]
    dsimp only
    rw [hview, withNodes_setView]
    generalize (s.view p).cleanup (List.finRange maxFileid) = v
    have hlast := withNodes_pt (s := s₁.setView p v) (h := h) (p := p) (q := s₁.tree.parent p)
      (x := { (s₁.setView p v).pcb p with mainThread := none })
      (z := { (withNodes (s₁.setView p v) h).pt p with mainThread := none, pstate := .zombie }) rfl
    refine hlast.trans ?_
    subst hs₁
    unfold withNodes
    congr 1
    funext a
    by_cases ha : a = p
    · subst ha
      simp [Proc.State.setPcb, Proc.State.setView]
    · simp [Proc.State.setPcb, Proc.State.setView, ha]
  · have hm₁ : InMemory h (s.cleanupProcess p) := (hm.setPcb (p := p)
      (x := { s.pcb p with args := none, mainThread := none }) rfl).setView _
    exact hm₁.setTree rfl rfl

theorem becomeZombie (hm : InMemory h s) (p : Pid) : Agree ((withNodes s h).becomeZombie p)
    ((s.tree.becomeZombie p).map fun t => { s.cleanupProcess p with tree := t }) := by
  have hnodes : (withNodes s h).nodes = h := rfl
  unfold State.becomeZombie Tree.becomeZombie
  rw [hnodes, hm.isRlistEmpty_children, hm.isRlistEmpty_exited]
  by_cases hempty : s.tree.childrenList p = [] ∧ s.tree.exitedList p = []
  · rw [if_pos (by simpa using hempty), if_pos hempty]
    exact .some (cleanupProcess hm p)
  · rw [if_neg (by simpa using hempty), if_neg hempty]
    exact .none

theorem reportExit_congr {t t' : Tree} (hp : t.parent p = t'.parent p) : s.reportExit p t = s.reportExit p t' := by
  unfold Proc.State.reportExit
  rw [hp]

theorem exitProcess (hm : InMemory h s) (hn : ∀ a, p ∉ s.tree.exitedList a)
    (hf : (s.tree.childrenList p).length < fuel) : Agree ((withNodes s h).exitProcess fuel p) (s.exitProcess p) := by
  unfold State.exitProcess Proc.State.exitProcess Tree.exit
  by_cases hp : p ≠ initPid
  · have hgone := bequeath hm hp hn hf
    simp only [if_pos hp]
    cases ht : s.tree.bequeath p with
    | none =>
      rw [ht] at hgone
      rw [hgone.eq_none]
      exact .none
    | some t =>
      rw [ht] at hgone
      obtain ⟨h₁, hr, hm₁⟩ := hgone.eq_some
      have hzombie := becomeZombie hm₁ p
      rw [hr, Option.bind_some, Option.bind_some]
      cases hz : t.becomeZombie p with
      | none =>
        rw [show Tree.becomeZombie (State.tree _) p = none from hz] at hzombie
        exact hzombie
      | some t' =>
        have hpar : t.parent p = t'.parent p := by
          unfold Tree.becomeZombie at hz
          split at hz
          · cases hz
            rfl
          · cases hz
        rw [show Tree.becomeZombie (State.tree _) p = some t' from hz] at hzombie
        rw [Option.map_some, ← reportExit_congr hpar]
        exact hzombie
  · simp only [if_neg hp, Option.bind_some]
    exact becomeZombie hm p

/-- What `sys_ThreadExit` does once the thread is counted out. -/
theorem exitLast (hm : InMemory h s) (hn : ∀ a, cur ∉ s.tree.exitedList a)
    (hf : (s.tree.childrenList cur).length < fuel) (i : ThreadId) :
    Agree ((if ((withNodes s h).pt cur).threadCounter = 0 then (withNodes s h).exitProcess fuel cur
        else some (withNodes s h)).map fun r => r.setPlace i .exited)
      ((if (s.pcb cur).threadCounter = 0 then s.exitProcess cur else some s).map fun s => s.setPlace i .exited) := by
  refine Agree.map ?_ fun hm => ⟨_, rfl, hm.threads _⟩
  have hcounter : ((withNodes s h).pt cur).threadCounter = (s.pcb cur).threadCounter := rfl
  rw [hcounter]
  by_cases hc : (s.pcb cur).threadCounter = 0
  · rw [if_pos hc, if_pos hc]
    exact exitProcess hm hn hf
  · rw [if_neg hc, if_neg hc]
    exact hm.agree

theorem sysThreadExit (hm : InMemory h s) (hn : ∀ a, cur ∉ s.tree.exitedList a)
    (hf : (s.tree.childrenList cur).length < fuel) (i : ThreadId) (own : Tid) (exitval : Int) :
    Agree ((withNodes s h).sysThreadExit fuel i cur own exitval) (s.sysThreadExit i cur own exitval) := by
  unfold State.sysThreadExit Proc.State.sysThreadExit
  have hptcb : (withNodes s h).ptcb = s.ptcb := rfl
  rw [hptcb]
  cases hx : s.ptcb own with
  | none => exact .none
  | some x =>
    simp only [Option.bind_some]
    obtain ⟨s₁, hs₁⟩ : ∃ s₁, s.setPtcb own (some { x with exitval := exitval, exited := true }) = s₁ := ⟨_, rfl⟩
    have hset : (withNodes s h).setPtcb own (some { x with exitval := exitval, exited := true }) = withNodes s₁ h :=
      hs₁ ▸ rfl
    have hm₁ : InMemory h s₁ := hs₁ ▸ hm.setPtcb (by simp [hx]) _
    have htree : s₁.tree = s.tree := hs₁ ▸ rfl
    rw [hs₁, hset]
    obtain ⟨s₂, hs₂⟩ : ∃ s₂, s₁.setPcb cur { s₁.pcb cur with threadCounter := (s₁.pcb cur).threadCounter - 1 } = s₂ :=
      ⟨_, rfl⟩
    have hcount : (withNodes s₁ h).setPcb cur
        { (withNodes s₁ h).pt cur with threadCounter := ((withNodes s₁ h).pt cur).threadCounter - 1 } =
        withNodes s₂ h := hs₂ ▸ withNodes_setPcb rfl
    have hm₂ : InMemory h s₂ := hs₂ ▸ hm₁.setPcb rfl
    have htree₂ : s₂.tree = s.tree := hs₂ ▸ htree
    rw [hs₂, hcount]
    rw [← htree₂] at hn hf
    by_cases href : x.refcount ≠ 0
    · have hwake : (withNodes s₂ h).broadcastExit own = withNodes (s₂.broadcastExit own) h := rfl
      have hm₃ : InMemory h (s₂.broadcastExit own) := hm₂.threads _
      rw [if_pos href, if_pos href, hwake]
      exact exitLast hm₃ hn hf i
    · rw [if_neg href, if_neg href]
      exact exitLast hm₂ hn hf i

/-! ## `sys_Exit` -/

/-- Each round takes a child off `exited_list`. -/
theorem exitLoop (i : ThreadId) (cur : Pid) (own : Tid) (exitval : Int) : ∀ {n m : Nat} {h : Nodes Addr Obj}
    {s : Proc.State}, InMemory h s → (∀ a, cur ∉ s.tree.exitedList a) → (s.tree.childrenList cur).length < fuel →
    (s.tree.exitedList cur).length < n → (s.tree.exitedList cur).length < m →
    Agree (State.exitLoop fuel i cur own exitval m (withNodes s h)) (s.exitLoop i cur own exitval n) := by
  intro n
  induction n with
  | zero => exact fun _ _ _ hlt => absurd hlt (Nat.not_lt_zero _)
  | succ n ih =>
    intro m h s hm hn hf hlt hlt'
    obtain ⟨m, rfl⟩ := Nat.exists_eq_succ_of_ne_zero (Nat.ne_zero_of_lt hlt')
    unfold State.exitLoop Proc.State.exitLoop
    rw [findExited_eq hm, Option.bind_some]
    cases hfound : s.findExited cur with
    | noChildren => exact sysThreadExit hm hn hf i own exitval
    | wait => exact .some ⟨h, rfl, hm.threads _⟩
    | exited child =>
      have hst : ((withNodes s h).pt child).pstate = s.tree.pstate child := rfl
      simp only [hst]
      by_cases hz : s.tree.pstate child = .zombie
      · rw [if_pos hz, if_pos hz]
        obtain ⟨l, hl⟩ := Proc.State.findExited_exited hfound
        obtain ⟨h₁, hr, hm₁⟩ := cleanupZombie hm cur child
        have hrest : (s.cleanupZombie cur child).tree.exitedList cur = l := by
          show (s.tree.exitedList cur).erase child = l
          rw [hl, List.erase_cons_head]
        rw [hl, List.length_cons] at hlt hlt'
        rw [hr]
        refine ih hm₁ (fun a ha => hn a (List.mem_of_mem_erase ha)) ?_ (by rw [hrest]; omega) (by rw [hrest]; omega)
        exact Nat.lt_of_le_of_lt (List.length_erase_le) hf
      · rw [if_neg hz, if_neg hz]
        exact .none

theorem exitOfInit (hm : InMemory h s) (hn : ∀ a, cur ∉ s.tree.exitedList a)
    (hf : (s.tree.childrenList cur).length < fuel) (hx : (s.tree.exitedList cur).length < fuel) (i : ThreadId) (own : Tid)
    (exitval : Int) :
    Agree (State.exitLoop fuel i cur own exitval fuel (withNodes s h)) (s.exitOfInit i cur own exitval) :=
  exitLoop i cur own exitval hm hn hf (Nat.lt_succ_self _) hx

theorem sysExit (hm : InMemory h s) (hn : ∀ a, cur ∉ s.tree.exitedList a)
    (hf : (s.tree.childrenList cur).length < fuel) (hx : (s.tree.exitedList cur).length < fuel) (i : ThreadId) (own : Tid)
    (exitval : Int) : Agree ((withNodes s h).sysExit fuel i cur own exitval) (s.sysExit i cur own exitval) := by
  obtain ⟨s₁, hs₁⟩ : ∃ s₁, s.setPcb cur { s.pcb cur with exitval := exitval } = s₁ := ⟨_, rfl⟩
  have hset : (withNodes s h).setPcb cur { (withNodes s h).pt cur with exitval := exitval } = withNodes s₁ h :=
    hs₁ ▸ withNodes_setPcb rfl
  have hm₁ : InMemory h s₁ := hs₁ ▸ hm.setPcb rfl
  have htree : s₁.tree = s.tree := hs₁ ▸ rfl
  rw [← htree] at hn hf hx
  unfold State.sysExit Proc.State.sysExit
  rw [hset, hs₁]
  by_cases hcur : cur = initPid
  · rw [if_pos hcur, if_pos hcur]
    exact exitOfInit hm₁ hn hf hx i own exitval
  · rw [if_neg hcur, if_neg hcur]
    exact sysThreadExit hm₁ hn hf i own exitval

end TinyOS.Proc.Rings
