import TinyOS.Lib.Lts
import TinyOS.Rlist.Lists

/-!
# The ring of waiters

The `waitset` of a `CondVar`, as `cv_wait` and `cv_signal` of `kernel_cc.c` keep it: a ring of `__cv_waiter`s without
a sentinel, in any memory. A waiter is a variable of its call of `cv_wait`; before and after the call its memory may
hold anything, and may be used again.

- `fifo`: what the ring is for, a queue;
- `step_refines`: each operation on the ring is the one on the queue;
- `waitset_is_fifo`: over any run.
-/

namespace TinyOS.WaiterRing

open Rlist
open scoped List

/-- Where the call of `cv_wait` is that a waiter belongs to. -/
inductive Stage
  /-- There is none. -/
  | outside
  /-- After `rlnode_init`. -/
  | fresh
  /-- In the ring, or removed from it by `cv_signal`. -/
  | waiting
  /-- After the sleep, with the waiter tidied up. -/
  | tidied
  deriving DecidableEq, Repr

/-- `W` is the type of the addresses of waiters, and of their nodes. -/
structure State (W : Type) where
  waitset : Option W
  nodes : Nodes W W
  removed : W → Bool
  stage : W → Stage
  /-- The waiters that entered the ring, in order. -/
  arrived : List W
  /-- The waiters that `cv_signal` took out of it, in order. -/
  popped : List W

inductive Action (W : Type)
  /-- `cv_wait` begins. -/
  | start (w : W)
  /-- `cv_wait` puts its waiter in the ring. -/
  | enqueue (w : W)
  /-- `cv_wait` tidies up after the sleep, which a signal or something else ended. -/
  | tidy (w : W)
  | returns (w : W)
  /-- A round of the loop of `cv_signal`. -/
  | pop
  /-- Other code uses the memory of a waiter. -/
  | overwrite (w : W) (obj prev next : W) (removed : Bool)
  deriving DecidableEq, Repr

variable {W : Type} [DecidableEq W]

namespace State

def setStage (s : State W) (w : W) (x : Stage) : State W := { s with stage := Function.update s.stage w x }

def setRemoved (s : State W) (w : W) (b : Bool) : State W := { s with removed := Function.update s.removed w b }

def removeFromRing (s : State W) (w : W) : State W :=
  let s :=
    if s.waitset = some w then
      let nextw := s.nodes.obj (s.nodes.next w)
      { s with waitset := if nextw = w then none else some nextw }
    else s
  { s with nodes := (rlistRemove s.nodes w).2 }

def start (s : State W) (w : W) : State W :=
  { s.setRemoved w false with nodes := rlnodeInit s.nodes w w }.setStage w .fresh

def enqueue (s : State W) (w : W) : State W :=
  let s := { s.setStage w .waiting with arrived := s.arrived ++ [w] }
  match s.waitset with
  | some wset => { s with nodes := rlistPushBack s.nodes wset w }
  | none => { s with waitset := some w }

def tidy (s : State W) (w : W) : State W := (if s.removed w then s else s.removeFromRing w).setStage w .tidied

def pop (s : State W) : State W :=
  match s.waitset with
  | some waiter => { (s.removeFromRing waiter).setRemoved waiter true with popped := s.popped ++ [waiter] }
  | none => s

def overwrite (s : State W) (w : W) (obj prev next : W) (removed : Bool) : State W :=
  { s.setRemoved w removed with
    nodes :=
      { obj := Function.update s.nodes.obj w obj
        prev := Function.update s.nodes.prev w prev
        next := Function.update s.nodes.next w next } }

def Enabled (s : State W) : Action W → Prop
  | .start w | .overwrite w .. => s.stage w = .outside
  | .enqueue w => s.stage w = .fresh
  | .tidy w => s.stage w = .waiting
  | .returns w => s.stage w = .tidied
  | .pop => True

instance (s : State W) : ∀ a, Decidable (s.Enabled a)
  | .start _ | .overwrite .. | .enqueue _ | .tidy _ | .returns _ => inferInstanceAs (Decidable (_ = _))
  | .pop => inferInstanceAs (Decidable True)

def exec (s : State W) : Action W → State W
  | .start w => s.start w
  | .enqueue w => s.enqueue w
  | .tidy w => s.tidy w
  | .returns w => s.setStage w .outside
  | .pop => s.pop
  | .overwrite w obj prev next removed => s.overwrite w obj prev next removed

/-- `COND_INIT`, with anything in memory, before any call. -/
structure Initial (s : State W) : Prop where
  waitset : s.waitset = none
  stage : ∀ w, s.stage w = .outside
  arrived : s.arrived = []
  popped : s.popped = []

end State

variable (W) in
def sys : Lts (State W) (Action W) := ⟨State.Initial, fun s a => if s.Enabled a then some (s.exec a) else none⟩

/-! ## The queue -/

def Action.onQueue (q : List W) : Action W → List W
  | enqueue w => q ++ [w]
  | tidy w => q.erase w
  | pop => q.tail
  | start _ | returns _ | overwrite .. => q

variable (W) in
/-- Who waits, in order of arrival. -/
def fifo : Lts (List W) (Action W) := ⟨fun q => q = [], fun q a => some (a.onQueue q)⟩

/-- The waitset is the ring of the waiters in the queue. -/
structure Refines (s : State W) (q : List W) : Prop where
  head : s.waitset = q.head?
  ring : q ≠ [] → s.nodes.Ring q
  queued : ∀ w ∈ q, s.stage w = .waiting ∧ s.removed w = false ∧ s.nodes.obj w = w
  /-- The waiters of other calls are alone on their rings. -/
  alone : ∀ w ∉ q, s.stage w ≠ .outside → s.nodes.Ring [w] ∧ s.nodes.obj w = w
  fresh : ∀ w, s.stage w = .fresh → s.removed w = false
  waiting : ∀ w ∉ q, s.stage w = .waiting → s.removed w = true
  log : s.popped ++ q <+ s.arrived

variable {s : State W} {q : List W} {w : W}

/-! ## Removals -/

theorem removeFromRing_nodes : (s.removeFromRing w).nodes = (rlistRemove s.nodes w).2 := by
  unfold State.removeFromRing
  split_ifs <;> rfl

@[simp] theorem removeFromRing_removed : (s.removeFromRing w).removed = s.removed := by
  unfold State.removeFromRing
  split_ifs <;> rfl

@[simp] theorem removeFromRing_stage : (s.removeFromRing w).stage = s.stage := by
  unfold State.removeFromRing
  split_ifs <;> rfl

@[simp] theorem removeFromRing_arrived : (s.removeFromRing w).arrived = s.arrived := by
  unfold State.removeFromRing
  split_ifs <;> rfl

@[simp] theorem removeFromRing_popped : (s.removeFromRing w).popped = s.popped := by
  unfold State.removeFromRing
  split_ifs <;> rfl

/-- The head pointer moves on if the first waiter leaves. -/
theorem removeFromRing_waitset (hh : s.waitset = q.head?) (hr : s.nodes.Ring q) (hobj : ∀ p ∈ q, s.nodes.obj p = p)
    (hw : w ∈ q) : (s.removeFromRing w).waitset = (q.erase w).head? := by
  obtain ⟨x, y, hx, rfl, he⟩ := List.exists_erase_eq hw
  rw [he]
  cases x with
  | nil =>
    have hhead : s.waitset = some w := hh
    cases y with
    | nil =>
      have hnext : s.nodes.next w = w := circuit_singleton.1 hr.circuit
      simp [State.removeFromRing, hhead, hnext, hobj]
    | cons b y =>
      have hnext : s.nodes.next w = b := hr.circuit.2.1
      have hb : s.nodes.obj b = b := hobj b (by simp)
      have hbw : b ≠ w := by
        rintro rfl
        simpa using hr.circuit.nodup
      simp [State.removeFromRing, hhead, hnext, hb, hbw]
  | cons a x =>
    have hhead : s.waitset = some a := hh
    have haw : a ≠ w := by
      rintro rfl
      exact hx List.mem_cons_self
    simp [State.removeFromRing, hhead, haw]

/-- The waiter is alone afterwards, and the others are still on one ring. -/
theorem removeFromRing_turns (hr : s.nodes.Ring q) (hw : w ∈ q) :
    Turns s.nodes (s.removeFromRing w).nodes [q] [[w]] ∧
      (q.erase w ≠ [] → (s.removeFromRing w).nodes.Ring (q.erase w)) := by
  obtain ⟨x, y, -, rfl, he⟩ := List.exists_erase_eq hw
  rw [he, removeFromRing_nodes]
  by_cases hne : x ++ y = []
  · obtain ⟨rfl, rfl⟩ := List.append_eq_nil_iff.1 hne
    rw [List.nil_append] at hr ⊢
    rw [rlistRemove_singleton hr]
    exact ⟨.refl (List.forall_mem_singleton.2 hr), fun hn => absurd rfl hn⟩
  · have ht := rlistRemove_turns hr hne
    exact ⟨ht.enter (List.Subset.refl _) fun l hl => ht.rings l (List.mem_cons_of_mem _ hl),
      fun _ => ht.rings _ List.mem_cons_self⟩

@[simp] theorem enqueue_stage : (s.enqueue w).stage = Function.update s.stage w .waiting := by
  cases hs : s.waitset <;> simp [State.enqueue, State.setStage, hs]

@[simp] theorem enqueue_removed : (s.enqueue w).removed = s.removed := by
  cases hs : s.waitset <;> simp [State.enqueue, State.setStage, hs]

@[simp] theorem tidy_stage : (s.tidy w).stage = Function.update s.stage w .tidied := by
  unfold State.tidy
  split_ifs <;> simp [State.setStage]

@[simp] theorem tidy_removed : (s.tidy w).removed = s.removed := by
  unfold State.tidy
  split_ifs <;> simp [State.setStage]

@[simp] theorem enqueue_arrived : (s.enqueue w).arrived = s.arrived ++ [w] := by
  cases hs : s.waitset <;> simp [State.enqueue, State.setStage, hs]

@[simp] theorem enqueue_popped : (s.enqueue w).popped = s.popped := by
  cases hs : s.waitset <;> simp [State.enqueue, State.setStage, hs]

/-! ## Each operation -/

namespace Refines

variable (hR : Refines s q)
include hR

omit [DecidableEq W] in
theorem nodup : q.Nodup := by
  by_cases hq : q = []
  · rw [hq]
    exact List.nodup_nil
  · exact (hR.ring hq).circuit.nodup

omit [DecidableEq W] in
theorem notMem_of_stage (hw : s.stage w ≠ .waiting) : w ∉ q := fun hm => hw (hR.queued w hm).1

/-- What happens to the memory of a waiter that is not in the queue. -/
theorem of_memory (hw : w ∉ q) {s' : State W} (hset : s'.waitset = s.waitset) (harr : s'.arrived = s.arrived)
    (hpop : s'.popped = s.popped)
    (hkeep : ∀ v ≠ w, s'.stage v = s.stage v ∧ s'.removed v = s.removed v ∧ s'.nodes.obj v = s.nodes.obj v ∧
      s'.nodes.next v = s.nodes.next v ∧ s'.nodes.prev v = s.nodes.prev v)
    (hnew : s'.stage w = .outside ∨
      s'.stage w = .fresh ∧ s'.removed w = false ∧ s'.nodes.Ring [w] ∧ s'.nodes.obj w = w) : Refines s' q := by
  have hne : ∀ v ∈ q, v ≠ w := by
    rintro v hv rfl
    exact hw hv
  constructor
  · rw [hset, hR.head]
  · exact fun hq => (hR.ring hq).congr fun v hv => (hkeep v (hne v hv)).2.2.2
  · intro v hv
    obtain ⟨hstage, hrem, hobj, -⟩ := hkeep v (hne v hv)
    rw [hstage, hrem, hobj]
    exact hR.queued v hv
  · intro v hv hstage
    by_cases hvw : v = w
    · subst hvw
      rcases hnew with hout | ⟨-, -, hring, hobj⟩
      · exact absurd hout hstage
      · exact ⟨hring, hobj⟩
    · obtain ⟨hstage', -, hobj, hlinks⟩ := hkeep v hvw
      rw [hstage'] at hstage
      obtain ⟨hring, hobj'⟩ := hR.alone v hv hstage
      exact ⟨hring.congr (List.forall_mem_singleton.2 hlinks), hobj.trans hobj'⟩
  · intro v hstage
    by_cases hvw : v = w
    · subst hvw
      rcases hnew with hout | ⟨-, hrem, -⟩
      · exact absurd (hout.symm.trans hstage) (by decide)
      · exact hrem
    · rw [(hkeep v hvw).2.1]
      exact hR.fresh v ((hkeep v hvw).1 ▸ hstage)
  · intro v hv hstage
    by_cases hvw : v = w
    · subst hvw
      rcases hnew with hout | ⟨hfresh, -⟩
      · exact absurd (hout.symm.trans hstage) (by decide)
      · exact absurd (hfresh.symm.trans hstage) (by decide)
    · rw [(hkeep v hvw).2.1]
      exact hR.waiting v hv ((hkeep v hvw).1 ▸ hstage)
  · rw [hpop, harr]
    exact hR.log

theorem start (hw : s.stage w = .outside) : Refines (s.start w) q := by
  have hwq : w ∉ q := hR.notMem_of_stage (by simp [hw])
  refine hR.of_memory hwq rfl rfl rfl (fun v hv => ?_) (.inr ?_)
  · obtain ⟨hnext, hprev, hobj⟩ := rlnodeInit_frame (h := s.nodes) (v := w) hv
    exact ⟨Function.update_of_ne hv .., Function.update_of_ne hv .., hobj, hnext, hprev⟩
  · exact ⟨Function.update_self .., Function.update_self .., rlnodeInit_ring, rlnodeInit_obj⟩

theorem returns (hw : s.stage w = .tidied) : Refines (s.setStage w .outside) q :=
  hR.of_memory (hR.notMem_of_stage (by simp [hw])) rfl rfl rfl
    (fun _ hv => ⟨Function.update_of_ne hv .., rfl, rfl, rfl, rfl⟩) (.inl (Function.update_self ..))

theorem overwrite (hw : s.stage w = .outside) {o p n : W} {b : Bool} : Refines (s.overwrite w o p n b) q := by
  have hwq : w ∉ q := hR.notMem_of_stage (by simp [hw])
  refine hR.of_memory hwq rfl rfl rfl (fun v hv => ?_) (.inl hw)
  exact ⟨rfl, Function.update_of_ne hv .., Function.update_of_ne hv .., Function.update_of_ne hv ..,
    Function.update_of_ne hv ..⟩

/-- What happens to the ring, and to one waiter that is in it before or afterwards. -/
theorem of_turns {s' : State W} {q' : List W} {after : List (List W)}
    (ht : Turns s.nodes s'.nodes [q, [w]] after) (hobj : s.nodes.obj w = w) (hset : s'.waitset = q'.head?)
    (hring : q' ≠ [] → s'.nodes.Ring q') (hmem : ∀ v ≠ w, v ∈ q' ↔ v ∈ q)
    (hkeep : ∀ v ≠ w, s'.stage v = s.stage v ∧ s'.removed v = s.removed v)
    (hin : w ∈ q' → s'.stage w = .waiting ∧ s'.removed w = false)
    (hout : w ∉ q' → s'.nodes.Ring [w] ∧ s'.stage w ≠ .fresh ∧ (s'.stage w = .waiting → s'.removed w = true))
    (hlog : s'.popped ++ q' <+ s'.arrived) : Refines s' q' := by
  refine ⟨hset, hring, fun v hv => ?_, fun v hv hstage => ?_, fun v hstage => ?_, fun v hv hstage => ?_, hlog⟩
  · rw [ht.keys]
    by_cases hvw : v = w
    · subst hvw
      exact ⟨(hin hv).1, (hin hv).2, hobj⟩
    · rw [(hkeep v hvw).1, (hkeep v hvw).2]
      exact hR.queued v ((hmem v hvw).1 hv)
  · rw [ht.keys]
    by_cases hvw : v = w
    · subst hvw
      exact ⟨(hout hv).1, hobj⟩
    · have hvq : v ∉ q := fun hm => hv ((hmem v hvw).2 hm)
      obtain ⟨hring, hobj⟩ := hR.alone v hvq ((hkeep v hvw).1 ▸ hstage)
      refine ⟨ht.frame_ring hring ?_, hobj⟩
      simpa using ⟨hvq, hvw⟩
  · by_cases hvw : v = w
    · subst hvw
      by_cases hv : v ∈ q'
      · exact (hin hv).2
      · exact absurd hstage (hout hv).2.1
    · rw [(hkeep v hvw).2]
      exact hR.fresh v ((hkeep v hvw).1 ▸ hstage)
  · by_cases hvw : v = w
    · subst hvw
      exact (hout hv).2.2 hstage
    · rw [(hkeep v hvw).2]
      exact hR.waiting v (fun hm => hv ((hmem v hvw).2 hm)) ((hkeep v hvw).1 ▸ hstage)

theorem enqueue (hw : s.stage w = .fresh) : Refines (s.enqueue w) (q ++ [w]) := by
  have hwq : w ∉ q := hR.notMem_of_stage (by simp [hw])
  obtain ⟨hring, hobj⟩ := hR.alone w hwq (by simp [hw])
  have hnodes : Turns s.nodes (s.enqueue w).nodes [q, [w]] [q ++ [w]] ∧ (s.enqueue w).waitset = (q ++ [w]).head? := by
    cases q with
    | nil =>
      have hhead : s.waitset = none := hR.head
      simp only [State.enqueue, State.setStage, hhead]
      exact ⟨(Turns.refl (List.forall_mem_singleton.2 hring)).enter (by simp) (by simpa using hring), rfl⟩
    | cons a r =>
      have hhead : s.waitset = some a := hR.head
      simp only [State.enqueue, State.setStage, hhead]
      have ht := rlistPushBack_turns (hR.ring (by simp)) hring (List.disjoint_singleton.2 hwq)
      rw [List.append_nil] at ht
      exact ⟨ht, rfl⟩
  obtain ⟨ht, hset⟩ := hnodes
  refine hR.of_turns ht hobj hset (fun _ => ht.rings _ List.mem_cons_self) (fun v hv => by simp [hv])
    (fun v hv => by simp [hv]) (fun _ => ?_) (fun hn => absurd (by simp) hn) ?_
  · simpa using hR.fresh w hw
  · rw [enqueue_popped, enqueue_arrived, ← List.append_assoc]
    exact hR.log.append (List.Sublist.refl _)

/-- A waiter leaves the ring, and its flag or its stage says so. -/
theorem removeFromRing (hw : w ∈ q) {s' : State W} (hnodes : s'.nodes = (s.removeFromRing w).nodes)
    (hset : s'.waitset = (s.removeFromRing w).waitset)
    (hkeep : ∀ v ≠ w, s'.stage v = s.stage v ∧ s'.removed v = s.removed v)
    (hout : s'.stage w ≠ .fresh ∧ (s'.stage w = .waiting → s'.removed w = true))
    (hlog : s'.popped ++ q.erase w <+ s'.arrived) : Refines s' (q.erase w) := by
  have hr := hR.ring (List.ne_nil_of_mem hw)
  obtain ⟨ht, hring⟩ := removeFromRing_turns hr hw
  have hwe : w ∉ q.erase w := hR.nodup.not_mem_erase
  have hhead := removeFromRing_waitset hR.head hr (fun p hp => (hR.queued p hp).2.2) hw
  rw [← hnodes] at ht hring
  refine hR.of_turns (ht.enter ?_ ht.rings) (hR.queued w hw).2.2 (hset.trans hhead) hring
    (fun v hv => List.mem_erase_of_ne hv) hkeep (fun hm => absurd hm hwe)
    (fun _ => ⟨ht.rings _ List.mem_cons_self, hout⟩) hlog
  simp

theorem tidy (hw : s.stage w = .waiting) : Refines (s.tidy w) (q.erase w) := by
  by_cases hrem : s.removed w = true
  · have hwq : w ∉ q := fun hm => by simpa [hrem] using (hR.queued w hm).2.1
    obtain ⟨hring, hobj⟩ := hR.alone w hwq (by simp [hw])
    have htidy : s.tidy w = s.setStage w .tidied := by simp [State.tidy, hrem]
    have ht : Turns s.nodes s.nodes [q, [w]] [] := ⟨rfl, id, by simp, fun _ _ => ⟨rfl, rfl⟩⟩
    rw [htidy, List.erase_of_not_mem hwq]
    refine hR.of_turns ht hobj hR.head hR.ring (fun _ _ => Iff.rfl) (fun v hv => ?_) (fun hm => absurd hm hwq)
      (fun _ => ⟨hring, ?_⟩) hR.log
    · simp [State.setStage, hv]
    · simp [State.setStage]
  · have hwq : w ∈ q := by
      by_contra hn
      exact hrem (hR.waiting w hn hw)
    have htidy : s.tidy w = (s.removeFromRing w).setStage w .tidied := by simp [State.tidy, hrem]
    rw [htidy]
    refine hR.removeFromRing hwq rfl rfl (fun v hv => ?_) ?_ ?_
    · simp [State.setStage, hv]
    · simp [State.setStage]
    · simpa [State.setStage] using ((List.erase_sublist).append_left s.popped).trans hR.log

theorem pop : Refines s.pop q.tail := by
  cases q with
  | nil =>
    have hhead : s.waitset = none := hR.head
    simpa [State.pop, hhead] using hR
  | cons a r =>
    have hhead : s.waitset = some a := hR.head
    have ha := (hR.queued a List.mem_cons_self).1
    have hpop : s.pop = { (s.removeFromRing a).setRemoved a true with popped := s.popped ++ [a] } := by
      simp [State.pop, hhead]
    have hnodes : s.pop.nodes = (s.removeFromRing a).nodes := by rw [hpop]; rfl
    have hset : s.pop.waitset = (s.removeFromRing a).waitset := by rw [hpop]; rfl
    have hr := hR.removeFromRing List.mem_cons_self hnodes hset
    rw [List.erase_cons_head] at hr
    refine hr (fun v hv => ?_) ?_ ?_
    · simp [hpop, State.setRemoved, hv]
    · simp [hpop, State.setRemoved, ha]
    · simpa [hpop, State.setRemoved] using hR.log

end Refines

/-! ## Runs -/

/-- Each step of the code is the step of the queue. -/
theorem step_refines (s : State W) (q : List W) (a : Action W) (s' : State W) (hR : Refines s q)
    (hs : (sys W).step s a = some s') : ∃ q', (fifo W).step q a = some q' ∧ Refines s' q' := by
  refine ⟨a.onQueue q, rfl, ?_⟩
  simp only [sys, Option.ite_none_right_eq_some, Option.some.injEq] at hs
  obtain ⟨hen, rfl⟩ := hs
  cases a with
  | start w => exact hR.start hen
  | enqueue w => exact hR.enqueue hen
  | tidy w => exact hR.tidy hen
  | returns w => exact hR.returns hen
  | pop => exact hR.pop
  | overwrite w obj prev next removed => exact hR.overwrite hen

omit [DecidableEq W] in
theorem initial_refines (hs : s.Initial) : Refines s [] where
  head := hs.waitset
  ring h := absurd rfl h
  queued := by simp
  alone w _ hw := absurd (hs.stage w) hw
  fresh w hw := absurd ((hs.stage w).symm.trans hw) (by decide)
  waiting w _ hw := absurd ((hs.stage w).symm.trans hw) (by decide)
  log := by simp [hs.arrived, hs.popped]

/-- Over any run, the ring is a queue, from `waitset` on; the waiters that are not in it are alone on their rings; and
`cv_signal` takes waiters in order of arrival. -/
theorem waitset_is_fifo (s₀ : State W) (h₀ : s₀.Initial) (as : List (Action W)) (s : State W)
    (hr : (sys W).run s₀ as = some s) :
    ∃ q, (fifo W).run [] as = some q ∧
      (s.waitset = none ↔ q = []) ∧
      s.waitset = q.head? ∧
      (q ≠ [] → s.nodes.Ring q) ∧
      (∀ w ∉ q, s.stage w ≠ .outside → s.nodes.Ring [w]) ∧
      s.popped ++ q <+ s.arrived := by
  obtain ⟨q, hq, hR⟩ := Lts.run_simulates step_refines (initial_refines h₀) hr
  refine ⟨q, hq, ?_, hR.head, hR.ring, fun w hw hstage => (hR.alone w hw hstage).1, hR.log⟩
  rw [hR.head, List.head?_eq_none_iff]

/-- Two waiters arrive, and the first leaves without a signal. -/
theorem waitset_is_fifo_two :
    ∃ s, (sys Bool).run ⟨none, ⟨id, id, id⟩, fun _ => true, fun _ => .outside, [], []⟩
        [.start true, .enqueue true, .start false, .enqueue false, .tidy true] = some s ∧
      s.waitset = some false ∧ s.nodes.Ring [false] := by
  have hrun : ((sys Bool).run ⟨none, ⟨id, id, id⟩, fun _ => true, fun _ => .outside, [], []⟩
      [.start true, .enqueue true, .start false, .enqueue false, .tidy true]).isSome = true := by decide
  obtain ⟨s, hs⟩ := Option.isSome_iff_exists.1 hrun
  obtain ⟨q, hq, -, hhead, hring, -⟩ := waitset_is_fifo _ ⟨rfl, fun _ => rfl, rfl, rfl⟩ _ s hs
  obtain rfl : q = [false] := (Option.some.inj hq).symm
  exact ⟨s, hs, hhead, hring (by simp)⟩

end TinyOS.WaiterRing
