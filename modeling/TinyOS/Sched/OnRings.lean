import Mathlib.Data.List.Perm.Subperm
import TinyOS.Rlist.Family
import TinyOS.Sched.Rings
import TinyOS.Sched.Sections

/-!
# The rings of the scheduler

The lists in the model of the scheduler are the rings in memory. `InMemory h s` says that the sentinels and nodes of `h`
are the lists of `s`, with the nodes of the TCBs that are not free; for each function there is a lemma that it takes
`s` in memory to what the function on lists makes of `s`, in memory.
-/

namespace TinyOS.Sched.Rings

open Rlist
open Function (update)

variable {nc : Nat}

/-! ## States in memory -/

/-- The node of `t` is in use. -/
def Live (s : Sched.State nc) (t : Ptr nc) : Prop := s.Allocated t ∧ t ∉ s.released

instance (s : Sched.State nc) (t : Ptr nc) : Decidable (Live s t) :=
  inferInstanceAs (Decidable (s.Allocated t ∧ t ∉ s.released))

/-- The lists of the sentinels. -/
def listOf (s : Sched.State nc) : Head → List (Ptr nc)
  | .sched i => s.queue i
  | .timeoutList => s.timeoutList

/-- The nodes of `h` are the lists of `s`. -/
structure InMemory (h : Nodes (Addr nc) (Option (Ptr nc))) (s : Sched.State nc) : Prop where
  rings : Lists h (Live s) (listOf s)
  keys : ∀ t, Live s t → h.obj (schedNode t) = some t

/-- The state in memory with the nodes `h`. -/
def withNodes (s : Sched.State nc) (h : Nodes (Addr nc) (Option (Ptr nc))) : State nc where
  tcb := s.tcb
  nodes := h
  current := s.current
  previous := s.previous
  pc := s.pc
  numofYields := s.numofYields
  activeThreads := s.activeThreads
  spawned := s.spawned
  released := s.released

/-- What a function leaves in memory. -/
def Holds (x : Option (State nc)) (s : Sched.State nc) : Prop := ∃ h, x = some (withNodes s h) ∧ InMemory h s

variable {h : Nodes (Addr nc) (Option (Ptr nc))} {s s' : Sched.State nc} {t : Ptr nc} {c : Fin nc} {k : Cause}
  {i clock fuel : Nat}

@[simp] theorem withNodes_tcb : (withNodes s h).tcb = s.tcb := rfl

@[simp] theorem withNodes_nodes : (withNodes s h).nodes = h := rfl

theorem withNodes_setTcb (x : Tcb) : (withNodes s h).setTcb t x = withNodes (s.setTcb t x) h := rfl

theorem Holds.bind {x : Option (State nc)} {f : State nc → Option (State nc)} (hx : Holds x s)
    (hf : ∀ h, InMemory h s → Holds (f (withNodes s h)) s') : Holds (x.bind f) s' := by
  obtain ⟨h, rfl, hm⟩ := hx
  exact hf h hm

theorem Holds.guard {p : Prop} [Decidable p] {f : Unit → Option (State nc)} (hp : p) (hf : Holds (f ()) s) :
    Holds ((guard p : Option Unit).bind f) s := by
  simpa [hp] using hf

theorem sched_eq (hi : i < maxPriorities) : (sched i : Option (Addr nc)) = some (.inl (.sched ⟨i, hi⟩)) := dif_pos hi

theorem listOf_queue (hi : i < maxPriorities) (l : List (Ptr nc)) :
    listOf { s with queue := update s.queue i l } = update (listOf s) (Head.sched ⟨i, hi⟩) l := by
  funext j
  cases j with
  | sched j =>
    by_cases hj : j = ⟨i, hi⟩
    · subst hj
      simp [listOf]
    · have hne : (j : Nat) ≠ i := fun he => hj (Fin.ext he)
      have hne' : Head.sched j ≠ .sched ⟨i, hi⟩ := by simpa using hj
      rw [Function.update_of_ne hne']
      exact Function.update_of_ne hne ..
  | timeoutList => rfl

theorem listOf_timeoutList (l : List (Ptr nc)) :
    listOf { s with timeoutList := l } = update (listOf s) .timeoutList l := by
  funext j
  cases j with
  | sched j => rfl
  | timeoutList => simp [listOf]

theorem linked_iff : s.Linked t ↔ ∃ j, t ∈ listOf s j := by
  constructor
  · rintro (hm | ⟨i, hi, hm⟩)
    · exact ⟨.timeoutList, hm⟩
    · exact ⟨.sched ⟨i, hi⟩, hm⟩
  · rintro ⟨j | -, hm⟩
    · exact .inr ⟨j, j.isLt, hm⟩
    · exact .inl hm

theorem notMem_listOf (hl : ¬s.Linked t) (j : Head) : t ∉ listOf s j := fun hm => hl (linked_iff.2 ⟨j, hm⟩)

/-! ## The parts of `sched_make_ready` -/

/-- Once the thread is out of `TIMEOUT_LIST`. -/
def State.markReady (r : State nc) (t : Ptr nc) : Option (State nc) :=
  if (r.tcb t).phase = .ctxClean then (r.setTcb t { r.tcb t with state := .ready }).schedQueueAdd t
  else some (r.setTcb t { r.tcb t with state := .ready })

theorem State.schedMakeReady_bind (r : State nc) (t : Ptr nc) : r.schedMakeReady t =
    (guard ((r.tcb t).state = .stopped ∨ (r.tcb t).state = .init) : Option Unit).bind fun _ =>
      (if (r.tcb t).wakeupTime ≠ noTimeout then
        (guard (r.nodes.next (schedNode t) ≠ schedNode t ∧ (r.tcb t).state = .stopped) : Option Unit).bind fun _ =>
          some ({ r with nodes := (rlistRemove r.nodes (schedNode t)).2 }.setTcb t
            { r.tcb t with wakeupTime := noTimeout })
        else some r).bind fun r => r.markReady t := by
  unfold schedMakeReady markReady
  by_cases hw : (r.tcb t).wakeupTime = noTimeout <;> simp [hw, setTcb, Option.bind_assoc]

end TinyOS.Sched.Rings

namespace TinyOS.Sched.State

variable {nc : Nat}

def markReady (s : State nc) (t : Ptr nc) : Option (State nc) :=
  if (s.tcb t).phase = .ctxClean then (s.setTcb t { s.tcb t with state := .ready }).schedQueueAdd t
  else some (s.setTcb t { s.tcb t with state := .ready })

theorem schedMakeReady_bind (s : State nc) (t : Ptr nc) : s.schedMakeReady t =
    (guard ((s.tcb t).state = .stopped ∨ (s.tcb t).state = .init) : Option Unit).bind fun _ =>
      (if (s.tcb t).wakeupTime ≠ noTimeout then
        (guard (s.Linked t ∧ (s.tcb t).state = .stopped) : Option Unit).bind fun _ =>
          some ((s.unlink t).setTcb t { s.tcb t with wakeupTime := noTimeout })
        else some s).bind fun s => s.markReady t := by
  unfold schedMakeReady markReady
  by_cases hw : (s.tcb t).wakeupTime = noTimeout <;> simp [hw, setTcb, Option.bind_assoc]

end TinyOS.Sched.State

namespace TinyOS.Sched.Rings

open Rlist
open Function (update)

variable {nc : Nat} {h : Nodes (Addr nc) (Option (Ptr nc))} {s s' : Sched.State nc} {t : Ptr nc} {c : Fin nc}
  {k : Cause} {i clock fuel : Nat}

namespace InMemory

theorem setTcb (hm : InMemory h s) (t : Ptr nc) (x : Tcb) : InMemory h (s.setTcb t x) := ⟨hm.rings, hm.keys⟩

theorem isRlistEmpty_sched (hm : InMemory h s) (hi : i < maxPriorities) :
    isRlistEmpty h (.inl (.sched ⟨i, hi⟩)) = decide (s.queue i = []) := by
  rw [Bool.eq_iff_iff, hm.rings.isRlistEmpty_iff, decide_eq_true_eq]
  rfl

theorem isRlistEmpty_timeoutList (hm : InMemory h s) :
    isRlistEmpty h timeoutList = decide (s.timeoutList = []) := by
  rw [Bool.eq_iff_iff, timeoutList, hm.rings.isRlistEmpty_iff, decide_eq_true_eq]
  rfl

/-! ## `sched_queue_add`, `sched_register_timeout` and `sched_make_ready` -/

theorem schedQueueAdd (hm : InMemory h s) (ht : Live s t) (hp : (s.tcb t).priority < maxPriorities)
    (he : s.schedQueueAdd t = some s') : Holds ((withNodes s h).schedQueueAdd t) s' := by
  obtain ⟨hl, rfl⟩ : ¬s.Linked t ∧ _ = s' := by simpa [Sched.State.schedQueueAdd] using he
  refine ⟨rlistPushBack h (.inl (.sched ⟨_, hp⟩)) (schedNode t), ?_, ?_, hm.keys⟩
  · rw [State.schedQueueAdd, show (withNodes s h).tcb = s.tcb from rfl, sched_eq hp]
    rfl
  · rw [listOf_queue hp]
    exact hm.rings.pushBack ht (notMem_listOf hl) _

/-- The walk stops where `insertTimeout` inserts. -/
theorem laterLoop (hm : InMemory h s) (t : Ptr nc) {l₁ l₂ : List (Ptr nc)} (hl : s.timeoutList = l₁ ++ l₂)
    (hf : l₂.length < fuel) : ∃ m₁ m₂, l₂ = m₁ ++ m₂ ∧
      (withNodes s h).laterLoop t fuel (firstOf .timeoutList l₂) = some (firstOf .timeoutList m₂) ∧
      Sched.State.insertTimeout (fun u => (s.tcb u).wakeupTime) t l₂ = m₁ ++ t :: m₂ := by
  induction l₂ generalizing l₁ fuel with
  | nil =>
    obtain ⟨fuel, rfl⟩ := Nat.exists_eq_succ_of_ne_zero (Nat.ne_zero_of_lt hf)
    exact ⟨[], [], rfl, by simp [State.laterLoop, firstOf, timeoutList], rfl⟩
  | cons n l ih =>
    obtain ⟨fuel, rfl⟩ := Nat.exists_eq_succ_of_ne_zero (Nat.ne_zero_of_lt hf)
    have hn : n ∈ listOf s .timeoutList := by simp [listOf, hl]
    have hkey : h.obj (.inr n) = some n := hm.keys n (hm.rings.live hn)
    have hne : firstOf Head.timeoutList (n :: l) ≠ timeoutList := by simp [firstOf, timeoutList]
    rw [State.laterLoop, if_pos hne]
    by_cases hlt : (s.tcb t).wakeupTime < (s.tcb n).wakeupTime
    · refine ⟨[], n :: l, rfl, ?_, by simp [Sched.State.insertTimeout, hlt]⟩
      simp [firstOf, withNodes, hkey, hlt]
    · have hl' : s.timeoutList = (l₁ ++ [n]) ++ l := by simpa using hl
      obtain ⟨m₁, m₂, rfl, hloop, hins⟩ := ih hl' (by simpa using hf)
      have hnext : h.next (.inr n) = firstOf .timeoutList (m₁ ++ m₂) := hm.rings.next_node (show listOf s .timeoutList = _ from hl)
      refine ⟨n :: m₁, m₂, rfl, ?_, by simp [Sched.State.insertTimeout, hlt, hins]⟩
      rw [← hloop, ← hnext]
      simp [firstOf, withNodes, hkey, hlt]

theorem schedRegisterTimeout (hm : InMemory h s) (ht : Live s t) {timeout : Nat}
    (he : s.schedRegisterTimeout t timeout clock = some s') (hf : s.timeoutList.length < fuel) :
    Holds ((withNodes s h).schedRegisterTimeout fuel t timeout clock) s' := by
  unfold Sched.State.schedRegisterTimeout at he
  unfold State.schedRegisterTimeout
  by_cases hto : timeout = noTimeout
  · rw [if_neg (not_not.2 hto)] at he ⊢
    obtain rfl := Option.some.inj he
    exact ⟨h, rfl, hm⟩
  · rw [if_pos hto] at he ⊢
    set s₁ := s.setTcb t { s.tcb t with wakeupTime := (clock + timeout) % 2 ^ 64 } with hs₁
    obtain ⟨hl, rfl⟩ : ¬s₁.Linked t ∧ _ = s' := by simpa using he
    have hm₁ : InMemory h s₁ := hm.setTcb t _
    have hl₁ : s₁.timeoutList = [] ++ s₁.timeoutList := rfl
    obtain ⟨m₁, m₂, hl₂, hloop, hins⟩ := hm₁.laterLoop t hl₁ hf
    have hnext : h.next timeoutList = firstOf .timeoutList s₁.timeoutList := hm₁.rings.next_sentinel .timeoutList
    refine ⟨(rlSplice h (h.prev (firstOf .timeoutList m₂)) (schedNode t)).2, ?_, ?_, hm₁.keys⟩
    · have hloop' : (withNodes s₁ h).laterLoop t fuel (h.next timeoutList) = some (firstOf .timeoutList m₂) :=
        hnext ▸ hloop
      show ((withNodes s₁ h).laterLoop t fuel (h.next timeoutList)).bind _ = _
      rw [hloop', Option.bind_some]
      rfl
    · rw [listOf_timeoutList]
      refine hins ▸ ?_
      exact hm₁.rings.insertBefore ht (notMem_listOf hl) hl₂

/-- `rlist_remove(&tcb->sched_node)`. -/
theorem unlink (hm : InMemory h s) (hl : s.Linked t) :
    InMemory (rlistRemove h (schedNode t)).2 (s.unlink t) := by
  obtain ⟨j, hj⟩ := linked_iff.1 hl
  have hlist : listOf (s.unlink t) = update (listOf s) j ((listOf s j).erase t) := by
    funext j'
    have herase : listOf (s.unlink t) j' = (listOf s j').erase t := by cases j' <;> rfl
    rw [herase]
    by_cases hjj : j' = j
    · rw [hjj, Function.update_self]
    · rw [Function.update_of_ne hjj]
      exact List.erase_of_not_mem fun hm' => hjj (hm.rings.one hm' hj)
  refine ⟨?_, hm.keys⟩
  rw [hlist]
  exact hm.rings.remove hj

theorem markReady (hm : InMemory h s) (ht : Live s t) (hp : (s.tcb t).priority < maxPriorities)
    (he : s.markReady t = some s') : Holds ((withNodes s h).markReady t) s' := by
  have hm' := hm.setTcb t { s.tcb t with state := .ready }
  unfold Sched.State.markReady at he
  unfold State.markReady
  by_cases hph : (s.tcb t).phase = .ctxClean
  · rw [if_pos hph] at he
    rw [withNodes_tcb, if_pos hph]
    exact hm'.schedQueueAdd ht (by simpa [Sched.State.setTcb] using hp) he
  · rw [if_neg hph] at he
    rw [withNodes_tcb, if_neg hph]
    obtain rfl := Option.some.inj he
    exact ⟨h, rfl, hm'⟩

theorem schedMakeReady (hm : InMemory h s) (ht : Live s t) (hp : (s.tcb t).priority < maxPriorities)
    (he : s.schedMakeReady t = some s') : Holds ((withNodes s h).schedMakeReady t) s' := by
  rw [Sched.State.schedMakeReady_bind] at he
  rw [State.schedMakeReady_bind]
  obtain ⟨_, hst, he⟩ := Option.bind_eq_some_iff.1 he
  obtain ⟨s₁, hs₁, he⟩ := Option.bind_eq_some_iff.1 he
  have hst : (s.tcb t).state = .stopped ∨ (s.tcb t).state = .init := by simpa using hst
  refine Holds.guard hst ?_
  by_cases hw : (s.tcb t).wakeupTime = noTimeout
  · rw [if_neg (not_not.2 hw)] at hs₁
    rw [withNodes_tcb, if_neg (not_not.2 hw)]
    obtain rfl := Option.some.inj hs₁
    exact hm.markReady ht hp he
  · rw [if_pos hw] at hs₁
    rw [withNodes_tcb, if_pos hw]
    obtain ⟨_, hg, hs₁⟩ := Option.bind_eq_some_iff.1 hs₁
    obtain rfl := Option.some.inj hs₁
    have hg : s.Linked t ∧ (s.tcb t).state = .stopped := by simpa using hg
    have hself : h.next (schedNode t) ≠ schedNode t := by
      rw [ne_eq, schedNode, hm.rings.next_eq_self_iff ht]
      exact fun hn => (linked_iff.1 hg.1).elim hn
    refine Holds.bind (Holds.guard ⟨hself, hg.2⟩ ⟨_, rfl, (hm.unlink hg.1).setTcb t _⟩) fun h₁ hm₁ => ?_
    exact hm₁.markReady ht (by simpa [Sched.State.setTcb] using hp) he

/-! ## `sched_wakeup_expired_timeouts` -/

theorem wakeupExpiredLoop (hm : InMemory h s) (hi : Sched.State.Inv s) {n : Nat} (hn : s.timeoutList.length ≤ n)
    (hf : n < fuel) (he : Sched.State.wakeupExpiredLoop clock n s = some s') :
    Holds (State.wakeupExpiredLoop clock fuel (withNodes s h)) s' := by
  induction n generalizing s h fuel with
  | zero =>
    obtain ⟨fuel, rfl⟩ := Nat.exists_eq_succ_of_ne_zero (Nat.ne_zero_of_lt hf)
    obtain rfl := Option.some.inj he
    have hnil : s.timeoutList = [] := List.eq_nil_of_length_eq_zero (Nat.le_zero.1 hn)
    exact ⟨h, by simp [State.wakeupExpiredLoop, hm.isRlistEmpty_timeoutList, hnil], hm⟩
  | succ n ih =>
    obtain ⟨fuel, rfl⟩ := Nat.exists_eq_succ_of_ne_zero (Nat.ne_zero_of_lt hf)
    cases hl : s.timeoutList with
    | nil =>
      simp only [Sched.State.wakeupExpiredLoop, hl, Option.some.injEq] at he
      subst he
      exact ⟨h, by simp [State.wakeupExpiredLoop, hm.isRlistEmpty_timeoutList, hl], hm⟩
    | cons t l =>
      have hnext : h.next timeoutList = schedNode t := by
        have hs := hm.rings.next_sentinel .timeoutList
        rwa [show listOf s .timeoutList = t :: l from hl] at hs
      have hmem : t ∈ s.timeoutList := by simp [hl]
      have ht : Live s t := hm.rings.live (i := .timeoutList) hmem
      have hst : (s.tcb t).state = .stopped := hi.timeout_stopped (hi.mem_timeout.1 hmem)
      simp only [Sched.State.wakeupExpiredLoop, hl] at he
      simp only [State.wakeupExpiredLoop, withNodes_nodes, hm.isRlistEmpty_timeoutList, hl, hnext, hm.keys t ht,
        withNodes_tcb]
      by_cases hlt : clock < (s.tcb t).wakeupTime
      · rw [if_pos hlt] at he
        obtain rfl := Option.some.inj he
        exact ⟨h, by simp [hlt], hm⟩
      · rw [if_neg hlt, hi.makeReady (.inl hst), Option.bind_some] at he
        have hready := hm.schedMakeReady ht hi.priority_lt (hi.makeReady (.inl hst))
        have hlen : (s.readied t).timeoutList.length ≤ n := by
          have herase : (s.readied t).timeoutList = l := by simp [Sched.State.readied, hl]
          rw [hl, List.length_cons] at hn
          rw [herase]
          omega
        have hgoal := hready.bind (f := State.wakeupExpiredLoop clock fuel) fun h₁ hm₁ =>
          ih hm₁ (hi.readied (.inl hst) ht.1) hlen (by omega) he
        simpa [hlt] using hgoal

/-! ## `sched_queue_select` -/

theorem topLoop (hm : InMemory h s) : ∀ {n : Nat}, n ≤ maxPriorities →
    State.topLoop h n = some (Sched.State.topLevel s.queue n)
  | 0, _ => rfl
  | n + 1, hn => by
    have ih := hm.topLoop (Nat.le_of_succ_le hn)
    rw [State.topLoop, sched_eq hn, Sched.State.topLevel]
    by_cases hq : s.queue n = [] <;> simp [hm.isRlistEmpty_sched hn, hq, ih]

theorem schedQueueSelect (hm : InMemory h s) (c : Fin nc) (cur : Ptr nc) : ∃ h',
    (withNodes s h).schedQueueSelect c cur =
      some ((s.schedQueueSelect c cur).1, withNodes (s.schedQueueSelect c cur).2 h') ∧
    InMemory h' (s.schedQueueSelect c cur).2 := by
  cases hl : Sched.State.topLevel s.queue maxPriorities with
  | none =>
    refine ⟨h, ?_, ?_⟩
    · by_cases hr : (s.tcb cur).state = .ready <;>
        simp [State.schedQueueSelect, Sched.State.schedQueueSelect, hm.topLoop (Nat.le_refl _), hl, hr,
          withNodes_setTcb]
    · simp only [Sched.State.schedQueueSelect, hl]
      exact hm.setTcb _ _
  | some i =>
    obtain ⟨hi, hq⟩ := Sched.State.topLevel_some hl
    obtain ⟨t, rest, hc⟩ := List.exists_cons_of_ne_nil hq
    obtain ⟨hsel, hrings, -⟩ := hm.rings.popFront (show listOf s (.sched ⟨i, hi⟩) = t :: rest from hc)
    have ht : Live s t := hm.rings.live (i := .sched ⟨i, hi⟩) (show t ∈ s.queue i by simp [hc])
    have hkey : (rlistPopFront h (.inl (Head.sched ⟨i, hi⟩))).2.obj (.inr t) = some t := hm.keys t ht
    refine ⟨(rlistPopFront h (.inl (.sched ⟨i, hi⟩))).2, ?_, ?_⟩
    · simp [State.schedQueueSelect, Sched.State.schedQueueSelect, hm.topLoop (Nat.le_refl _), hl, hc, sched_eq hi,
        hsel, hkey]
      rfl
    · simp only [Sched.State.schedQueueSelect, hl, hc]
      have hm' : InMemory (rlistPopFront h (.inl (.sched ⟨i, hi⟩))).2
          { s with queue := update s.queue i rest } := ⟨listOf_queue hi rest ▸ hrings, hm.keys⟩
      exact hm'.setTcb _ _

/-! ## The boost -/

/-- A round of the boost. -/
theorem raise (hm : InMemory h s) (hi : i + 1 < maxPriorities) {rest : List (Ptr nc)} (hq : s.queue i = t :: rest) :
    (rlistPopFront h (.inl (.sched ⟨i, Nat.lt_of_succ_lt hi⟩))).1 = .inr t ∧
      InMemory (rlistPushFront (rlistPopFront h (.inl (.sched ⟨i, Nat.lt_of_succ_lt hi⟩))).2
        (.inl (.sched ⟨i + 1, hi⟩)) (.inr t)) (s.raise i t rest) := by
  have hq' : listOf s (.sched ⟨i, Nat.lt_of_succ_lt hi⟩) = t :: rest := hq
  have ht : Live s t := hm.rings.live (hq' ▸ List.mem_cons_self)
  obtain ⟨hnode, hpop, hout⟩ := hm.rings.popFront hq'
  have hpush := hpop.pushFront ht hout (.sched ⟨i + 1, hi⟩)
  have habove : update (listOf s) (.sched ⟨i, Nat.lt_of_succ_lt hi⟩) rest (.sched ⟨i + 1, hi⟩) =
      s.queue (i + 1) := Function.update_of_ne (by simp) ..
  rw [habove, ← listOf_queue, ← listOf_queue hi] at hpush
  exact ⟨hnode, hpush, hm.keys⟩

theorem boostLoop (hm : InMemory h s) (hinv : Sched.State.Inv s) (hi : i + 1 < maxPriorities) {n : Nat}
    (hn : (s.queue i).length ≤ n) (hf : n < fuel) :
    Holds (State.boostLoop (.inl (.sched ⟨i, Nat.lt_of_succ_lt hi⟩)) (.inl (.sched ⟨i + 1, hi⟩)) fuel (withNodes s h))
      (Sched.State.boostLoop i n s) := by
  induction n generalizing s h fuel with
  | zero =>
    obtain ⟨fuel, rfl⟩ := Nat.exists_eq_succ_of_ne_zero (Nat.ne_zero_of_lt hf)
    have hnil : s.queue i = [] := List.eq_nil_of_length_eq_zero (Nat.le_zero.1 hn)
    exact ⟨h, by simp [State.boostLoop, hm.isRlistEmpty_sched, hnil, Sched.State.boostLoop], hm⟩
  | succ n ih =>
    obtain ⟨fuel, rfl⟩ := Nat.exists_eq_succ_of_ne_zero (Nat.ne_zero_of_lt hf)
    cases hq : s.queue i with
    | nil =>
      refine ⟨h, ?_, ?_⟩
      · simp [State.boostLoop, hm.isRlistEmpty_sched, Sched.State.boostLoop, hq]
      · simpa [Sched.State.boostLoop, hq] using hm
    | cons t rest =>
      obtain ⟨hnode, hm₁⟩ := hm.raise hi hq
      have ht : Live s t := hm.rings.live (i := .sched ⟨i, Nat.lt_of_succ_lt hi⟩) (show t ∈ s.queue i by simp [hq])
      have hkey : (rlistPopFront h (.inl (Head.sched ⟨i, Nat.lt_of_succ_lt hi⟩))).2.obj (.inr t) = some t :=
        hm.keys t ht
      have hlen : ((s.raise i t rest).queue i).length ≤ n := by
        have hrest : (s.raise i t rest).queue i = rest := by simp [Sched.State.raise]
        rw [hq, List.length_cons] at hn
        rw [hrest]
        omega
      have hlt : n < fuel := by omega
      have hgoal := ih hm₁ (hinv.raise hi hq) hlen hlt
      rw [Sched.State.boostLoop_succ i n hq, State.boostLoop, withNodes_nodes, hm.isRlistEmpty_sched, hq]
      simp only [reduceCtorEq, decide_false, Bool.false_eq_true, if_false, hnode, hkey, Option.bind_eq_bind,
        Option.bind_some]
      exact hgoal

/-- A list of threads in use is not longer than the number of threads. -/
theorem length_le_spawned (hi : Sched.State.Inv s) {l : List (Ptr nc)} (hn : l.Nodup)
    (hl : ∀ t ∈ l, (∃ n, t = .thread n) ∧ (s.tcb t).state ≠ .init) : l.length ≤ s.spawned := by
  have hsub : l ⊆ (List.range s.spawned).map .thread := fun t ht => by
    obtain ⟨⟨n, rfl⟩, hst⟩ := hl t ht
    exact List.mem_map_of_mem (List.mem_range.2 (hi.allocated hst))
  simpa using (List.subperm_of_subset hn hsub).length_le

theorem queue_length_le (hi : Sched.State.Inv s) (i : Nat) : (s.queue i).length ≤ s.spawned :=
  length_le_spawned hi hi.queue_nodup fun t ht => by
    obtain ⟨-, hth, hst, -⟩ := hi.mem_queue.1 ht
    exact ⟨hth, by simp [hst]⟩

theorem timeoutList_length_le (hi : Sched.State.Inv s) : s.timeoutList.length ≤ s.spawned :=
  length_le_spawned hi hi.timeout_nodup fun t ht => by
    have hst := hi.timeout_stopped (hi.mem_timeout.1 ht)
    refine ⟨?_, by simp [hst]⟩
    cases t with
    | idle c => rcases hi.idle_state (c := c) with hr | hr <;> rw [hst] at hr <;> cases hr
    | thread n => exact ⟨n, rfl⟩

theorem boostLevels (hm : InMemory h s) (hi : Sched.State.Inv s) (hf : s.spawned < fuel) {n : Nat}
    (hn : n < maxPriorities) : Holds (State.boostLevels fuel n (withNodes s h)) (Sched.State.boostLevels n s) := by
  induction n generalizing s h with
  | zero => exact ⟨h, rfl, hm⟩
  | succ n ih =>
    have hloop := hm.boostLoop hi hn (Nat.le_refl _) (Nat.lt_of_le_of_lt (queue_length_le hi n) hf)
    rw [State.boostLevels, sched_eq (Nat.lt_of_succ_lt hn), sched_eq hn]
    refine hloop.bind fun h₁ hm₁ => ih hm₁ (hi.boostLoop hn _).1 ?_ (Nat.lt_of_succ_lt hn)
    rwa [(Sched.State.boostLoop_untouched n _ s).1.spawned]

theorem boost (hm : InMemory h s) (hi : Sched.State.Inv s) (hf : s.spawned < fuel) :
    Holds ((withNodes s h).boost fuel) s.boost := by
  unfold State.boost Sched.State.boost
  by_cases hy : s.numofYields = maxYields
  · have hy' : (withNodes s h).numofYields = maxYields := hy
    rw [if_pos hy, if_pos hy']
    have hm' : InMemory h { s with numofYields := 0 } := ⟨hm.rings, hm.keys⟩
    exact hm'.boostLevels (hi.setYields 0) hf (by decide)
  · have hy' : (withNodes s h).numofYields ≠ maxYields := hy
    rw [if_neg hy, if_neg hy']
    exact ⟨h, rfl, hm⟩

end InMemory

end TinyOS.Sched.Rings
