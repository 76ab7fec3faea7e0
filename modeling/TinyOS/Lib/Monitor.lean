import Mathlib.Data.Fintype.Basic
import Mathlib.Data.List.Nodup
import Mathlib.Logic.Function.Basic
import TinyOS.Lib.Lts

/-!
# Monitors

Threads that share data under one mutex, with condition variables. A program tells what a thread at some place of its
code does in the section that it runs next: it changes the data, wakes up threads, and either leaves the monitor or
waits on a condition. Sections are atomic. A thread in a waitset may be woken up by something else than a signal; it is
in the waitset still, until it has tidied up or a signal has removed it.

- `Wf`: a thread is at most once in at most one waitset, and it does not run while it is in one;
- `Reaches.rule`: what the sections keep, and what does not depend on a thread being in a waitset, holds in every state.
-/

universe u v w x

namespace Monitor

variable {T : Type u} {K : Type v} {D : Type w} {P : Type x}

inductive Wake (K : Type v)
  | signal (k : K)
  | broadcast (k : K)

namespace Wake

def cond : Wake K → K
  | signal k | broadcast k => k

def isBroadcast : Wake K → Bool
  | signal _ => false
  | broadcast _ => true

end Wake

/-- What a section does. -/
structure Outcome (K : Type v) (D : Type w) (P : Type x) where
  data : D
  wakes : List (Wake K)
  next : P
  /-- The thread then waits on this condition. -/
  wait : Option K

/-- The threads' code. -/
structure Program (T : Type u) (K : Type v) (D : Type w) (P : Type x) where
  /-- A thread at that place has a section to run. -/
  ready : P → Bool
  /-- The section; `none` if an assertion fails. -/
  sect : T → P → D → Option (Outcome K D P)

/-! ## Waitsets -/

/-- Remove the threads at the front that are awake already, and the first one that is not. -/
def signal : List (T × Bool) → List (T × Bool)
  | [] => []
  | (_, true) :: l => signal l
  | (_, false) :: l => l

theorem signal_suffix (l : List (T × Bool)) : signal l <:+ l := by
  induction l with
  | nil => exact List.suffix_rfl
  | cons x l ih =>
    obtain ⟨t, b⟩ := x
    cases b with
    | true => exact ih.trans (List.suffix_cons _ _)
    | false => exact List.suffix_cons _ _

/-- What is behind the thread that a signal removes plays no part in it. -/
theorem signal_append {l l₁ l₂ : List (T × Bool)} (h : signal (l ++ l₁) = l₂ ++ l₁) (hne : l₁ ≠ [])
    (l' : List (T × Bool)) : signal (l ++ l') = l₂ ++ l' := by
  induction l with
  | nil =>
    have hlen : (signal l₁).length < l₁.length := by
      cases l₁ with
      | nil => exact absurd rfl hne
      | cons x l₁ =>
        obtain ⟨t, b⟩ := x
        cases b with
        | true => exact Nat.lt_succ_of_le (signal_suffix l₁).length_le
        | false => exact Nat.lt_succ_self _
    rw [List.nil_append] at h
    rw [h, List.length_append] at hlen
    omega
  | cons x l ih =>
    obtain ⟨t, b⟩ := x
    cases b with
    | true => exact ih h
    | false =>
      have hl : l = l₂ := List.append_cancel_right (show l ++ l₁ = l₂ ++ l₁ from h)
      rw [← hl]
      rfl

theorem signal_of_awake {l : List (T × Bool)} (h : ∀ x ∈ l, x.2 = true) (l' : List (T × Bool)) :
    signal (l ++ l') = signal l' := by
  induction l with
  | nil => rfl
  | cons x l ih =>
    obtain ⟨t, b⟩ := x
    obtain rfl : b = true := h (t, b) List.mem_cons_self
    exact ih fun y hy => h y (List.mem_cons_of_mem _ hy)

/-- A signal empties a waitset of one thread. -/
theorem signal_eq_nil {t : T} {l : List (T × Bool)} (hn : (l.map Prod.fst).Nodup) (h : ∀ x ∈ l, x.1 = t) :
    signal l = [] := by
  cases l with
  | nil => rfl
  | cons x l =>
    have hl : l = [] := by
      refine List.eq_nil_iff_forall_not_mem.2 fun y hy => ?_
      have hx := (List.nodup_cons.1 hn).1
      rw [h x List.mem_cons_self, ← h y (List.mem_cons_of_mem x hy)] at hx
      exact hx (List.mem_map_of_mem hy)
    subst hl
    obtain ⟨t', b⟩ := x
    cases b <;> rfl

/-- The thread wakes up. -/
def rouse [DecidableEq T] (t : T) (l : List (T × Bool)) : List (T × Bool) :=
  l.map fun x => if x.1 = t then (t, true) else x

theorem map_fst_rouse [DecidableEq T] (t : T) (l : List (T × Bool)) : (rouse t l).map Prod.fst = l.map Prod.fst := by
  rw [rouse, List.map_map]
  refine List.map_congr_left fun x _ => ?_
  simp only [Function.comp_apply]
  split
  · rename_i h
    exact h.symm
  · rfl

/-- What a wake-up leaves of its waitset. -/
def Wake.left : Wake K → List (T × Bool) → List (T × Bool)
  | .signal _, l => Monitor.signal l
  | .broadcast _, _ => []

section Wake

variable [DecidableEq K]

def Wake.apply (ws : K → List (T × Bool)) : Wake K → K → List (T × Bool)
  | .signal k => Function.update ws k (Monitor.signal (ws k))
  | .broadcast k => Function.update ws k []

def wakeAll (ws : K → List (T × Bool)) (l : List (Wake K)) : K → List (T × Bool) := l.foldl Wake.apply ws

theorem Wake.apply_eq (ws : K → List (T × Bool)) (x : Wake K) :
    x.apply ws = Function.update ws x.cond (x.left (ws x.cond)) := by
  cases x <;> rfl

theorem wakeAll_concat (ws : K → List (T × Bool)) (l : List (Wake K)) (x : Wake K) :
    wakeAll ws (l ++ [x]) = x.apply (wakeAll ws l) :=
  List.foldl_concat ..

theorem Wake.apply_suffix (ws : K → List (T × Bool)) (x : Wake K) (k : K) : x.apply ws k <:+ ws k := by
  cases x with
  | signal k' =>
    by_cases hk : k = k'
    · subst hk
      rw [Wake.apply, Function.update_self]
      exact signal_suffix _
    · rw [Wake.apply, Function.update_of_ne hk]
  | broadcast k' =>
    by_cases hk : k = k'
    · subst hk
      rw [Wake.apply, Function.update_self]
      exact List.nil_suffix
    · rw [Wake.apply, Function.update_of_ne hk]

theorem wakeAll_suffix (ws : K → List (T × Bool)) (l : List (Wake K)) (k : K) : wakeAll ws l k <:+ ws k := by
  induction l generalizing ws with
  | nil => exact List.suffix_rfl
  | cons x l ih => exact (ih _).trans (x.apply_suffix ws k)

/-- Wake-ups leave alone what is behind the threads that they remove. -/
theorem wakeAll_update {ws : K → List (T × Bool)} {l : List (Wake K)} {k : K} {gone kept : List (T × Bool)}
    (hws : ws k = gone ++ kept) (hk : wakeAll ws l k = kept) (hne : kept ≠ []) (kept' : List (T × Bool)) :
    wakeAll (Function.update ws k (gone ++ kept')) l = Function.update (wakeAll ws l) k kept' := by
  induction l generalizing ws gone with
  | nil =>
    have hgone : gone = [] := List.append_cancel_right (hws.symm.trans hk)
    rw [hgone]
    rfl
  | cons x l ih =>
    have hstep : ∀ v, x.apply (Function.update ws k v) =
        if x.cond = k then Function.update (x.apply ws) k (x.left v) else Function.update (x.apply ws) k v := by
      intro v
      rw [x.apply_eq, x.apply_eq]
      split
      · rename_i hx
        subst hx
        simp
      · rename_i hx
        rw [Function.update_of_ne hx, Function.update_comm hx]
    show wakeAll (x.apply (Function.update ws k (gone ++ kept'))) l = _
    have hk' : wakeAll (x.apply ws) l k = kept := hk
    rw [hstep]
    split
    · rename_i hx
      obtain ⟨gone', hgone'⟩ : kept <:+ x.apply ws k := hk' ▸ wakeAll_suffix (x.apply ws) l k
      have hleft : x.left (gone ++ kept) = gone' ++ kept := by
        rw [hgone', ← hws, x.apply_eq, hx, Function.update_self]
      cases x with
      | signal k' =>
        have hsig : signal (gone ++ kept') = gone' ++ kept' := signal_append hleft hne kept'
        show wakeAll (Function.update _ k (signal (gone ++ kept'))) l = _
        rw [hsig]
        exact ih hgone'.symm hk'
      | broadcast k' =>
        have hnil : [] = gone' ++ kept := hleft
        exact absurd (List.append_eq_nil_iff.1 hnil.symm).2 hne
    · rename_i hx
      have hws' : x.apply ws k = gone ++ kept := by rw [x.apply_eq, Function.update_of_ne (Ne.symm hx), hws]
      exact ih hws' hk'

/-- Something else wakes up a thread that they do not remove, -/
theorem wakeAll_rouse [DecidableEq T] {ws : K → List (T × Bool)} {l : List (Wake K)} {k : K} {t : T}
    (hn : ((ws k).map Prod.fst).Nodup) (ht : t ∈ (wakeAll ws l k).map Prod.fst) :
    wakeAll (Function.update ws k (rouse t (ws k))) l =
      Function.update (wakeAll ws l) k (rouse t (wakeAll ws l k)) := by
  obtain ⟨gone, hgone⟩ := wakeAll_suffix ws l k
  have hout : rouse t gone = gone := by
    rw [← hgone, List.map_append] at hn
    have hnot : ∀ x ∈ gone, x.1 ≠ t := fun x hx he =>
      List.disjoint_of_nodup_append hn (List.mem_map_of_mem hx) (he ▸ ht)
    exact (List.map_congr_left fun x hx => if_neg (hnot x hx)).trans (List.map_id' gone)
  have hne : wakeAll ws l k ≠ [] := fun h => by simp [h] at ht
  have hsplit : rouse t (ws k) = gone ++ rouse t (wakeAll ws l k) := by
    rw [← hgone, rouse, List.map_append]
    exact congrArg (· ++ _) hout
  rw [hsplit]
  exact wakeAll_update hgone.symm rfl hne _

/-- and it leaves its waitset. -/
theorem wakeAll_erase [DecidableEq T] {ws : K → List (T × Bool)} {l : List (Wake K)} {k : K} {x : T × Bool}
    (hn : (ws k).Nodup) (hx : x ∈ wakeAll ws l k) :
    wakeAll (Function.update ws k ((ws k).erase x)) l =
      Function.update (wakeAll ws l) k ((wakeAll ws l k).erase x) := by
  obtain ⟨gone, hgone⟩ := wakeAll_suffix ws l k
  have hout : x ∉ gone := fun h => by
    rw [← hgone] at hn
    exact List.disjoint_of_nodup_append hn h hx
  have hsplit : (ws k).erase x = gone ++ (wakeAll ws l k).erase x := by
    rw [← hgone]
    exact List.erase_append_right _ hout
  rw [hsplit]
  exact wakeAll_update hgone.symm rfl (List.ne_nil_of_mem hx) _

/-- A waitset that one of the wake-ups empties is empty after them. -/
theorem wakeAll_eq_nil {ws : K → List (T × Bool)} {l : List (Wake K)} {x : Wake K} {k : K} (hx : x ∈ l)
    (h : ∀ ws' : K → List (T × Bool), ws' k <:+ ws k → x.apply ws' k = []) : wakeAll ws l k = [] := by
  induction l generalizing ws with
  | nil => exact absurd hx List.not_mem_nil
  | cons y l ih =>
    have hy := y.apply_suffix ws k
    rcases List.mem_cons.1 hx with rfl | hx
    · have hs := wakeAll_suffix (x.apply ws) l k
      rw [h ws List.suffix_rfl] at hs
      exact List.suffix_nil.1 hs
    · exact ih hx fun ws' hw => h ws' (hw.trans hy)

/-- A broadcast empties a waitset, -/
theorem wakeAll_of_broadcast {ws : K → List (T × Bool)} {l : List (Wake K)} {k : K} (h : .broadcast k ∈ l) :
    wakeAll ws l k = [] := by
  refine wakeAll_eq_nil h fun ws' _ => ?_
  rw [Wake.apply, Function.update_self]

/-- and so does a signal, if only one thread waits. -/
theorem wakeAll_of_signal {ws : K → List (T × Bool)} {l : List (Wake K)} {k : K} {t : T}
    (hn : ((ws k).map Prod.fst).Nodup) (ht : ∀ x ∈ ws k, x.1 = t) (h : .signal k ∈ l) : wakeAll ws l k = [] := by
  refine wakeAll_eq_nil h fun ws' hw => ?_
  rw [Wake.apply, Function.update_self]
  exact signal_eq_nil ((hw.map Prod.fst).sublist.nodup hn) fun x hx => ht x (hw.subset hx)

end Wake

/-! ## The system -/

structure State (T : Type u) (K : Type v) (D : Type w) (P : Type x) where
  data : D
  pc : T → P
  /-- The threads in the waitset of a condition, first come first, and whether they are awake. -/
  waitset : K → List (T × Bool)

inductive Action (T : Type u) (K : Type v)
  /-- The thread gets the mutex and runs its section. -/
  | run (t : T)
  /-- A thread in a waitset is woken up by something else. -/
  | rouse (t : T) (k : K)
  /-- Such a thread leaves the waitset. -/
  | tidy (t : T) (k : K)

namespace State

/-- The thread is in the waitset of `k`. -/
def Waits (s : State T K D P) (t : T) (k : K) : Prop := t ∈ (s.waitset k).map Prod.fst

instance [DecidableEq T] (s : State T K D P) (t : T) (k : K) : Decidable (s.Waits t k) :=
  inferInstanceAs (Decidable (t ∈ (s.waitset k).map Prod.fst))

variable [DecidableEq T] [DecidableEq K] [Fintype K] (M : Program T K D P)

/-- The state after a section. -/
def after (s : State T K D P) (t : T) (o : Outcome K D P) : State T K D P where
  data := o.data
  pc := Function.update s.pc t o.next
  waitset k := wakeAll s.waitset o.wakes k ++ if o.wait = some k then [(t, false)] else []

/-- The thread has a section to run, and may do so. -/
def CanRun (s : State T K D P) (t : T) : Prop := M.ready (s.pc t) = true ∧ ∀ k, ¬s.Waits t k

instance (s : State T K D P) (t : T) : Decidable (s.CanRun M t) :=
  inferInstanceAs (Decidable (M.ready (s.pc t) = true ∧ ∀ k, ¬s.Waits t k))

def step (s : State T K D P) : Action T K → Option (State T K D P)
  | .run t => if s.CanRun M t then (M.sect t (s.pc t) s.data).map (s.after t) else none
  | .rouse t k =>
    if (t, false) ∈ s.waitset k then
      some { s with waitset := Function.update s.waitset k (rouse t (s.waitset k)) }
    else none
  | .tidy t k =>
    if (t, true) ∈ s.waitset k then
      some { s with waitset := Function.update s.waitset k ((s.waitset k).erase (t, true)) }
    else none

end State

/-- The runs of a program. -/
def sys [DecidableEq T] [DecidableEq K] [Fintype K] (M : Program T K D P) (data : D) (pc : T → P) :
    Lts (State T K D P) (Action T K) :=
  ⟨(· = ⟨data, pc, fun _ => []⟩), State.step M⟩

/-! ## Well-formed waitsets -/

/-- A thread is once in one waitset. -/
structure Wf (s : State T K D P) : Prop where
  nodup : ∀ k, ((s.waitset k).map Prod.fst).Nodup
  unique : ∀ t k k', s.Waits t k → s.Waits t k' → k = k'

variable {M : Program T K D P} {s s' : State T K D P} {t u : T} {k : K} {o : Outcome K D P}

theorem Wf.init (data : D) (pc : T → P) : Wf (⟨data, pc, fun _ => []⟩ : State T K D P) :=
  ⟨fun _ => List.nodup_nil, fun _ _ _ h => absurd h List.not_mem_nil⟩

theorem Wf.of_sublist (h : Wf s) (hs : ∀ k, ((s'.waitset k).map Prod.fst).Sublist ((s.waitset k).map Prod.fst)) :
    Wf s' :=
  ⟨fun k => (hs k).nodup (h.nodup k), fun t k k' hk hk' => h.unique t k k' ((hs k).subset hk) ((hs k').subset hk')⟩

variable [DecidableEq T] [DecidableEq K]

/-- Who waits after a section. -/
theorem waits_after : (s.after t o).Waits u k ↔
    u ∈ (wakeAll s.waitset o.wakes k).map Prod.fst ∨ u = t ∧ o.wait = some k := by
  unfold State.Waits State.after
  rw [List.map_append, List.mem_append]
  split
  · rename_i h
    simp [h]
  · rename_i h
    simp [h]

/-- A section wakes threads up, and puts its own thread in a waitset. -/
theorem waits_of_after (h : (s.after t o).Waits u k) : s.Waits u k ∨ u = t ∧ o.wait = some k := by
  refine (waits_after.1 h).imp_left fun hu => ?_
  exact ((wakeAll_suffix s.waitset o.wakes k).map Prod.fst).subset hu

theorem Wf.after (h : Wf s) (ht : ∀ k, ¬s.Waits t k) : Wf (s.after t o) := by
  constructor
  · intro k
    have hsub : ((wakeAll s.waitset o.wakes k).map Prod.fst).Sublist ((s.waitset k).map Prod.fst) :=
      ((wakeAll_suffix s.waitset o.wakes k).map Prod.fst).sublist
    have hn := hsub.nodup (h.nodup k)
    show (List.map Prod.fst (wakeAll s.waitset o.wakes k ++ _)).Nodup
    rw [List.map_append]
    split
    · refine hn.append (List.nodup_singleton t) ?_
      rw [List.map_singleton, List.disjoint_singleton]
      exact fun hm => ht k (hsub.subset hm)
    · simpa using hn
  · intro u k k' hk hk'
    rcases waits_of_after hk with hk | ⟨hu, hk⟩
    · rcases waits_of_after hk' with hk' | ⟨hu, -⟩
      · exact h.unique u k k' hk hk'
      · exact absurd (hu ▸ hk) (ht k)
    · rcases waits_of_after hk' with hk' | ⟨-, hk'⟩
      · exact absurd (hu ▸ hk') (ht k')
      · exact Option.some.inj (hk.symm.trans hk')

variable [Fintype K]

/-- Steps that are no sections. -/
theorem kept_of_step {a : Action T K} (he : s.step M a = some s') (ha : ∀ t, a ≠ .run t) :
    s'.data = s.data ∧ s'.pc = s.pc ∧ ∀ k, ((s'.waitset k).map Prod.fst).Sublist ((s.waitset k).map Prod.fst) := by
  cases a with
  | run t => exact absurd rfl (ha t)
  | rouse t k =>
    simp only [State.step, Option.ite_none_right_eq_some, Option.some.injEq] at he
    obtain ⟨-, rfl⟩ := he
    refine ⟨rfl, rfl, fun k' => ?_⟩
    by_cases hk : k' = k
    · subst hk
      simp only [Function.update_self]
      rw [map_fst_rouse]
    · simp only [Function.update_of_ne hk]
      exact List.Sublist.refl _
  | tidy t k =>
    simp only [State.step, Option.ite_none_right_eq_some, Option.some.injEq] at he
    obtain ⟨-, rfl⟩ := he
    refine ⟨rfl, rfl, fun k' => ?_⟩
    by_cases hk : k' = k
    · subst hk
      simp only [Function.update_self]
      exact List.erase_sublist.map Prod.fst
    · simp only [Function.update_of_ne hk]
      exact List.Sublist.refl _

theorem run_eq_some : s.step M (.run t) = some s' ↔
    s.CanRun M t ∧ ∃ o, M.sect t (s.pc t) s.data = some o ∧ s' = s.after t o := by
  simp only [State.step, Option.ite_none_right_eq_some, Option.map_eq_some_iff]
  exact and_congr_right fun _ => exists_congr fun _ => and_congr_right fun _ => eq_comm

theorem Wf.step {a : Action T K} (h : Wf s) (he : s.step M a = some s') : Wf s' := by
  by_cases ha : ∃ t, a = .run t
  · obtain ⟨t, rfl⟩ := ha
    obtain ⟨hrun, o, -, rfl⟩ := run_eq_some.1 he
    exact h.after hrun.2
  · exact h.of_sublist (kept_of_step he fun t ht => ha ⟨t, ht⟩).2.2

/-- The proof rule for monitors. -/
theorem Reaches.rule {data : D} {pc : T → P} {I : State T K D P → Prop} (hinit : I ⟨data, pc, fun _ => []⟩)
    (hsect : ∀ s t o, Wf s → I s → s.CanRun M t → M.sect t (s.pc t) s.data = some o → I (s.after t o))
    (hwaits : ∀ s s', I s → s'.data = s.data → s'.pc = s.pc → (∀ t k, s'.Waits t k → s.Waits t k) → I s')
    (h : (sys M data pc).Reaches s) : Wf s ∧ I s := by
  refine Lts.Reaches.invariant (I := fun s => Wf s ∧ I s) (fun s hs => ?_) (fun s a s' hI he => ?_) h
  · subst hs
    exact ⟨Wf.init data pc, hinit⟩
  · refine ⟨hI.1.step he, ?_⟩
    by_cases ha : ∃ t, a = .run t
    · obtain ⟨t, rfl⟩ := ha
      obtain ⟨hrun, o, ho, rfl⟩ := run_eq_some.1 he
      exact hsect s t o hI.1 hI.2 hrun ho
    · obtain ⟨hd, hp, hw⟩ := kept_of_step he fun t ht => ha ⟨t, ht⟩
      exact hwaits s s' hI.2 hd hp fun t k hk => (hw k).subset hk

end Monitor
