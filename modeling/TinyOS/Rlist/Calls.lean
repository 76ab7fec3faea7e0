import TinyOS.Rlist.Walks

/-!
# The list operations and what they are for

`Spec` gives for each operation the rings of its arguments before and after, as sequences, and its result;
`Meets` says that the code ends and does that, and touches nothing else.

- `Call.meets_spec_iff`: it does, but for `rlist_pop_back` on a list of two nodes or more, whose sentinel it detaches, and
  for `rlist_len` on a list of `2 ^ 32` nodes or more, which it counts in an `unsigned int`.
-/

namespace TinyOS.Rlist

variable {P V : Type} {h : Nodes P V} {L a : P} {xs : List P} {before after : List (List P)}

inductive Call (P V : Type)
  | pushFront (list node : P)
  | pushBack (list node : P)
  | popFront (list : P)
  | popBack (list : P)
  | remove (a : P)
  | append (ldest lsrc : P)
  | prepend (ldest lsrc : P)
  | reverse (l : P)
  | len (list : P)
  | equal (L1 L2 : P)
  | find (list : P) (key : V) (fail : Option P)
  deriving DecidableEq, Repr

/-- What an operation returns. -/
inductive Value (P : Type)
  | unit
  | node (p : Option P)
  | size (n : Nat)
  | truth (b : Bool)
  deriving DecidableEq, Repr

variable [DecidableEq P] [DecidableEq V]

namespace Call

/-- The code; `none` if a loop does not end within `fuel` rounds. -/
def run (fuel : Nat) (h : Nodes P V) : Call P V → Option (Value P × Nodes P V)
  | pushFront list node => some (.unit, rlistPushFront h list node)
  | pushBack list node => some (.unit, rlistPushBack h list node)
  | popFront list => let (p, h) := rlistPopFront h list; some (.node p, h)
  | popBack list => let (p, h) := rlistPopBack h list; some (.node p, h)
  | remove a => let (p, h) := rlistRemove h a; some (.node p, h)
  | append ldest lsrc => some (.unit, rlistAppend h ldest lsrc)
  | prepend ldest lsrc => some (.unit, rlistPrepend h ldest lsrc)
  | reverse l => (rlistReverse fuel h l).map fun h => (.unit, h)
  | len list => (rlistLen fuel h list).map fun n => (.size n, h)
  | equal L1 L2 => (rlistEqual fuel h L1 L2).map fun b => (.truth b, h)
  | find list key fail => (rlistFind fuel h list key fail).map fun p => (.node p, h)

/-- What an operation is for. The lists are those after their sentinels. -/
inductive Spec (obj : P → V) : Call P V → List (List P) → List (List P) → Value P → Prop
  | pushFront (L n : P) (xs : List P) : Spec obj (pushFront L n) [L :: xs, [n]] [L :: n :: xs] .unit
  | pushBack (L n : P) (xs : List P) : Spec obj (pushBack L n) [L :: xs, [n]] [L :: xs ++ [n]] .unit
  | popFront (L n : P) (xs : List P) : Spec obj (popFront L) [L :: n :: xs] [L :: xs, [n]] (.node n)
  | popFrontEmpty (L : P) : Spec obj (popFront L) [[L]] [[L]] (.node L)
  | popBack (L n : P) (xs : List P) : Spec obj (popBack L) [L :: xs ++ [n]] [L :: xs, [n]] (.node n)
  | popBackEmpty (L : P) : Spec obj (popBack L) [[L]] [[L]] (.node L)
  | remove (L n : P) (xs ys : List P) : Spec obj (remove n) [L :: xs ++ n :: ys] [L :: xs ++ ys, [n]] (.node n)
  | removeSingleton (n : P) : Spec obj (remove n) [[n]] [[n]] (.node n)
  | append (Ld Ls : P) (xs ys : List P) :
    Spec obj (append Ld Ls) [Ld :: xs, Ls :: ys] [Ld :: xs ++ ys, [Ls]] .unit
  | prepend (Ld Ls : P) (xs ys : List P) :
    Spec obj (prepend Ld Ls) [Ld :: xs, Ls :: ys] [Ld :: ys ++ xs, [Ls]] .unit
  | reverse (L : P) (xs : List P) : Spec obj (reverse L) [L :: xs] [L :: xs.reverse] .unit
  | len (L : P) (xs : List P) : Spec obj (len L) [L :: xs] [L :: xs] (.size xs.length)
  | equal (L1 L2 : P) (xs ys : List P) :
    Spec obj (equal L1 L2) [L1 :: xs, L2 :: ys] [L1 :: xs, L2 :: ys] (.truth (xs.map obj = ys.map obj))
  | find (L : P) (xs : List P) (key : V) (fail : Option P) :
    Spec obj (find L key fail) [L :: xs] [L :: xs] (.node ((xs.find? fun p => obj p = key).or fail))

/-- The operation ends, and makes of the rings and returns what is said. -/
def Meets (h : Nodes P V) (call : Call P V) (before after : List (List P)) (v : Value P) : Prop :=
  ∃ N h', (∀ fuel ≥ N, call.run fuel h = some (v, h')) ∧ Turns h h' before after

/-- The tail of a list is popped only if no other node is left, and a list counted only if an `unsigned int` can
hold its length. -/
def Fits (before : List (List P)) : Call P V → Prop
  | popBack _ => ∀ l ∈ before, l.length ≤ 2
  | len _ => ∀ l ∈ before, l.length ≤ 2 ^ 32
  | _ => True

/-! ## The two that fail -/

theorem popBack_meets_iff (hr : h.Ring (L :: xs ++ [a])) :
    (popBack L).Meets h [L :: xs ++ [a]] [L :: xs, [a]] (.node a) ↔ xs = [] := by
  have hpop : rlistPopBack h L = (a, (rlistPopBack h L).2) := by
    rw [rlistPopBack, hr.prev_eq]
    rfl
  have ht := rlistPopBack_turns hr
  constructor
  · rintro ⟨N, h', hrun, hmeets⟩
    have hrun := hrun N le_rfl
    simp only [run, Option.some.injEq, Prod.mk.injEq] at hrun
    have hL := ht.rings [L] (by simp)
    rw [hrun.2] at hL
    exact (hmeets.rings (L :: xs) (by simp)).circuit.unique hL.circuit
  · rintro rfl
    refine ⟨0, (rlistPopBack h L).2, fun fuel _ => ?_, ht⟩
    rw [run, hpop]

theorem len_meets_iff (hr : h.Ring (L :: xs)) :
    (len L : Call P V).Meets h [L :: xs] [L :: xs] (.size xs.length) ↔ xs.length < 2 ^ 32 := by
  constructor
  · rintro ⟨N, h', hrun, -⟩
    have hrun := hrun (N + xs.length + 1) (by omega)
    rw [run, rlistLen_eq hr (by omega)] at hrun
    simp only [Option.map_some, Option.some.injEq, Prod.mk.injEq, Value.size.injEq] at hrun
    exact hrun.1 ▸ Nat.mod_lt _ (by decide)
  · intro hlt
    refine ⟨xs.length + 1, h, fun fuel hf => ?_, .refl (by simpa using hr)⟩
    rw [run, rlistLen_eq hr (by omega), Nat.mod_eq_of_lt hlt]
    rfl

/-! ## All of them -/

/-- On links that are inverse to each other and lists on different rings, an operation does what it is for exactly
when it fits. -/
theorem meets_spec_iff (h : Nodes P V) (hl : h.Linked) (call : Call P V) (before after : List (List P)) (v : Value P)
    (hs : call.Spec h.obj before after v) (hc : ∀ l ∈ before, Circuit h.next l)
    (hd : before.Pairwise List.Disjoint) : call.Meets h before after v ↔ call.Fits before := by
  have hr : ∀ l ∈ before, h.Ring l := fun l hlb => hl.ring (hc l hlb)
  have hone : ∀ l, before = [l] → h.Ring l := fun l he => hr l (he ▸ List.mem_cons_self)
  have htwo : ∀ l m, before = [l, m] → h.Ring l ∧ h.Ring m ∧ List.Disjoint l m := by
    rintro l m rfl
    exact ⟨hr l (by simp), hr m (by simp), List.pairwise_pair.1 hd⟩
  cases hs with
  | pushFront L n xs =>
    obtain ⟨hL, hn, hd⟩ := htwo _ _ rfl
    exact iff_of_true ⟨0, _, fun _ _ => rfl, rlistPushFront_turns hL hn hd⟩ trivial
  | pushBack L n xs =>
    obtain ⟨hL, hn, hd⟩ := htwo _ _ rfl
    have ht := rlistPushBack_turns hL hn hd
    rw [List.append_nil] at ht
    exact iff_of_true ⟨0, _, fun _ _ => rfl, ht⟩ trivial
  | popFront L n xs =>
    have hL := hone _ rfl
    refine iff_of_true ⟨0, (rlistPopFront h L).2, fun _ _ => ?_, rlistPopFront_turns hL⟩ trivial
    have hn : h.next L = n := hL.circuit.2.1
    rw [run, rlistPopFront, hn]
    rfl
  | popFrontEmpty L =>
    have hL : h.next L = L := circuit_singleton.1 (hone _ rfl).circuit
    refine iff_of_true ⟨0, h, fun _ _ => ?_, .refl hr⟩ trivial
    rw [run, rlistPopFront, hL]
    show some (Value.node (some L), (rlSplice h L L).2) = _
    rw [rlSplice_self]
  | popBack L n xs =>
    rw [popBack_meets_iff (hone _ rfl), Fits, List.forall_mem_singleton]
    simp
  | popBackEmpty L =>
    have hL := hone _ rfl
    have hprev : h.prev L = L := hL.prev_singleton
    refine iff_of_true ⟨0, h, fun _ _ => ?_, .refl hr⟩ (by simp [Fits])
    rw [run, rlistPopBack, hprev]
    show some (Value.node (some L), (rlSplice h L L).2) = _
    rw [rlSplice_self]
  | remove L n xs ys =>
    exact iff_of_true ⟨0, _, fun _ _ => rfl, rlistRemove_turns (hone _ rfl) (by simp)⟩ trivial
  | removeSingleton n =>
    refine iff_of_true ⟨0, h, fun _ _ => ?_, .refl hr⟩ trivial
    show some (Value.node (some n), (rlistRemove h n).2) = _
    rw [rlistRemove_singleton (hone _ rfl)]
  | append Ld Ls xs ys =>
    obtain ⟨hx, hy, hd⟩ := htwo _ _ rfl
    exact iff_of_true ⟨0, _, fun _ _ => rfl, rlistAppend_turns hx hy hd⟩ trivial
  | prepend Ld Ls xs ys =>
    obtain ⟨hx, hy, hd⟩ := htwo _ _ rfl
    exact iff_of_true ⟨0, _, fun _ _ => rfl, rlistPrepend_turns hx hy hd⟩ trivial
  | reverse L xs =>
    have hL := hone _ rfl
    refine iff_of_true ⟨xs.length + 1, h.turned (L :: xs), fun fuel hf => ?_, hL.turned⟩ trivial
    rw [run, rlistReverse_eq hL hf]
    rfl
  | len L xs =>
    rw [len_meets_iff (hone _ rfl), Fits, List.forall_mem_singleton, List.length_cons, Nat.succ_le_iff]
  | equal L1 L2 xs ys =>
    obtain ⟨hx, hy, -⟩ := htwo _ _ rfl
    refine iff_of_true ⟨xs.length + 1, h, fun fuel hf => ?_, .refl hr⟩ trivial
    rw [run, rlistEqual_eq hx hy hf]
    rfl
  | find L xs key fail =>
    refine iff_of_true ⟨xs.length + 1, h, fun fuel hf => ?_, .refl hr⟩ trivial
    rw [run, rlistFind_eq (hone _ rfl) hf]
    rfl

/-- Three nodes on one ring. -/
def triple : Nodes (Fin 3) Nat where
  obj _ := 0
  prev p := p - 1
  next p := p + 1

theorem triple_linked : triple.Linked :=
  ⟨(by decide : ∀ p, triple.prev (triple.next p) = p), (by decide : ∀ p, triple.next (triple.prev p) = p)⟩

theorem triple_circuit : Circuit triple.next [0, 1, 2] := ⟨by decide, rfl, rfl, rfl⟩

theorem popFront_triple :
    (popFront 0).Meets triple [[0, 1, 2]] [[0, 2], [1]] (.node (some 1)) :=
  (meets_spec_iff triple triple_linked (popFront 0) [[0, 1, 2]] [[0, 2], [1]] (.node (some 1)) (.popFront 0 1 [2])
    (by simpa using triple_circuit) (List.pairwise_singleton _ _)).2 trivial

/-- The tail of two nodes is not popped: the list is empty afterwards. -/
theorem popBack_triple :
    triple.Linked ∧ Circuit triple.next [0, 1, 2] ∧
      Spec triple.obj (popBack 0) [[0, 1, 2]] [[0, 1], [2]] (.node (some 2)) ∧
      ¬ (popBack 0).Meets triple [[0, 1, 2]] [[0, 1], [2]] (.node (some 2)) := by
  have hr : triple.Ring (0 :: [1] ++ [2]) := triple_linked.ring triple_circuit
  exact ⟨triple_linked, triple_circuit, .popBack 0 2 [1], fun hm => absurd ((popBack_meets_iff hr).1 hm) (by simp)⟩

end Call

end TinyOS.Rlist
