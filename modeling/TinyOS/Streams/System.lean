import Mathlib.Algebra.Order.BigOperators.Group.Finset
import TinyOS.Lib.Lts
import TinyOS.Proc.Tree
import TinyOS.Streams.Refs

/-!
# The streams of all processes

The file tables of all processes, and the calls of `sys_Read` and `sys_Write` that are inside a driver. A new process is
in any FREE PCB (`acquire_PCB` takes the first one).

- `step_cases`: what the steps leave behind;
- `Inv`: the blocks are right for the slots and the calls in progress that refer to them, in every state reached
  (`reaches_inv`).
-/

namespace TinyOS.Streams

open Proc

/-- A call of `sys_Read` or `sys_Write` by a thread of `proc`, suspended in the driver. -/
structure Io where
  proc : Pid
  fcb : FcbPtr

structure State where
  pstate : Pid → PidState
  fidt : Pid → Fidt
  files : Files
  calls : List Io

namespace State

def view (s : State) (p : Pid) : View := ⟨s.fidt p, s.files⟩

def setView (s : State) (p : Pid) (v : View) : State :=
  { s with fidt := Function.update s.fidt p v.fidt, files := v.files }

/-! ## Reading and writing -/

/-- `sys_Read` (or `sys_Write`) by `p` up to the method of the driver, which may give up the kernel; all of the call if
there is no such method. `none` if `streamfunc` is a null pointer. -/
def sysIo (s : State) (p : Pid) (write : Bool) (fd : Int) : Option State :=
  match (s.view p).getFcb fd with
  | none => some s
  | some f =>
    (s.files.fcb f).streamfunc.map fun ops =>
      let files := s.files.fcbIncref f
      if ops.hasMethod write then { s with files := files, calls := s.calls ++ [⟨p, f⟩] }
      else { s with files := (files.fcbDecref f).2 }

/-- The method of the driver returns. -/
def finish (s : State) (i : Nat) : Option State :=
  (s.calls[i]?).map fun io => { s with files := (s.files.fcbDecref io.fcb).2, calls := s.calls.eraseIdx i }

/-! ## Processes -/

/-- `sys_Exec` by `cur`, which gets the PCB `p`. -/
def sysExec (s : State) (cur p : Pid) : Option State :=
  if s.pstate p = .free ∧ s.pstate cur = .alive then
    let s := { s with pstate := Function.update s.pstate p .alive }
    some (if p.val ≤ 1 then s else s.setView p ((s.view p).inherit (s.fidt cur) (List.finRange maxFileid)))
  else none

/-- The last thread of `p` exits. -/
def exit (s : State) (p : Pid) : Option State :=
  if s.pstate p = .alive then
    some { s.setView p ((s.view p).cleanup (List.finRange maxFileid)) with
      pstate := Function.update s.pstate p .zombie }
  else none

/-- `release_PCB`. -/
def reap (s : State) (p : Pid) : Option State :=
  if s.pstate p = .zombie then some { s with pstate := Function.update s.pstate p .free } else none

end State

inductive Action
  | exec (cur p : Pid)
  | exit (p : Pid)
  | reap (p : Pid)
  | file (p : Pid) (c : FileCall)
  | io (p : Pid) (write : Bool) (fd : Int)
  | finish (i : Nat)

namespace State

def step (s : State) : Action → Option State
  | .exec cur p => s.sysExec cur p
  | .exit p => s.exit p
  | .reap p => s.reap p
  | .file p c => if s.pstate p = .alive then (c.apply (s.view p)).map (s.setView p) else none
  | .io p write fd => if s.pstate p = .alive then s.sysIo p write fd else none
  | .finish i => s.finish i

/-- After the boot: the processes 0 and 1, and no streams. -/
def boot : State where
  pstate p := if p.val ≤ 1 then .alive else .free
  fidt _ _ := none
  files := Files.init
  calls := []

end State

def system : Lts State Action where
  init s := s = State.boot
  step := State.step

/-! ## Steps -/

namespace State

variable {s s' : State} {p cur : Pid} {f : FcbPtr} {a : Action}

/-- The steps, and what they leave behind. -/
inductive Step (s : State) : Action → State → Prop
  | first {cur p : Pid} : s.pstate p = .free → s.pstate cur = .alive → p.val ≤ 1 →
      Step s (.exec cur p) { s with pstate := Function.update s.pstate p .alive }
  | exec {cur p : Pid} : s.pstate p = .free → s.pstate cur = .alive → 1 < p.val →
      Step s (.exec cur p) ({ s with pstate := Function.update s.pstate p .alive }.setView p
        ((s.view p).inherit (s.fidt cur) (List.finRange maxFileid)))
  | exit {p : Pid} : s.pstate p = .alive →
      Step s (.exit p) { s.setView p ((s.view p).cleanup (List.finRange maxFileid)) with
        pstate := Function.update s.pstate p .zombie }
  | reap {p : Pid} : s.pstate p = .zombie → Step s (.reap p) { s with pstate := Function.update s.pstate p .free }
  | file {p : Pid} {c : FileCall} {v : View} : s.pstate p = .alive → c.apply (s.view p) = some v →
      Step s (.file p c) (s.setView p v)
  | ioFail {p : Pid} (write : Bool) {fd : Int} : (s.view p).getFcb fd = none → Step s (.io p write fd) s
  | io {p : Pid} (write : Bool) {fd : Int} {f : FcbPtr} : (s.view p).getFcb fd = some f →
      Step s (.io p write fd) { s with files := s.files.fcbIncref f, calls := s.calls ++ [⟨p, f⟩] }
  | ioNone {p : Pid} (write : Bool) {fd : Int} {f : FcbPtr} : (s.view p).getFcb fd = some f →
      Step s (.io p write fd) { s with files := ((s.files.fcbIncref f).fcbDecref f).2 }
  | finish {i : Nat} {io : Io} : s.calls[i]? = some io →
      Step s (.finish i) { s with files := (s.files.fcbDecref io.fcb).2, calls := s.calls.eraseIdx i }

theorem step_cases (hs : s.step a = some s') : Step s a s' := by
  cases a with
  | exec cur p =>
    simp only [step, sysExec, Option.ite_none_right_eq_some, Option.some.injEq] at hs
    obtain ⟨⟨hfree, halive⟩, rfl⟩ := hs
    split
    · exact .first hfree halive ‹_›
    · exact .exec hfree halive (Nat.lt_of_not_le ‹_›)
  | exit p =>
    simp only [step, exit, Option.ite_none_right_eq_some, Option.some.injEq] at hs
    obtain ⟨halive, rfl⟩ := hs
    exact .exit halive
  | reap p =>
    simp only [step, reap, Option.ite_none_right_eq_some, Option.some.injEq] at hs
    obtain ⟨hzombie, rfl⟩ := hs
    exact .reap hzombie
  | file p c =>
    simp only [step, Option.ite_none_right_eq_some, Option.map_eq_some_iff] at hs
    obtain ⟨halive, v, hv, rfl⟩ := hs
    exact .file halive hv
  | io p write fd =>
    simp only [step, sysIo, Option.ite_none_right_eq_some] at hs
    obtain ⟨-, hs⟩ := hs
    split at hs
    · obtain rfl := Option.some.inj hs
      exact .ioFail write ‹_›
    · obtain ⟨ops, -, rfl⟩ := Option.map_eq_some_iff.1 hs
      split
      · exact .io write ‹_›
      · exact .ioNone write ‹_›
  | finish i =>
    simp only [step, finish, Option.map_eq_some_iff] at hs
    obtain ⟨io, hio, rfl⟩ := hs
    exact .finish hio

/-! ## References -/

/-- The slots of all processes that point to `f`, and the calls in progress on it. -/
def refs (s : State) (f : FcbPtr) : Nat := (∑ p, slots (s.fidt p) f) + s.calls.countP (·.fcb = f)

/-- Those that are not slots of `p`. -/
def others (s : State) (p : Pid) (f : FcbPtr) : Nat :=
  (∑ q ∈ Finset.univ.erase p, slots (s.fidt q) f) + s.calls.countP (·.fcb = f)

theorem refs_view (s : State) (p : Pid) : s.refs = (s.view p).refs (s.others p) := by
  funext f
  have := Finset.add_sum_erase Finset.univ (fun q => slots (s.fidt q) f) (Finset.mem_univ p)
  simp only [refs, View.refs, view, others]
  omega

theorem others_setView (s : State) (p : Pid) (v : View) : (s.setView p v).others p = s.others p := by
  funext f
  unfold others
  rw [Finset.sum_congr rfl fun q hq => congrArg (slots · f) (Function.update_of_ne (Finset.ne_of_mem_erase hq) _ _)]
  rfl

theorem view_setView (s : State) (p : Pid) (v : View) : (s.setView p v).view p = v := by
  simp [view, setView]

/-- The blocks are right for the references that there are. -/
def Counted (s : State) : Prop := Streams.Counted s.files s.refs [] []

theorem counted_iff (p : Pid) : s.Counted ↔ (s.view p).Kept (s.others p) := by
  unfold Counted View.Kept
  rw [← refs_view]
  exact Iff.rfl

theorem Counted.setView {v : View} (h : v.Kept (s.others p)) : (s.setView p v).Counted := by
  rw [counted_iff p, others_setView, view_setView]
  exact h

/-- The invariant: the tables of PCBs that are not in use are empty. -/
structure Inv (s : State) : Prop where
  counted : s.Counted
  empty : ∀ p, s.pstate p ≠ .alive → s.fidt p = fun _ => none

theorem others_pos {q : Pid} {i : Fid} (hq : q ≠ p) (h : s.fidt q i = some f) : 0 < s.others p f := by
  refine Nat.add_pos_left (Nat.lt_of_lt_of_le (slots_pos h) ?_) _
  exact Finset.single_le_sum (f := fun q => slots (s.fidt q) f) (fun _ _ => Nat.zero_le _)
    (Finset.mem_erase.2 ⟨hq, Finset.mem_univ q⟩)

theorem Inv.sysExec (h : s.Inv) (he : s.sysExec cur p = some s') : s'.Inv := by
  unfold State.sysExec at he
  split at he
  · rename_i hst
    cases he
    have hne : cur ≠ p := by
      rintro rfl
      rw [hst.1] at hst
      cases hst.2
    have hempty : ∀ q, q ≠ p → Function.update s.pstate p PidState.alive q ≠ .alive → s.fidt q = fun _ => none := by
      intro q hq hal
      rw [Function.update_of_ne hq] at hal
      exact h.empty q hal
    have halive : ∀ q, Function.update s.pstate p PidState.alive q ≠ .alive → q ≠ p := by
      rintro q hal rfl
      rw [Function.update_self] at hal
      exact hal rfl
    split
    · exact ⟨h.counted, fun q hq => hempty q (halive q hq) hq⟩
    · have hp : s.fidt p = fun _ => none := h.empty p (by simp [hst.1])
      refine ⟨Counted.setView (s := { s with pstate := _ }) ?_, fun q hq => ?_⟩
      · refine View.inherit_kept ((counted_iff p).1 h.counted) (List.nodup_finRange _) (fun i _ => congrFun hp i) ?_
        exact fun i f hi => others_pos hne hi
      · exact (Function.update_of_ne (halive q hq) _ _).trans (hempty q (halive q hq) hq)
  · cases he

theorem Inv.exit (h : s.Inv) (he : s.exit p = some s') : s'.Inv := by
  unfold State.exit at he
  split at he
  · cases he
    have hk := View.cleanup_kept (l := List.finRange maxFileid) ((counted_iff p).1 h.counted)
    refine ⟨Counted.setView hk, fun q hq => ?_⟩
    by_cases hqp : q = p
    · subst hqp
      show Function.update s.fidt q _ q = _
      rw [Function.update_self]
      exact funext fun i => (View.cleanup_fidt i _ _).trans (if_pos (List.mem_finRange i))
    · refine (Function.update_of_ne hqp _ _).trans (h.empty q fun hal => hq ?_)
      exact (Function.update_of_ne hqp _ _).trans hal
  · cases he

theorem Inv.reap (h : s.Inv) (he : s.reap p = some s') : s'.Inv := by
  unfold State.reap at he
  split at he
  · rename_i hz
    cases he
    refine ⟨h.counted, fun q hq => ?_⟩
    by_cases hqp : q = p
    · exact h.empty q (by simp [hqp, hz])
    · exact h.empty q fun hal => hq ((Function.update_of_ne hqp _ _).trans hal)
  · cases he

theorem refs_pos_of_getFcb {fd : Int} (hf : (s.view p).getFcb fd = some f) : 0 < s.refs f := by
  unfold View.getFcb at hf
  split at hf
  · rw [refs_view s p]
    exact Nat.add_pos_left (slots_pos hf) _
  · cases hf

theorem Inv.sysIo (h : s.Inv) {write : Bool} {fd : Int} (he : s.sysIo p write fd = some s') : s'.Inv := by
  unfold State.sysIo at he
  split at he
  · cases he
    exact h
  · rename_i f hf
    obtain ⟨ops, -, rfl⟩ := Option.map_eq_some_iff.1 he
    have hpos : 0 < s.refs f := refs_pos_of_getFcb hf
    have hinc : Streams.Counted (s.files.fcbIncref f) (fun g => s.refs g + if g = f then 1 else 0) [] [] :=
      h.counted.incref hpos List.not_mem_nil fun _ => rfl
    split
    · refine ⟨?_, h.empty⟩
      have hrefs : State.refs { s with files := s.files.fcbIncref f, calls := s.calls ++ [⟨p, f⟩] } =
          fun g => s.refs g + if g = f then 1 else 0 := by
        funext g
        simp only [refs, List.countP_append, List.countP_singleton, decide_eq_true_eq, eq_comm (a := f), Nat.add_assoc]
      unfold Counted
      rw [hrefs]
      exact hinc
    · have hdec : Streams.Counted ((s.files.fcbIncref f).fcbDecref f).2 s.refs [] [] :=
        hinc.decref (by simp) fun _ => rfl
      exact ⟨hdec, h.empty⟩

theorem Inv.finish (h : s.Inv) {i : Nat} (he : s.finish i = some s') : s'.Inv := by
  unfold State.finish at he
  obtain ⟨io, hio, rfl⟩ := Option.map_eq_some_iff.1 he
  have hrefs : ∀ g, s.refs g = State.refs { s with files := (s.files.fcbDecref io.fcb).2, calls := s.calls.eraseIdx i } g +
      if g = io.fcb then 1 else 0 := by
    intro g
    have := List.countP_eraseIdx_add (p := fun io : Io => decide (io.fcb = g)) hio
    simp only [decide_eq_true_eq, eq_comm (a := io.fcb)] at this
    simp only [refs]
    omega
  refine ⟨h.counted.decref ?_ hrefs, h.empty⟩
  rw [hrefs, if_pos rfl]
  omega

theorem Inv.step (h : s.Inv) (hs : s.step a = some s') : s'.Inv := by
  cases a with
  | exec cur p => exact h.sysExec hs
  | exit p => exact h.exit hs
  | reap p => exact h.reap hs
  | file p c =>
    simp only [State.step] at hs
    split at hs
    · rename_i hal
      obtain ⟨v, hv, rfl⟩ := Option.map_eq_some_iff.1 hs
      refine ⟨Counted.setView (FileCall.apply_kept ((counted_iff p).1 h.counted) hv), fun q hq => ?_⟩
      have hqp : q ≠ p := by rintro rfl; exact hq hal
      exact (Function.update_of_ne hqp _ _).trans (h.empty q hq)
    · cases hs
  | io p write fd =>
    simp only [State.step] at hs
    split at hs
    · exact h.sysIo hs
    · cases hs
  | finish i => exact h.finish hs

theorem boot_inv : boot.Inv := by
  have hrefs : boot.refs = fun _ => 0 := by
    funext f
    simp [refs, boot, slots, countArgs]
  refine ⟨?_, fun p _ => rfl⟩
  unfold Counted
  rw [hrefs]
  refine ⟨by simpa [boot, Files.init] using List.nodup_finRange _, fun f => ?_, fun f hf => ?_, fun f => ?_, fun f hf => ?_,
    fun f hf => ?_⟩
  · simp [boot, Files.init]
  · simp [boot, Files.init]
  · simp [boot, Files.init]
  · cases hf
  · cases hf

theorem reaches_inv (h : system.Reaches s) : s.Inv :=
  Lts.Reaches.invariant (I := Inv) (fun s hs => by cases hs; exact boot_inv) (fun _ _ _ hi hs => hi.step hs) h

end State

end TinyOS.Streams
