import Mathlib.Order.Fin.Basic
import TinyOS.CondVar.MonitorRefines
import TinyOS.Programs.Barrier
import TinyOS.Programs.Symposium

/-!
# The barrier and the table on condition variables

`BarrierSync` and `SymposiumTable_philosopher`, with the calls of `Cond_Wait`, `Cond_Signal` and `Cond_Broadcast` as
`kernel_cc.c` makes them. What holds of the monitors holds here at every step, also in the middle of the calls. A
thread sleeps without cause only while another one has the mutex, and is about to wake it up.
-/

namespace TinyOS.Monitors

open Sched Monitor

variable {T K D P : Type} [DecidableEq T] [DecidableEq K] [Fintype K] {M : Program T K D P} {timeout : P → Nat}
  {data : D} {place : T → P} {s : State T K D P} {a : Monitor.State T K D P}

omit [Fintype K] in
/-- While nobody has the mutex, a thread that sleeps is in the waitset. -/
theorem Represents.waits_of_stopped (hr : Represents M s a) (h : (sys M timeout data place).Reaches s)
    (hm : s.mutex = none) {t : T} {k : K} {p : P} (hp : s.pc t = .asleep k p) (hs : (s.sched t).state = .stopped) :
    a.pc t = p ∧ a.Waits t k := by
  have hi := reaches_inv h
  refine ⟨by rw [hr.place, hp]; rfl, ?_⟩
  have hmem : t ∈ s.waitset k := by
    rcases hi.asleep t k p hp with ha | ⟨-, hrem⟩
    · rcases ha with ha | ha <;> rw [hs] at ha <;> cases ha
    · refine (hi.ring t k).2 ⟨by rw [hp]; rfl, Bool.eq_false_iff.2 fun hr => ?_⟩
      obtain ⟨u, w, r, hu⟩ := hrem hr
      cases hm.symm.trans ((hi.mutex u).2 (by rw [hu]; rfl))
  rw [Monitor.State.Waits, hr.idle fun u => hi.todo_free hm u, map_fst_entries]
  exact hmem

end TinyOS.Monitors

namespace TinyOS.Barrier

open Sched Monitor

/-- The threads `T` synchronise on a fresh barrier. -/
def barrierOnCondVars (T : Type) [DecidableEq T] (n : BitVec 32) :
    Lts (Monitors.State T Unit Bar Place) (Monitors.Action T) :=
  Monitors.sys (callers T n) (fun _ => noTimeout) barrierInit fun _ => .outside 0

/-- **The barrier is safe on condition variables.** -/
theorem barrier_onCondVars {T : Type} [Fintype T] [DecidableEq T] (n : BitVec 32) (hn : Fintype.card T = n.toNat)
    {s : Monitors.State T Unit Bar Place} (h : (barrierOnCondVars T n).Reaches s) :
    (∀ t p, s.pc t = .outside p → s.mutex = none → barrierSync n p s.data ≠ none) ∧
    (∀ k t, k ≤ (s.pc t).next.returned → ∀ u, k ≤ (s.pc u).next.entered) ∧
    ∀ k, s.mutex = none → (∀ u, k ≤ (s.pc u).next.entered) →
      ∀ t p, s.pc t = .asleep () p → (s.sched t).state = .stopped → p.entered ≠ k := by
  obtain ⟨a, ha, hr⟩ := Monitors.monitors_refine _ _ _ _ h
  obtain ⟨R, hR⟩ := exists_rounds hn ha
  refine ⟨fun t p hp hm => ?_, fun k t hk u => ?_, fun k hm hk t p hp hs he => ?_⟩
  · have hpc : a.pc t = p := by rw [hr.place, hp]; rfl
    rw [← hr.data]
    cases p with
    | outside k =>
      have hk := hR.place t
      rw [hpc] at hk
      obtain rfl : k = R := hk
      have hlt := hR.count_lt hn hpc
      have hpos : 0 < n := by bv_omega
      rw [barrierSync, if_pos ⟨hpos, hlt⟩]
      dsimp only
      split <;> exact Option.some_ne_none _
    | waiting k epoch => exact Option.some_ne_none _
  · have hret := (hR.place t).returned_le
    have hent := (hR.place u).entered_cases
    rw [hr.place] at hret hent
    omega
  · obtain ⟨hpc, hw⟩ := hr.waits_of_stopped h hm hp hs
    obtain ⟨u, hu⟩ := hR.late t
    have hku := hk u
    have ht := hR.waits t hw
    rw [← hr.place] at hku
    rw [hpc] at ht
    omega

/-- Nobody is in a call yet, and both threads run. -/
def two : Monitors.State (Fin 2) Unit Bar Place where
  data := barrierInit
  mutex := none
  pc _ := .outside (.outside 0)
  sched _ := ⟨.running, false⟩
  waiter _ := ⟨false, false⟩
  waitset _ := []
  waitsetLock _ := none

theorem two_initial : two.Initial barrierInit fun _ => Place.outside 0 :=
  ⟨rfl, rfl, fun _ => rfl, fun _ => rfl, fun _ => rfl⟩

/-- The first thread sleeps in the ring when the last one comes to wake it up. -/
theorem barrier_onCondVars_two : ∃ s, (barrierOnCondVars (Fin 2) 2).Reaches s ∧
    ((s.sched 0).state = .stopped ∧ s.waitset () = [0] ∧ s.mutex = some 1 ∧ s.waitsetLock () = some 1) ∧
    (∀ t p, s.pc t = .outside p → s.mutex = none → barrierSync 2 p s.data ≠ none) ∧
    (∀ k t, k ≤ (s.pc t).next.returned → ∀ u, k ≤ (s.pc u).next.entered) ∧
    ∀ k, s.mutex = none → (∀ u, k ≤ (s.pc u).next.entered) →
      ∀ t p, s.pc t = .asleep () p → (s.sched t).state = .stopped → p.entered ≠ k := by
  have hrun : ∃ s, (barrierOnCondVars (Fin 2) 2).run two [.run 0, .run 0, .run 0, .run 0, .run 1, .run 1] = some s ∧
      (s.sched 0).state = .stopped ∧ s.waitset () = [0] ∧ s.mutex = some 1 ∧ s.waitsetLock () = some 1 :=
    ⟨_, rfl, by decide⟩
  obtain ⟨s, hs, hfacts⟩ := hrun
  have h := Lts.reaches_of_run (.init two_initial) hs
  exact ⟨s, h, hfacts, barrier_onCondVars 2 rfl h⟩

end TinyOS.Barrier

namespace TinyOS.Symposium

open Sched Monitor

/-- The philosophers at the table that `SymposiumTable_init` has set up. -/
def symposiumOnCondVars (N : ℕ) (bites : ℤ) (outside : ℤ → Phil) :
    Lts (Monitors.State (Fin N) (Fin N) (Fin N → Phil) Place) (Monitors.Action (Fin N)) :=
  Monitors.sys (table N bites outside) (fun _ => noTimeout) (fun _ => .notHere) fun _ => .arriving

/-- **The table is safe on condition variables**, up to `2 ^ 30` philosophers. -/
theorem symposium_onCondVars (N : ℕ) (bites : ℤ) (outside : ℤ → Phil) (hb : N ≤ 2 ^ 30 ∨ bites ≤ 0)
    {s : Monitors.State (Fin N) (Fin N) (Fin N → Phil) Place} (h : (symposiumOnCondVars N bites outside).Reaches s) :
    (2 ≤ N → ∀ i k, Neighbours i k → ¬(s.data i = .eating ∧ s.data k = .eating)) ∧
    (∀ i, s.data i = .hungry → ∃ k, Neighbours i k ∧ s.data k = .eating) ∧
    (∀ i k p, s.mutex = none → s.pc i = .asleep k p → (s.sched i).state = .stopped → k = i ∧ s.data i = .hungry) ∧
    ∀ i p, s.pc i = .outside p → s.mutex = none → philosopher outside bites i p s.data ≠ none := by
  obtain ⟨a, ha, hr⟩ := Monitors.monitors_refine _ _ _ _ h
  have hs := seated_of_reaches hb ha
  rw [← hr.data]
  refine ⟨fun hN i k => hs.neighbours_apart hN, fun i => hs.hungry_caused, fun i k p hm hp hstop => ?_,
    fun i p hp _ => ?_⟩
  · obtain ⟨hik, hh⟩ := hs.own i k (hr.waits_of_stopped h hm hp hstop).2
    exact ⟨hik.symm, hik ▸ hh⟩
  · have hpc : a.pc i = p := by rw [hr.place, hp]; rfl
    rw [← hpc]
    exact hs.philosopher_ne_none outside bites i

/-- All philosophers run. -/
def arrive (N : ℕ) : Monitors.State (Fin N) (Fin N) (Fin N → Phil) Place where
  data _ := .notHere
  mutex := none
  pc _ := .outside .arriving
  sched _ := ⟨.running, false⟩
  waiter _ := ⟨false, false⟩
  waitset _ := []
  waitsetLock _ := none

theorem arrive_initial (N : ℕ) : (arrive N).Initial (fun _ => Phil.notHere) fun _ => Place.arriving :=
  ⟨rfl, rfl, fun _ => rfl, fun _ => rfl, fun _ => rfl⟩

/-- One of two philosophers eats, and the other one sleeps. -/
theorem symposium_onCondVars_two : ∃ s, (symposiumOnCondVars 2 1 fun _ => .eating).Reaches s ∧
    (s.data 0 = .eating ∧ (s.sched 1).state = .stopped ∧ s.waitset 1 = [1] ∧ s.mutex = none) ∧
    (2 ≤ 2 → ∀ i k, Neighbours i k → ¬(s.data i = .eating ∧ s.data k = .eating)) ∧
    (∀ i, s.data i = .hungry → ∃ k, Neighbours i k ∧ s.data k = .eating) ∧
    (∀ i k p, s.mutex = none → s.pc i = .asleep k p → (s.sched i).state = .stopped → k = i ∧ s.data i = .hungry) ∧
    ∀ i p, s.pc i = .outside p → s.mutex = none → philosopher (fun _ => .eating) 1 i p s.data ≠ none := by
  have hrun : ∃ s, (symposiumOnCondVars 2 1 fun _ => .eating).run (arrive 2)
      ([0, 0, 1, 1, 0, 0, 0, 0, 0, 1, 1, 1, 1].map .run) = some s ∧
      s.data 0 = .eating ∧ (s.sched 1).state = .stopped ∧ s.waitset 1 = [1] ∧ s.mutex = none := ⟨_, rfl, by decide⟩
  obtain ⟨s, hs, hfacts⟩ := hrun
  have h := Lts.reaches_of_run (.init (arrive_initial 2)) hs
  exact ⟨s, h, hfacts, symposium_onCondVars 2 1 (fun _ => .eating) (.inl (by decide)) h⟩

end TinyOS.Symposium
