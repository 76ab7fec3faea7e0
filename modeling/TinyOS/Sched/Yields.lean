import TinyOS.Lib.Count
import TinyOS.Sched.Boost

/-!
# When the boost is skipped

`yield` increments `numofYields` before it takes the spinlock, and tests it for equality with `MAX_YIELDS` under the
spinlock. If no core increments it while it is `MAX_YIELDS`, each section of `yield` that has not boosted is paid for by
an increment (`sections_le`); if one does, the test is never met again (`boost_skipped`).
-/

namespace TinyOS.Sched

open State

variable {nc : Nat}

/-- The number of sections of `yield` since the last one that ran the boost. -/
def sinceBoost (s : State nc) (a : Action nc) (_ : State nc) (n : Nat) : Nat :=
  match a with
  | .yieldSection .. => if s.numofYields = maxYields then 0 else n + 1
  | _ => n

/-- The scheduler, and the number of sections of `yield` since the last boost or since boot. -/
def counted (nc : Nat) : Lts (State nc × Nat) (Action nc) := (sys nc).record (fun _ => 0) sinceBoost

namespace State

variable {s s' : State nc} {a : Action nc}

/-- No core starts to yield while `numofYields` is `MAX_YIELDS`. -/
def NoSkip (s : State nc) : Action nc → Prop
  | .yield _ _ => s.numofYields ≠ maxYields
  | _ => True

instance (s : State nc) : ∀ a, Decidable (s.NoSkip a)
  | .yield _ _ => inferInstanceAs (Decidable (_ ≠ _))
  | .spawn | .wakeup _ | .sleep .. | .yieldSection .. | .gain _ => inferInstanceAs (Decidable True)

/-- The cores that have incremented `numofYields` and not run their section yet. -/
def yielding (s : State nc) : Nat := countArgs s.pc Pc.isYielding

theorem yielding_le (s : State nc) : s.yielding ≤ nc := by
  have hle := (Finset.univ.filter fun c => (s.pc c).isYielding = true).card_le_univ
  rwa [Fintype.card_fin] at hle

/-- A core moves on. -/
theorem yielding_update {p p' : Pc} {c : Fin nc} (hp : s.pc c = p) (hpc : s'.pc = Function.update s.pc c p') :
    s'.yielding + (if p.isYielding then 1 else 0) = s.yielding + if p'.isYielding then 1 else 0 := by
  have hupdate := countArgs_update s.pc Pc.isYielding c p'
  rw [hp] at hupdate
  rw [yielding, hpc]
  exact hupdate

/-- Each section since the last boost, and each core that yields, is paid for by an increment of `numofYields`; one more
for each core that was yielding when the boost reset it. -/
structure Paid (x : State nc × Nat) : Prop where
  inv : Inv x.1
  yields_le : x.1.numofYields ≤ maxYields
  paid : (x.2 : Int) + x.1.yielding ≤ x.1.numofYields + nc

theorem boot_paid : Paid (State.boot nc, 0) where
  inv := boot_inv
  yields_le := by
    show (0 : Int) ≤ maxYields
    decide
  paid := by
    have hle := yielding_le (State.boot nc)
    show ((0 : Nat) : Int) + (State.boot nc).yielding ≤ 0 + nc
    omega

/-- **Step lemma.** -/
theorem Paid.step {x y : State nc × Nat} (h : Paid x) (hok : x.1.NoSkip a) (hxy : (counted nc).step x a = some y) :
    Paid y := by
  obtain ⟨s, n⟩ := x
  obtain ⟨s', n'⟩ := y
  obtain ⟨hs, hn⟩ := Lts.record_step.1 hxy
  obtain ⟨hinv, hle, hpaid⟩ := h
  simp only at hs hn hinv hle hpaid hok
  subst hn
  obtain ⟨hen, he⟩ := step_eq_some.1 hs
  obtain ⟨s'', he', hinv'⟩ := hinv.exec hen
  cases he'.symm.trans he
  -- a step that is no part of `yield`
  have hother : s'.numofYields = s.numofYields → s'.yielding = s.yielding → Paid (s', n) := by
    intro hnum hyielding
    refine ⟨hinv', ?_, ?_⟩
    · simpa only [hnum] using hle
    · simpa only [hnum, hyielding] using hpaid
  cases a with
  | spawn =>
    cases he
    exact hother rfl rfl
  | wakeup t =>
    obtain ⟨-, hnum, hpc⟩ := hinv.wakeup_spec he
    exact hother hnum (by rw [yielding, hpc, yielding])
  | sleep c st k timeout clock =>
    obtain ⟨hpc, hni, hst, htime⟩ := hen
    obtain ⟨w, l, hs', -⟩ := hinv.sleepReleasing hpc hni k hst htime
    cases hs'.symm.trans he
    have hpc' : (s.slept c st k w l).pc = Function.update s.pc c (.slept k) := rfl
    exact hother rfl (by simpa [Pc.isYielding] using yielding_update hpc hpc')
  | yield c k =>
    cases he
    have hyielding : State.yielding { s with
        numofYields := s.numofYields + 1, pc := Function.update s.pc c (.yielding k) } = s.yielding + 1 := by
      have hpc' : State.pc { s with
          numofYields := s.numofYields + 1, pc := Function.update s.pc c (.yielding k) } =
            Function.update s.pc c (.yielding k) := rfl
      rcases hen with hpc | hpc <;> simpa [Pc.isYielding] using yielding_update hpc hpc'
    refine ⟨hinv', ?_, ?_⟩
    · have hne : s.numofYields ≠ maxYields := hok
      show s.numofYields + 1 ≤ maxYields
      omega
    · rw [hyielding]
      show (n : Int) + ((s.yielding + 1 : Nat) : Int) ≤ s.numofYields + 1 + nc
      omega
  | yieldSection c remaining clock =>
    simp only [State.exec] at he
    split at he
    · rename_i k hpc
      obtain ⟨-, hnum, hpc'⟩ := hinv.yieldSection_untouched hpc he
      have hyielding := yielding_update hpc hpc'
      simp only [Pc.isYielding, if_true, Bool.false_eq_true, if_false] at hyielding
      by_cases hmax : s.numofYields = maxYields
      · -- the boost: the other cores that yield have paid before it
        rw [if_pos hmax] at hnum
        have hcores := yielding_le s
        refine ⟨hinv', ?_, ?_⟩
        · rw [hnum]
          decide
        · simp only [sinceBoost, hmax, if_true, hnum]
          omega
      · rw [if_neg hmax] at hnum
        refine ⟨hinv', ?_, ?_⟩
        · simpa only [hnum] using hle
        · simp only [sinceBoost, hmax, if_false, hnum]
          omega
    · cases he
  | gain c =>
    obtain ⟨p, s₁, hs₁, -, hg⟩ := hinv.gain hen
    cases hs₁.symm.trans he
    have hyielding := yielding_update hen hg.pc
    exact hother (gain_numofYields he) (by simpa [Pc.isYielding] using hyielding)

end State

/-- **The boost comes in time.** If no core starts to yield while `numofYields` is `MAX_YIELDS`, at most `MAX_YIELDS`
sections of `yield`, and one for each core, have been run since the last boost. -/
theorem sections_le {x : State nc × Nat} (hs : (counted nc).ReachesBy (fun x a => x.1.NoSkip a) x) :
    (x.2 : Int) ≤ maxYields + nc := by
  have h : Paid x := by
    refine hs.invariant (fun x hx => ?_) fun x a y h hok hs => h.step hok hs
    obtain ⟨s, n⟩ := x
    obtain ⟨rfl, rfl⟩ : s = State.boot nc ∧ n = 0 := hx
    exact boot_paid
  have hle := h.yields_le
  have hpaid := h.paid
  omega

/-- Two cores yield one after the other. -/
theorem sections_le_two : ∃ x, (counted 2).ReachesBy (fun x a => x.1.NoSkip a) x ∧ x.2 = 2 ∧
    (x.2 : Int) ≤ maxYields + 2 := by
  have hok : (counted 2).AllSteps (fun x a => x.1.NoSkip a) (State.boot 2, 0)
      [.yield 0 .schedIdle, .yield 1 .schedIdle, .yieldSection 1 0 0, .yieldSection 0 0 0] := by decide +kernel
  have hrun : ((counted 2).run (State.boot 2, 0)
      [.yield 0 .schedIdle, .yield 1 .schedIdle, .yieldSection 1 0 0, .yieldSection 0 0 0]).map Prod.snd = some 2 := by
    decide +kernel
  obtain ⟨x, hx, hn⟩ := Option.map_eq_some_iff.1 hrun
  have hreach := Lts.run_invariant (I := (counted 2).ReachesBy fun x a => x.1.NoSkip a)
    (fun _ _ _ h hok hs => h.step hok hs) (.init (s := (State.boot 2, 0)) ⟨rfl, rfl⟩) hok hx
  exact ⟨x, hreach, hn, sections_le hreach⟩

/-! ## A boost that is skipped -/

/-- Both cores have their idle threads, and core 1 is at `p`. -/
def State.spinning (prev : Fin 2 → Option (Ptr 2)) (p : Pc) (n : Int) : State 2 :=
  { State.boot 2 with
    previous := prev
    pc := Function.update (fun _ => .running) 1 p
    numofYields := n }

/-- Core 0 yields to its own idle thread. -/
def spin : List (Action 2) := [.yield 0 .schedIdle, .yieldSection 0 0 0, .gain 0]

section Spinning

variable (prev : Fin 2 → Option (Ptr 2)) (p : Pc) {n : Int} {m : Nat}

theorem spin_yield (n : Int) : (sys 2).step (spinning prev p n) (.yield 0 .schedIdle) =
    some { spinning prev p (n + 1) with pc := Function.update (spinning prev p n).pc 0 (.yielding .schedIdle) } := by
  refine step_eq_some.2 ⟨.inl ?_, rfl⟩
  simp [spinning]

theorem spin_section (hn : n ≠ maxYields) : (sys 2).step
    { spinning prev p n with pc := Function.update (spinning prev p n).pc 0 (.yielding .schedIdle) }
      (.yieldSection 0 0 0) =
    some { spinning (Function.update prev 0 (some (.idle 0))) p n with
      tcb := Function.update bootTcb (.idle 0) { bootTcb (.idle (0 : Fin 2)) with state := .ready, rts := 0 }
      pc := Function.update (spinning prev p n).pc 0 .switching } := by
  have htop : topLevel (fun _ => ([] : List (Ptr 2))) maxPriorities = none := topLevel_eq_none fun _ _ => rfl
  have hpc : Function.update (spinning prev p n).pc 0 (.yielding .schedIdle) 0 = .yielding .schedIdle :=
    Function.update_self _ _ _
  refine step_eq_some.2 ⟨by simp [Enabled, Pc.isYielding], ?_⟩
  simp only [State.exec, hpc]
  rw [yieldSection_eq]
  simp only [atSelect, left, adjusted, boost, spinning, State.boot, setTcb, hn, if_false, schedWakeupExpiredTimeouts,
    List.length_nil, wakeupExpiredLoop, Option.map_some, schedQueueSelect, htop, adjustPriority, leaveCurrent, bootTcb,
    Function.update_self, Function.update_idem, Function.update_eq_self, if_true]

theorem spin_gain (hprev : prev 0 = some (.idle 0)) (n : Int) : (sys 2).step { spinning prev p n with
    tcb := Function.update bootTcb (.idle 0) { bootTcb (.idle (0 : Fin 2)) with state := .ready, rts := 0 }
    pc := Function.update (spinning prev p n).pc 0 .switching } (.gain 0) = some (spinning prev p n) := by
  refine step_eq_some.2 ⟨by simp [Enabled], ?_⟩
  have hprev' : (spinning prev p n).previous 0 = some (.idle 0) := hprev
  have hcur : (spinning prev p n).current 0 = .idle 0 := rfl
  have htcb : Function.update bootTcb (.idle (0 : Fin 2)) (bootTcb (.idle 0)) = bootTcb := Function.update_eq_self _ _
  have hpc : Function.update (spinning prev p n).pc 0 .running = (spinning prev p n).pc :=
    (Function.eq_update_self_iff.2 (by simp [spinning])).symm
  have hgain : State.gainCurrent { spinning prev p n with
      tcb := Function.update bootTcb (.idle 0) { bootTcb (.idle (0 : Fin 2)) with state := .ready, rts := 0 }
      pc := Function.update (spinning prev p n).pc 0 .switching } 0 =
        { spinning prev p n with
          tcb := Function.update bootTcb (.idle 0) (bootTcb (.idle (0 : Fin 2)))
          pc := Function.update (spinning prev p n).pc 0 .running } := by
    simp only [State.gainCurrent, setTcb, hcur, Function.update_self, Function.update_idem]
    rfl
  rw [htcb, hpc] at hgain
  simp only [State.exec, State.gain, hprev', hcur, ne_eq, not_true_eq_false, if_false]
  exact congrArg some hgain

/-- One round of core 0 that does not find `numofYields` at `MAX_YIELDS`. -/
theorem reaches_spin (hn : n + 1 ≠ maxYields) (h : (counted 2).Reaches (spinning prev p n, m)) :
    (counted 2).Reaches (spinning (Function.update prev 0 (some (.idle 0))) p (n + 1), m + 1) := by
  have h₁ := h.record (spin_yield prev p n)
  have h₂ := h₁.record (spin_section prev p hn)
  have h₃ := h₂.record (spin_gain _ p (Function.update_self _ _ _) (n + 1))
  have hnum : (spinning prev p (n + 1)).numofYields = n + 1 := rfl
  simp only [sinceBoost, hnum, hn, if_false] at h₃
  exact h₃

/-- Rounds of core 0 that do not find `numofYields` at `MAX_YIELDS`. -/
theorem reaches_spins (j : Nat) (hn : ∀ i : Nat, i < j → n + i + 1 ≠ maxYields)
    (h : (counted 2).Reaches (spinning prev p n, m)) :
    ∃ prev', (counted 2).Reaches (spinning prev' p (n + j), m + j) := by
  induction j with
  | zero => exact ⟨prev, by simpa using h⟩
  | succ j ih =>
    obtain ⟨prev', h'⟩ := ih fun i hi => hn i (Nat.lt_succ_of_lt hi)
    have hspin := reaches_spin prev' p (hn j (Nat.lt_succ_self j)) h'
    rw [Int.add_assoc, Nat.add_assoc] at hspin
    exact ⟨_, hspin⟩

end Spinning

theorem boot_spinning : State.boot 2 = spinning (fun _ => none) .running 0 := by
  have hpc : Function.update (fun _ : Fin 2 => Pc.running) 1 .running = fun _ => .running :=
    (Function.eq_update_self_iff.2 rfl).symm
  rw [spinning, hpc]
  rfl

/-- Core 0 yields 1999 times, core 1 starts to yield and core 0 goes on: `numofYields` goes from 2000 to 2001 before
either of them tests it, and the boost does not come. -/
theorem boost_skipped : ¬∀ x, (counted 2).Reaches x → (x.2 : Int) ≤ maxYields + 2 := by
  intro hall
  have hboot : (counted 2).Reaches (spinning (fun _ => none) .running 0, 0) := .init ⟨boot_spinning.symm, rfl⟩
  obtain ⟨prev, h₁⟩ := reaches_spins _ _ 1999 (fun i hi => by simp only [maxYields]; omega) hboot
  have hyield : (sys 2).step (spinning prev .running 1999) (.yield 1 .schedIdle) =
      some (spinning prev (.yielding .schedIdle) 2000) := by
    refine step_eq_some.2 ⟨.inl rfl, ?_⟩
    simp [State.exec, spinning]
  have h₂ : (counted 2).Reaches (spinning prev (.yielding .schedIdle) 2000, 1999) :=
    h₁.record hyield
  obtain ⟨prev', h₃⟩ := reaches_spins _ _ 4 (fun i hi => by simp only [maxYields]; omega) h₂
  have hle := hall _ h₃
  simp only [maxYields] at hle
  omega

end TinyOS.Sched
