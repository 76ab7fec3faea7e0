import TinyOS.Sockets.Requests

/-!
# What `sys_Connect` and `sys_Accept` return

- `Answered.run`: a call of `sys_Connect` that was signalled returns 0, whatever comes between;
- `agree_iff_signals_reach`: the two agree as long as each signal of `sys_Accept` finds the other call waiting.
-/

namespace TinyOS.Sockets

open Streams (Fid)

/-- A call of `sys_Connect` that was signalled, or has returned 0. -/
def Place.answered : Place → Bool
  | .connecting _ _ wake => wake = .signalled
  | .connected _ value => value = 0
  | _ => false

/-- A call of `sys_Connect` that waits. -/
def Place.asleep : Place → Bool
  | .connecting _ _ wake => wake = .asleep
  | _ => false

namespace State

variable {s s' : State} {a : ScbPtr} {c r : CallId} {pl pl' : Place} {act : Action}

/-- What has been returned so far fits, and so will what these calls of `sys_Connect` return. -/
structure Agree (s : State) : Prop where
  connected : ∀ r a, s.calls[r]? = some (.connected a 0) → ∃ (c : CallId) (l b : ScbPtr) (fid : Fid),
    s.calls[c]? = some (.accepted l r b fid true)
  accepted : ∀ (c : CallId) l r b fid linked, s.calls[c]? = some (.accepted l r b fid linked) →
    linked = true ∧ s.calls[r]?.any (·.asleep) = false ∧
      ∀ as s' a v, system.run s as = some s' → s'.calls[r]? = some (.connected a v) → v = 0

/-- If the step is the signal of `sys_Accept`, the call of `sys_Connect` waits for it. -/
def SignalReaches (s : State) : Action → Prop
  | .signal c =>
    match s.calls[c]? with
    | some (.signalling _ r _ _) => s.calls[r]?.any (·.asleep) = true
    | _ => True
  | _ => True

instance (s : State) : ∀ act, Decidable (s.SignalReaches act)
  | .signal c =>
    match h : s.calls[c]? with
    | some (.signalling _ r _ _) => decidable_of_iff (s.calls[r]?.any (·.asleep) = true) (by simp only [SignalReaches, h])
    | none | some (.connecting ..) | some (.accepting ..) | some (.accepted ..) | some (.connected ..) |
      some (.refused ..) => isTrue (by simp only [SignalReaches, h])
  | .socket .. | .listen _ | .accept .. | .connect .. | .shutDown .. | .dup _ | .drop _ | .resume .. | .expire _ =>
    inferInstanceAs (Decidable True)

/-- Call `r` of `sys_Connect` was signalled, or has returned 0. -/
def Answered (s : State) (r : CallId) : Prop := s.calls[r]?.any (·.answered) = true

theorem Moves.answered (h : s.Requests) (hr : s.calls[r]? = some pl) (hm : s.Moves act r pl pl')
    (hpl : pl.answered = true) : pl'.answered = true := by
  cases hm with
  | stay => exact hpl
  | @failed cr wake fid a n _ hcr hfail =>
    obtain rfl : wake = .signalled := by simpa [Place.answered] using hpl
    obtain ⟨adm, hadm, hsig⟩ := h.right r _ hr
    cases hcr.symm.trans hadm
    obtain ⟨rfl, -⟩ := hsig rfl
    simp at hfail
  | connected => rfl
  | woken | loop | accepted | signalled | expired => cases hpl

theorem Answered.step (h : s.Requests) (ha : s.Answered r) (hs : s.step act = some s') : s'.Answered r := by
  obtain ⟨pl, hr, hpl⟩ := (Option.any_eq_true _ _).1 ha
  obtain ⟨pl', hr', hm⟩ := (step_cases hs).moves hr
  exact (Option.any_eq_true _ _).2 ⟨pl', hr', hm.answered h hr hpl⟩

/-- The call of `sys_Connect` can only return 0. -/
theorem Answered.run {as : List Action} (h : s.Requests) (ha : s.Answered r) (hr : system.run s as = some s') :
    s'.Answered r :=
  (Lts.run_keeps (I := fun s => s.Requests ∧ s.Answered r) (fun _ _ _ h hs => ⟨h.1.step hs, h.2.step h.1 hs⟩) ⟨h, ha⟩ hr).2

/-- The calls of `sys_Accept` that have returned a fid have done it for calls that know it. -/
structure Agreeing (s : State) : Prop where
  requests : s.Requests
  answered : ∀ (c : CallId) l r b fid linked, s.calls[c]? = some (.accepted l r b fid linked) → linked = true ∧ s.Answered r

theorem Agreeing.agree (h : s.Agreeing) : s.Agree := by
  refine ⟨fun r a hr => ?_, fun c l r b fid linked hc => ?_⟩
  · obtain hv | ⟨-, c, hc⟩ := h.requests.right r _ hr
    · cases hv
    · obtain ⟨pl, hpl, hserves⟩ := (Option.any_eq_true _ _).1 hc
      cases pl with
      | accepted l r' b fid linked =>
        obtain ⟨rfl, rfl⟩ : r' = r ∧ linked = true := by simpa [Place.serves] using hserves
        exact ⟨c, l, b, fid, hpl⟩
      | _ => cases hserves
  · obtain ⟨hl, ha⟩ := h.answered c l r b fid linked hc
    refine ⟨hl, ?_, fun as s' a v hrun hr => ?_⟩
    · obtain ⟨pl, hr, hpl⟩ := (Option.any_eq_true _ _).1 ha
      rw [hr]
      cases pl with
      | connecting a n wake =>
        obtain rfl : wake = .signalled := by simpa [Place.answered] using hpl
        rfl
      | _ => rfl
    · have hend := ha.run h.requests hrun
      rw [Answered, hr] at hend
      simpa [Place.answered] using hend

/-- What the signal of `sys_Accept` and its return leave behind. -/
theorem Requests.signalled (h : s.Requests) (hs : Step s (.signal c) s') : ∃ l r b fid a,
    s.calls[c]? = some (.signalling l r b fid) ∧ s'.calls[c]? = some (.accepted l r b fid true) ∧ s.Unanswered r a ∧
      s'.calls[r]? = (s.signalConnected r).calls[r]? ∧ s'.cr r = some ⟨true, a⟩ ∧ s'.kernel = none := by
  cases hs with
  | @signal c r l b fid cr t hc hk hcr hu =>
    obtain ⟨-, a, ha, hua, hlinked⟩ := h.right c _ hc
    cases hcr.symm.trans ha
    have hcalls := unref_calls hu
    have hsig : t.calls[c]? = some (.signalling l r b fid) := hcalls ▸ signalConnected_getElem hc (by simp) r
    have hrc : r ≠ c := by
      rintro rfl
      rw [Unanswered, hc] at hua
      cases hua
    have hself : (t.setPlace c (.accepted l r b fid (s.linked a b))).calls[c]? = some (.accepted l r b fid true) :=
      (setPlace_self hsig).trans (by rw [hlinked])
    have hother : (t.setPlace c (.accepted l r b fid (s.linked a b))).calls[r]? = t.calls[r]? :=
      List.getElem?_set_ne (Ne.symm hrc)
    refine ⟨l, r, b, fid, a, hc, hself, hua, hother.trans (by rw [hcalls]), ?_, rfl⟩
    exact (congrFun ((unref_cr hu).trans (signalConnected_cr r)) r).trans ha

theorem Agreeing.step (h : s.Agreeing) (hok : s.SignalReaches act) (hs : s.step act = some s') : s'.Agreeing := by
  refine ⟨h.requests.step hs, fun c l r b fid linked hc => ?_⟩
  have hstep := step_cases hs
  cases hold : s.calls[c]? with
  | none =>
    obtain ⟨-, hb⟩ := hstep.begins hold hc
    cases hb with
    | accept _ _ _ _ hend => rcases hend with ⟨_, he⟩ | he | ⟨_, _, _, he⟩ <;> cases he
  | some pl =>
    obtain ⟨pl', hpl', hm⟩ := hstep.moves hold
    cases hc.symm.trans hpl'
    cases hm with
    | stay =>
      obtain ⟨hl, ha⟩ := h.answered c l r b fid linked hold
      exact ⟨hl, ha.step h.requests hs⟩
    | loop _ hend => rcases hend with ⟨_, he⟩ | he | ⟨_, _, _, he⟩ <;> cases he
    | accepted _ _ _ _ _ he =>
      subst he
      obtain ⟨l', r', b', fid', a, hc', hacc, -, hr, -⟩ := h.requests.signalled hstep
      cases hold.symm.trans hc'
      cases hc.symm.trans hacc
      refine ⟨rfl, ?_⟩
      simp only [SignalReaches, hold] at hok
      obtain ⟨pl, hpl, hasleep⟩ := (Option.any_eq_true _ _).1 hok
      cases pl with
      | connecting a' n wake =>
        obtain rfl : wake = .asleep := by simpa [Place.asleep] using hasleep
        have hsig : (s.signalConnected r).calls[r]? = some (.connecting a' n .signalled) := by
          unfold signalConnected
          rw [hpl]
          exact setPlace_self hpl
        rw [Answered, hr, hsig]
        rfl
      | _ => cases hasleep

theorem Agreeing.not_agree (h : s.Agreeing) (hbad : ¬s.SignalReaches act) (hs : s.step act = some s') : ¬s'.Agree := by
  cases act with
  | signal c =>
    obtain ⟨l, r, b, fid, a, hc, hacc, hua, hr, hcr, hk⟩ := h.requests.signalled (step_cases hs)
    simp only [SignalReaches, hc] at hbad
    obtain ⟨pl, hpl, hun⟩ := (Option.any_eq_true _ _).1 hua
    rw [hpl] at hbad
    have hstay : s'.calls[r]? = some pl := by
      rw [hr]
      refine signalConnected_getElem hpl ?_ r
      rintro a' n rfl
      exact hbad rfl
    intro hagree
    obtain ⟨-, -, hnever⟩ := hagree.accepted c l r b fid true hacc
    cases pl with
    | connected a' v =>
      obtain ⟨-, rfl⟩ : a' = some a ∧ v = -1 := by simpa [Place.unanswered] using hun
      cases hnever [] s' a' (-1) rfl hstay
    | connecting a' n wake =>
      obtain ⟨rfl, hw⟩ : a' = a ∧ wake ≠ .signalled := by simpa [Place.unanswered] using hun
      obtain rfl : wake = .expired := by
        cases wake with
        | asleep => exact absurd rfl hbad
        | signalled => exact absurd rfl hw
        | expired => rfl
      -- the call that has missed the signal goes on
      have hresume : s'.step (.resume r none) =
          some { s'.setPlace r (.connected (some a') (-1)) with cr := Function.update s'.cr r none } := by
        simp [State.step, hk, perform, hstay, connectResume, hcr]
      have hrun : system.run s' [.resume r none] =
          some { s'.setPlace r (.connected (some a') (-1)) with cr := Function.update s'.cr r none } := by
        rw [Lts.run]
        exact Option.bind_eq_some_iff.2 ⟨_, hresume, rfl⟩
      cases hnever _ _ (some a') (-1) hrun (setPlace_self hstay)
    | _ => cases hun
  | _ => exact absurd trivial hbad

theorem boot_agreeing : boot.Agreeing := ⟨boot_requests, fun c l r b fid linked hc => (by cases hc)⟩

end State

/-- **Agreement.** Along a run a call of `sys_Connect` returns 0 exactly when a call of `sys_Accept` has returned a fid connected
to its socket, and no call of `sys_Accept` returns a fid for one that returns -1, exactly when every signal of `sys_Accept`
finds the call of `sys_Connect` waiting. -/
theorem agree_iff_signals_reach {s' : State} {as : List Action} (hr : system.run State.boot as = some s') :
    system.AllStates State.Agree State.boot as ↔ system.AllSteps State.SignalReaches State.boot as :=
  Lts.allStates_iff_allSteps (I := State.Agreeing) (fun _ h => h.agree) (fun _ _ _ h ha hs => h.step ha hs)
    (fun _ _ _ h ha hs => h.not_agree ha hs) State.boot_agreeing hr

/-- A client that is accepted in time. -/
theorem agree_iff_signals_reach_accepted :
    let fid : Option Fid := some ⟨0, by decide⟩
    let as := [.socket 5 fid, .listen (some 0), .socket 0 fid, .connect (some 1) 5 100, .accept (some 0) fid, .signal 1,
      .resume 0 none]
    system.AllStates State.Agree State.boot as := by
  intro fid as
  obtain ⟨s', hr⟩ : ∃ s', system.run State.boot as = some s' := Option.isSome_iff_exists.1 (by decide +kernel)
  exact (agree_iff_signals_reach hr).2 (by decide +kernel)

/-- The call of `sys_Connect` has timed out and returned -1 when `sys_Accept` takes its request and returns a fid. -/
theorem accepted_after_timeout :
    let fid : Option Fid := some ⟨0, by decide⟩
    ∃ s, system.run State.boot [.socket 5 fid, .listen (some 0), .socket 0 fid, .connect (some 1) 5 100, .expire 0,
        .resume 0 none, .accept (some 0) fid, .signal 1] = some s ∧
      s.calls = [.connected (some 1) (-1), .accepted 0 0 2 ⟨0, by decide⟩ true] ∧ ¬s.Agree := by
  intro fid
  refine ⟨_, rfl, rfl, fun h => ?_⟩
  cases (h.accepted 1 0 0 2 ⟨0, by decide⟩ true rfl).2.2 [] _ (some 1) (-1) rfl rfl

end TinyOS.Sockets
