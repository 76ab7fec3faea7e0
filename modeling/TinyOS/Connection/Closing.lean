import TinyOS.Connection.Steps

/-!
# Closing the two pipes

- `safe_iff_orderly`: when no call uses a pointer that is `NULL` or a pipe that was freed;
- `freed_iff_second_shut`: when both pipes are freed after both sockets have been closed.
-/

namespace TinyOS.Connection

open Sockets (PipePtr)
open Sockets.State (ShutdownMode)

/-! ## A connection -/

/-- `sys_Accept` on socket 0 has got the request of socket 1, and is at its `kernel_signal`. -/
def accepting : Sockets.State :=
  (Sockets.system.run Sockets.State.boot [.socket 5 (some ⟨0, Streams.zero_lt_maxFileid⟩),
    .listen (some 0), .socket 0 (some ⟨1, Streams.one_lt_maxFileid⟩), .connect (some 1) 5 100,
    .accept (some 0) (some ⟨2, Streams.two_lt_maxFileid⟩)]).get (by decide +kernel)

theorem accepting_signal : (accepting.step (.signal 1)).isSome := by decide +kernel

/-- Sockets 1 and 2, as `sys_Accept` leaves them. -/
def accepted : State :=
  .new ((accepting.step (.signal 1)).get accepting_signal) fun
    | .client => 1
    | .server => 2

theorem accepted_init : connection.init accepted := by
  refine ⟨accepting, _, _, Lts.reaches_of_run (.init rfl) (Option.some_get _).symm, ?_, rfl⟩
  exact ⟨1, 0, 0, ⟨2, by decide⟩, ⟨true, 1⟩, by decide +kernel, by decide +kernel, rfl, (Option.some_get _).symm,
    by decide +kernel, by decide +kernel⟩

namespace State

variable {s : State} {a : Action} {w : Side → PipePtr}

/-! ## Use after closing -/

/-- If the action can be next, no pointer that it uses is `NULL` or to a pipe that was freed, and `sys_ShutDown` returns 0
for its three modes. -/
def Safe (s : State) (a : Action) : Prop :=
  s.Enabled a → (s.perform a).isSome ∧
    match a with
    | .shutDown x how => how ≠ .other → (s.shutDown x how).map Prod.fst = some 0
    | _ => True

instance (s : State) : ∀ a, Decidable (s.Safe a)
  | .shutDown .. => inferInstanceAs (Decidable (_ → _ ∧ (_ → _)))
  | .call .. | .run | .resume _ | .leave | .dup _ | .drop _ => inferInstanceAs (Decidable (_ → _ ∧ True))

theorem Tied.safe_iff (h : s.Tied w) : s.Safe a ↔ (s.Enabled a → s.Orderly a) := by
  constructor
  · intro hsafe he
    by_contra ho
    have hsome := (hsafe he).1
    rw [h.perform_eq_none he ho] at hsome
    cases hsome
  · intro ho he
    obtain ⟨t, ht, -⟩ := h.perform he (ho he)
    refine ⟨by rw [ht]; rfl, ?_⟩
    cases a with
    | shutDown x how =>
      intro hne
      obtain ⟨t, ht, -⟩ := h.shutDown he.2 (ho he)
      rw [ht]
      cases how with
      | other => exact absurd rfl hne
      | _ => rfl
    | _ => trivial

end State

/-- **Use of pipe ends.** In a sequence of calls on a new connection no pointer to a pipe is `NULL` and no pipe has been freed
where the calls use it, and `sys_ShutDown` returns 0, exactly when each action is orderly where it is next. -/
theorem safe_iff_orderly {s : State} (hs : connection.init s) (as : List Action) :
    connection.AllSteps State.Safe s as ↔ connection.AllSteps (fun s a => s.Enabled a → s.Orderly a) s as := by
  have hstep : ∀ {ok : State → Action → Prop} s a s', (∃ w, s.Tied w) → ok s a → connection.step s a = some s' →
      ∃ w, s'.Tied w := fun _ _ _ ⟨w, hw⟩ _ hs => ⟨w, (hw.step hs).2⟩
  have htied := State.init_tied hs
  constructor
  · exact Lts.allSteps_of_allSteps (I := fun s => ∃ w, s.Tied w) hstep (fun _ _ ⟨_, hw⟩ => hw.safe_iff.1) htied
  · exact Lts.allSteps_of_allSteps (I := fun s => ∃ w, s.Tied w) hstep (fun _ _ ⟨_, hw⟩ => hw.safe_iff.2) htied

/-- The server shuts down its writing end, the client finds the end of the data, and both are closed. -/
theorem safe_iff_orderly_closed :
    let as := [.shutDown .server .write, .call .client .reader 1 (fun _ => 0), .run, .run, .run, .leave, .drop .client,
      .drop .server]
    (connection.run accepted as).isSome ∧ connection.AllSteps State.Safe accepted as := by
  intro as
  exact ⟨by decide +kernel, (safe_iff_orderly accepted_init as).2 (by decide +kernel)⟩

/-- The second `SHUTDOWN_WRITE` passes `NULL` to `pipe_writer_close`. -/
theorem second_shutdown_fails : ∃ s, connection.init s ∧
    ¬connection.AllSteps State.Safe s [.shutDown .client .write, .shutDown .client .write] :=
  ⟨accepted, accepted_init, by decide +kernel⟩

namespace State

variable {s s' : State} {w : Side → PipePtr} {x : Side} {a : Action}

/-! ## What is left of the pipes -/

/-- `peer_s.write_pipe` of `x` is `p`. -/
def Writes (s : State) (x : Side) (p : PipePtr) : Prop :=
  ∃ z peer r, s.sockets.scb.get (s.scb x) = some z ∧ z.variant = .peer peer (some p) r

theorem new_tied_of_writes (hs : connection.init s) (hw : ∀ x, s.Writes x (w x)) : s.Tied w := by
  obtain ⟨v, hv⟩ := init_tied hs
  obtain ⟨a, b, scb, -, -, rfl⟩ := hs
  have heq : v = w := by
    funext x
    obtain ⟨z, peer, r, hz, hzv⟩ := hw x
    obtain ⟨z', hz', -, -, hv'⟩ := hv.ends.socket x (by simp [State.new])
    cases hz.symm.trans hz'
    have hends := hzv.symm.trans hv'
    simp only [ends, State.new, List.not_mem_nil, or_self, if_false, Sockets.Variant.peer.injEq, Option.some.injEq] at hends
    exact hends.2.1.symm
  rwa [heq] at hv

theorem Tied.freed_iff (h : s.Tied w) (x : Side) : s.sockets.pipe.get (w x) = none ↔ ∀ e, s.Ended x e := by
  refine ⟨fun hnone => ?_, fun hall => (h.ends.pipe x).get_eq_none hall⟩
  by_contra hne
  obtain ⟨z, hz, -⟩ := (h.ends.pipe x).get_some hne
  cases hz.symm.trans hnone

/-- After `x` was closed, and the other socket after it. -/
theorem Tied.all_freed_iff (h : s.Tied w) (hx : s.closed.head? = some x) : (∀ y, s.sockets.pipe.get (w y) = none) ↔
    (x.other, .write) ∈ s.shut ∧ ((x.other, .read) ∈ s.shut ∨ (x.other, .both) ∈ s.shut) := by
  have hne : ¬s.closed.head? = some x.other := by simp [hx]
  have hself : s.sockets.pipe.get (w x) = none ↔ (x.other, .read) ∈ s.shut ∨ (x.other, .both) ∈ s.shut := by
    rw [h.freed_iff]
    constructor
    · intro hall
      simpa [Ended, ReaderClosed, hne] using hall .reader
    · intro hr e
      cases e with
      | writer => exact .inr hx
      | reader => simpa [Ended, ReaderClosed, hne] using hr
  have hother : s.sockets.pipe.get (w x.other) = none ↔ (x.other, .write) ∈ s.shut := by
    rw [h.freed_iff]
    constructor
    · intro hall
      exact (hall .writer).resolve_right hne
    · intro hr e
      cases e with
      | writer => exact .inl hr
      | reader => exact .inr (.inr (by simpa using hx))
  constructor
  · intro hall
    exact ⟨hother.1 (hall _), hself.1 (hall x)⟩
  · rintro ⟨hw, hr⟩ y
    obtain rfl | rfl := x.eq_or_eq_other y
    · exact hself.2 hr
    · exact hother.2 hw

/-- The calls of `sys_ShutDown` among the actions. -/
def shutDowns (as : List Action) : List (Side × ShutdownMode) :=
  as.filterMap fun
    | .shutDown x how => some (x, how)
    | _ => none

theorem step_grows (hs : s.step a = some s') : s'.shut = s.shut ++ shutDowns [a] ∧ s.closed <+: s'.closed := by
  have hdecref : ∀ u x, State.fcbDecref u x = some s' → s'.shut = u.shut ∧ u.closed <+: s'.closed := by
    intro u x hu
    obtain ⟨b, -, rfl⟩ := Option.map_eq_some_iff.1 hu
    refine ⟨rfl, ?_⟩
    dsimp only
    split
    · exact List.prefix_rfl
    · exact List.prefix_append _ _
  have hsame : s'.shut = s.shut → s.closed <+: s'.closed → s'.shut = s.shut ++ [] ∧ s.closed <+: s'.closed :=
    fun hshut hclosed => ⟨hshut.trans (List.append_nil _).symm, hclosed⟩
  obtain ⟨he, hp⟩ := step_eq_some.1 hs
  cases a with
  | call x e n buf =>
    obtain ⟨y, -, hp⟩ := Option.bind_eq_some_iff.1 hp
    obtain ⟨ptr, -, hp⟩ := Option.bind_eq_some_iff.1 hp
    cases ptr with
    | none =>
      cases hp
      exact hsame rfl List.prefix_rfl
    | some p =>
      obtain ⟨z, -, rfl⟩ := Option.map_eq_some_iff.1 hp
      exact hsame rfl List.prefix_rfl
  | run =>
    obtain ⟨t, hk⟩ := he
    simp only [perform, hk] at hp
    obtain ⟨z, -, hp⟩ := Option.bind_eq_some_iff.1 hp
    obtain ⟨c, -, rfl⟩ := Option.map_eq_some_iff.1 hp
    exact hsame rfl List.prefix_rfl
  | resume t =>
    cases hp
    exact hsame rfl List.prefix_rfl
  | leave =>
    obtain ⟨t, hk⟩ := he
    simp only [perform, hk] at hp
    obtain ⟨hshut, hclosed⟩ := hdecref _ _ hp
    exact hsame hshut hclosed
  | shutDown x how =>
    obtain ⟨r, hr, rfl⟩ := Option.map_eq_some_iff.1 hp
    obtain ⟨r', -, rfl⟩ := Option.map_eq_some_iff.1 hr
    exact ⟨rfl, List.prefix_rfl⟩
  | dup x =>
    cases hp
    exact hsame rfl List.prefix_rfl
  | drop x =>
    obtain ⟨hshut, hclosed⟩ := hdecref _ _ hp
    exact hsame hshut hclosed

/-- `shut` holds the calls of `sys_ShutDown` of the run. -/
theorem run_shut {as : List Action} (hr : connection.run s as = some s') : s'.shut = s.shut ++ shutDowns as := by
  induction as generalizing s with
  | nil =>
    cases hr
    exact (List.append_nil _).symm
  | cons a as ih =>
    obtain ⟨u, hu, hr⟩ := Lts.run_cons hr
    rw [ih hr, (step_grows hu).1, List.append_assoc]
    exact congrArg _ (List.filterMap_append (l := [a])).symm

end State

/-- **Tear-down.** When both sockets of a connection have been closed, both of its pipes have lost both ends and been freed
exactly if the socket that was closed second had been shut down for writing, and for reading by either of the two modes. -/
theorem freed_iff_second_shut {s s' : State} {w : Side → PipePtr} {as : List Action} (hs : connection.init s)
    (hw : ∀ x, s.Writes x (w x)) (hr : connection.run s as = some s') (hclosed : ∀ x, x ∈ s'.closed) :
    (∀ x, s'.sockets.pipe.get (w x) = none) ↔ ∃ x, s'.closed.head? = some x ∧ (x.other, .write) ∈ State.shutDowns as ∧
      ((x.other, .read) ∈ State.shutDowns as ∨ (x.other, .both) ∈ State.shutDowns as) := by
  have hshut : s'.shut = State.shutDowns as := by
    obtain ⟨_, _, _, -, -, rfl⟩ := hs
    exact State.run_shut hr
  rw [← hshut]
  have htied : s'.Tied w := Lts.run_keeps (I := fun s => s.Tied w) (fun _ _ _ h hs => (h.step hs).2)
    (State.new_tied_of_writes hs hw) hr
  obtain ⟨x, hx⟩ : ∃ x, s'.closed.head? = some x := by
    cases hl : s'.closed with
    | nil => simpa [hl] using hclosed .client
    | cons x l => exact ⟨x, rfl⟩
  constructor
  · intro hall
    exact ⟨x, hx, (htied.all_freed_iff hx).1 hall⟩
  · rintro ⟨y, hy, hshut⟩
    exact (htied.all_freed_iff hy).2 hshut

/-- The pipes of `accepted`. -/
theorem accepted_writes (x : Side) : accepted.Writes x (State.wiring 0 1 x) := by
  have hz : (accepted.sockets.scb.get (accepted.scb x)).map (·.variant) =
      some (.peer (some (accepted.scb x.other)) (some (State.wiring 0 1 x)) (some (State.wiring 0 1 x.other))) := by
    cases x <;> decide +kernel
  obtain ⟨z, hz, hv⟩ := Option.map_eq_some_iff.1 hz
  exact ⟨z, _, _, hz, hv⟩

/-- The server shuts down both directions one after the other, and is closed second. -/
theorem freed_iff_second_shut_server : ∃ s', connection.run accepted [.shutDown .server .write, .shutDown .server .read,
    .drop .client, .drop .server] = some s' ∧ ∀ x, s'.sockets.pipe.get (State.wiring 0 1 x) = none := by
  have hrun : (connection.run accepted [.shutDown .server .write, .shutDown .server .read, .drop .client,
      .drop .server]).map (·.closed) = some [.client, .server] := by decide +kernel
  obtain ⟨s', hs, hclosed⟩ := Option.map_eq_some_iff.1 hrun
  refine ⟨s', hs, (freed_iff_second_shut accepted_init accepted_writes hs ?_).2 ⟨.client, ?_⟩⟩
  · intro x
    rw [hclosed]
    cases x <;> decide
  · rw [hclosed]
    decide

/-- Both sockets are closed, and both pipes are still there. -/
theorem pipes_left : ∃ s s', connection.init s ∧ connection.run s [.drop .client, .drop .server] = some s' ∧
    s'.closed = [.client, .server] ∧ (s'.sockets.pipe.get 0).isSome ∧ (s'.sockets.pipe.get 1).isSome ∧
      s.Writes .client 0 ∧ s.Writes .server 1 := by
  have hrun : (connection.run accepted [.drop .client, .drop .server]).map (fun s =>
      (s.closed, (s.sockets.pipe.get 0).isSome, (s.sockets.pipe.get 1).isSome)) =
        some ([.client, .server], true, true) := by decide +kernel
  obtain ⟨s', hs, he⟩ := Option.map_eq_some_iff.1 hrun
  obtain ⟨hclosed, he⟩ := Prod.mk.inj he
  obtain ⟨hp, hq⟩ := Prod.mk.inj he
  exact ⟨accepted, s', accepted_init, hs, hclosed, hp, hq, accepted_writes .client, accepted_writes .server⟩

end TinyOS.Connection
