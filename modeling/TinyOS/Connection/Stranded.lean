import TinyOS.Connection.Channels

/-!
# Shutting down under a call that waits

While both sockets stay open, the calls of `sys_ShutDown` leave no call in a waitset of a pipe that they have shut
down, nor in a pipe that they have freed, exactly when each step `Spares` the calls that wait
(`unstranded_iff_spares`): `pipe_reader_close` does not broadcast `has_data`, `SHUTDOWN_BOTH` leaves the writing end
open, and the end that is closed second takes the pipe away from under the calls on it.
-/

namespace TinyOS.Connection

open Sockets (PipePtr)
open Sockets.State (ShutdownMode)
open Pipe (End Call PipeCB)

/-- An end of a pipe that has been closed, or not. -/
theorem PipeIs.any_isOpen {k : Heap PipeCB} {p : PipePtr} {closed : End → Prop} (h : PipeIs k p closed) (e : End) :
    (k.get p).any (·.isOpen e) = true ↔ ¬closed e := by
  unfold PipeIs at h
  cases hz : k.get p with
  | none =>
    rw [hz] at h
    simpa using h e
  | some z =>
    rw [hz] at h
    exact h.2 e

/-- One end of a pipe is closed, and the pipe is still there. -/
theorem PipeIs.any_isOpen_peer {k : Heap PipeCB} {p : PipePtr} {closed : End → Prop} (h : PipeIs k p closed) (e : End) :
    ((k.get p).any fun x => !x.isOpen e && x.isOpen (Pipe.State.peer e)) = true ↔
      closed e ∧ ¬closed (Pipe.State.peer e) := by
  unfold PipeIs at h
  cases hz : k.get p with
  | none =>
    rw [hz] at h
    simp [h]
  | some z =>
    rw [hz] at h
    simp only [Option.any_some, Bool.and_eq_true, Bool.not_eq_true', h.2 (Pipe.State.peer e), and_congr_left_iff]
    intro _
    rw [← Bool.not_eq_true, h.2 e, not_not]

namespace State

variable {s s' u : State} {w : Side → PipePtr} {x y : Side} {a : Action} {t : Transfer} {c : Call} {p : PipePtr}
  {e : End} {b : Sockets.State} {how : ShutdownMode}

/-! ## Calls that wait -/

/-- A call is in the waitset of `p` that belongs to end `e`: `has_data` for the reader, `has_space` for the writer. -/
def Waiting (s : State) (p : PipePtr) (e : End) : Prop := ∃ c ∈ (s.chan p).calls, c.stream = e ∧ c.place = .asleep

/-- `sys_ShutDown` has been told to shut down end `e` of the pipe that `x` writes to. -/
def ShutDownEnd (s : State) (x : Side) : End → Prop
  | .writer => (x, .write) ∈ s.shut ∨ (x, .both) ∈ s.shut
  | .reader => (x.other, .read) ∈ s.shut ∨ (x.other, .both) ∈ s.shut

/-- No call waits where it should not, and no pipe has been freed with a call inside. -/
structure Unstranded (s : State) (w : Side → PipePtr) : Prop where
  hasData : ∀ x e, s.ShutDownEnd x e → ¬s.Waiting (w x) .reader
  hasSpace : ∀ x, s.ShutDownEnd x .reader → ¬s.Waiting (w x) .writer
  freed : ∀ x, s.sockets.pipe.get (w x) = none → (s.chan (w x)).calls = []

/-- The step strands no call. -/
def Spares (w : Side → PipePtr) (s : State) : Action → Prop
  | .shutDown x how =>
    (how = .read ∨ how = .both →
      ¬s.Waiting (w x.other) .reader ∧ ((x.other, .write) ∈ s.shut → (s.chan (w x.other)).calls = [])) ∧
    (how = .both → ¬s.Waiting (w x) .reader) ∧
    (how = .write → s.ShutDownEnd x .reader → (s.chan (w x)).calls = [])
  | .run =>
    match s.kernel with
    | .running t => ∀ c ∈ s.find t, c.stream = .reader → c.place = .inner → ∀ z ∈ s.sockets.pipe.get t.pipe,
        z.Empty → z.isOpen .writer = true → ¬s.ShutDownEnd t.side.other .reader ∧ ¬s.ShutDownEnd t.side.other .writer
    | _ => True
  | _ => True

instance (s : State) (p : PipePtr) (e : End) : Decidable (s.Waiting p e) :=
  inferInstanceAs (Decidable (∃ c ∈ _, _ ∧ _))

instance (s : State) (x : Side) : ∀ e, Decidable (s.ShutDownEnd x e)
  | .writer | .reader => inferInstanceAs (Decidable (_ ∨ _))

instance (w : Side → PipePtr) (s : State) : ∀ a, Decidable (s.Spares w a)
  | .shutDown .. => inferInstanceAs (Decidable ((_ → _ ∧ (_ → _)) ∧ (_ → _) ∧ (_ → _ → _)))
  | .run => s.kernel.decidableRunning fun t => ∀ c ∈ s.find t, c.stream = .reader → c.place = .inner →
      ∀ z ∈ s.sockets.pipe.get t.pipe, z.Empty → z.isOpen .writer = true →
        ¬s.ShutDownEnd t.side.other .reader ∧ ¬s.ShutDownEnd t.side.other .writer
  | .call .. | .resume _ | .leave | .dup _ | .drop _ => inferInstanceAs (Decidable True)

/-- The pipe that `x` writes to may have a call in the waitset of that end. -/
def MayWait (s : State) (x : Side) : End → Prop
  | .reader => ∀ e, ¬s.ShutDownEnd x e
  | .writer => ¬s.ShutDownEnd x .reader

theorem unstranded_iff : s.Unstranded w ↔
    (∀ x, ∀ d ∈ (s.chan (w x)).calls, d.place = .asleep → s.MayWait x d.stream) ∧
      ∀ x, s.sockets.pipe.get (w x) = none → (s.chan (w x)).calls = [] := by
  constructor
  · intro h
    refine ⟨fun x d hd hpl => ?_, h.freed⟩
    cases hs : d.stream with
    | reader => exact fun e he => h.hasData x e he ⟨d, hd, hs, hpl⟩
    | writer => exact fun he => h.hasSpace x he ⟨d, hd, hs, hpl⟩
  · rintro ⟨hmay, hfreed⟩
    refine ⟨?_, ?_, hfreed⟩
    · rintro x e he ⟨d, hd, hs, hpl⟩
      have h := hmay x d hd hpl
      rw [hs] at h
      exact h e he
    · rintro x he ⟨d, hd, hs, hpl⟩
      have h := hmay x d hd hpl
      rw [hs] at h
      exact h he

theorem Unstranded.mayWait (h : s.Unstranded w) {d : Call} (hd : d ∈ (s.chan (w x)).calls) (hpl : d.place = .asleep) :
    s.MayWait x d.stream := (unstranded_iff.1 h).1 x d hd hpl

/-- What the steps other than those of `sys_ShutDown` have to keep. -/
theorem Unstranded.of_asleep (h : s.Unstranded w) (hshut : u.shut = s.shut)
    (hasleep : ∀ x, ∀ d ∈ (u.chan (w x)).calls, d.place = .asleep →
      d ∈ (s.chan (w x)).calls ∨ s.MayWait x d.stream)
    (hfreed : ∀ x, u.sockets.pipe.get (w x) = none →
      s.sockets.pipe.get (w x) = none ∧ ((s.chan (w x)).calls = [] → (u.chan (w x)).calls = [])) : u.Unstranded w := by
  have hends : ∀ x e, u.ShutDownEnd x e ↔ s.ShutDownEnd x e := by
    intro x e
    cases e <;> simp only [ShutDownEnd, hshut]
  have hmay : ∀ x e, u.MayWait x e ↔ s.MayWait x e := by
    intro x e
    cases e <;> simp only [MayWait, hends]
  refine unstranded_iff.2 ⟨fun x d hd hpl => (hmay _ _).2 ?_, fun x hx => ?_⟩
  · rcases hasleep x d hd hpl with hd | hd
    · exact h.mayWait hd hpl
    · exact hd
  · obtain ⟨hnone, hcalls⟩ := hfreed x hx
    exact hcalls (h.freed x hnone)

/-! ## The ends that are closed -/

theorem ended_writer (hclosed : s.closed = []) : s.Ended x .writer ↔ (x, .write) ∈ s.shut := by
  simp [Ended, WriterClosed, hclosed]

theorem ended_reader (hclosed : s.closed = []) : s.Ended x .reader ↔ s.ShutDownEnd x .reader := by
  simp [Ended, ReaderClosed, ShutDownEnd, hclosed]

/-- What the broadcasts go by. -/
theorem shuts_iff (h : s.Tied w) (h' : s'.Tied w) (x : Side) (e : End) : s.Shuts s'.sockets (w x) e = true ↔
    ¬s.Ended x e ∧ s'.Ended x e ∧ ¬s'.Ended x (Pipe.State.peer e) := by
  rw [Shuts, Bool.and_eq_true, (h.ends.pipe x).any_isOpen, (h'.ends.pipe x).any_isOpen_peer]

/-! ## Shutting down -/

/-- What one more call of `sys_ShutDown` has been told to shut down. -/
theorem shutDownEnd_shut (hshut : s'.shut = s.shut ++ [(y, how)]) (x : Side) (e : End) : s'.ShutDownEnd x e ↔
    s.ShutDownEnd x e ∨ (e = .reader ∧ x = y.other ∧ (how = .read ∨ how = .both)) ∨
      (e = .writer ∧ x = y ∧ (how = .write ∨ how = .both)) := by
  have hother : x.other = y ↔ x = y.other := ⟨fun h => by rw [← h, x.other_other], fun h => by rw [h, y.other_other]⟩
  cases e <;> simp only [ShutDownEnd, hshut, List.mem_append, List.mem_singleton, Prod.mk.injEq, hother] <;> grind

/-- A call that waits after `sys_ShutDown` has waited before, and was not woken up. -/
theorem mem_broadcast {d : Call} (hd : d ∈ ((s.broadcast b).chan p).calls) (hpl : d.place = .asleep) :
    d ∈ (s.chan p).calls ∧ ¬s.Shuts b p (Pipe.State.peer d.stream) = true := by
  obtain ⟨d', hd', he⟩ := List.mem_map.1 hd
  split at he
  · subst he
    cases hpl
  · rename_i hno
    subst he
    exact ⟨hd', fun hs => hno ⟨hpl, hs⟩⟩

theorem waiting_broadcast : (s.broadcast b).Waiting p e ↔ s.Waiting p e ∧ ¬s.Shuts b p (Pipe.State.peer e) = true := by
  constructor
  · rintro ⟨d, hd, rfl, hpl⟩
    obtain ⟨hd', hno⟩ := mem_broadcast hd hpl
    exact ⟨⟨d, hd', rfl, hpl⟩, hno⟩
  · rintro ⟨⟨d, hd, rfl, hpl⟩, hno⟩
    exact ⟨d, List.mem_map.2 ⟨d, hd, if_neg fun h => hno h.2⟩, rfl, hpl⟩

theorem calls_broadcast : ((s.broadcast b).chan p).calls = [] ↔ (s.chan p).calls = [] := List.map_eq_nil_iff

/-- A call of `sys_ShutDown` from `s` to `s'`, while both sockets are open. -/
structure Shut (w : Side → PipePtr) (y : Side) (how : ShutdownMode) (s s' : State) : Prop where
  tied : s.Tied w
  tied' : s'.Tied w
  closed : s.closed = []
  once : s.ShutsOnce y how
  kernel : s'.kernel = .free
  eq : s' = { s.broadcast s'.sockets with shut := s.shut ++ [(y, how)] }

theorem Tied.shut (h : s.Tied w) (hclosed : s.closed = []) (hs : s.step (.shutDown y how) = some s') :
    Shut w y how s s' := by
  obtain ⟨ho, h'⟩ := h.step hs
  obtain ⟨he, hp⟩ := step_eq_some.1 hs
  obtain ⟨r, hr, rfl⟩ := Option.map_eq_some_iff.1 hp
  obtain ⟨r', -, rfl⟩ := Option.map_eq_some_iff.1 hr
  exact ⟨h, h', hclosed, ho, he.1, rfl⟩

theorem Shut.shut_eq (h : Shut w y how s s') : s'.shut = s.shut ++ [(y, how)] := by rw [h.eq]

theorem Shut.chan_eq (h : Shut w y how s s') : s'.chan = (s.broadcast s'.sockets).chan := by
  have he := congrArg State.chan h.eq
  exact he

theorem Shut.closed' (h : Shut w y how s s') : s'.closed = [] := by
  rw [h.eq]
  exact h.closed

theorem Shut.ended (h : Shut w y how s s') (x : Side) (e : End) :
    s'.Ended x e ↔ shutEnd y how = some (x, e) ∨ s.Ended x e :=
  ended_shut (h.closed'.trans h.closed.symm) h.shut_eq x e

/-- The calls at an end wait on, unless the other end is the one that is closed now and they find the pipe there. -/
theorem Shut.waiting (h : Shut w y how s s') (x : Side) (e : End) : s'.Waiting (w x) e ↔
    s.Waiting (w x) e ∧ ¬(¬s.Ended x (Pipe.State.peer e) ∧ shutEnd y how = some (x, Pipe.State.peer e) ∧ ¬s.Ended x e) := by
  have hwait : s'.Waiting (w x) e ↔ (s.broadcast s'.sockets).Waiting (w x) e := by simp only [Waiting, h.chan_eq]
  rw [hwait, waiting_broadcast, shuts_iff h.tied h.tied', Pipe.State.peer_peer, h.ended, h.ended]
  have hne : shutEnd y how = some (x, Pipe.State.peer e) → shutEnd y how ≠ some (x, e) := by
    intro h₁ h₂
    rw [h₁] at h₂
    simp [Pipe.State.peer_ne] at h₂
  tauto

/-- A pipe is gone when both of its ends have been closed. -/
theorem Shut.freed (h : Shut w y how s s') (x : Side) : (s'.sockets.pipe.get (w x) = none → (s'.chan (w x)).calls = []) ↔
    ((∀ e, shutEnd y how = some (x, e) ∨ s.Ended x e) → (s.chan (w x)).calls = []) := by
  rw [h.tied'.freed_iff, h.chan_eq, calls_broadcast]
  simp only [h.ended]

/-- A call of `sys_ShutDown` that spares the calls that wait. -/
theorem Unstranded.shutDown (h : s.Unstranded w) (hs : Shut w y how s s') (hok : s.Spares w (.shutDown y how)) :
    s'.Unstranded w := by
  obtain ⟨hreader, hboth, hwriter⟩ := hok
  refine ⟨fun x e he hw => ?_, fun x he hw => ?_, fun x => (hs.freed x).2 fun hall => ?_⟩
  · obtain ⟨hw, hkept⟩ := (hs.waiting x .reader).1 hw
    rcases (shutDownEnd_shut hs.shut_eq x e).1 he with he | ⟨-, rfl, hhow⟩ | ⟨-, rfl, rfl | rfl⟩
    · exact h.hasData x e he hw
    · exact (hreader hhow).1 hw
    · -- `pipe_writer_close` wakes up the readers
      refine hkept ⟨fun hended => ?_, rfl, fun hended => ?_⟩
      · exact hs.once.1 ((ended_writer hs.closed).1 hended)
      · exact h.hasData x .reader ((ended_reader hs.closed).1 hended) hw
    · exact hboth rfl hw
  · obtain ⟨hw, hkept⟩ := (hs.waiting x .writer).1 hw
    rcases (shutDownEnd_shut hs.shut_eq x .reader).1 he with he | ⟨-, rfl, hhow⟩ | ⟨hne, -⟩
    · exact h.hasSpace x he hw
    · -- `pipe_reader_close` wakes up the writers
      refine hkept ⟨fun hended => h.hasSpace _ ((ended_reader hs.closed).1 hended) hw, ?_, fun hended => ?_⟩
      · rcases hhow with rfl | rfl <;> rfl
      · obtain ⟨d, hd, -⟩ := hw
        rw [(hreader hhow).2 ((ended_writer hs.closed).1 hended)] at hd
        cases hd
    · cases hne
  · rcases hall .reader with hr | hr
    · have hhow : x = y.other ∧ (how = .read ∨ how = .both) := by
        cases how <;> simp_all [shutEnd]
      obtain ⟨rfl, hhow⟩ := hhow
      refine (hreader hhow).2 ((ended_writer hs.closed).1 ((hall .writer).resolve_left fun hw => ?_))
      cases hr.symm.trans hw
    · rcases hall .writer with hw | hw
      · have hhow : x = y ∧ how = .write := by
          cases how <;> simp_all [shutEnd]
        obtain ⟨rfl, rfl⟩ := hhow
        exact hwriter rfl ((ended_reader hs.closed).1 hr)
      · refine h.freed x ((hs.tied.freed_iff x).2 fun e => ?_)
        cases e with
        | reader => exact hr
        | writer => exact hw

/-- Any other one strands a call. -/
theorem Shut.spares (hs : Shut w y how s s') (h : s'.Unstranded w) : s.Spares w (.shutDown y how) := by
  have hfreed := fun x => (hs.freed x).1 (h.freed x)
  have hdata : ∀ x e, s'.ShutDownEnd x e → shutEnd y how ≠ some (x, .writer) → ¬s.Waiting (w x) .reader :=
    fun x e he hne hw => h.hasData x e he ((hs.waiting x .reader).2 ⟨hw, fun hno => hne hno.2.1⟩)
  refine ⟨fun hhow => ⟨hdata y.other .reader ?_ ?_, fun hw => hfreed _ fun e => ?_⟩, fun hhow => ?_,
    fun hhow hr => hfreed _ fun e => ?_⟩
  · exact (shutDownEnd_shut hs.shut_eq _ _).2 (.inr (.inl ⟨rfl, rfl, hhow⟩))
  · rcases hhow with rfl | rfl <;> simp [shutEnd]
  · cases e with
    | reader =>
      left
      rcases hhow with rfl | rfl <;> rfl
    | writer => exact .inr ((ended_writer hs.closed).2 hw)
  · subst hhow
    exact hdata y .writer ((shutDownEnd_shut hs.shut_eq _ _).2 (.inr (.inr ⟨rfl, rfl, .inr rfl⟩))) (by simp [shutEnd])
  · subst hhow
    cases e with
    | reader => exact .inr ((ended_reader hs.closed).2 hr)
    | writer => exact .inl rfl

/-! ## Other steps -/

/-- A call that goes on, from `s` to `s'`. -/
theorem run_record (ht : s.Tied w) (hk : s.kernel = .running t) (hp : s.run t = some s') : ∃ c z,
    s.find t = some c ∧ s.sockets.pipe.get t.pipe = some z ∧ t.pipe = w (t.side.reading c.stream).other ∧
      s' = s.record t (s.view t.pipe z) ((s.view t.pipe z).runCall c) := by
  obtain ⟨z, hz, hp⟩ := Option.bind_eq_some_iff.1 hp
  obtain ⟨c, hc, rfl⟩ := Option.map_eq_some_iff.1 hp
  exact ⟨c, z, hc, hz, ht.calls.pipe t (ht.calls.running t hk).1 c hc, rfl⟩

/-- A call of `pipe_read` or `pipe_write` goes on. -/
theorem Unstranded.run (h : s.Unstranded w) (ht : s.Tied w) (hclosed : s.closed = []) (hk : s.kernel = .running t)
    (hp : s.run t = some s') (hok : s.Spares w .run) : s'.Unstranded w := by
  obtain ⟨c, z, hc, hz, hpipe, rfl⟩ := run_record ht hk hp
  refine h.of_asleep rfl (fun x d hd hpl => ?_) fun x hx => ?_
  · by_cases hx : w x = t.pipe
    · rw [hx] at hd
      have hd' : d ∈ ((s.view t.pipe z).runCall c).calls := by simpa [State.record, State.put] using hd
      obtain hd' | ⟨rfl, hplace, hblocked, hopen⟩ :=
        (Pipe.State.runCall_goes (s.view t.pipe z) c).asleep (two_le_refcount hc z) hd' hpl
      · rw [hx]
        exact .inl hd'
      · right
        obtain rfl : x = (t.side.reading c.stream).other := by
          by_contra hne
          exact ht.ends.pipe_ne_of_ne hne (hx.trans hpipe)
        show s.MayWait _ c.stream
        cases hs : c.stream with
        | reader =>
          rw [hs] at hblocked hopen
          simp only [Spares, hk] at hok
          obtain ⟨hr, hw⟩ := hok c hc hs hplace z hz hblocked hopen
          intro e
          cases e with
          | reader => exact hr
          | writer => exact hw
        | writer =>
          intro he
          have hended := (ended_reader hclosed).2 he
          rw [hs] at hpipe
          rw [Side.reading, Side.other_other] at hpipe hended
          have hz' := (ht.ends.pipe t.side).any_isOpen .reader
          rw [← hpipe, hz, Option.any_some] at hz'
          rw [hs] at hopen
          exact hz'.1 hopen hended
    · exact .inl (by simpa [State.record, State.put, hx] using hd)
  · by_cases hne : w x = t.pipe
    · rw [hne] at hx
      have hx' : ((s.sockets.pipe.modify t.pipe fun _ => ((s.view t.pipe z).runCall c).pipe).get t.pipe) = none := hx
      rw [Heap.get_modify_self, hz] at hx'
      cases hx'
    · exact ⟨(Heap.get_modify_of_ne hne).symm.trans hx, by simp [State.record, State.put, hne]⟩

theorem Unstranded.transfer {n : BitVec 32} {buf : Int → UInt8} (h : s.Unstranded w)
    (hp : s.transfer x e n buf = some s') : s'.Unstranded w := by
  obtain ⟨y, -, hp⟩ := Option.bind_eq_some_iff.1 hp
  obtain ⟨ptr, -, hp⟩ := Option.bind_eq_some_iff.1 hp
  cases ptr with
  | none =>
    cases hp
    exact h.of_asleep rfl (fun _ _ hd _ => .inl hd) fun _ hx => ⟨hx, id⟩
  | some p =>
    obtain ⟨z, hz, rfl⟩ := Option.map_eq_some_iff.1 hp
    refine h.of_asleep rfl (fun x d hd hpl => .inl ?_) fun x hx => ⟨hx, fun hnil => ?_⟩
    · by_cases hxp : w x = p
      · rw [hxp] at hd ⊢
        rcases List.mem_cons.1 (by simpa [State.begin] using hd) with rfl | hd
        · cases hpl
        · exact hd
      · simpa [State.begin, hxp] using hd
    · have hxp : w x ≠ p := by
        rintro rfl
        cases hz.symm.trans hx
      simpa [State.begin, hxp] using hnil

theorem Unstranded.resume (h : s.Unstranded w) (t : Transfer) : (s.resume t).Unstranded w := by
  refine h.of_asleep rfl (fun x d hd hpl => .inl ?_) fun x hx => ⟨hx, fun hnil => ?_⟩
  · by_cases hx : w x = t.pipe
    · rw [hx] at hd ⊢
      obtain ⟨d', hd', he⟩ := List.mem_map.1 (by simpa [State.resume] using hd)
      split at he
      · subst he
        cases hpl
      · subst he
        exact hd'
    · simpa [State.resume, hx] using hd
  · by_cases hx : w x = t.pipe
    · rw [hx] at hnil
      simp [State.resume, hx, hnil]
    · simpa [State.resume, hx] using hnil

/-- **Step lemma.** A step that spares the calls that wait strands none. -/
theorem Unstranded.step (h : s.Unstranded w) (ht : s.Tied w) (hclosed : s.closed = []) (hs : s.step a = some s')
    (hclosed' : s'.closed = []) (hok : s.Spares w a) : s'.Unstranded w := by
  obtain ⟨he, hp⟩ := step_eq_some.1 hs
  have ht' := (ht.step hs).2
  cases a with
  | call x e n buf => exact h.transfer hp
  | run =>
    obtain ⟨t, hk⟩ := he
    simp only [State.perform, hk] at hp
    exact h.run ht hclosed hk hp hok
  | resume t =>
    cases hp
    exact h.resume t
  | leave =>
    obtain ⟨t, hk⟩ := he
    obtain ⟨hmem, -⟩ := ht.calls.leaving t hk
    simp only [State.perform, hk] at hp
    obtain rfl := (ht.ends.endTransfer hmem).fcbDecref_open ht' hclosed' hp
    exact h.of_asleep rfl (fun _ _ hd _ => .inl hd) fun _ hx => ⟨hx, id⟩
  | dup x =>
    cases hp
    exact h.of_asleep rfl (fun _ _ hd _ => .inl hd) fun _ hx => ⟨hx, id⟩
  | drop x =>
    obtain rfl := (ht.ends.dropSlot he.2).fcbDecref_open ht' hclosed' hp
    exact h.of_asleep rfl (fun _ _ hd _ => .inl hd) fun _ hx => ⟨hx, id⟩
  | shutDown x how => exact h.shutDown (ht.shut hclosed hs) hok

/-- A call of `pipe_read` that waits at a pipe which has been shut down is stranded. -/
theorem Unstranded.spares_run (ht : s.Tied w) (hk : s.kernel = .running t) (hp : s.run t = some s')
    (h : s'.kernel = .free → s'.Unstranded w) : s.Spares w .run := by
  obtain ⟨c, z, hc, hz, hpipe, rfl⟩ := run_record ht hk hp
  simp only [Spares, hk]
  intro c' hc' hs hplace z' hz' hempty hopen
  cases hc.symm.trans hc'
  cases hz.symm.trans hz'
  have hgo : (s.view t.pipe z).runCall c = ((s.view t.pipe z).broadcast .writer).kernelWait c := by
    have hwait : (s.view t.pipe z).pipe.Empty ∧ (s.view t.pipe z).pipe.isOpen .writer = true := ⟨hempty, hopen⟩
    simp only [Pipe.State.runCall, hs, Pipe.State.pipeRead, hplace, if_pos hwait]
  rw [hs, Side.reading] at hpipe
  have hmem : c ∈ (s.chan t.pipe).calls := List.mem_of_find?_eq_some hc
  have hcalls : { c with place := .asleep } ∈ ((s.view t.pipe z).runCall c).calls := by
    rw [hgo]
    refine List.mem_map.2 ⟨c, List.mem_map.2 ⟨c, hmem, if_neg ?_⟩, if_pos rfl⟩
    simp [hs]
  have hwaiting : (s.record t (s.view t.pipe z) ((s.view t.pipe z).runCall c)).Waiting (w t.side.other) .reader := by
    rw [← hpipe]
    refine ⟨{ c with place := .asleep }, ?_, hs, rfl⟩
    simpa [State.record, State.put] using hcalls
  have hfree : (s.record t (s.view t.pipe z) ((s.view t.pipe z).runCall c)).kernel = .free := by
    rw [hgo]
    simp [State.record, Pipe.State.kernelWait, Pipe.State.broadcast, Pipe.State.setCall]
  have hends : ∀ e, ¬s.ShutDownEnd t.side.other e := fun e he => by
    refine (h hfree).hasData t.side.other e ?_ hwaiting
    cases e <;> exact he
  exact ⟨hends .reader, hends .writer⟩

end State

/-- A connection both sockets of which stay open. -/
def openConnection : Lts State Action := connection.within fun s => s.closed = []

/-- **Shutting down under a call that waits.** While both sockets stay open, no call is left in a waitset of a pipe that
has been shut down, or in a pipe that has been freed, exactly when every step of the run spares the calls that wait. -/
theorem unstranded_iff_spares {s s' : State} {w : Side → PipePtr} {as : List Action} (hs : connection.init s)
    (hw : ∀ x, s.Writes x (w x)) (hr : openConnection.run s as = some s') :
    openConnection.AllStates (fun s => s.kernel = .free → s.Unstranded w) s as ↔
      openConnection.AllSteps (State.Spares w) s as := by
  have htied := State.new_tied_of_writes hs hw
  have hinit : s.closed = [] ∧ s.Unstranded w := by
    obtain ⟨_, _, _, -, -, rfl⟩ := hs
    refine ⟨rfl, fun x e he => ?_, fun x he => ?_, fun x _ => rfl⟩
    · cases e <;> simp [State.ShutDownEnd, State.new] at he
    · simp [State.ShutDownEnd, State.new] at he
  refine Lts.allStates_iff_allSteps (I := fun s => s.Tied w ∧ s.closed = [] ∧ s.Unstranded w) ?_ ?_ ?_
    ⟨htied, hinit⟩ hr
  · exact fun s h _ => h.2.2
  · intro s a s' h hok hs
    obtain ⟨ht, hclosed, h⟩ := h
    obtain ⟨hs, hclosed'⟩ := Lts.within_step.1 hs
    exact ⟨(ht.step hs).2, hclosed', h.step ht hclosed hs hclosed' hok⟩
  · intro s a s' h hok hs hgood
    refine hok ?_
    obtain ⟨ht, hclosed, h⟩ := h
    obtain ⟨hs, hclosed'⟩ := Lts.within_step.1 hs
    cases a with
    | run =>
      obtain ⟨⟨t, hk⟩, hp⟩ := State.step_eq_some.1 hs
      simp only [State.perform, hk] at hp
      exact State.Unstranded.spares_run ht hk hp hgood
    | shutDown x how =>
      have hshut := ht.shut hclosed hs
      exact hshut.spares (hgood hshut.kernel)
    | call | resume | leave | dup | drop => trivial

/-- A reader that waits is woken up when the other side shuts down its writing end, and has left before the client shuts
down its own end. -/
theorem unstranded_iff_spares_server :
    let as := [.call .client .reader 1 fun _ => 0, .run, .run, .run, .shutDown .server .write, .resume ⟨1, 0, .client⟩,
      .run, .leave, .shutDown .client .read]
    (openConnection.run accepted as).isSome ∧
      openConnection.AllStates (fun s => s.kernel = .free → s.Unstranded (State.wiring 0 1)) accepted as := by
  intro as
  have hsome : (openConnection.run accepted as).isSome := by decide +kernel
  obtain ⟨s', hr⟩ := Option.isSome_iff_exists.1 hsome
  exact ⟨hsome, (unstranded_iff_spares accepted_init accepted_writes hr).2 (by decide +kernel)⟩

/-- A reader waits at the client, and another thread shuts down the reading end of the client. -/
theorem reader_stranded : ∃ s s' w, connection.init s ∧ (∀ x, s.Writes x (w x)) ∧ connection.run s
    [.call .client .reader 1 fun _ => 0, .run, .run, .run, .shutDown .client .read] = some s' ∧ s'.closed = [] ∧
      s'.kernel = .free ∧ s'.ShutDownEnd .server .reader ∧ s'.Waiting (w .server) .reader ∧ ¬s'.Unstranded w := by
  have hrun : ((connection.run accepted [.call .client .reader 1 fun _ => 0, .run, .run, .run,
      .shutDown .client .read]).map fun s => decide (s.closed = [] ∧ s.kernel = .free ∧ s.ShutDownEnd .server .reader ∧
        s.Waiting (State.wiring 0 1 .server) .reader)) = some true := by decide +kernel
  obtain ⟨s', hr, he⟩ := Option.map_eq_some_iff.1 hrun
  obtain ⟨hclosed, hk, hshut, hw⟩ := of_decide_eq_true he
  exact ⟨accepted, s', State.wiring 0 1, accepted_init, accepted_writes, hr, hclosed, hk, hshut, hw,
    fun h => h.hasData _ _ hshut hw⟩

end TinyOS.Connection
