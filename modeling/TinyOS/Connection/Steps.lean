import TinyOS.Connection.Ends

/-!
# The steps of a connection

An action that is `Orderly` can be performed and keeps the invariant `Tied`, and any other meets a pointer that is
`NULL` or a pipe that was freed (`Tied.perform`, `Tied.perform_eq_none`).
-/

namespace TinyOS.Connection

open Sockets (ScbPtr PipePtr Scb Variant)
open Sockets.State (ShutdownMode)
open Pipe (End Call PipeCB)

namespace State

variable {s s' u : State} {w : Side → PipePtr} {x y : Side} {extra : Option Side} {b : Sockets.State} {t r : Transfer}
  {a : Action} {c : Call}

/-! ## The calls in progress -/

/-- What a step does to the calls that it does not start. -/
theorem InProgress.of_find (h : s.InProgress w) (hsub : ∀ r ∈ u.transfers, r ∈ s.transfers)
    (hstarted : ∀ p, (u.chan p).started = (s.chan p).started)
    (hfind : ∀ r c, u.find r = some c → ∃ c', s.find r = some c' ∧ c'.stream = c.stream)
    (hrunning : ∀ t, u.kernel = .running t → t ∈ u.transfers ∧ u.find t ≠ none)
    (hleaving : ∀ t, u.kernel = .leaving t → t ∈ u.transfers ∧ u.find t = none) : u.InProgress w where
  lt r hr := hstarted r.pipe ▸ h.lt r (hsub r hr)
  pipe r hr c hc := by
    obtain ⟨c', hc', hstream⟩ := hfind r c hc
    rw [← hstream]
    exact h.pipe r (hsub r hr) c' hc'
  running := hrunning
  leaving := hleaving

theorem find_broadcast (s : State) (b : Sockets.State) (r : Transfer) : (s.broadcast b).find r = (s.find r).map fun c =>
    if c.place = .asleep ∧ s.Shuts b r.pipe (Pipe.State.peer c.stream) then { c with place := .woken } else c :=
  Pipe.State.find_map (fun c => by split <;> rfl) _ _

theorem InProgress.broadcast (h : s.InProgress w) (b : Sockets.State) : (s.broadcast b).InProgress w := by
  have hnone : ∀ r, (s.broadcast b).find r = none ↔ s.find r = none := fun r => by
    rw [find_broadcast, Option.map_eq_none_iff]
  refine h.of_find (fun _ hr => hr) (fun _ => rfl) (fun r c hc => ?_) (fun t ht => ?_) fun t ht => ?_
  · rw [find_broadcast] at hc
    obtain ⟨c', hc', rfl⟩ := Option.map_eq_some_iff.1 hc
    refine ⟨c', hc', ?_⟩
    split <;> rfl
  · obtain ⟨hmem, hfind⟩ := h.running t ht
    exact ⟨hmem, fun hf => hfind ((hnone t).1 hf)⟩
  · obtain ⟨hmem, hfind⟩ := h.leaving t ht
    exact ⟨hmem, (hnone t).2 hfind⟩

/-! ## References -/

theorem Ends.of_held {extra' : Option Side} (h : Ends extra s w) (hscb : u.scb = s.scb) (hsockets : u.sockets = s.sockets)
    (hclosed : u.closed = s.closed) (hshut : u.shut = s.shut) (hheld : ∀ y, u.held extra' y = s.held extra y) :
    Ends extra' u w := by
  refine ⟨hscb ▸ h.scb_ne, h.pipe_ne, fun y hy => ?_, fun y => ?_, fun y => ?_⟩
  · obtain ⟨z, hz, htype, hslots, hv⟩ := h.socket y (hclosed ▸ hy)
    exact ⟨z, by rw [hsockets, hscb, hz], htype, by rw [hheld, hslots], by rw [ends_congr hscb hclosed hshut, hv]⟩
  · exact (h.pipe y).of_get (by rw [hsockets]) (ended_congr hclosed hshut y)
  · rw [hclosed, hheld, h.closed]

/-- Where no end gets closed, no call is woken up. -/
theorem broadcast_eq (hpipe : b.pipe = s.sockets.pipe) : s.broadcast b = { s with sockets := b } := by
  have hshuts : ∀ p e, s.Shuts b p e = false := by
    intro p e
    rw [Shuts, hpipe]
    cases s.sockets.pipe.get p with
    | none => rfl
    | some z => cases hz : z.isOpen e <;> simp [hz]
  simp only [State.broadcast, hshuts, Bool.false_eq_true, and_false, if_false, List.map_id']

/-- `FCB_decref`, when there are other references. -/
theorem Ends.fcbDecref_more (h : Ends (some x) s w) (hrefs : s.refs x ≠ 0) :
    s.fcbDecref x = some { s with sockets := s.sockets.dropSlot (s.scb x) } := by
  obtain ⟨z, hz, -, hslots, -⟩ := h.socket x h.open_of_extra
  have hheld : s.held (some x) x = s.refs x + 1 := by simp [held]
  have hdec : s.sockets.fcbDecref (s.scb x) = some (s.sockets.dropSlot (s.scb x)) := by
    have hne : ¬z.slots - 1 = 0 := by omega
    simp [Sockets.State.fcbDecref, Sockets.State.dropSlot, hz, hne]
  have hopen : (s.sockets.dropSlot (s.scb x)).IsOpen (s.scb x) :=
    ⟨{ z with slots := z.slots - 1 }, by simp [Sockets.State.dropSlot, Sockets.State.modifyScb, hz], by simp only; omega⟩
  rw [State.fcbDecref, hdec, Option.map_some, if_pos hopen,
    broadcast_eq (s := s) (b := s.sockets.dropSlot (s.scb x)) rfl]

/-- `FCB_decref` for a reference that is neither a slot nor a call. -/
theorem Ends.fcbDecref (h : Ends (some x) s w) (hcalls : s.InProgress w)
    (hok : s.refs x = 0 → x.other ∉ s.closed → (x, .write) ∉ s.shut ∧ (x, .both) ∉ s.shut ∧ ¬s.Dead x) :
    ∃ s', s.fcbDecref x = some s' ∧ s'.Tied w := by
  by_cases hrefs : s.refs x = 0
  · have hclose : ∃ b, s.sockets.fcbDecref (s.scb x) = some b ∧ ¬b.IsOpen (s.scb x) ∧
        ∀ t : State, t.scb = s.scb → t.sockets = b → t.closed = s.closed ++ [x] → t.shut = s.shut →
          (∀ y, t.refs y = s.refs y) → Ends none t w := by
      by_cases ho : x.other ∈ s.closed
      · exact h.closeSecond hrefs ho
      · obtain ⟨hw, hb, hd⟩ := hok hrefs ho
        exact h.closeFirst hrefs ho hw hb hd
    obtain ⟨b, hb, hnot, hends⟩ := hclose
    refine ⟨_, by rw [State.fcbDecref, hb]; rfl, ?_⟩
    dsimp only
    rw [if_neg hnot]
    have hcalls' := hcalls.broadcast b
    exact ⟨hends _ rfl rfl rfl rfl fun _ => rfl, hcalls'.of_find (fun _ hr => hr) (fun _ => rfl)
      (fun _ c hc => ⟨c, hc, rfl⟩) hcalls'.running hcalls'.leaving⟩
  · have hheld : s.held (some x) x = s.refs x + 1 := by simp [held]
    refine ⟨_, h.fcbDecref_more hrefs, h.setSlots (x := x) (f := (· - 1)) rfl rfl rfl rfl (fun y => ?_) ?_, ?_⟩
    · rw [held_none]
      by_cases hyx : y = x
      · subst hyx
        rw [if_pos rfl, hheld]
        rfl
      · have hne : some x ≠ some y := fun he => hyx (Option.some.inj he).symm
        simp [held, hyx, hne, refs]
    · show s.held (some x) x - 1 = 0 ↔ s.held (some x) x = 0
      omega
    · exact hcalls.of_find (fun _ hr => hr) (fun _ => rfl) (fun _ c hc => ⟨c, hc, rfl⟩) hcalls.running hcalls.leaving

theorem Ends.fcbDecref_eq_none (h : Ends (some x) s w) (hrefs : s.refs x = 0) (ho : x.other ∉ s.closed)
    (hbad : ¬((x, .write) ∉ s.shut ∧ (x, .both) ∉ s.shut ∧ ¬s.Dead x)) : s.fcbDecref x = none := by
  rw [State.fcbDecref, h.close_eq_none hrefs ho hbad]
  rfl

theorem refs_dropSlot (hx : 0 < s.slots x) :
    refs { s with slots := Function.update s.slots x (s.slots x - 1) } x + 1 = s.refs x := by
  simp only [refs, Function.update_self]
  omega

theorem refs_endTransfer (ht : t ∈ s.transfers) :
    refs { s with transfers := s.transfers.erase t, kernel := .free } t.side + 1 = s.refs t.side := by
  have hpos : 0 < s.transfers.countP (·.side = t.side) := List.countP_pos_iff.2 ⟨t, ht, by simp⟩
  simp only [refs, List.countP_erase, ht, true_and, decide_true, if_true]
  omega

/-- A slot becomes a reference of its own, before it goes. -/
theorem Ends.dropSlot (h : Ends none s w) (hx : 0 < s.slots x) :
    Ends (some x) { s with slots := Function.update s.slots x (s.slots x - 1) } w := by
  refine h.of_held rfl rfl rfl rfl fun y => ?_
  by_cases hyx : y = x
  · subst hyx
    rw [held, if_pos rfl, refs_dropSlot hx, held_none]
  · have hne : some x ≠ some y := fun he => hyx (Option.some.inj he).symm
    simp [held, refs, hyx, hne]

/-- The reference of a call, before it goes. -/
theorem Ends.endTransfer (h : Ends none s w) (ht : t ∈ s.transfers) :
    Ends (some t.side) { s with transfers := s.transfers.erase t, kernel := .free } w := by
  refine h.of_held rfl rfl rfl rfl fun y => ?_
  by_cases hy : t.side = y
  · subst hy
    rw [held, if_pos rfl, refs_endTransfer ht, held_none]
  · simp [held, refs, List.countP_erase, hy]

theorem InProgress.endTransfer (h : s.InProgress w) (t : Transfer) :
    InProgress { s with transfers := s.transfers.erase t, kernel := .free } w :=
  h.of_find (fun _ hr => List.mem_of_mem_erase hr) (fun _ => rfl) (fun _ c hc => ⟨c, hc, rfl⟩)
    (fun _ hk => by cases hk) fun _ hk => by cases hk

theorem Tied.drop (h : s.Tied w) (hx : 0 < s.slots x) (hok : s.ClosesOnce x) :
    ∃ s', s.perform (.drop x) = some s' ∧ s'.Tied w := by
  have hcalls : InProgress { s with slots := Function.update s.slots x (s.slots x - 1) } w :=
    h.calls.of_find (fun _ hr => hr) (fun _ => rfl) (fun _ c hc => ⟨c, hc, rfl⟩) h.calls.running h.calls.leaving
  exact (h.ends.dropSlot hx).fcbDecref hcalls fun hrefs ho => hok (by rw [← refs_dropSlot hx, hrefs]) ho

theorem Tied.leave (h : s.Tied w) (hk : s.kernel = .leaving t) (hok : s.ClosesOnce t.side) :
    ∃ s', s.perform .leave = some s' ∧ s'.Tied w := by
  obtain ⟨ht, -⟩ := h.calls.leaving t hk
  have hends := h.ends.endTransfer ht
  simp only [perform, hk]
  exact hends.fcbDecref (h.calls.endTransfer t) fun hrefs ho => hok (by rw [← refs_endTransfer ht, hrefs]) ho

theorem Ends.not_closed (h : Ends none s w) (hx : 0 < s.slots x) : x ∉ s.closed := fun hc => by
  have := (h.closed x).1 hc
  simp only [held_none, refs] at this
  omega

theorem Tied.dup (h : s.Tied w) (x : Side) (hx : 0 < s.slots x) : ∃ s', s.perform (.dup x) = some s' ∧ s'.Tied w := by
  refine ⟨_, rfl, h.ends.setSlots (x := x) (f := (· + 1)) rfl rfl rfl rfl (fun y => ?_) ?_, ?_⟩
  · by_cases hyx : y = x
    · subst hyx
      simp [refs]
      omega
    · simp [refs, hyx]
  · simp only [held_none, refs]
    omega
  · exact h.calls.of_find (fun _ hr => hr) (fun _ => rfl) (fun _ c hc => ⟨c, hc, rfl⟩) h.calls.running h.calls.leaving

theorem Tied.shutDown {how : ShutdownMode} (h : s.Tied w) (hx : 0 < s.slots x) (hok : s.ShutsOnce x how) :
    ∃ s', s.shutDown x how = some (shutResult how, s') ∧ s'.Tied w := by
  obtain ⟨b, hb, hends⟩ := h.ends.sysShutDown (h.ends.not_closed hx) hok
  refine ⟨{ s.broadcast b with shut := s.shut ++ [(x, how)] }, by rw [State.shutDown, hb]; rfl,
    hends _ rfl rfl rfl rfl fun _ => rfl, ?_⟩
  have hcalls := h.calls.broadcast b
  exact hcalls.of_find (fun _ hr => hr) (fun _ => rfl) (fun _ c hc => ⟨c, hc, rfl⟩) hcalls.running hcalls.leaving

/-! ## Transfers -/

theorem find_update {p : PipePtr} {k : Chan} (hchan : u.chan = Function.update s.chan p k) (r : Transfer) :
    u.find r = if r.pipe = p then k.calls.find? (fun c => c.id = r.id) else s.find r := by
  unfold find
  rw [hchan, Function.update_apply]
  split <;> rfl

theorem Tied.resume (h : s.Tied w) (ht : t ∈ s.transfers) (hf : s.find t ≠ none) : (s.resume t).Tied w := by
  have hfind : ∀ r, (s.resume t).find r =
      (s.find r).map fun c => if r.pipe = t.pipe ∧ c.id = t.id then { c with place := .inner } else c := by
    intro r
    refine (find_update rfl r).trans ?_
    split
    · rename_i hp
      simp only [hp, true_and]
      rw [Pipe.State.find_map fun c => by split <;> rfl, ← hp]
      rfl
    · rename_i hp
      simp [hp]
  refine ⟨h.ends.of_held rfl rfl rfl rfl fun _ => rfl, h.calls.of_find (fun _ hr => hr) (fun p => ?_) (fun r c hc => ?_)
    (fun r hr => ?_) fun r hr => by cases hr⟩
  · by_cases hp : p = t.pipe
    · subst hp
      simp [State.resume]
    · simp [State.resume, hp]
  · rw [hfind] at hc
    obtain ⟨c', hc', rfl⟩ := Option.map_eq_some_iff.1 hc
    refine ⟨c', hc', ?_⟩
    split <;> rfl
  · cases hr
    exact ⟨ht, by simpa [hfind] using hf⟩

/-- The pipe that a call works on. -/
theorem Tied.get_pipe (h : s.Tied w) (ht : t ∈ s.transfers) (hc : s.find t = some c)
    (hok : ¬s.Dead (t.side.reading c.stream)) : ∃ z, s.sockets.pipe.get t.pipe = some z := by
  obtain ⟨z, hz, -⟩ := (h.ends.pipe (t.side.reading c.stream).other).get_some (dead_iff.not.1 hok)
  exact ⟨z, by rw [h.calls.pipe t ht c hc, hz]⟩

theorem Tied.get_pipe_eq_none (h : s.Tied w) (ht : t ∈ s.transfers) (hc : s.find t = some c)
    (hbad : s.Dead (t.side.reading c.stream)) : s.sockets.pipe.get t.pipe = none := by
  rw [h.calls.pipe t ht c hc]
  exact (h.ends.pipe (t.side.reading c.stream).other).get_eq_none (dead_iff.1 hbad)

theorem two_le_refcount (hc : s.find t = some c) (z : PipeCB) : 2 ≤ (s.view t.pipe z).refcount c.stream := by
  have hmem : c ∈ (s.chan t.pipe).calls := List.mem_of_find?_eq_some hc
  have hcount : 0 < ((s.chan t.pipe).calls.map Call.stream).count c.stream :=
    List.count_pos_iff.2 (List.mem_map_of_mem hmem)
  show 2 ≤ 1 + _
  omega

/-- `pipe_read` and `pipe_write` on a pipe that is there. -/
theorem view_ran (hc : s.find t = some c) (z : PipeCB) :
    (s.view t.pipe z).Ran c ((s.view t.pipe z).runCall c) := by
  have hfind : (s.view t.pipe z).find t.id = some c := hc
  exact (Pipe.State.runCall_goes _ c).ran hfind (two_le_refcount hc z)

/-- A call that goes on leaves the ends as they are. -/
theorem Ends.record {z : PipeCB} {v' : Pipe.State} (h : Ends none s w) (hz : s.sockets.pipe.get t.pipe = some z)
    (hr : (s.view t.pipe z).Ran c v') : Ends none (s.record t (s.view t.pipe z) v') w := by
  refine ⟨h.scb_ne, h.pipe_ne, h.socket, fun y => ?_, h.closed⟩
  by_cases hy : w y = t.pipe
  · have hself := (h.pipe y).modify (hy ▸ hz) hr.isOpen
    rw [hy] at hself ⊢
    exact hself
  · exact (h.pipe y).of_get (Heap.get_modify_of_ne hy) fun _ => Iff.rfl

theorem find_record {z : PipeCB} {v' : Pipe.State} (r : Transfer) :
    (s.record t (s.view t.pipe z) v').find r = if r.pipe = t.pipe then v'.find r.id else s.find r :=
  find_update (k := ⟨v'.calls, v'.started, v'.stored, v'.taken, v'.returns⟩) rfl r

theorem InProgress.record {z : PipeCB} {v' : Pipe.State} (h : s.InProgress w) (hk : s.kernel = .running t)
    (hc : s.find t = some c) (hr : (s.view t.pipe z).Ran c v') : (s.record t (s.view t.pipe z) v').InProgress w := by
  obtain ⟨ht, -⟩ := h.running t hk
  have hid : c.id = t.id := Pipe.State.find_id (s := s.view t.pipe z) hc
  have hself : (s.record t (s.view t.pipe z) v').find t = v'.find c.id := by rw [find_record, if_pos rfl, hid]
  refine h.of_find (fun _ hr => hr) (fun p => ?_) (fun r d hd => ?_) (fun r hrun => ?_) fun r hleave => ?_
  · by_cases hp : p = t.pipe
    · subst hp
      exact (congrArg Chan.started (Function.update_self _ _ _)).trans hr.started
    · exact congrArg Chan.started (Function.update_of_ne hp _ _)
  · rw [find_record] at hd
    split at hd
    · rename_i hp
      obtain ⟨d', hd', hstream⟩ := hr.isAt r.id d.stream ⟨d, hd, rfl⟩
      exact ⟨d', by rw [find, hp]; exact hd', hstream⟩
    · exact ⟨d, hd, rfl⟩
  · simp only [State.record] at hrun
    split at hrun
    · rename_i hv
      cases hk.symm.trans hrun
      obtain ⟨-, ⟨d, hd, -⟩, -⟩ | ⟨-, -, hn⟩ := hr.outcome
      · exact ⟨ht, by rw [hself, hd]; simp⟩
      · exact absurd hn hv
    · split at hrun <;> cases hrun
  · simp only [State.record] at hleave
    split at hleave
    · cases hk.symm.trans hleave
    · split at hleave
      · cases hleave
      · rename_i hne
        cases hleave
        obtain ⟨he, -⟩ | ⟨-, hn, -⟩ := hr.outcome
        · exact absurd (by rw [he]; simp) hne
        · exact ⟨ht, hself.trans hn⟩

theorem run_eq {z : PipeCB} (hz : s.sockets.pipe.get t.pipe = some z) (hc : s.find t = some c) :
    s.run t = some (s.record t (s.view t.pipe z) ((s.view t.pipe z).runCall c)) := by
  have hfind : (s.view t.pipe z).find t.id = some c := hc
  simp only [State.run, hz, Option.bind_some, hfind, Option.map_some]

theorem Tied.run (h : s.Tied w) (hk : s.kernel = .running t) (hc : s.find t = some c)
    (hok : ¬s.Dead (t.side.reading c.stream)) : ∃ s', s.run t = some s' ∧ s'.Tied w := by
  obtain ⟨z, hz⟩ := h.get_pipe (h.calls.running t hk).1 hc hok
  have hr := view_ran hc z
  exact ⟨_, run_eq hz hc, h.ends.record hz hr, h.calls.record hk hc hr⟩

theorem Ends.begin {p : PipePtr} (h : Ends none s w) (hx : 0 < s.slots x) (e : End) (n : BitVec 32) (buf : Int → UInt8) :
    Ends none (s.begin x p e n buf) w := by
  refine h.setSlots (x := x) (f := (· + 1)) rfl rfl rfl rfl (fun y => ?_) ?_
  · by_cases hyx : y = x
    · subst hyx
      simp [refs, State.begin]
      omega
    · simp [refs, State.begin, hyx, Ne.symm hyx]
  · simp only [held_none, refs]
    omega

theorem find_begin {p : PipePtr} {e : End} {n : BitVec 32} {buf : Int → UInt8} (r : Transfer) :
    (s.begin x p e n buf).find r = if r.pipe = p ∧ r.id = (s.chan p).started then
      some ⟨(s.chan p).started, e, .entry, n, buf, 0, 0⟩ else s.find r := by
  refine (find_update rfl r).trans ?_
  by_cases hp : r.pipe = p
  · subst hp
    by_cases hid : r.id = (s.chan r.pipe).started
    · simp [hid]
    · simp [hid, Ne.symm hid, find]
  · simp [hp]

theorem InProgress.begin {p : PipePtr} {e : End} (h : s.InProgress w) (hp : p = w (x.reading e).other) (n : BitVec 32)
    (buf : Int → UInt8) : (s.begin x p e n buf).InProgress w where
  lt r hr := by
    show r.id < (Function.update s.chan p _ r.pipe).started
    rcases List.mem_cons.1 hr with rfl | hr
    · simp
    · by_cases hrp : r.pipe = p
      · rw [hrp, Function.update_self]
        exact Nat.lt_succ_of_lt (hrp ▸ h.lt r hr)
      · rw [Function.update_of_ne hrp]
        exact h.lt r hr
  pipe r hr c hc := by
    rw [find_begin] at hc
    rcases List.mem_cons.1 hr with rfl | hr
    · rw [if_pos ⟨rfl, rfl⟩] at hc
      cases hc
      exact hp
    · rw [if_neg] at hc
      · exact h.pipe r hr c hc
      · rintro ⟨hrp, hid⟩
        exact Nat.ne_of_lt (h.lt r hr) (hrp ▸ hid)
  running t ht := by
    cases ht
    exact ⟨List.mem_cons_self, by simp [find_begin]⟩
  leaving t ht := by cases ht

/-- The pointer that `socket_read` or `socket_write` finds. -/
def pointer (s : State) (w : Side → PipePtr) (x : Side) : End → Option PipePtr
  | .writer => if (x, .write) ∈ s.shut ∨ (x, .both) ∈ s.shut then none else some (w x)
  | .reader => if (x, .both) ∈ s.shut then none else some (w x.other)

theorem Tied.socketPipe (h : s.Tied w) (hx : 0 < s.slots x) (e : End) :
    ∃ z, s.sockets.scb.get (s.scb x) = some z ∧ socketPipe z e = some (s.pointer w x e) := by
  obtain ⟨z, hz, htype, -, hv⟩ := h.ends.socket x (h.ends.not_closed hx)
  refine ⟨z, hz, ?_⟩
  simp only [State.socketPipe, htype, hv, ne_eq, not_true_eq_false, if_false]
  cases e <;> rfl

theorem Tied.transfer (h : s.Tied w) (hx : 0 < s.slots x) {e : End} (n : BitVec 32) (buf : Int → UInt8)
    (hok : e = .reader → (x, .both) ∈ s.shut ∨ ¬s.Dead x) : ∃ s', s.transfer x e n buf = some s' ∧ s'.Tied w := by
  obtain ⟨z, hz, hptr⟩ := h.socketPipe hx e
  simp only [State.transfer, hz, hptr, Option.bind_some]
  cases hp : s.pointer w x e with
  | none =>
    exact ⟨_, rfl, h.ends.of_held rfl rfl rfl rfl fun _ => rfl, h.calls.of_find (fun _ hr => hr) (fun _ => rfl)
      (fun _ c hc => ⟨c, hc, rfl⟩) h.calls.running h.calls.leaving⟩
  | some p =>
    have halive : p = w (x.reading e).other ∧ ¬∀ e', s.Ended (x.reading e).other e' := by
      cases e with
      | reader =>
        simp only [pointer, Option.ite_none_left_eq_some, Option.some.injEq] at hp
        exact ⟨hp.2.symm, dead_iff.not.1 ((hok rfl).resolve_left hp.1)⟩
      | writer =>
        simp only [pointer, Option.ite_none_left_eq_some, Option.some.injEq, not_or] at hp
        refine ⟨by simp [Side.reading, hp.2], fun hall => ?_⟩
        rw [Side.reading, Side.other_other] at hall
        exact (hall .writer).elim hp.1.1 fun hf => h.ends.not_closed hx (List.mem_of_head? hf)
    obtain ⟨v, hv, -⟩ := (h.ends.pipe (x.reading e).other).get_some halive.2
    rw [← halive.1] at hv
    refine ⟨_, ?_, h.ends.begin hx e n buf, h.calls.begin halive.1 n buf⟩
    simp only [hv, Option.map_some]

/-! ## Actions -/

/-- **Step lemma.** An orderly action does what it should. -/
theorem Tied.perform (h : s.Tied w) (he : s.Enabled a) (ho : s.Orderly a) : ∃ s', s.perform a = some s' ∧ s'.Tied w := by
  cases a with
  | call x e n buf =>
    refine h.transfer he.2 n buf fun hr => ?_
    subst hr
    exact ho
  | run =>
    obtain ⟨t, hk⟩ := he
    obtain ⟨-, hf⟩ := h.calls.running t hk
    obtain ⟨c, hc⟩ := Option.ne_none_iff_exists'.1 hf
    simp only [Orderly, hk] at ho
    simp only [State.perform, hk]
    exact h.run hk hc (ho c hc)
  | resume t =>
    obtain ⟨-, ht, hwoken⟩ := he
    refine ⟨_, rfl, h.resume ht ?_⟩
    rintro hn
    rw [hn] at hwoken
    cases hwoken
  | leave =>
    obtain ⟨t, hk⟩ := he
    simp only [Orderly, hk] at ho
    exact h.leave hk ho
  | shutDown x how =>
    obtain ⟨s', hs, ht⟩ := h.shutDown he.2 ho
    exact ⟨s', by rw [State.perform, hs]; rfl, ht⟩
  | dup x => exact h.dup x he.2
  | drop x => exact h.drop he.2 ho

/-- Any other one uses a pointer that is `NULL`, or a pipe that was freed. -/
theorem Tied.perform_eq_none (h : s.Tied w) (he : s.Enabled a) (hbad : ¬s.Orderly a) : s.perform a = none := by
  cases a with
  | call x e n buf =>
    cases e with
    | writer => exact absurd trivial hbad
    | reader =>
      obtain ⟨hb, hd⟩ := not_or.1 hbad
      obtain ⟨z, hz, hptr⟩ := h.socketPipe he.2 .reader
      have hfreed := (h.ends.pipe x.other).get_eq_none (dead_iff.1 (not_not.1 hd))
      simp only [State.perform, State.transfer, hz, hptr, Option.bind_some, pointer, hb, if_false, hfreed, Option.map_none]
  | run =>
    obtain ⟨t, hk⟩ := he
    simp only [Orderly, hk, not_forall, not_not] at hbad
    obtain ⟨c, hc, hd⟩ := hbad
    simp only [State.perform, hk, State.run, h.get_pipe_eq_none (h.calls.running t hk).1 hc hd, Option.bind_none]
  | resume t => exact absurd trivial hbad
  | leave =>
    obtain ⟨t, hk⟩ := he
    obtain ⟨ht, -⟩ := h.calls.leaving t hk
    simp only [Orderly, hk, ClosesOnce, Classical.not_imp] at hbad
    obtain ⟨hrefs, hopen, hbad⟩ := hbad
    simp only [State.perform, hk]
    rw [← refs_endTransfer ht] at hrefs
    exact (h.ends.endTransfer ht).fcbDecref_eq_none (Nat.succ.inj hrefs) hopen hbad
  | shutDown x how =>
    have hnone := h.ends.sysShutDown_eq_none (h.ends.not_closed he.2) hbad
    simp only [State.perform, State.shutDown, hnone, Option.map_none]
  | dup x => exact absurd trivial hbad
  | drop x =>
    obtain ⟨hrefs, hopen, hbad⟩ := by simpa only [Orderly, ClosesOnce, Classical.not_imp] using hbad
    rw [← refs_dropSlot he.2] at hrefs
    exact (h.ends.dropSlot he.2).fcbDecref_eq_none (Nat.succ.inj hrefs) hopen hbad

/-! ## Runs -/

/-- The pipe that each side of a new connection writes to. -/
def wiring (p q : PipePtr) : Side → PipePtr
  | .client => p
  | .server => q

theorem Fresh.peerOf {scb : Side → ScbPtr} {p q : PipePtr} (h : Fresh b (scb .client) (scb .server) p q) (x : Side) :
    PeerOf b (scb x) (scb x.other) (wiring p q x) (wiring p q x.other) :=
  match x with
  | .client => h.client
  | .server => h.server

theorem Fresh.pipe {scb : Side → ScbPtr} {p q : PipePtr} (h : Fresh b (scb .client) (scb .server) p q) (x : Side) :
    b.pipe.get (wiring p q x) = some (.new fun _ => 0) :=
  match x with
  | .client => h.write
  | .server => h.read

theorem new_slots {scb : Side → ScbPtr} (h : b.IsOpen (scb x)) : 0 < (State.new b scb).slots x := by
  obtain ⟨z, hz, hpos⟩ := h
  simpa [State.new, hz] using hpos

theorem new_tied {scb : Side → ScbPtr} {p q : PipePtr} (h : Fresh b (scb .client) (scb .server) p q)
    (hopen : ∀ x, b.IsOpen (scb x)) : (State.new b scb).Tied (wiring p q) := by
  refine ⟨⟨fun x => ?_, fun x => ?_, fun x _ => ?_, fun x => ?_, fun x => ?_⟩, ?_⟩
  · cases x with
    | client => exact Ne.symm h.scb_ne
    | server => exact h.scb_ne
  · cases x with
    | client => exact Ne.symm h.pipe_ne
    | server => exact h.pipe_ne
  · obtain ⟨z, hz, htype, hv⟩ := Fresh.peerOf h x
    exact ⟨z, hz, htype, by simp [refs, State.new, hz], hv.trans (by simp [ends, State.new])⟩
  · refine pipeIs_new (Fresh.pipe h x) fun e => ?_
    cases e <;> simp [Ended, WriterClosed, ReaderClosed, State.new]
  · have hpos := new_slots (hopen x)
    have hrefs : (State.new b scb).held none x = (State.new b scb).slots x := Nat.add_zero _
    rw [hrefs]
    simp only [State.new, List.not_mem_nil, false_iff] at hpos ⊢
    omega
  · exact ⟨fun _ ht => (by cases ht), fun _ ht => (by cases ht), fun _ ht => (by cases ht), fun _ ht => (by cases ht)⟩

theorem init_fresh (h : connection.init s) : ∃ b scb p q, Fresh b (scb .client) (scb .server) p q ∧
    (∀ x, b.IsOpen (scb x)) ∧ s = State.new b scb := by
  obtain ⟨a, b, scb, ha, hacc, rfl⟩ := h
  obtain ⟨p, q, hf⟩ := hacc.fresh ha
  obtain ⟨-, -, -, -, -, -, -, -, -, hclient, hserver⟩ := hacc
  refine ⟨b, scb, p, q, hf, fun x => ?_, rfl⟩
  cases x with
  | client => exact hclient
  | server => exact hserver

theorem init_tied (h : connection.init s) : ∃ w, s.Tied w := by
  obtain ⟨b, scb, p, q, hf, hopen, rfl⟩ := init_fresh h
  exact ⟨_, new_tied hf hopen⟩

theorem step_eq_some : s.step a = some s' ↔ s.Enabled a ∧ s.perform a = some s' := by
  unfold State.step
  split <;> simp_all

/-- **Step lemma.** -/
theorem Tied.step (h : s.Tied w) (hs : s.step a = some s') : s.Orderly a ∧ s'.Tied w := by
  obtain ⟨he, hp⟩ := step_eq_some.1 hs
  by_cases ho : s.Orderly a
  · obtain ⟨t, ht, htied⟩ := h.perform he ho
    cases ht.symm.trans hp
    exact ⟨ho, htied⟩
  · cases (h.perform_eq_none he ho).symm.trans hp

/-- **Run lemma.** -/
theorem reaches_tied (h : connection.Reaches s) : ∃ w, s.Tied w :=
  h.invariant (fun _ hi => init_tied hi) fun _ _ _ ⟨w, hw⟩ hs => ⟨w, (hw.step hs).2⟩

end State

end TinyOS.Connection
