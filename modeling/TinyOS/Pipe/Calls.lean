import TinyOS.Pipe.Model

/-!
# What a call does in one go

A call of `pipe_read` or `pipe_write` that goes on leaves the ends and the other calls as they are; it stays in the
kernel, or waits, or returns (`runCall_ran`). This does not need the pipe to have been made by `sys_Pipe`, nor its ends
to be open. `Step` has one constructor for each action.
-/

namespace TinyOS.Pipe

namespace State

variable {s s' : State} {c c' d : Call} {e : End} {id : Nat}

theorem peer_ne (e : End) : peer e ≠ e := by cases e <;> simp [peer]

theorem peer_peer (e : End) : peer (peer e) = e := by cases e <;> rfl

theorem eq_or_eq_peer (e e' : End) : e' = e ∨ e' = peer e := by cases e <;> cases e' <;> simp [peer]

/-! ## Finding a call -/

/-- The call of that number is at end `e`. -/
def IsAt (s : State) (id : Nat) (e : End) : Prop := ∃ c, s.find id = some c ∧ c.stream = e

theorem find_map {f : Call → Call} (hf : ∀ c, (f c).id = c.id) (l : List Call) (id : Nat) :
    (l.map f).find? (fun c => c.id = id) = (l.find? fun c => c.id = id).map f := by
  rw [List.find?_map]
  congr 1
  refine congrArg (List.find? · l) (funext fun c => ?_)
  simp [hf]

theorem find_id (h : s.find id = some c) : c.id = id := by simpa using List.find?_some h

theorem find_setCall (s : State) (c : Call) (id : Nat) :
    (s.setCall c).find id = (s.find id).map fun d => if d.id = c.id then c else d :=
  find_map (fun d => by split <;> simp_all) s.calls id

theorem find_broadcast (s : State) (e : End) (id : Nat) : (s.broadcast e).find id =
    (s.find id).map fun d => if d.stream = e ∧ d.place = .asleep then { d with place := .woken } else d :=
  find_map (fun d => by split <;> rfl) s.calls id

theorem mem_broadcast (hd : d ∈ (s.broadcast e).calls) (hpl : d.place = .asleep) : d ∈ s.calls ∧ d.stream ≠ e := by
  obtain ⟨d', hd', he⟩ := List.mem_map.1 hd
  split at he
  · subst he
    cases hpl
  · rename_i hno
    subst he
    exact ⟨hd', fun hs => hno ⟨hs, hpl⟩⟩

theorem mem_setCall (hd : d ∈ (s.setCall c).calls) : d = c ∨ d ∈ s.calls ∧ d.id ≠ c.id := by
  obtain ⟨d', hd', he⟩ := List.mem_map.1 hd
  split at he
  · exact .inl he.symm
  · subst he
    exact .inr ⟨hd', ‹_›⟩

/-- A call that returns while its end has another reference. -/
theorem leave_eq (href : 2 ≤ s.refcount c.stream) (result : Int) : s.leave c result =
    { s with
      calls := s.calls.filter fun c' => c'.id ≠ c.id
      kernel := none
      returns := ⟨c.id, c.stream, c.n, c.buf, result⟩ :: s.returns
      refcount := Function.update s.refcount c.stream (s.refcount c.stream - 1) } := by
  unfold leave fcbDecref
  simp only [Function.update_self]
  rw [if_neg (by omega)]

theorem find_filter (l : List Call) (id : Nat) {id' : Nat} : (l.filter fun c => c.id ≠ id).find? (fun c => c.id = id') =
    if id' = id then none else l.find? fun c => c.id = id' := by
  rw [List.find?_filter]
  split
  · rename_i he
    subst he
    simp
  · rename_i hne
    refine congrArg (List.find? · l) (funext fun c => ?_)
    by_cases hc : c.id = id'
    · simp [hc, hne]
    · simp [hc]

/-! ## One go -/

/-- What call `c` makes of a pipe. -/
structure Ran (s : State) (c : Call) (s' : State) : Prop where
  isOpen : s'.pipe.isOpen = s.pipe.isOpen
  slots : s'.slots = s.slots
  started : s'.started = s.started
  isAt : ∀ id e, s'.IsAt id e → s.IsAt id e
  outcome : (s'.returns = s.returns ∧ s'.IsAt c.id c.stream ∧ (s'.kernel = s.kernel ∨ s'.kernel = none)) ∨
    (∃ result, s'.returns = ⟨c.id, c.stream, c.n, c.buf, result⟩ :: s.returns) ∧ s'.find c.id = none ∧ s'.kernel = none

theorem isAt_setCall (hc : s.IsAt c.id c.stream) (h : (s.setCall c).IsAt id e) : s.IsAt id e := by
  obtain ⟨d, hd, rfl⟩ := h
  rw [find_setCall] at hd
  obtain ⟨d', hd', rfl⟩ := Option.map_eq_some_iff.1 hd
  split
  · rename_i he
    rwa [← find_id hd', he]
  · exact ⟨d', hd', rfl⟩

theorem isAt_broadcast {e' : End} : (s.broadcast e').IsAt id e ↔ s.IsAt id e := by
  have hstream : ∀ d : Call, (if d.stream = e' ∧ d.place = .asleep then { d with place := .woken } else d).stream =
      d.stream := fun d => by split <;> rfl
  simp [IsAt, find_broadcast, hstream]

theorem ran_setCall (hc : s.IsAt c.id c.stream) (hid : c'.id = c.id) (hstream : c'.stream = c.stream) {p : PipeCB}
    (hp : p.isOpen = s.pipe.isOpen) (stored taken : List (Nat × UInt8)) {k : Option Nat}
    (hk : k = s.kernel ∨ k = none) :
    Ran s c { State.setCall { s with pipe := p, stored := stored, taken := taken } c' with kernel := k } where
  isOpen := hp
  slots := rfl
  started := rfl
  isAt id e h := isAt_setCall (s := s) (by rwa [hid, hstream]) h
  outcome := by
    obtain ⟨d, hd, -⟩ := hc
    refine .inl ⟨rfl, ⟨c', ?_, hstream⟩, hk⟩
    refine (find_setCall s c' c.id).trans ?_
    rw [hd, Option.map_some, if_pos ((find_id hd).trans hid.symm)]

theorem ran_leave (href : 2 ≤ s.refcount c.stream) (result : Int) : Ran s c (s.leave c result) := by
  have hfind : ∀ id, (s.leave c result).find id = if id = c.id then none else s.find id := fun id => by
    rw [leave_eq href]
    exact find_filter s.calls c.id
  refine ⟨by rw [leave_eq href], by rw [leave_eq href], by rw [leave_eq href], ?_,
    .inr ⟨⟨result, by rw [leave_eq href]⟩, ?_, by rw [leave_eq href]⟩⟩
  · rintro id e ⟨d, hd, rfl⟩
    rw [hfind] at hd
    split at hd
    · cases hd
    · exact ⟨d, hd, rfl⟩
  · rw [hfind, if_pos rfl]

/-- A call may wake up others first. -/
theorem Ran.of_broadcast (h : Ran (s.broadcast e) c s') : Ran s c s' :=
  ⟨h.isOpen, h.slots, h.started, fun id e' ha => isAt_broadcast.1 (h.isAt id e' ha), h.outcome⟩

theorem ran_stays (hc : s.IsAt c.id c.stream) : Ran s c s :=
  ⟨rfl, rfl, rfl, fun _ _ h => h, .inl ⟨rfl, hc, .inl rfl⟩⟩

theorem ran_goto (hc : s.IsAt c.id c.stream) (pl : Place) : Ran s c (s.setCall { c with place := pl }) :=
  ran_setCall (p := s.pipe) hc (by rfl) (by rfl) rfl s.stored s.taken (.inl rfl)

theorem ran_wait (hc : s.IsAt c.id c.stream) (e : End) : Ran s c ((s.broadcast e).kernelWait c) :=
  .of_broadcast (ran_setCall (p := s.pipe) (isAt_broadcast.2 hc) (by rfl) (by rfl) rfl s.stored s.taken (.inr rfl))

theorem ran_finish (href : 2 ≤ s.refcount c.stream) : Ran s c (s.finish c) :=
  (ran_leave (s := s.broadcast _) href _).of_broadcast

theorem ran_store (hc : s.IsAt c.id c.stream) : Ran s c (s.store c) :=
  ran_setCall hc (by rfl) (by rfl) (by rfl) _ _ (.inl rfl)

theorem ran_take (hc : s.IsAt c.id c.stream) : Ran s c (s.take c) :=
  ran_setCall hc (by rfl) (by rfl) (by rfl) _ _ (.inl rfl)

/-! ## The two functions -/

/-- The test of the inner loop, as far as the buffer goes: `pipe_read` waits for data, and `pipe_write` for space. -/
def Blocked (p : PipeCB) : End → Prop
  | .reader => p.Empty
  | .writer => p.Full

/-- What call `c` does next. -/
inductive Goes (s : State) (c : Call) : State → Prop
  | goto (pl : Place) : c.place = .entry ∧ pl = .loop ∨ c.place = .loop ∧ pl = .inner ∧ c.index < c.n →
      Goes s c (s.setCall { c with place := pl })
  | fail : c.place = .entry ∨ c.place = .inner →
      s.pipe.isOpen c.stream = false ∨ s.pipe.isOpen (peer c.stream) = false → Goes s c (s.leave c (-1))
  | wait : c.place = .inner → Blocked s.pipe c.stream → s.pipe.isOpen (peer c.stream) = true →
      Goes s c ((s.broadcast (peer c.stream)).kernelWait c)
  | finish : c.place = .loop ∧ ¬c.index < c.n ∨ c.place = .inner ∧ s.pipe.isOpen .writer = false → Goes s c (s.finish c)
  | store : c.stream = .writer → c.place = .inner → ¬s.pipe.Full → Goes s c (s.store c)
  | take : c.stream = .reader → c.place = .inner → ¬s.pipe.Empty → Goes s c (s.take c)
  | stay : c.place = .asleep ∨ c.place = .woken → Goes s c s

theorem pipeWrite_goes (hs : c.stream = .writer) : Goes s c (s.pipeWrite c) := by
  have hpeer : peer c.stream = .reader := by rw [hs]; rfl
  unfold pipeWrite
  cases hpl : c.place with
  | entry =>
    dsimp only
    split
    · rename_i hclosed
      exact .fail (.inl hpl) (by rwa [hpeer, hs])
    · exact .goto _ (.inl ⟨hpl, rfl⟩)
  | loop =>
    dsimp only
    split
    · rename_i hlt
      exact .goto _ (.inr ⟨hpl, rfl, hlt⟩)
    · rename_i hlt
      exact .finish (.inl ⟨hpl, hlt⟩)
  | inner =>
    dsimp only
    split
    · rename_i hfull
      have h : Goes s c _ := .wait hpl (by rw [hs]; exact hfull.1) (by rw [hpeer]; exact hfull.2)
      rwa [hpeer] at h
    · rename_i hfull
      split
      · rename_i hr
        exact .fail (.inr hpl) (.inr (by rwa [hpeer]))
      · rename_i hr
        split
        · rename_i hw
          exact .finish (.inr ⟨hpl, hw⟩)
        · exact .store hs hpl fun hf => hfull ⟨hf, by simpa using hr⟩
  | asleep => exact .stay (.inl hpl)
  | woken => exact .stay (.inr hpl)

theorem pipeRead_goes (hs : c.stream = .reader) : Goes s c (s.pipeRead c) := by
  have hpeer : peer c.stream = .writer := by rw [hs]; rfl
  unfold pipeRead
  cases hpl : c.place with
  | entry =>
    dsimp only
    split
    · rename_i hclosed
      exact .fail (.inl hpl) (.inl (by rwa [hs]))
    · exact .goto _ (.inl ⟨hpl, rfl⟩)
  | loop =>
    dsimp only
    split
    · rename_i hlt
      exact .goto _ (.inr ⟨hpl, rfl, hlt⟩)
    · rename_i hlt
      exact .finish (.inl ⟨hpl, hlt⟩)
  | inner =>
    dsimp only
    split
    · rename_i hempty
      have h : Goes s c _ := .wait hpl (by rw [hs]; exact hempty.1) (by rw [hpeer]; exact hempty.2)
      rwa [hpeer] at h
    · rename_i hempty
      split
      · rename_i hr
        exact .fail (.inr hpl) (.inl (by rwa [hs]))
      · split
        · rename_i hw
          exact .finish (.inr ⟨hpl, hw.2⟩)
        · rename_i hw
          refine .take hs hpl fun he => ?_
          cases ho : s.pipe.isOpen .writer with
          | true => exact hempty ⟨he, ho⟩
          | false => exact hw ⟨he, ho⟩
  | asleep => exact .stay (.inl hpl)
  | woken => exact .stay (.inr hpl)

theorem runCall_goes (s : State) (c : Call) : Goes s c (s.runCall c) := by
  unfold runCall
  cases hs : c.stream with
  | writer => exact pipeWrite_goes hs
  | reader => exact pipeRead_goes hs

theorem Goes.ran (h : Goes s c s') (hc : s.find id = some c) (href : 2 ≤ s.refcount c.stream) : Ran s c s' := by
  have hat : s.IsAt c.id c.stream := ⟨c, by rwa [find_id hc], rfl⟩
  cases h with
  | goto pl => exact ran_goto hat pl
  | fail => exact ran_leave href _
  | wait => exact ran_wait hat _
  | finish => exact ran_finish href
  | store => exact ran_store hat
  | take => exact ran_take hat
  | stay => exact ran_stays hat

/-- Only a call that has to wait goes to sleep. -/
theorem Goes.asleep (h : Goes s c s') (href : 2 ≤ s.refcount c.stream) (hd : d ∈ s'.calls) (hpl : d.place = .asleep) :
    d ∈ s.calls ∨ d = { c with place := .asleep } ∧ c.place = .inner ∧ Blocked s.pipe c.stream ∧
      s.pipe.isOpen (peer c.stream) = true := by
  have hleave : ∀ u : State, 2 ≤ u.refcount c.stream → ∀ result, d ∈ (u.leave c result).calls → d ∈ u.calls := by
    intro u hu result hd
    rw [leave_eq hu] at hd
    exact List.mem_of_mem_filter hd
  cases h with
  | goto pl hpl' =>
    obtain rfl | ⟨hd, -⟩ := mem_setCall hd
    · rcases hpl' with ⟨-, rfl⟩ | ⟨-, rfl, -⟩ <;> cases hpl
    · exact .inl hd
  | fail => exact .inl (hleave s href _ hd)
  | wait hplace hb hopen =>
    obtain rfl | ⟨hd, -⟩ := mem_setCall hd
    · exact .inr ⟨rfl, hplace, hb, hopen⟩
    · exact .inl (mem_broadcast hd hpl).1
  | finish => exact .inl (mem_broadcast (hleave (s.broadcast _) href _ hd) hpl).1
  | store | take =>
    obtain rfl | ⟨hd, -⟩ := mem_setCall hd
    · cases hpl
    · exact .inl hd
  | stay => exact .inl hd

/-! ## The logs -/

theorem closeEnd_logs (s : State) (e : End) : (s.closeEnd e).stored = s.stored ∧ (s.closeEnd e).taken = s.taken := by
  unfold closeEnd
  dsimp only
  split <;> exact ⟨rfl, rfl⟩

theorem leave_logs (s : State) (c : Call) (result : Int) :
    (s.leave c result).stored = s.stored ∧ (s.leave c result).taken = s.taken := by
  unfold leave fcbDecref
  dsimp only
  split
  · exact closeEnd_logs _ _
  · exact ⟨rfl, rfl⟩

/-- A call adds to the log of its end, and leaves the other one alone. -/
theorem Goes.logs (h : Goes s c s') :
    (s.stored <+: s'.stored ∧ (c.stream = .reader → s'.stored = s.stored)) ∧
      (s.taken <+: s'.taken ∧ (c.stream = .writer → s'.taken = s.taken)) := by
  have hsame : ∀ s' : State, s'.stored = s.stored ∧ s'.taken = s.taken →
      (s.stored <+: s'.stored ∧ (c.stream = .reader → s'.stored = s.stored)) ∧
        (s.taken <+: s'.taken ∧ (c.stream = .writer → s'.taken = s.taken)) := by
    rintro s' ⟨hs, ht⟩
    rw [hs, ht]
    exact ⟨⟨List.prefix_rfl, fun _ => rfl⟩, List.prefix_rfl, fun _ => rfl⟩
  cases h with
  | goto => exact hsame _ ⟨rfl, rfl⟩
  | fail => exact hsame _ (leave_logs s c _)
  | wait => exact hsame _ ⟨rfl, rfl⟩
  | finish => exact hsame _ (leave_logs (s.broadcast _) c _)
  | store hs =>
    refine ⟨⟨List.prefix_append _ _, fun hr => ?_⟩, List.prefix_rfl, fun _ => rfl⟩
    rw [hs] at hr
    cases hr
  | take hs =>
    refine ⟨⟨List.prefix_rfl, fun _ => rfl⟩, List.prefix_append _ _, fun hw => ?_⟩
    rw [hs] at hw
    cases hw
  | stay => exact hsame _ ⟨rfl, rfl⟩

/-! ## Steps -/

/-- The steps, and what they leave behind. -/
inductive Step (s : State) : Action → State → Prop
  | call {e : End} (n : BitVec 32) (buf : Int → UInt8) : s.kernel = none → 0 < s.slots e →
      Step s (.call e n buf) { s.fcbIncref e with
        calls := ⟨s.started, e, .entry, n, buf, 0, 0⟩ :: s.calls
        kernel := some s.started
        started := s.started + 1 }
  | run {c : Call} : s.kernel = some c.id → c ∈ s.calls → s.find c.id = some c → Step s (.run c.id) (s.runCall c)
  | resume {c : Call} : s.kernel = none → c ∈ s.calls → c.place = .woken →
      Step s (.resume c.id) ({ s with kernel := some c.id }.setCall { c with place := .inner })
  | dup {e : End} : s.kernel = none → 0 < s.slots e →
      Step s (.dup e) { s.fcbIncref e with slots := Function.update s.slots e (s.slots e + 1) }
  | close {e : End} : s.kernel = none → 0 < s.slots e →
      Step s (.close e) ({ s with slots := Function.update s.slots e (s.slots e - 1) }.fcbDecref e)

theorem find_mem (hf : s.find id = some c) : c ∈ s.calls ∧ c.id = id := ⟨List.mem_of_find?_eq_some hf, find_id hf⟩

theorem step_cases {a : Action} (he : s.step a = some s') : Step s a s' := by
  cases a with
  | call e n buf =>
    simp only [step, Option.ite_none_right_eq_some, Option.some.injEq] at he
    obtain ⟨⟨hk, hsl⟩, rfl⟩ := he
    exact .call n buf hk hsl
  | run id =>
    simp only [step, Option.ite_none_right_eq_some, Option.map_eq_some_iff] at he
    obtain ⟨hk, c, hf, rfl⟩ := he
    obtain ⟨hc, rfl⟩ := find_mem hf
    exact .run hk hc hf
  | resume id =>
    simp only [step] at he
    split at he
    · rename_i c hf
      simp only [Option.ite_none_right_eq_some, Option.some.injEq] at he
      obtain ⟨⟨hk, hpl⟩, rfl⟩ := he
      obtain ⟨hc, rfl⟩ := find_mem hf
      exact .resume hk hc hpl
    · cases he
  | dup e =>
    simp only [step, Option.ite_none_right_eq_some, Option.some.injEq] at he
    obtain ⟨⟨hk, hsl⟩, rfl⟩ := he
    exact .dup hk hsl
  | close e =>
    simp only [step, Option.ite_none_right_eq_some, Option.some.injEq] at he
    obtain ⟨⟨hk, hsl⟩, rfl⟩ := he
    exact .close hk hsl

end State

end TinyOS.Pipe
