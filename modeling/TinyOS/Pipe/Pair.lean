import TinyOS.Pipe.EndOfStream

/-!
# One call at each end

Pipes with a thread at each end, as that of a connection between two programs. `callAt` is the call of an end; what
`pipe_read` and `pipe_write` do then comes down to six cases (`Turn`), as long as the reading end is open.
-/

namespace TinyOS.Pipe

namespace State

variable {s s' u : State} {c c' d : Call} {e e' : End} {id : Nat} {a : Action}

def callAt (s : State) (e : End) : Option Call := s.calls.find? fun c => c.stream = e

/-- Each end has one call at most. -/
def Sole (s : State) : Prop := ∀ c ∈ s.calls, s.callAt c.stream = some c

theorem callAt_mem (h : s.callAt e = some c) : c ∈ s.calls ∧ c.stream = e :=
  ⟨List.mem_of_find?_eq_some h, by simpa using List.find?_some h⟩

theorem Sole.eq (h : s.Sole) (hc : s.callAt e = some c) (hd : d ∈ s.calls) (hs : d.stream = e) : d = c := by
  have hd' := h d hd
  rw [hs, hc] at hd'
  exact (Option.some.inj hd').symm

theorem callAt_eq_none : s.callAt e = none ↔ ∀ c ∈ s.calls, c.stream ≠ e := by simp [callAt]

end State

namespace State

variable {s s' u : State} {c c' d : Call} {e e' : End} {id : Nat} {a : Action}

/-! ## The call of an end after a step -/

theorem find?_map_of_stream {f : Call → Call} {l : List Call} (hf : ∀ c ∈ l, (f c).stream = c.stream) (e : End) :
    (l.map f).find? (fun c => c.stream = e) = (l.find? fun c => c.stream = e).map f := by
  induction l with
  | nil => rfl
  | cons c l ih =>
    have hc := hf c List.mem_cons_self
    rw [List.map_cons, List.find?_cons, List.find?_cons, hc]
    split
    · rfl
    · exact ih fun d hd => hf d (List.mem_cons_of_mem c hd)

/-- A map that keeps the ends keeps them apart. -/
theorem Sole.map {f : Call → Call} (h : s.Sole) (hf : ∀ c ∈ s.calls, (f c).stream = c.stream)
    (hu : u.calls = s.calls.map f) : u.Sole ∧ ∀ e, u.callAt e = (s.callAt e).map f := by
  have hat : ∀ e, u.callAt e = (s.callAt e).map f := fun e => by
    rw [callAt, hu]
    exact find?_map_of_stream hf e
  refine ⟨fun c hc => ?_, hat⟩
  rw [hu] at hc
  obtain ⟨d, hd, rfl⟩ := List.mem_map.1 hc
  rw [hat, hf d hd, h d hd]
  rfl

theorem Sole.setCall (h : s.Sole) (hc : s.callAt c.stream = some c) (hn : (s.calls.map Call.id).Nodup)
    (hid : c'.id = c.id) (hs : c'.stream = c.stream) (hu : u.calls = (s.setCall c').calls) :
    u.Sole ∧ ∀ e, u.callAt e = if e = c.stream then some c' else s.callAt e := by
  have hmem := (callAt_mem hc).1
  obtain ⟨hsole, hat⟩ := h.map (f := fun d => if d.id = c'.id then c' else d) (fun d hd => by
    split
    · rename_i he
      obtain rfl : d = c := List.inj_on_of_nodup_map hn hd hmem (he.trans hid)
      exact hs
    · rfl) hu
  refine ⟨hsole, fun e => ?_⟩
  rw [hat]
  split
  · rename_i he
    rw [he, hc, Option.map_some, if_pos hid.symm]
  · rename_i hne
    cases hd : s.callAt e with
    | none => rfl
    | some d =>
      have hd' := callAt_mem hd
      have hdc : d.id ≠ c'.id := fun he => hne <| by
        rw [← hd'.2, List.inj_on_of_nodup_map hn hd'.1 hmem (he.trans hid)]
      rw [Option.map_some, if_neg hdc]

end State

/-- Woken up, if it sleeps. -/
def Call.wake (c : Call) : Call := if c.place = .asleep then { c with place := .woken } else c

namespace Call

variable {c : Call}

@[simp] theorem wake_n : c.wake.n = c.n := by
  unfold wake
  split <;> rfl

@[simp] theorem wake_buf : c.wake.buf = c.buf := by
  unfold wake
  split <;> rfl

@[simp] theorem wake_index : c.wake.index = c.index := by
  unfold wake
  split <;> rfl

end Call

namespace State

variable {s s' u : State} {c c' d : Call} {e e' : End} {id : Nat} {a : Action}

theorem Sole.broadcast (h : s.Sole) (e : End) (hu : u.calls = (s.broadcast e).calls) :
    u.Sole ∧ ∀ e', u.callAt e' = if e' = e then (s.callAt e).map Call.wake else s.callAt e' := by
  obtain ⟨hsole, hat⟩ := h.map
    (f := fun d => if d.stream = e ∧ d.place = .asleep then { d with place := .woken } else d)
    (fun d _ => by split <;> rfl) hu
  refine ⟨hsole, fun e' => ?_⟩
  rw [hat]
  split
  · rename_i he
    subst he
    cases hd : s.callAt e' with
    | none => rfl
    | some d => simp [Call.wake, (callAt_mem hd).2]
  · rename_i hne
    cases hd : s.callAt e' with
    | none => rfl
    | some d => simp [(callAt_mem hd).2, hne]

theorem map_id_broadcast (s : State) (e : End) : (s.broadcast e).calls.map Call.id = s.calls.map Call.id := by
  rw [State.broadcast, List.map_map]
  refine List.map_congr_left fun d _ => ?_
  simp only [Function.comp_apply]
  split <;> rfl

theorem Sole.remove (h : s.Sole) (hc : s.callAt c.stream = some c) (hn : (s.calls.map Call.id).Nodup)
    (hu : u.calls = s.calls.filter fun c' => c'.id ≠ c.id) :
    u.Sole ∧ ∀ e, u.callAt e = if e = c.stream then none else s.callAt e := by
  have hmem : ∀ d, d ∈ u.calls ↔ d ∈ s.calls ∧ d ≠ c := fun d => by
    rw [hu, List.mem_filter, decide_eq_true_iff]
    refine and_congr_right fun hd => not_congr ⟨fun he => ?_, fun he => congrArg _ he⟩
    exact List.inj_on_of_nodup_map hn hd (callAt_mem hc).1 he
  have hat : ∀ e, u.callAt e = if e = c.stream then none else s.callAt e := fun e => by
    split
    · rename_i he
      refine callAt_eq_none.2 fun d hd hs => ?_
      obtain ⟨hd, hne⟩ := (hmem d).1 hd
      exact hne (h.eq hc hd (hs.trans he))
    · rename_i hne
      cases hd : s.callAt e with
      | none => exact callAt_eq_none.2 fun d' hd' => callAt_eq_none.1 hd d' ((hmem d').1 hd').1
      | some d =>
        have hd' := callAt_mem hd
        cases hf : u.callAt e with
        | none =>
          have hin : d ∈ u.calls := (hmem d).2 ⟨hd'.1, fun he => hne (by rw [← hd'.2, he])⟩
          exact absurd hd'.2 (callAt_eq_none.1 hf d hin)
        | some d' =>
          have hf' := callAt_mem hf
          rw [h.eq hd ((hmem d').1 hf'.1).1 hf'.2]
  refine ⟨fun d hd => ?_, hat⟩
  obtain ⟨hd', hne⟩ := (hmem d).1 hd
  rw [hat, if_neg fun hs => hne (h.eq hc hd' hs)]
  exact h d hd'

theorem Sole.cons (h : s.Sole) (hc : s.callAt c.stream = none) (hu : u.calls = c :: s.calls) :
    u.Sole ∧ ∀ e, u.callAt e = if e = c.stream then some c else s.callAt e := by
  have hat : ∀ e, u.callAt e = if e = c.stream then some c else s.callAt e := fun e => by
    rw [callAt, hu, List.find?_cons]
    by_cases he : c.stream = e
    · simp [he]
    · rw [if_neg (Ne.symm he), decide_eq_false he]
      rfl
  refine ⟨fun d hd => ?_, hat⟩
  rw [hat]
  rcases List.mem_cons.1 (hu ▸ hd) with rfl | hd
  · rw [if_pos rfl]
  · rw [if_neg fun hs => callAt_eq_none.1 hc d hd hs]
    exact h d hd

/-! ## The call in the kernel -/

/-- The calls outside the kernel are those that have given it away. -/
structure Outside (s : State) : Prop where
  inside : ∀ id, s.kernel = some id → ∃ c ∈ s.calls, c.id = id
  outside : ∀ c ∈ s.calls, s.kernel ≠ some c.id → c.place = .asleep ∨ c.place = .woken

theorem boot_outside (buffer : Nat → UInt8) : (boot buffer).Outside where
  inside _ h := by cases h
  outside _ h := by cases h

/-- The call in the kernel stays there. -/
theorem Outside.setCall (h : s.Outside) (hk : s.kernel = some c.id) (hu : u.calls = (s.setCall c').calls)
    (hid : c'.id = c.id) (huk : u.kernel = s.kernel) : u.Outside := by
  refine ⟨fun id hid' => ?_, fun d hd hkd => ?_⟩
  · rw [huk] at hid'
    obtain ⟨d, hd, rfl⟩ := h.inside id hid'
    exact ⟨c', hu ▸ List.mem_map.2 ⟨d, hd, if_pos ((Option.some.inj (hid'.symm.trans hk)).trans hid.symm)⟩,
      hid.trans (Option.some.inj (hk.symm.trans hid'))⟩
  · rw [hu] at hd
    rw [huk] at hkd
    obtain rfl | ⟨hd, -⟩ := mem_setCall hd
    · exact absurd (hk.trans (congrArg some hid.symm)) hkd
    · exact h.outside d hd hkd

/-- The call in the kernel gives it away. -/
theorem outside_of_free (hu : u.kernel = none) (h : ∀ d ∈ u.calls, d.place = .asleep ∨ d.place = .woken) :
    u.Outside where
  inside id hid := by rw [hu] at hid; cases hid
  outside d hd _ := h d hd

theorem outside_broadcast (h : ∀ d ∈ s.calls, d.id ≠ c.id → d.place = .asleep ∨ d.place = .woken) (e : End) :
    ∀ d ∈ (s.broadcast e).calls, d.id ≠ c.id → d.place = .asleep ∨ d.place = .woken := by
  intro d hd hne
  obtain ⟨d', hd', rfl⟩ := List.mem_map.1 hd
  split
  · exact .inr rfl
  · rename_i hno
    rw [if_neg hno] at hne
    exact h d' hd' hne

theorem outside_leave (h : ∀ d ∈ s.calls, d.id ≠ c.id → d.place = .asleep ∨ d.place = .woken)
    (href : 2 ≤ s.refcount c.stream) (result : Int) : (s.leave c result).Outside := by
  rw [leave_eq href]
  refine outside_of_free rfl fun d hd => ?_
  have hd := List.mem_filter.1 hd
  exact h d hd.1 (by simpa using hd.2)

theorem Outside.go (h : s.Outside) (hk : s.kernel = some c.id) (href : 2 ≤ s.refcount c.stream) (hg : Goes s c s') :
    s'.Outside := by
  have hothers : ∀ d ∈ s.calls, d.id ≠ c.id → d.place = .asleep ∨ d.place = .woken := fun d hd hne =>
    h.outside d hd fun hkd => hne (Option.some.inj (hkd.symm.trans hk))
  cases hg with
  | goto | store | take => exact h.setCall hk rfl rfl rfl
  | fail => exact outside_leave hothers href _
  | wait =>
    refine outside_of_free rfl fun d hd => ?_
    obtain rfl | ⟨hd, hne⟩ := mem_setCall hd
    · exact .inl rfl
    · exact outside_broadcast hothers _ d hd hne
  | finish => exact outside_leave (outside_broadcast hothers _) href _
  | stay => exact h

theorem outside_fcbDecref (hu : u.kernel = none) (h : ∀ d ∈ u.calls, d.place = .asleep ∨ d.place = .woken) (e : End) :
    (u.fcbDecref e).Outside := by
  refine outside_of_free ((fcbDecref_rest u e).2.2.trans hu) ?_
  unfold fcbDecref closeEnd
  dsimp only
  split
  · split
    · intro d hd
      obtain ⟨d', hd', rfl⟩ := List.mem_map.1 hd
      split
      · exact .inr rfl
      · exact h d' hd'
    · exact h
  · exact h

theorem Outside.step (h : s.Outside) (href : ∀ c ∈ s.calls, 2 ≤ s.refcount c.stream) (he : s.step a = some s') :
    s'.Outside := by
  have hfree : s.kernel = none → ∀ d ∈ s.calls, d.place = .asleep ∨ d.place = .woken := fun hk d hd =>
    h.outside d hd (by simp [hk])
  cases step_cases he with
  | @call e n buf hk _ =>
    refine ⟨fun id hid => ⟨_, List.mem_cons_self, Option.some.inj hid⟩, fun d hd hkd => ?_⟩
    rcases List.mem_cons.1 hd with rfl | hd
    · exact absurd rfl hkd
    · exact hfree hk d hd
  | run hk hc _ => exact h.go hk (href _ hc) (runCall_goes s _)
  | @resume c hk hc hpl =>
    refine ⟨fun id hid => ⟨_, List.mem_map.2 ⟨c, hc, if_pos rfl⟩, Option.some.inj hid⟩, fun d hd hkd => ?_⟩
    obtain rfl | ⟨hd, -⟩ := mem_setCall hd
    · exact absurd rfl hkd
    · exact hfree hk d hd
  | dup hk _ => exact ⟨fun id hid => h.inside id hid, fun d hd _ => hfree hk d hd⟩
  | @close e hk _ =>
    exact outside_fcbDecref (u := { s with slots := Function.update s.slots e (s.slots e - 1) }) hk (hfree hk) e

/-! ## What a call does next -/

instance (p : PipeCB) : ∀ e, Decidable (Blocked p e)
  | .reader => inferInstanceAs (Decidable p.Empty)
  | .writer => inferInstanceAs (Decidable p.Full)

/-- A pipe is not full and empty at once. -/
theorem not_blocked_peer {p : PipeCB} (hr : p.rPosition < pipeBufferSize) (hb : Blocked p e) : ¬Blocked p (peer e) := by
  have hne : p.rPosition ≠ Ring.next pipeBufferSize p.rPosition := by
    rw [Ring.next_eq hr]
    unfold pipeBufferSize at hr ⊢
    split <;> omega
  cases e with
  | reader =>
    have he : p.wPosition = p.rPosition := hb
    exact fun hf => hne (by rw [← he]; exact he.trans hf)
  | writer =>
    have hf : p.rPosition = Ring.next pipeBufferSize p.wPosition := hb
    exact fun he => hne (by rw [← show p.wPosition = p.rPosition from he, ← hf]; exact he)

/-- The store of a writer, or the take of a reader. -/
def move (s : State) (c : Call) : State :=
  match c.stream with
  | .writer => s.store c
  | .reader => s.take c

/-- What call `c` does next while both ends are open, or while the writing end is closed and it is a reader. -/
inductive Turn (s : State) (c : Call) : State → Prop
  | enter : c.place = .entry → Turn s c (s.setCall { c with place := .loop })
  | test : c.place = .loop → c.index < c.n → Turn s c (s.setCall { c with place := .inner })
  | finish : c.place = .loop → ¬c.index < c.n → Turn s c (s.finish c)
  | wait : c.place = .inner → Blocked s.pipe c.stream → s.pipe.isOpen (peer c.stream) = true →
      Turn s c ((s.broadcast (peer c.stream)).kernelWait c)
  | ended : c.place = .inner → c.stream = .reader → s.pipe.Empty → s.pipe.isOpen .writer = false → Turn s c (s.finish c)
  | move : c.place = .inner → ¬Blocked s.pipe c.stream → Turn s c (s.move c)

theorem runCall_turn (hc : c.place = .entry ∨ c.place = .loop ∨ c.place = .inner) (hr : s.pipe.isOpen .reader = true)
    (hw : c.stream = .writer → s.pipe.isOpen .writer = true) : Turn s c (s.runCall c) := by
  have hmove : ∀ hpl : c.place = .inner, ¬Blocked s.pipe c.stream → Turn s c (s.move c) := fun hpl => .move hpl
  unfold runCall
  cases hs : c.stream with
  | writer =>
    have hw := hw hs
    unfold pipeWrite
    obtain hpl | hpl | hpl := hc
    · simp only [hpl, hw, hr, Bool.true_eq_false, or_self, if_false]
      exact .enter hpl
    · simp only [hpl]
      split
      · exact .test hpl ‹_›
      · exact .finish hpl ‹_›
    · simp only [hpl, hw, hr, and_true, Bool.true_eq_false, if_false]
      split
      · rename_i hfull
        have h : Turn s c _ := .wait hpl (by rw [hs]; exact hfull) (by rw [hs]; exact hr)
        rwa [hs] at h
      · rename_i hfull
        have h := hmove hpl (by rw [hs]; exact hfull)
        rwa [State.move, hs] at h
  | reader =>
    unfold pipeRead
    obtain hpl | hpl | hpl := hc
    · simp only [hpl, hr, Bool.true_eq_false, if_false]
      exact .enter hpl
    · simp only [hpl]
      split
      · exact .test hpl ‹_›
      · exact .finish hpl ‹_›
    · simp only [hpl, hr, Bool.true_eq_false, if_false]
      split
      · rename_i hwait
        have h : Turn s c _ := .wait hpl (by rw [hs]; exact hwait.1) (by rw [hs]; exact hwait.2)
        rwa [hs] at h
      · rename_i hwait
        split
        · rename_i hend
          exact .ended hpl hs hend.1 hend.2
        · rename_i hend
          have hne : ¬s.pipe.Empty := fun he => by
            cases ho : s.pipe.isOpen .writer with
            | true => exact hwait ⟨he, ho⟩
            | false => exact hend ⟨he, ho⟩
          have h := hmove hpl (by rw [hs]; exact hne)
          rwa [State.move, hs] at h

/-! ## What becomes of the two calls -/

end State

/-- The call after it has moved `x`. -/
def Call.moved (c : Call) (x : UInt8) : Call :=
  { c with
    place := .loop
    buf :=
      match c.stream with
      | .writer => c.buf
      | .reader => Function.update c.buf c.index.toInt x
    index := c.index + 1
    bytes := c.bytes + 1 }

namespace State

variable {s s' u : State} {c c' d : Call} {e e' : End} {id : Nat} {a : Action}

/-- From `s` to `s'`, the end of `c` has come to have the call `own`, and the call of the other end may have been woken
up. -/
structure Turned (s s' : State) (c : Call) (own : Option Call) (wakes : Bool) : Prop where
  sole : s'.Sole
  own : s'.callAt c.stream = own
  peer : s'.callAt (State.peer c.stream) =
    (s.callAt (State.peer c.stream)).map (bif wakes then Call.wake else fun d => d)
  slots : s'.slots = s.slots

inductive Effect (s : State) (c : Call) (s' : State) : Prop
  | goes (pl : Place) : c.place = .entry ∧ pl = .loop ∨ c.place = .loop ∧ pl = .inner →
      Turned s s' c (some { c with place := pl }) false → s'.pipe = s.pipe → s'.log = s.log → s'.returns = s.returns →
      Effect s c s'
  | waits : c.place = .inner → Blocked s.pipe c.stream → Turned s s' c (some { c with place := .asleep }) true →
      s'.pipe = s.pipe → s'.log = s.log → s'.returns = s.returns → Effect s c s'
  | returns : c.place = .loop ∧ ¬c.index < c.n ∨
        c.place = .inner ∧ c.stream = .reader ∧ s.pipe.Empty ∧ s.pipe.isOpen .writer = false →
      Turned s s' c none true → s'.pipe = s.pipe → s'.log = s.log →
      s'.returns = ⟨c.id, c.stream, c.n, c.buf, c.bytes.toInt⟩ :: s.returns → Effect s c s'
  | moves (x : UInt8) : c.place = .inner → (c.stream = .writer → x = c.buf c.index.toInt) →
      Turned s s' c (some (c.moved x)) false →
      s'.log = Function.update s.log c.stream (s.log c.stream ++ [(c.id, x)]) → s'.returns = s.returns → Effect s c s'

theorem log_congr (hs : s'.stored = s.stored) (ht : s'.taken = s.taken) : s'.log = s.log := by
  funext e
  cases e
  · exact ht
  · exact hs

theorem turned_setCall (h : s.Sole) (hn : (s.calls.map Call.id).Nodup) (hc : s.callAt c.stream = some c)
    (hid : c'.id = c.id) (hs : c'.stream = c.stream) (hu : u.calls = (s.setCall c').calls) (hsl : u.slots = s.slots) :
    Turned s u c (some c') false := by
  obtain ⟨hsole, hat⟩ := h.setCall hc hn hid hs hu
  exact ⟨hsole, by rw [hat, if_pos rfl], by rw [hat, if_neg (peer_ne _)]; exact Option.map_id'.symm, hsl⟩

/-- The call returns, and wakes up the other end first. -/
theorem finish_effect (h : s.Sole) (hn : (s.calls.map Call.id).Nodup) (hc : s.callAt c.stream = some c)
    (hpl : c.place = .loop ∧ ¬c.index < c.n ∨
      c.place = .inner ∧ c.stream = .reader ∧ s.pipe.Empty ∧ s.pipe.isOpen .writer = false)
    (href : 2 ≤ s.refcount c.stream) : Effect s c (s.finish c) := by
  obtain ⟨hsole, hat⟩ := h.broadcast (peer c.stream) rfl
  have hc' : (s.broadcast (peer c.stream)).callAt c.stream = some c := by
    rw [hat, if_neg (peer_ne _).symm, hc]
  obtain ⟨hsole', hat'⟩ := hsole.remove (u := s.finish c) hc' (map_id_broadcast s _ ▸ hn)
    (by rw [finish, leave_eq (s := s.broadcast _) href])
  refine .returns hpl ⟨hsole', by rw [hat', if_pos rfl], ?_, ?_⟩ ?_ ?_ ?_
  · rw [hat', if_neg (peer_ne _), hat, if_pos rfl]
    rfl
  all_goals rw [finish, leave_eq (s := s.broadcast _) href]
  · rfl
  · rfl
  · exact log_congr rfl rfl
  · rfl

theorem Turn.effect (ht : Turn s c s') (h : s.Sole) (hn : (s.calls.map Call.id).Nodup)
    (hc : s.callAt c.stream = some c) (href : 2 ≤ s.refcount c.stream) : Effect s c s' := by
  cases ht with
  | enter hpl =>
    exact .goes .loop (.inl ⟨hpl, rfl⟩) (turned_setCall h hn hc rfl rfl rfl rfl) rfl (log_congr rfl rfl) rfl
  | test hpl _ =>
    exact .goes .inner (.inr ⟨hpl, rfl⟩) (turned_setCall h hn hc rfl rfl rfl rfl) rfl (log_congr rfl rfl) rfl
  | finish hpl hlt => exact finish_effect h hn hc (.inl ⟨hpl, hlt⟩) href
  | ended hpl hs he hw => exact finish_effect h hn hc (.inr ⟨hpl, hs, he, hw⟩) href
  | wait hpl hb _ =>
    obtain ⟨hsole, hat⟩ := h.broadcast (peer c.stream) rfl
    have hc' : (s.broadcast (peer c.stream)).callAt c.stream = some c := by
      rw [hat, if_neg (peer_ne _).symm, hc]
    have hid : Call.id { c with place := .asleep } = c.id := rfl
    obtain ⟨hsole', hat'⟩ := Sole.setCall (u := (s.broadcast (peer c.stream)).kernelWait c) hsole hc'
      (map_id_broadcast s _ ▸ hn) hid rfl rfl
    refine .waits hpl hb ⟨hsole', by rw [hat', if_pos rfl], ?_, rfl⟩ rfl (log_congr rfl rfl) rfl
    rw [hat', if_neg (peer_ne _), hat, if_pos rfl]
    rfl
  | move hpl _ =>
    unfold State.move
    cases hs : c.stream with
    | writer =>
      have hmoved : c.moved (c.buf c.index.toInt) =
          { c with place := .loop, bytes := c.bytes + 1, index := c.index + 1 } := by simp only [Call.moved, hs]
      refine .moves (c.buf c.index.toInt) hpl (fun _ => rfl) ?_ ?_ rfl
      · rw [hmoved]
        exact turned_setCall h hn hc rfl rfl rfl rfl
      · rw [hs]
        funext e
        cases e with
        | reader => rw [Function.update_of_ne (by simp)]; rfl
        | writer => rw [Function.update_self]; rfl
    | reader =>
      have hmoved : c.moved s.pipe.front = { c with
          place := .loop
          buf := Function.update c.buf c.index.toInt s.pipe.front
          bytes := c.bytes + 1
          index := c.index + 1 } := by simp only [Call.moved, hs]
      refine .moves s.pipe.front hpl (fun hw => by rw [hs] at hw; cases hw) ?_ ?_ rfl
      · rw [hmoved]
        exact turned_setCall h hn hc rfl rfl rfl rfl
      · rw [hs]
        funext e
        cases e with
        | reader => rw [Function.update_self]; rfl
        | writer => rw [Function.update_of_ne (by simp)]; rfl

end State

end TinyOS.Pipe
