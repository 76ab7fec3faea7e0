import TinyOS.Pipe.Waiting

/-!
# The end of the data

When a call of `pipe_read` or `pipe_write` returns, and what it then says: `Cause` has one constructor for each `return`
and each way out of a loop. The number of bytes is an `int` in the code, and the size an `unsigned int`: from `2 ^ 31`
bytes on what is returned is not the number of bytes, and with `2 ^ 32 - 1` bytes it is -1 (`read_fails`).
-/

namespace TinyOS.Pipe

/-- The sizes that cannot be taken for an error, nor for fewer bytes. -/
def SizeOk : End → BitVec 32 → Prop
  | .reader, n => n.toNat < 2 ^ 31
  | .writer, n => n.toNat < 2 ^ 32 - 1

def Action.SizeOk : Action → Prop
  | .call e n _ => Pipe.SizeOk e n
  | _ => True

/-- The reading end is closed, and the last byte of call `id` is not stored. -/
def State.CutShort (s : State) (id : Nat) : Prop :=
  ∃ c ∈ s.calls, c.id = id ∧ c.stream = .writer ∧ s.pipe.isOpen .reader = false ∧
    (bytesOf id s.stored).length < c.n.toNat

/-- The pipe, with the calls that have been cut short so far. -/
def cutSys : Lts (State × (Nat → Prop)) Action :=
  sys.record (fun _ _ => False) fun _ _ s' cut id => cut id ∨ s'.CutShort id

/-- The call after it has taken `x`. -/
def Call.taking (c : Call) (x : UInt8) : Call :=
  { c with
    place := .loop
    buf := Function.update c.buf c.index.toInt x
    bytes := c.bytes + 1
    index := c.index + 1 }

namespace State

variable {s s' u : State} {c c' d d' : Call} {e : End} {id : Nat} {r : Return} {a : Action}

/-! ## Why a call returns -/

inductive Cause (s : State) (c : Call) : Int → Prop
  | closed : c.stream = .writer → c.place = .entry ∨ c.place = .inner → s.pipe.isOpen .reader = false → Cause s c (-1)
  | full : c.place = .loop → ¬c.index < c.n → Cause s c c.bytes.toInt
  | ended : c.stream = .reader → c.place = .inner → s.pipe.Empty → s.pipe.isOpen .writer = false →
      Cause s c c.bytes.toInt

theorem fcbDecref_rest (s : State) (e : End) : (s.fcbDecref e).returns = s.returns ∧
    (s.fcbDecref e).started = s.started ∧ (s.fcbDecref e).kernel = s.kernel := by
  unfold fcbDecref closeEnd
  dsimp only
  split
  · split <;> exact ⟨rfl, rfl, rfl⟩
  · exact ⟨rfl, rfl, rfl⟩

theorem leave_returns (s : State) (c : Call) (result : Int) :
    (s.leave c result).returns = ⟨c.id, c.stream, c.n, c.buf, result⟩ :: s.returns := (fcbDecref_rest _ _).1

/-- The call returns that, and gives the kernel away. -/
def Ends (s : State) (c : Call) (result : Int) (s' : State) : Prop :=
  s' = s.leave c result ∨ s' = (s.broadcast (peer c.stream)).leave c result

theorem Ends.returns {result : Int} (h : Ends s c result s') :
    s'.returns = ⟨c.id, c.stream, c.n, c.buf, result⟩ :: s.returns := by
  obtain rfl | rfl := h
  · exact leave_returns _ _ _
  · exact leave_returns _ _ _

/-- A call whose end is open either keeps the returns as they are, or has a cause to return. -/
theorem runCall_ends (ho : s.pipe.isOpen c.stream = true) :
    (s.runCall c).returns = s.returns ∨ ∃ result, Cause s c result ∧ Ends s c result (s.runCall c) := by
  unfold runCall
  cases hs : c.stream with
  | writer =>
    rw [hs] at ho
    dsimp only
    unfold pipeWrite
    cases hpl : c.place with
    | entry =>
      dsimp only
      split
      · rename_i hclosed
        refine .inr ⟨-1, .closed hs (.inl hpl) ?_, .inl rfl⟩
        rwa [ho, Bool.true_eq_false, false_or] at hclosed
      · exact .inl rfl
    | loop =>
      dsimp only
      split
      · exact .inl rfl
      · rename_i hlt
        exact .inr ⟨_, .full hpl hlt, .inr rfl⟩
    | inner =>
      dsimp only
      split
      · exact .inl rfl
      · split
        · rename_i hr
          exact .inr ⟨-1, .closed hs (.inr hpl) hr, .inl rfl⟩
        · rw [ho, if_neg Bool.noConfusion]
          exact .inl rfl
    | asleep | woken => exact .inl rfl
  | reader =>
    rw [hs] at ho
    dsimp only
    unfold pipeRead
    rw [ho]
    cases hpl : c.place with
    | entry => exact .inl rfl
    | loop =>
      dsimp only
      split
      · exact .inl rfl
      · rename_i hlt
        exact .inr ⟨_, .full hpl hlt, .inr rfl⟩
    | inner =>
      dsimp only
      split
      · exact .inl rfl
      · rw [if_neg Bool.noConfusion]
        split
        · rename_i hend
          exact .inr ⟨_, .ended hs hpl hend.1 hend.2, .inr rfl⟩
        · exact .inl rfl
    | asleep | woken => exact .inl rfl

/-- Only the call in the kernel returns. -/
theorem returns_of_step (hinv : Inv s) (he : s.step a = some s') : s'.returns = s.returns ∨
    ∃ c ∈ s.calls, a = .run c.id ∧ s.kernel = some c.id ∧ ∃ result, Cause s c result ∧ Ends s c result s' := by
  cases step_cases he with
  | @run c hk hc _ =>
    refine (runCall_ends (hinv.own_open hc)).imp_right fun h => ?_
    exact ⟨c, hc, rfl, hk, h⟩
  | call | resume | dup => exact .inl rfl
  | close => exact .inl (fcbDecref_rest _ _).1

/-- The same of a step that adds a return. -/
theorem cause_of_return (hinv : Inv s) (he : s.step a = some s') (hr : s'.returns = r :: s.returns) :
    ∃ c ∈ s.calls, s.kernel = some c.id ∧ r = ⟨c.id, c.stream, c.n, c.buf, r.result⟩ ∧ Cause s c r.result ∧
      Ends s c r.result s' := by
  obtain hsame | ⟨c, hc, -, hk, result, hcause, hends⟩ := returns_of_step hinv he
  · rw [hsame] at hr
    exact absurd hr.symm (List.cons_ne_self _ _)
  · obtain rfl : r = _ := (List.cons.inj (hr.symm.trans hends.returns)).1
    exact ⟨c, hc, hk, rfl, hcause, hends⟩

/-- A call that returns leaves the positions as they are, and closes no end but its own. -/
theorem Ends.pipe {result : Int} (h : Ends s c result s') :
    (s'.pipe.Empty ↔ s.pipe.Empty) ∧ ∀ e, e ≠ c.stream → s'.pipe.isOpen e = s.pipe.isOpen e := by
  obtain rfl | rfl := h
  · exact ⟨fcbDecref_blocked _ c.stream .reader, (closes_fcbDecref c.stream rfl rfl).other⟩
  · exact ⟨fcbDecref_blocked _ c.stream .reader, (closes_fcbDecref c.stream rfl rfl).other⟩

/-! ## A call before and after a step -/

/-- The call has not moved a byte. -/
structure Same (d d' : Call) : Prop where
  id : d'.id = d.id
  stream : d'.stream = d.stream
  n : d'.n = d.n
  index : d'.index = d.index
  entry : d'.place = .entry → d.place = .entry

/-- The call has moved a byte, and a writer has done so with the reading end open. -/
structure Moved (s : State) (d d' : Call) : Prop where
  id : d'.id = d.id
  stream : d'.stream = d.stream
  n : d'.n = d.n
  place : d'.place = .loop
  isOpen : d.stream = .writer → s.pipe.isOpen .reader = true

theorem Same.trans {d'' : Call} (h : Same d d') (h' : Same d' d'') : Same d d'' :=
  ⟨h'.id.trans h.id, h'.stream.trans h.stream, h'.n.trans h.n, h'.index.trans h.index, fun hpl => h.entry (h'.entry hpl)⟩

/-- Each call of `s'` is one of `s`. -/
def CallsKept (s s' : State) : Prop := ∀ d' ∈ s'.calls, ∃ d ∈ s.calls, Same d d'

theorem CallsKept.trans (h : CallsKept s u) (h' : CallsKept u s') : CallsKept s s' := fun d' hd' => by
  obtain ⟨d, hd, hsame⟩ := h' d' hd'
  obtain ⟨d₀, hd₀, hsame₀⟩ := h d hd
  exact ⟨d₀, hd₀, hsame₀.trans hsame⟩

theorem callsKept_of_subset (h : ∀ d' ∈ s'.calls, d' ∈ s.calls) : CallsKept s s' := fun d' hd' =>
  ⟨d', h d' hd', rfl, rfl, rfl, rfl, fun hpl => hpl⟩

theorem callsKept_broadcast (s : State) (e : End) : CallsKept s (s.broadcast e) := fun d' hd' => by
  obtain ⟨d, hd, rfl⟩ := List.mem_map.1 hd'
  refine ⟨d, hd, ?_⟩
  split
  · exact ⟨rfl, rfl, rfl, rfl, fun hpl => by cases hpl⟩
  · exact ⟨rfl, rfl, rfl, rfl, fun hpl => hpl⟩

theorem callsKept_fcbDecref (s : State) (e : End) : CallsKept s (s.fcbDecref e) := by
  unfold fcbDecref closeEnd
  dsimp only
  split
  · split
    · exact callsKept_broadcast _ _
    · exact callsKept_of_subset fun _ hd => hd
  · exact callsKept_of_subset fun _ hd => hd

theorem callsKept_leave (s : State) (c : Call) (result : Int) : CallsKept s (s.leave c result) :=
  (callsKept_of_subset fun _ hd => List.mem_of_mem_filter hd).trans (callsKept_fcbDecref _ c.stream)

theorem callsKept_finish (s : State) (c : Call) : CallsKept s (s.finish c) :=
  (callsKept_broadcast s _).trans (callsKept_leave _ _ _)

theorem callsKept_goto (hc : c ∈ s.calls) {pl : Place} (hpl : pl ≠ .entry) (k : Option Nat) :
    CallsKept s { s.setCall { c with place := pl } with kernel := k } := fun d' hd' => by
  obtain rfl | ⟨hd, -⟩ := mem_setCall hd'
  · exact ⟨c, hc, rfl, rfl, rfl, rfl, fun he => absurd he hpl⟩
  · exact ⟨d', hd, rfl, rfl, rfl, rfl, fun he => he⟩

theorem callsKept_wait (hc : c ∈ s.calls) (hpl : c.place = .inner) (e : End) : CallsKept s ((s.broadcast e).kernelWait c) :=
  (callsKept_broadcast s e).trans (callsKept_goto (List.mem_map.2 ⟨c, hc, by simp [hpl]⟩) (by simp) none)

/-- The call in the kernel goes on: the others are as they were, and it may have moved a byte. -/
theorem runCall_calls (hc : c ∈ s.calls) : ∀ d' ∈ (s.runCall c).calls, ∃ d ∈ s.calls, Same d d' ∨ Moved s d d' := by
  have hkept : ∀ {s'}, CallsKept s s' → ∀ d' ∈ s'.calls, ∃ d ∈ s.calls, Same d d' ∨ Moved s d d' := fun h d' hd' => by
    obtain ⟨d, hd, hsame⟩ := h d' hd'
    exact ⟨d, hd, .inl hsame⟩
  have hmoved : ∀ {u : State} {c'}, u.calls = s.calls → Moved s c c' → ∀ d' ∈ (u.setCall c').calls,
      ∃ d ∈ s.calls, Same d d' ∨ Moved s d d' := fun hu hm d' hd' => by
    obtain rfl | ⟨hd, -⟩ := mem_setCall hd'
    · exact ⟨c, hc, .inr hm⟩
    · exact ⟨d', hu ▸ hd, .inl ⟨rfl, rfl, rfl, rfl, fun he => he⟩⟩
  unfold runCall
  cases hs : c.stream with
  | writer =>
    dsimp only
    unfold pipeWrite
    cases hpl : c.place with
    | entry =>
      dsimp only
      split
      · exact hkept (callsKept_leave _ _ _)
      · exact hkept (callsKept_goto hc (by simp) s.kernel)
    | loop =>
      dsimp only
      split
      · exact hkept (callsKept_goto hc (by simp) s.kernel)
      · exact hkept (callsKept_finish _ _)
    | inner =>
      dsimp only
      split_ifs with hfull hr hw
      · exact hkept (callsKept_wait hc hpl _)
      · exact hkept (callsKept_leave _ _ _)
      · exact hkept (callsKept_finish _ _)
      · exact hmoved rfl ⟨rfl, rfl, rfl, rfl, fun _ => by simpa using hr⟩
    | asleep | woken => exact hkept (callsKept_of_subset fun _ hd => hd)
  | reader =>
    dsimp only
    unfold pipeRead
    cases hpl : c.place with
    | entry =>
      dsimp only
      split
      · exact hkept (callsKept_leave _ _ _)
      · exact hkept (callsKept_goto hc (by simp) s.kernel)
    | loop =>
      dsimp only
      split
      · exact hkept (callsKept_goto hc (by simp) s.kernel)
      · exact hkept (callsKept_finish _ _)
    | inner =>
      dsimp only
      split_ifs with hempty hr hw
      · exact hkept (callsKept_wait hc hpl _)
      · exact hkept (callsKept_leave _ _ _)
      · exact hkept (callsKept_finish _ _)
      · exact hmoved rfl ⟨rfl, rfl, rfl, rfl, fun hw => by rw [hs] at hw; cases hw⟩
    | asleep | woken => exact hkept (callsKept_of_subset fun _ hd => hd)

/-- Each call after a step is a new one, or one of the calls before it. -/
theorem calls_of_step (he : s.step a = some s') (hd : d' ∈ s'.calls) :
    (∃ e n buf, a = .call e n buf ∧ d' = ⟨s.started, e, .entry, n, buf, 0, 0⟩) ∨
      ∃ d ∈ s.calls, Same d d' ∨ Moved s d d' := by
  have hkept : CallsKept s s' → ∃ d ∈ s.calls, Same d d' ∨ Moved s d d' := fun h => by
    obtain ⟨d, hd, hsame⟩ := h d' hd
    exact ⟨d, hd, .inl hsame⟩
  cases step_cases he with
  | @call e n buf _ _ =>
    rcases List.mem_cons.1 hd with rfl | hd
    · exact .inl ⟨e, n, buf, rfl, rfl⟩
    · exact .inr ⟨d', hd, .inl ⟨rfl, rfl, rfl, rfl, fun hpl => hpl⟩⟩
  | run _ hc _ => exact .inr (runCall_calls hc d' hd)
  | @resume c _ hc _ => exact .inr (hkept (callsKept_goto hc (by simp) (some c.id)))
  | dup => exact .inr (hkept (callsKept_of_subset fun _ hd => hd))
  | close => exact .inr (hkept (callsKept_fcbDecref _ _))

/-! ## Writes that are cut short -/

theorem length_bytesOf (hok : CallOk s.started (s.log c.stream) c) :
    (bytesOf c.id (s.log c.stream)).length = c.index.toNat := by
  rw [hok.moved]
  simp [firstBytes]

theorem cutShort_iff (hinv : Inv s) (hc : c ∈ s.calls) (hs : c.stream = .writer) :
    s.CutShort c.id ↔ s.pipe.isOpen .reader = false ∧ c.index < c.n := by
  have hlen : (bytesOf c.id s.stored).length = c.index.toNat := by
    have := length_bytesOf (hinv.call c hc)
    rwa [hs] at this
  constructor
  · rintro ⟨d, hd, hid, -, hclosed, hlt⟩
    obtain rfl := hinv.eq_of_id hc hd hid
    rw [hlen] at hlt
    exact ⟨hclosed, hlt⟩
  · rintro ⟨hclosed, hlt⟩
    exact ⟨c, hc, rfl, hs, hclosed, by rw [hlen]; exact hlt⟩

/-- An end that is closed stays closed. -/
theorem closed_step (hinv : Inv s) (he : s.step a = some s') (hclosed : s.pipe.isOpen e = false) :
    s'.pipe.isOpen e = false := by
  have hne : ∀ e', s.pipe.isOpen e' = true → e ≠ e' := by
    rintro e' ho rfl
    cases hclosed.symm.trans ho
  cases step_cases he with
  | run _ hc _ => exact ((runCall_goes s _).closes.other e (hne _ (hinv.own_open hc))).trans hclosed
  | call | resume | dup => exact hclosed
  | @close e' _ hsl =>
    have hopen : s.pipe.isOpen e' = true := (hinv.open_iff e').2 (by have := hinv.refs e'; omega)
    exact ((closes_fcbDecref e' rfl rfl).other e (hne _ hopen)).trans hclosed

theorem Goes.started (h : Goes s c s') : s'.started = s.started := by
  cases h with
  | fail | finish => exact (fcbDecref_rest _ _).2.1
  | goto | wait | store | take | stay => rfl

theorem started_le (he : s.step a = some s') : s.started ≤ s'.started := by
  cases step_cases he with
  | call => exact Nat.le_succ _
  | run => exact (runCall_goes s _).started.ge
  | resume | dup => exact Nat.le_refl _
  | @close e =>
    exact Nat.le_of_eq (fcbDecref_rest { s with slots := Function.update s.slots e (s.slots e - 1) } e).2.1.symm

/-- What is known of the sizes, and of the calls that have been cut short. -/
structure Noted (s : State) (cut : Nat → Prop) : Prop where
  size : ∀ c ∈ s.calls, SizeOk c.stream c.n
  entry : ∀ c ∈ s.calls, c.place = .entry → c.index = 0
  lt : ∀ id, cut id → id < s.started
  cut_iff : ∀ c ∈ s.calls, c.stream = .writer → (cut c.id ↔ s.CutShort c.id)
  returned : ∀ r ∈ s.returns, r.stream = .writer → 0 < r.n → (r.result = -1 ↔ cut r.id)

/-- A write returns -1 when it is cut short, and its number of bytes otherwise. -/
theorem Noted.minus_one_iff {cut : Nat → Prop} (h : s.Noted cut) (hinv : Inv s) (hc : c ∈ s.calls)
    (hs : c.stream = .writer) (hn : 0 < c.n) {result : Int} (hcause : Cause s c result) :
    result = -1 ↔ s.CutShort c.id := by
  have hok := hinv.call c hc
  rw [cutShort_iff hinv hc hs]
  cases hcause with
  | closed _ hpl hclosed =>
    refine ⟨fun _ => ⟨hclosed, ?_⟩, fun _ => rfl⟩
    rcases hpl with hpl | hpl
    · rw [h.entry c hc hpl]
      exact hn
    · exact hok.lt (by rw [hpl]; rfl)
  | full hpl hlt =>
    have hsize : c.n.toNat < 2 ^ 32 - 1 := by
      have := h.size c hc
      rwa [hs] at this
    have hbytes : c.bytes = c.n := by
      rw [hok.bytes]
      exact BitVec.le_antisymm hok.le (BitVec.not_lt.1 hlt)
    refine ⟨fun hm => ?_, fun hcut => absurd hcut.2 hlt⟩
    rw [hbytes, BitVec.toInt_eq_toNat_cond] at hm
    split at hm <;> omega
  | ended hr => rw [hs] at hr; cases hr

theorem Noted.step {cut : Nat → Prop} (h : s.Noted cut) (hinv : Inv s) (hok : a.SizeOk) (he : s.step a = some s') :
    s'.Noted fun id => cut id ∨ s'.CutShort id := by
  have hinv' := hinv.step he
  have hreturned : ∀ r ∈ s'.returns, ¬s'.CutShort r.id := by
    rintro r hr ⟨d, hd, hid, -⟩
    exact hinv'.returned r hr (hid ▸ List.mem_map_of_mem hd)
  refine ⟨fun d' hd' => ?_, fun d' hd' hpl => ?_, ?_, fun d' hd' hs => ?_, ?_⟩
  · obtain ⟨e, n, buf, rfl, rfl⟩ | ⟨d, hd, hsame | hmoved⟩ := calls_of_step he hd'
    · exact hok
    · rw [hsame.stream, hsame.n]
      exact h.size d hd
    · rw [hmoved.stream, hmoved.n]
      exact h.size d hd
  · obtain ⟨e, n, buf, rfl, rfl⟩ | ⟨d, hd, hsame | hmoved⟩ := calls_of_step he hd'
    · rfl
    · rw [hsame.index]
      exact h.entry d hd (hsame.entry hpl)
    · rw [hmoved.place] at hpl
      cases hpl
  · rintro id (hcut | ⟨d', hd', rfl, -⟩)
    · exact Nat.lt_of_lt_of_le (h.lt id hcut) (started_le he)
    · exact (hinv'.call d' hd').id_lt
  · refine ⟨fun hor => hor.elim (fun hcut => ?_) id, .inr⟩
    obtain ⟨e, n, buf, rfl, rfl⟩ | ⟨d, hd, hsame | hmoved⟩ := calls_of_step he hd'
    · exact absurd (h.lt _ hcut) (Nat.lt_irrefl _)
    · rw [hsame.id, h.cut_iff d hd (hsame.stream ▸ hs), cutShort_iff hinv hd (hsame.stream ▸ hs)] at hcut
      rw [cutShort_iff hinv' hd' hs, hsame.index, hsame.n]
      exact ⟨closed_step hinv he hcut.1, hcut.2⟩
    · rw [hmoved.id, h.cut_iff d hd (hmoved.stream ▸ hs), cutShort_iff hinv hd (hmoved.stream ▸ hs)] at hcut
      cases hcut.1.symm.trans (hmoved.isOpen (hmoved.stream ▸ hs))
  · intro r hr hs hn
    rw [or_iff_left (hreturned r hr)]
    obtain hsame | ⟨c, hc, -, -, result, hcause, hends⟩ := returns_of_step hinv he
    · exact h.returned r (hsame ▸ hr) hs hn
    · rw [hends.returns] at hr
      rcases List.mem_cons.1 hr with rfl | hr
      · exact (h.minus_one_iff hinv hc hs hn hcause).trans (h.cut_iff c hc hs).symm
      · exact h.returned r hr hs hn

/-! ## The call in the kernel -/

/-- The call in the kernel is not in a waitset, nor on its way back from one. -/
def Running (s : State) : Prop :=
  ∀ c ∈ s.calls, s.kernel = some c.id → c.place = .entry ∨ c.place = .loop ∨ c.place = .inner

theorem running_of_free (hk : s.kernel = none) : s.Running := fun c _ hc => by
  rw [hk] at hc
  cases hc

theorem running_setCall (hk : u.kernel = some c.id) (hpl : c.place = .entry ∨ c.place = .loop ∨ c.place = .inner) :
    (u.setCall c).Running := by
  intro d hd hkd
  obtain rfl | ⟨-, hne⟩ := mem_setCall hd
  · exact hpl
  · exact absurd (Option.some.inj (hkd.symm.trans hk)) hne

theorem Running.go (h : s.Running) (hk : s.kernel = some c.id) (hg : Goes s c s') : s'.Running := by
  cases hg with
  | goto pl hpl =>
    refine running_setCall hk ?_
    rcases hpl with ⟨-, rfl⟩ | ⟨-, rfl, -⟩ <;> simp
  | fail | finish => exact running_of_free (fcbDecref_rest _ _).2.2
  | wait => exact running_of_free rfl
  | store | take => exact running_setCall hk (.inr (.inl rfl))
  | stay => exact h

theorem Running.step (h : s.Running) (hinv : Inv s) (he : s.step a = some s') : s'.Running := by
  cases step_cases he with
  | call =>
    intro d hd hkd
    rcases List.mem_cons.1 hd with rfl | hd
    · exact .inl rfl
    · exact absurd (hinv.call d hd).id_lt (by rw [← Option.some.inj hkd]; exact Nat.lt_irrefl _)
  | run hk _ _ => exact h.go hk (runCall_goes s _)
  | resume => exact running_setCall rfl (.inr (.inr rfl))
  | dup => exact h
  | close hk _ => exact running_of_free ((fcbDecref_rest _ _).2.2.trans hk)

/-! ## Reading with the writing end closed -/

/-- Call `c` of `pipe_read` is in the kernel, no writer is left, and `l` is in the buffer. -/
structure Drains (s : State) (c : Call) (l : List UInt8) : Prop where
  inv : Inv s
  kernel : s.kernel = some c.id
  find : s.find c.id = some c
  stream : c.stream = .reader
  size : c.n.toNat < 2 ^ 31
  closed : s.pipe.isOpen .writer = false
  contents : s.pipe.contents = l

variable {l : List UInt8}

theorem Drains.step (h : s.Drains c l) : s.step (.run c.id) = some (s.pipeRead c) := by
  simp only [State.step, h.kernel, if_true, h.find, Option.map_some, runCall, h.stream]

theorem Drains.reader_open (h : s.Drains c l) : s.pipe.isOpen .reader = true := by
  have := h.inv.own_open (find_mem h.find).1
  rwa [h.stream] at this

theorem Drains.empty_iff (h : s.Drains c l) : s.pipe.Empty ↔ l = [] := by
  rw [← h.contents]
  exact (Ring.contents_eq_nil h.inv.r_lt h.inv.w_lt _).symm

/-- The call goes on to another place. -/
theorem Drains.goto (h : s.Drains c l) {pl : Place} (hp : s.pipeRead c = s.setCall { c with place := pl }) :
    (s.pipeRead c).Drains { c with place := pl } l := by
  have hinv := h.inv.step h.step
  rw [hp] at hinv ⊢
  refine ⟨hinv, h.kernel, ?_, h.stream, h.size, h.closed, h.contents⟩
  rw [find_setCall, h.find, Option.map_some, if_pos rfl]

theorem pipeRead_loop (hpl : c.place = .loop) (hlt : c.index < c.n) :
    s.pipeRead c = s.setCall { c with place := .inner } := by
  unfold pipeRead
  rw [hpl]
  exact if_pos hlt

theorem Drains.inner {x : UInt8} (h : s.Drains c (x :: l)) (hpl : c.place = .inner) : s.pipeRead c = s.take c := by
  have hne : ¬s.pipe.Empty := by simp [h.empty_iff]
  unfold pipeRead
  rw [hpl]
  simp [hne, h.reader_open]

/-- The call takes the first byte of the buffer. -/
theorem Drains.take {x : UInt8} (h : s.Drains c (x :: l)) (hpl : c.place = .inner) :
    (s.pipeRead c).Drains (c.taking x) l ∧ (s.pipeRead c).taken = s.taken ++ [(c.id, x)] ∧
      (s.pipeRead c).returns = s.returns := by
  have hinv := h.inv.step h.step
  have hne : ¬s.pipe.Empty := by simp [h.empty_iff]
  have hcontents := h.contents
  rw [PipeCB.contents, Ring.contents_pop h.inv.r_lt h.inv.w_lt hne, List.cons.injEq] at hcontents
  obtain ⟨hfront, hrest⟩ := hcontents
  have hfront : s.pipe.front = x := hfront
  rw [h.inner hpl] at hinv ⊢
  refine ⟨⟨hinv, h.kernel, ?_, h.stream, h.size, h.closed, hrest⟩, by rw [← hfront]; rfl, rfl⟩
  unfold State.take
  rw [find_setCall]
  have hfind : State.find { s with pipe := s.pipe.advance, taken := s.taken ++ [(c.id, s.pipe.front)] } c.id = some c :=
    h.find
  show Option.map _ (State.find _ c.id) = _
  rw [hfind, hfront]
  exact congrArg some (if_pos rfl)

/-- The call ends, with the number of its bytes. -/
theorem Drains.finish (h : s.Drains c l) (hp : s.pipeRead c = s.finish c) :
    (s.pipeRead c).returns = ⟨c.id, c.stream, c.n, c.buf, c.index.toNat⟩ :: s.returns ∧
      (s.pipeRead c).taken = s.taken := by
  have hok := h.inv.call c (find_mem h.find).1
  have hle : c.index.toNat ≤ c.n.toNat := hok.le
  have hbytes : c.bytes.toInt = c.index.toNat := by
    have := h.size
    rw [hok.bytes, BitVec.toInt_eq_toNat_of_lt (by omega)]
  rw [hp, State.finish, hbytes]
  exact ⟨leave_returns _ _ _, (leave_logs _ _ _).2⟩

/-- Going on alone, the call takes `l` and returns. -/
def Delivers (s : State) (c : Call) (l : List UInt8) : Prop :=
  ∃ k s' buf, sys.run s (List.replicate k (.run c.id)) = some s' ∧
    s'.returns = ⟨c.id, c.stream, c.n, buf, (c.index.toNat + l.length : Nat)⟩ :: s.returns ∧
      s'.taken = s.taken ++ l.map (c.id, ·)

theorem Drains.delivers_of_step (h : s.Drains c l) {l' l'' : List UInt8} (hd : (s.pipeRead c).Delivers c' l')
    (hid : c'.id = c.id) (hs : c'.stream = c.stream) (hn : c'.n = c.n)
    (hlen : c'.index.toNat + l'.length = c.index.toNat + l''.length)
    (hreturns : (s.pipeRead c).returns = s.returns)
    (htaken : (s.pipeRead c).taken ++ l'.map (c.id, ·) = s.taken ++ l''.map (c.id, ·)) : s.Delivers c l'' := by
  obtain ⟨k, s', buf, hrun, hret, htk⟩ := hd
  rw [hid] at hrun hret htk
  refine ⟨k + 1, s', buf, ?_, ?_, htk.trans htaken⟩
  · rw [List.replicate_succ, Lts.run]
    exact Option.bind_eq_some_iff.2 ⟨_, h.step, hrun⟩
  · rw [hret, hs, hn, hlen, hreturns]

theorem Drains.delivers_nil (h : s.Drains c l) (hp : s.pipeRead c = s.finish c) : s.Delivers c [] := by
  obtain ⟨hreturns, htaken⟩ := h.finish hp
  refine ⟨1, _, c.buf, ?_, hreturns, by rw [htaken]; simp⟩
  rw [List.replicate_one, Lts.run]
  exact Option.bind_eq_some_iff.2 ⟨_, h.step, rfl⟩

/-- The test of the loop. -/
theorem Drains.delivers_loop (h : s.Drains c l) (hpl : c.place = .loop) {m : Nat} (hm : c.n.toNat = c.index.toNat + m)
    (hinner : ∀ s : State, 0 < m → s.Drains { c with place := .inner } l →
      s.Delivers { c with place := .inner } (l.take m)) : s.Delivers c (l.take m) := by
  by_cases hlt : c.index < c.n
  · have hp := pipeRead_loop hpl hlt (s := s)
    have hpos : 0 < m := by
      have : c.index.toNat < c.n.toNat := hlt
      omega
    exact h.delivers_of_step (hinner _ hpos (h.goto hp)) rfl rfl rfl rfl (by rw [hp]; rfl) (by rw [hp]; rfl)
  · obtain rfl : m = 0 := by
      have : ¬c.index.toNat < c.n.toNat := hlt
      omega
    refine h.delivers_nil ?_
    unfold pipeRead
    rw [hpl]
    exact if_neg hlt

/-- The inner loop, and the rounds after it. -/
theorem Drains.delivers_inner (h : s.Drains c l) (hpl : c.place = .inner) {m : Nat}
    (hm : c.n.toNat = c.index.toNat + (m + 1)) : s.Delivers c (l.take (m + 1)) := by
  induction l generalizing s c m with
  | nil =>
    have hempty := h.empty_iff.2 rfl
    refine h.delivers_nil ?_
    unfold pipeRead
    rw [hpl]
    simp [hempty, h.closed, h.reader_open]
  | cons x l ih =>
    obtain ⟨htakes, htaken, hreturns⟩ := h.take hpl
    have hindex : (c.taking x).index.toNat = c.index.toNat + 1 :=
      succ_toNat (n := c.n) (show c.index.toNat < c.n.toNat by omega)
    have hm' : (c.taking x).n.toNat = (c.taking x).index.toNat + m := by
      rw [hindex]
      exact hm.trans (by omega)
    have hrest : (s.pipeRead c).Delivers (c.taking x) (l.take m) := by
      refine htakes.delivers_loop rfl hm' fun s' hpos h' => ?_
      obtain ⟨m, rfl⟩ : ∃ m', m = m' + 1 := ⟨m - 1, by omega⟩
      exact ih h' rfl hm'
    refine h.delivers_of_step hrest rfl rfl rfl ?_ hreturns ?_
    · rw [hindex, List.take_succ_cons, List.length_cons]
      omega
    · rw [htaken, List.take_succ_cons, List.map_cons, List.append_assoc]
      rfl

/-- **A read without writers.** It takes what it asks for, or what there is. -/
theorem Drains.delivers (h : s.Drains c l) (hpl : c.place = .entry ∨ c.place = .loop ∨ c.place = .inner) :
    s.Delivers c (l.take (c.n.toNat - c.index.toNat)) := by
  have hok := h.inv.call c (find_mem h.find).1
  have hle : c.index.toNat ≤ c.n.toNat := hok.le
  have hm : c.n.toNat = c.index.toNat + (c.n.toNat - c.index.toNat) := by omega
  have hinner : ∀ (s : State) (c : Call) (m : Nat), 0 < m → s.Drains c l → c.place = .inner →
      c.n.toNat = c.index.toNat + m → s.Delivers c (l.take m) := by
    intro s c m hpos h hpl hm
    obtain ⟨m, rfl⟩ : ∃ m', m = m' + 1 := ⟨m - 1, by omega⟩
    exact h.delivers_inner hpl hm
  have hloop : ∀ (s : State) (c : Call) (m : Nat), s.Drains c l → c.place = .loop → c.n.toNat = c.index.toNat + m →
      s.Delivers c (l.take m) := fun s c m h hpl hm =>
    h.delivers_loop hpl hm fun s' hpos h' => hinner s' _ m hpos h' rfl hm
  rcases hpl with hpl | hpl | hpl
  · have hp : s.pipeRead c = s.setCall { c with place := .loop } := by
      unfold pipeRead
      rw [hpl]
      simp [h.reader_open]
    exact h.delivers_of_step (hloop _ _ _ (h.goto hp) rfl hm) rfl rfl rfl rfl (by rw [hp]; rfl) (by rw [hp]; rfl)
  · exact hloop s c _ h hpl hm
  · have hlt : c.index.toNat < c.n.toNat := hok.lt (by rw [hpl]; rfl)
    exact hinner s c _ (by omega) h hpl hm

end State

/-! ## Main theorem -/

open State

theorem Inv.find_of_mem {s : State} {c : Call} (h : Inv s) (hc : c ∈ s.calls) : s.find c.id = some c := by
  obtain ⟨d, hd⟩ := Option.isSome_iff_exists.1 (List.find?_isSome (p := fun c' : Call => c'.id = c.id) |>.2 ⟨c, hc, by simp⟩)
  obtain ⟨hmem, hid⟩ := find_mem (s := s) hd
  rwa [h.eq_of_id hc hmem hid] at hd

/-- A call of `pipe_read` for at least one byte returns `r`, and `s` is the state after it. -/
structure ReadEnds (s : State) (r : Return) : Prop where
  not_error : r.result ≠ -1
  short : r.result < r.n.toNat → s.pipe.isOpen .writer = false ∧ s.pipe.Empty
  zero : r.result = 0 → s.pipe.isOpen .writer = false ∧ s.taken.map Prod.snd = s.stored.map Prod.snd

/-- What a pipe tells its users about its ends; `cut` are the writes that the close of the reading end has cut short. -/
structure EndOfStream (s : State) (cut : Nat → Prop) : Prop where
  reads : ∀ a s' r, s.step a = some s' → s'.returns = r :: s.returns → r.stream = .reader → 0 < r.n → ReadEnds s' r
  /-- Nothing is lost. -/
  buffered : s.stored.map Prod.snd = s.taken.map Prod.snd ++ s.pipe.contents
  /-- With the writing end closed no reader waits, and the one in the kernel goes on to take what is in the buffer. -/
  delivered : s.pipe.isOpen .writer = false → ∀ c ∈ s.calls, c.stream = .reader →
    c.place ≠ .asleep ∧ (s.kernel = some c.id → s.Delivers c (s.pipe.contents.take (c.n.toNat - c.index.toNat)))
  writes : ∀ r ∈ s.returns, r.stream = .writer → 0 < r.n → (r.result = -1 ↔ cut r.id)

variable {s s' : State} {cut : Nat → Prop}

/-- **Run lemma.** -/
theorem cutSys_reaches (hs : cutSys.ReachesBy (fun _ a => a.SizeOk) (s, cut)) :
    (Inv s ∧ s.Waits) ∧ s.Noted cut ∧ s.Running := by
  refine hs.invariant (I := fun x => (Inv x.1 ∧ x.1.Waits) ∧ x.1.Noted x.2 ∧ x.1.Running) ?_ ?_
  · rintro ⟨_, cut⟩ ⟨⟨buffer, rfl⟩, hcut⟩
    obtain rfl : cut = fun _ => False := hcut
    refine ⟨reaches_waits (Lts.Reaches.init ⟨buffer, rfl⟩), ⟨?_, ?_, ?_, ?_, ?_⟩, running_of_free rfl⟩
    · intro c hc
      cases hc
    · intro c hc
      cases hc
    · intro id hcut
      cases hcut
    · intro c hc
      cases hc
    · intro r hr
      cases hr
  · rintro ⟨s, cut⟩ a ⟨s', cut'⟩ ⟨⟨hinv, hw⟩, hnoted, hrunning⟩ hok he
    obtain ⟨he, hcut⟩ := Lts.record_step.1 he
    refine ⟨⟨hinv.step he, hw.step hinv he⟩, ?_, hrunning.step hinv he⟩
    dsimp only at hcut ⊢
    rw [hcut]
    exact hnoted.step hinv hok he

theorem read_ends {c : Call} {r : Return} (hinv : Inv s) (hinv' : Inv s') (hc : c ∈ s.calls) (hs : c.stream = .reader)
    (hsize : c.n.toNat < 2 ^ 31) (hnum : r.n = c.n) (hn : 0 < r.n) (hcause : Cause s c r.result)
    (hends : Ends s c r.result s') : ReadEnds s' r := by
  have hok := hinv.call c hc
  have hle : c.index.toNat ≤ c.n.toNat := hok.le
  have hpos : 0 < r.n.toNat := hn
  have hbytes : c.bytes.toInt = c.index.toNat := by rw [hok.bytes, BitVec.toInt_eq_toNat_of_lt (by omega)]
  obtain ⟨hempty, hopen⟩ := hends.pipe
  rw [hnum] at hpos
  generalize hres : r.result = result at hcause
  cases hcause with
  | closed hw => rw [hs] at hw; cases hw
  | full _ hlt =>
    have hlt : ¬c.index.toNat < c.n.toNat := hlt
    rw [hbytes] at hres
    exact ⟨by omega, fun h => by rw [hnum] at h; omega, fun h => by omega⟩
  | ended _ _ he hclosed =>
    have hclosed' : s'.pipe.isOpen .writer = false := (hopen .writer (by simp [hs])).trans hclosed
    rw [hbytes] at hres
    refine ⟨by omega, fun _ => ⟨hclosed', hempty.2 he⟩, fun _ => ⟨hclosed', ?_⟩⟩
    have hnil : s'.pipe.contents = [] := (Ring.contents_eq_nil hinv'.r_lt hinv'.w_lt _).2 (hempty.2 he)
    rw [hinv'.fifo, hnil, List.append_nil]

/-- **The end of a stream.** -/
theorem end_of_stream (hs : cutSys.ReachesBy (fun _ a => a.SizeOk) (s, cut)) : EndOfStream s cut := by
  obtain ⟨⟨hinv, hw⟩, hnoted, hrunning⟩ := cutSys_reaches hs
  have hsize : ∀ c ∈ s.calls, c.stream = .reader → c.n.toNat < 2 ^ 31 := fun c hc hr => by
    have := hnoted.size c hc
    rwa [hr] at this
  refine ⟨fun a s' r he hr hs hn => ?_, hinv.fifo, fun hclosed c hc hr => ⟨fun hpl => ?_, fun hk => ?_⟩, hnoted.returned⟩
  · obtain ⟨c, hc, -, hrc, hcause, hends⟩ := cause_of_return hinv he hr
    have hstream : c.stream = .reader := by rwa [hrc] at hs
    have hnum : r.n = c.n := by rw [hrc]
    exact read_ends hinv (hinv.step he) hc hstream (hsize c hc hstream) hnum hn hcause hends
  · have := (hw c hc hpl).1
    rw [hr] at this
    cases hclosed.symm.trans this
  · exact Drains.delivers ⟨hinv, hk, hinv.find_of_mem hc, hr, hsize c hc hr, hclosed, rfl⟩ (hrunning c hc hk)

/-- A run of calls with such sizes. -/
theorem cutSys_of_run {as : List Action} (h : cutSys.ReachesBy (fun _ a => a.SizeOk) (s, cut)) (hok : ∀ a ∈ as, a.SizeOk)
    (hr : sys.run s as = some s') : ∃ cut', cutSys.ReachesBy (fun _ a => a.SizeOk) (s', cut') := by
  induction as generalizing s cut with
  | nil =>
    cases hr
    exact ⟨cut, h⟩
  | cons a as ih =>
    obtain ⟨t, ht, hr⟩ := Lts.run_cons hr
    have hstep : cutSys.ReachesBy (fun _ a => a.SizeOk) (t, fun id => cut id ∨ t.CutShort id) :=
      h.step (hok a List.mem_cons_self) (Lts.record_step.2 ⟨ht, rfl⟩)
    exact ih hstep (fun a' ha' => hok a' (List.mem_cons_of_mem a ha')) hr

/-- Two bytes, and two calls that ask for three after the close of the writing end. -/
theorem end_of_stream_two_bytes : ∃ s cut, cutSys.ReachesBy (fun _ a => a.SizeOk) (s, cut) ∧
    s.returns.map Return.result = [0, 2, 2] ∧ EndOfStream s cut := by
  have hrun : ((sys.run (State.boot fun _ => 0)
      [.call .writer 2 fun _ => 7, .run 0, .run 0, .run 0, .run 0, .run 0, .run 0, .close .writer,
        .call .reader 3 fun _ => 0, .run 1, .run 1, .run 1, .run 1, .run 1, .run 1, .run 1,
        .call .reader 3 fun _ => 0, .run 2, .run 2, .run 2]).map fun s => s.returns.map Return.result) =
      some [0, 2, 2] := by
    decide +kernel
  obtain ⟨s, hs, he⟩ := Option.map_eq_some_iff.1 hrun
  have hinit : cutSys.ReachesBy (fun _ a => a.SizeOk) (State.boot fun _ => 0, fun _ => False) := .init ⟨⟨_, rfl⟩, rfl⟩
  obtain ⟨cut, hr⟩ := cutSys_of_run hinit (by simp [Action.SizeOk, SizeOk]) hs
  exact ⟨s, cut, hr, he, end_of_stream hr⟩

/-! ## A read of `2 ^ 32 - 1` bytes -/

/-- The reader in the kernel has taken `i` bytes, and has come to the test of its loop with an empty buffer. -/
structure Drained (s : State) (n i : BitVec 32) : Prop where
  reaches : sys.Reaches s
  calls : ∃ buf, s.calls = [⟨0, .reader, .loop, n, buf, i, i⟩]
  kernel : s.kernel = some 0
  slots : ∀ e, s.slots e = 1
  empty : s.pipe.Empty

theorem Drained.counts {n i : BitVec 32} (h : Drained s n i) :
    (∀ e, s.pipe.isOpen e = true) ∧ s.refcount .writer = 1 ∧ s.refcount .reader = 2 := by
  obtain ⟨buf, hcalls⟩ := h.calls
  have hinv := reaches_inv h.reaches
  have hrefs : s.refcount .writer = 1 ∧ s.refcount .reader = 2 := by
    have hw := hinv.refs .writer
    have hr := hinv.refs .reader
    rw [h.slots, pins, hcalls] at hw hr
    exact ⟨by simpa using hw, by simpa using hr⟩
  refine ⟨fun e => (hinv.open_iff e).2 ?_, hrefs⟩
  cases e with
  | reader => omega
  | writer => omega

/-- The reader goes to sleep. -/
theorem run_sleeps {n i : BitVec 32} {buf : Int → UInt8} (hi : i < n)
    (hcalls : s.calls = [⟨0, .reader, .loop, n, buf, i, i⟩]) (hk : s.kernel = some 0)
    (hopen : ∀ e, s.pipe.isOpen e = true) (he : s.pipe.Empty) : sys.run s [.run 0, .run 0] =
      some { s with calls := [⟨0, .reader, .asleep, n, buf, i, i⟩], kernel := none } := by
  obtain ⟨p, freed, slots, refcount, calls, kernel, started, stored, taken, returns⟩ := s
  dsimp only at hcalls hk hopen he ⊢
  subst hcalls hk
  simp [Lts.run, sys, State.step, State.find, runCall, pipeRead, setCall, hi, he, hopen, broadcast, kernelWait]

/-- A write of one byte wakes it up. -/
theorem run_writes {c : Call} (hid : c.id = 0) (hs : c.stream = .reader) (hpl : c.place = .asleep) (hcalls : s.calls = [c])
    (hk : s.kernel = none) (hm : 0 ≠ s.started) (hopen : ∀ e, s.pipe.isOpen e = true) (hfull : ¬s.pipe.Full)
    (hslots : s.slots .writer = 1) (href : s.refcount .writer = 1) :
    sys.run s [.call .writer 1 fun _ => 0, .run s.started, .run s.started, .run s.started, .run s.started] =
      some { s with
        pipe := s.pipe.put 0
        calls := [{ c with place := .woken }]
        started := s.started + 1
        stored := s.stored ++ [(s.started, 0)]
        returns := ⟨s.started, .writer, 1, fun _ => 0, 1⟩ :: s.returns } := by
  obtain ⟨p, freed, slots, refcount, calls, kernel, started, stored, taken, returns⟩ := s
  obtain ⟨id, stream, place, n, buf, i, b⟩ := c
  dsimp only at *
  subst hcalls hk hid hs hpl
  simp [Lts.run, sys, State.step, State.find, runCall, pipeWrite, setCall, hopen, broadcast, hm, hfull, hslots, fcbIncref,
    store, finish, leave, fcbDecref, peer, PipeCB.put, href]

/-- The reader takes the byte. -/
theorem run_takes {n i : BitVec 32} {buf : Int → UInt8} (hcalls : s.calls = [⟨0, .reader, .woken, n, buf, i, i⟩])
    (hk : s.kernel = none) (hopen : ∀ e, s.pipe.isOpen e = true) (he : ¬s.pipe.Empty) : sys.run s [.resume 0, .run 0] =
      some { s with
        pipe := s.pipe.advance
        taken := s.taken ++ [(0, s.pipe.front)]
        calls := [⟨0, .reader, .loop, n, Function.update buf i.toInt s.pipe.front, i + 1, i + 1⟩]
        kernel := some 0 } := by
  obtain ⟨p, freed, slots, refcount, calls, kernel, started, stored, taken, returns⟩ := s
  dsimp only at *
  subst hcalls hk
  simp [Lts.run, sys, State.step, State.find, runCall, pipeRead, setCall, hopen, take, he]

/-- **One byte.** -/
theorem Drained.round {n i : BitVec 32} (h : Drained s n i) (hi : i < n) : ∃ s', Drained s' n (i + 1) := by
  obtain ⟨buf, hcalls⟩ := h.calls
  obtain ⟨hopen, href, -⟩ := h.counts
  have hinv := reaches_inv h.reaches
  have hempty : s.pipe.wPosition = s.pipe.rPosition := h.empty
  have hnext : Ring.next pipeBufferSize s.pipe.wPosition ≠ s.pipe.wPosition := by
    have := hinv.w_lt
    rw [Ring.next_eq this]
    split <;> simp only [pipeBufferSize] at * <;> omega
  have hfull : ¬s.pipe.Full := fun hf => hnext (hempty.trans hf).symm
  have hm : 0 ≠ s.started := by
    have := (hinv.call _ (hcalls ▸ List.mem_singleton_self _)).id_lt
    exact Nat.ne_of_lt this
  have hs₁ := run_sleeps hi hcalls h.kernel hopen h.empty
  have h₁ := Lts.reaches_of_run h.reaches hs₁
  obtain ⟨s₂, hs₂, hpipe₂, hcalls₂, hk₂, hslots₂⟩ : ∃ s₂, sys.Reaches s₂ ∧ s₂.pipe = s.pipe.put 0 ∧
      s₂.calls = [⟨0, .reader, .woken, n, buf, i, i⟩] ∧ s₂.kernel = none ∧ s₂.slots = s.slots :=
    ⟨_, Lts.reaches_of_run h₁ (run_writes rfl rfl rfl rfl rfl hm hopen hfull (h.slots .writer) href), rfl, rfl, rfl, rfl⟩
  have hs₃ := run_takes hcalls₂ hk₂ (by rw [hpipe₂]; exact hopen)
    (by rw [hpipe₂]; exact fun he => hnext (he.trans hempty.symm))
  refine ⟨_, Lts.reaches_of_run hs₂ hs₃, ⟨_, rfl⟩, rfl, fun e => (congrFun hslots₂ e).trans (h.slots e), ?_⟩
  show s₂.pipe.wPosition = Ring.next pipeBufferSize s₂.pipe.rPosition
  rw [hpipe₂]
  show Ring.next pipeBufferSize s.pipe.wPosition = Ring.next pipeBufferSize s.pipe.rPosition
  rw [hempty]

theorem exists_drained (n : BitVec 32) : ∀ k ≤ n.toNat, ∃ s, Drained s n (.ofNat 32 k) := by
  intro k
  induction k with
  | zero =>
    intro _
    have hrun : sys.run (State.boot fun _ => 0) [.call .reader n fun _ => 0, .run 0] = some
        { State.boot fun _ => 0 with
          refcount := Function.update (fun _ => 1) .reader 2
          calls := [⟨0, .reader, .loop, n, fun _ => 0, 0, 0⟩]
          kernel := some 0
          started := 1 } := by
      simp [Lts.run, sys, State.step, State.find, runCall, pipeRead, setCall, State.boot, PipeCB.new, fcbIncref]
    exact ⟨_, Lts.reaches_of_run (.init ⟨_, rfl⟩) hrun, ⟨_, rfl⟩, rfl, fun _ => rfl, rfl⟩
  | succ k ih =>
    intro hk
    obtain ⟨s, h⟩ := ih (by omega)
    obtain ⟨s', h'⟩ := h.round (by
      show (BitVec.ofNat 32 k).toNat < n.toNat
      rw [BitVec.toNat_ofNat, Nat.mod_eq_of_lt (by omega)]
      omega)
    exact ⟨s', by rwa [BitVec.ofNat_add]⟩

/-- A read that has got all of its `2 ^ 32 - 1` bytes returns -1, while both ends are open. -/
theorem read_fails : ∃ s s' r, sys.Reaches s ∧ s.step (.run 0) = some s' ∧ s'.returns = r :: s.returns ∧
    r.stream = .reader ∧ 0 < r.n ∧ (∀ e, s'.pipe.isOpen e = true) ∧ r.result = -1 ∧
      (bytesOf r.id s'.taken).length = r.n.toNat := by
  obtain ⟨s, h⟩ := exists_drained (.allOnes 32) (2 ^ 32 - 1) (by decide)
  obtain ⟨buf, hcalls⟩ := h.calls
  obtain ⟨hopen, -, href⟩ := h.counts
  have hinv := reaches_inv h.reaches
  have hlen := length_bytesOf (hinv.call _ (hcalls ▸ List.mem_singleton_self _))
  set c : Call := ⟨0, .reader, .loop, .allOnes 32, buf, .allOnes 32, .allOnes 32⟩ with hc
  have hcalls : s.calls = [c] := hcalls
  have hstep : s.step (.run 0) = some (s.finish c) := by
    simp [State.step, h.kernel, State.find, hcalls, runCall, pipeRead, hc]
  have hpos : (0 : BitVec 32) < .allOnes 32 := by decide
  have hfin : s.finish c = (s.broadcast .writer).leave c (-1) := rfl
  rw [leave_eq (s := s.broadcast .writer) (c := c) href.ge] at hfin
  refine ⟨s, _, ⟨0, .reader, .allOnes 32, buf, -1⟩, h.reaches, hstep, ?_, rfl, hpos, ?_, rfl, ?_⟩
  · rw [hfin]
    rfl
  · rw [hfin]
    exact hopen
  · rw [hfin]
    exact hlen

end TinyOS.Pipe
