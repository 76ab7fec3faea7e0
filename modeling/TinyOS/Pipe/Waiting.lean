import TinyOS.Pipe.Fifo

/-!
# Nobody waits in vain at a pipe

A call in the waitset of `has_data` has found the buffer empty and the writing end open, and one in the waitset of
`has_space` has found it full and the reading end open. That stays so until a call of the other end has moved a byte;
from then on (`Moving`) that call wakes up the waiters before it gives the kernel away.
-/

namespace TinyOS.Pipe

namespace State

variable {s s' : State} {c d : Call} {e : End}

/-- A call of end `e` is inside the kernel and past its first test. -/
def Moving (s : State) (e : End) : Prop :=
  ∃ c ∈ s.calls, s.kernel = some c.id ∧ c.stream = e ∧ (c.place = .loop ∨ c.place = .inner)

/-- Each call in a waitset has reason to be there, or is about to be woken up. -/
def Waits (s : State) : Prop :=
  ∀ d ∈ s.calls, d.place = .asleep →
    s.pipe.isOpen (peer d.stream) = true ∧ (Blocked s.pipe d.stream ∨ s.Moving (peer d.stream))

theorem Waits.blocked (h : s.Waits) (hk : s.kernel = none) (hd : d ∈ s.calls) (hpl : d.place = .asleep) :
    Blocked s.pipe d.stream := by
  refine (h d hd hpl).2.resolve_right ?_
  rintro ⟨c, -, hc, -⟩
  rw [hk] at hc
  cases hc

/-- While a call of its own end is in the kernel, a call that waits has reason to. -/
theorem Waits.blocked_of_own (h : s.Waits) (hinv : Inv s) (hc : c ∈ s.calls) (hk : s.kernel = some c.id)
    (hd : d ∈ s.calls) (hpl : d.place = .asleep) (hs : d.stream = c.stream) : Blocked s.pipe d.stream := by
  refine (h d hd hpl).2.resolve_right ?_
  rintro ⟨c', hc', hk', hs', -⟩
  have hid : c'.id = c.id := Option.some.inj (hk'.symm.trans hk)
  rw [hinv.eq_of_id hc hc' hid, hs] at hs'
  exact peer_ne _ hs'.symm

/-! ## References -/

theorem fcbDecref_blocked (s : State) (e e' : End) : Blocked (s.fcbDecref e).pipe e' ↔ Blocked s.pipe e' := by
  have hpos : (s.fcbDecref e).pipe.wPosition = s.pipe.wPosition ∧ (s.fcbDecref e).pipe.rPosition = s.pipe.rPosition := by
    unfold fcbDecref closeEnd
    dsimp only
    split
    · split <;> exact ⟨rfl, rfl⟩
    · exact ⟨rfl, rfl⟩
  cases e' <;> simp only [Blocked, PipeCB.Empty, PipeCB.Full, hpos]

/-- The call that gives up a reference to `e` wakes up the other side if that closes `e`. -/
theorem mem_fcbDecref (ho : ∀ d ∈ s.calls, s.pipe.isOpen d.stream = true) (hd : d ∈ (s.fcbDecref e).calls)
    (hpl : d.place = .asleep) :
    d ∈ s.calls ∧ (s.fcbDecref e).pipe.isOpen (peer d.stream) = s.pipe.isOpen (peer d.stream) := by
  have hclose : ∀ d : Call, d.stream = e → (s.pipe.close e).isOpen (peer d.stream) = s.pipe.isOpen (peer d.stream) := by
    rintro d rfl
    exact Function.update_of_ne (peer_ne _) _ _
  unfold fcbDecref closeEnd at hd ⊢
  dsimp only at hd ⊢
  split_ifs at hd ⊢ with hlast hopen
  · obtain ⟨hd, hne⟩ := mem_broadcast hd hpl
    exact ⟨hd, hclose d ((eq_or_eq_peer e d.stream).resolve_right hne)⟩
  · refine ⟨hd, hclose d ((eq_or_eq_peer e d.stream).resolve_right fun hs => hopen ?_)⟩
    rw [← hs]
    refine (Function.update_of_ne ?_ _ _).trans (ho d hd)
    rw [hs]
    exact peer_ne e
  · exact ⟨hd, rfl⟩

/-- A reference is dropped while each call in a waitset has reason to be there. -/
theorem waits_fcbDecref (ho : ∀ d ∈ s.calls, s.pipe.isOpen d.stream = true)
    (hw : ∀ d ∈ s.calls, d.place = .asleep → s.pipe.isOpen (peer d.stream) = true ∧ Blocked s.pipe d.stream) :
    (s.fcbDecref e).Waits := by
  intro d hd hpl
  obtain ⟨hd, hopen⟩ := mem_fcbDecref ho hd hpl
  obtain ⟨hpeer, hb⟩ := hw d hd hpl
  exact ⟨hopen.trans hpeer, .inl ((fcbDecref_blocked s e _).2 hb)⟩

/-! ## Steps -/

/-- The call in the kernel goes on. -/
theorem Waits.go (h : s.Waits) (hinv : Inv s) (hc : c ∈ s.calls) (hk : s.kernel = some c.id) (hg : Goes s c s') :
    s'.Waits := by
  have hown : ∀ d ∈ s.calls, d.place = .asleep → d.stream = c.stream →
      s.pipe.isOpen (peer d.stream) = true ∧ Blocked s.pipe d.stream := fun d hd hpl hs =>
    ⟨(h d hd hpl).1, h.blocked_of_own hinv hc hk hd hpl hs⟩
  have hleave : ∀ d ∈ s.calls.filter fun c' => c'.id ≠ c.id, s.pipe.isOpen d.stream = true := fun d hd =>
    hinv.own_open (List.mem_of_mem_filter hd)
  -- a call that moves a byte, or comes to its loop, is in the kernel still
  have hmoves : ∀ (p : PipeCB) (stored taken : List (Nat × UInt8)) (c' : Call), p.isOpen = s.pipe.isOpen →
      c'.id = c.id → c'.stream = c.stream → c'.place = .loop ∨ c'.place = .inner →
      (∀ d ∈ s.calls, d.place = .asleep → d.stream = c.stream → Blocked p d.stream) →
      Waits (setCall { s with pipe := p, stored := stored, taken := taken } c') := by
    intro p stored taken c' hp hid hs hpl' hsame d hd hpl
    obtain rfl | ⟨hd, -⟩ := mem_setCall hd
    · rcases hpl' with hl | hl <;> rw [hl] at hpl <;> cases hpl
    · refine ⟨(congrFun hp _).trans (h d hd hpl).1, ?_⟩
      rcases eq_or_eq_peer c.stream d.stream with he | he
      · exact .inl (hsame d hd hpl he)
      · refine .inr ⟨c', List.mem_map.2 ⟨c, hc, if_pos hid.symm⟩, ?_, ?_, hpl'⟩
        · exact hk.trans (congrArg some hid.symm)
        · rw [hs, he, peer_peer]
  cases hg with
  | goto pl hpl =>
    refine hmoves s.pipe s.stored s.taken { c with place := pl } rfl rfl rfl ?_ fun d hd hda hs => (hown d hd hda hs).2
    rcases hpl with ⟨-, rfl⟩ | ⟨-, rfl, -⟩ <;> simp
  | fail _ hclosed =>
    -- the other end is closed, so that no call waits
    have hpeer : s.pipe.isOpen (peer c.stream) = false := hclosed.resolve_left (by simp [hinv.own_open hc])
    refine waits_fcbDecref hleave fun d hd hpl => ?_
    have hd := List.mem_of_mem_filter hd
    have hs : d.stream = c.stream := (eq_or_eq_peer c.stream d.stream).resolve_right fun hs => by
      have := hinv.own_open hd
      rw [hs, hpeer] at this
      cases this
    exact hown d hd hpl hs
  | wait hplace hb hopen =>
    intro d hd hpl
    obtain rfl | ⟨hd, -⟩ := mem_setCall hd
    · exact ⟨hopen, .inl hb⟩
    · obtain ⟨hd, hne⟩ := mem_broadcast hd hpl
      obtain ⟨ho, hb⟩ := hown d hd hpl ((eq_or_eq_peer c.stream d.stream).resolve_right hne)
      exact ⟨ho, .inl hb⟩
  | finish =>
    have hbroad : Inv (s.broadcast (peer c.stream)) := InvBut.broadcast hinv _
    refine waits_fcbDecref (fun d hd => hbroad.own_open (List.mem_of_mem_filter hd)) fun d hd hpl => ?_
    obtain ⟨hd, hne⟩ := mem_broadcast (List.mem_of_mem_filter hd) hpl
    exact hown d hd hpl ((eq_or_eq_peer c.stream d.stream).resolve_right hne)
  | store hs _ hfull =>
    refine hmoves (s.pipe.put _) _ _ _ rfl rfl rfl (.inl rfl) fun d hd hpl hsd => absurd (hown d hd hpl hsd).2 ?_
    rw [hsd, hs]
    exact hfull
  | take hs _ hempty =>
    refine hmoves s.pipe.advance _ _ _ rfl rfl rfl (.inl rfl) fun d hd hpl hsd => absurd (hown d hd hpl hsd).2 ?_
    rw [hsd, hs]
    exact hempty
  | stay => exact h

/-- **Step lemma.** -/
theorem Waits.step {a : Action} (h : s.Waits) (hinv : Inv s) (he : s.step a = some s') : s'.Waits := by
  cases step_cases he with
  | call n buf hk _ =>
    intro d hd hpl
    rcases List.mem_cons.1 hd with rfl | hd
    · cases hpl
    · exact ⟨(h d hd hpl).1, .inl (h.blocked hk hd hpl)⟩
  | run hk hc _ => exact h.go hinv hc hk (runCall_goes s _)
  | resume hk _ _ =>
    intro d hd hpl
    obtain rfl | ⟨hd, -⟩ := mem_setCall hd
    · cases hpl
    · exact ⟨(h d hd hpl).1, .inl (h.blocked hk hd hpl)⟩
  | dup hk _ => exact fun d hd hpl => ⟨(h d hd hpl).1, .inl (h.blocked hk hd hpl)⟩
  | close hk _ =>
    exact waits_fcbDecref (fun d hd => hinv.own_open hd) fun d hd hpl => ⟨(h d hd hpl).1, h.blocked hk hd hpl⟩

/-- **Run lemma.** -/
theorem reaches_waits (hs : sys.Reaches s) : Inv s ∧ s.Waits := by
  refine hs.invariant (I := fun s => Inv s ∧ s.Waits) (fun s hs => ?_) fun s a s' h he => ?_
  · obtain ⟨buffer, rfl⟩ := hs
    exact ⟨boot_inv buffer, fun d hd => by cases hd⟩
  · exact ⟨h.1.step he, h.2.step h.1 he⟩

/-! ## The ends -/

/-- From `s` to `s'` no end but `e` is closed, and the block is freed if that was the last one. -/
structure Closes (e : End) (s s' : State) : Prop where
  other : ∀ e', e' ≠ e → s'.pipe.isOpen e' = s.pipe.isOpen e'
  freed : ((∀ e', s.pipe.isOpen e' = false) → s.freed = true) → (∀ e', s'.pipe.isOpen e' = false) → s'.freed = true

theorem closes_of_eq (e : End) (hopen : s'.pipe.isOpen = s.pipe.isOpen) (hfreed : s'.freed = s.freed) : Closes e s s' :=
  ⟨fun _ _ => congrFun hopen _, fun h hall => hfreed.trans (h fun e' => (congrFun hopen e').symm.trans (hall e'))⟩

theorem closes_fcbDecref {u : State} (e : End) (hopen : u.pipe.isOpen = s.pipe.isOpen) (hfreed : u.freed = s.freed) :
    Closes e s (u.fcbDecref e) := by
  have hother : ∀ e', e' ≠ e → (u.pipe.close e).isOpen e' = s.pipe.isOpen e' := fun e' he =>
    (Function.update_of_ne he _ _).trans (congrFun hopen e')
  unfold fcbDecref closeEnd
  dsimp only
  split_ifs with hlast hpeer
  · refine ⟨hother, fun _ hall => ?_⟩
    cases hpeer.symm.trans (hall (peer e))
  · exact ⟨hother, fun _ _ => rfl⟩
  · exact closes_of_eq e hopen hfreed

theorem Goes.closes (h : Goes s c s') : Closes c.stream s s' := by
  cases h with
  | fail | finish => exact closes_fcbDecref _ rfl rfl
  | goto | wait | store | take | stay => exact closes_of_eq _ rfl rfl

theorem step_closes {a : Action} (he : s.step a = some s') : ∃ e, Closes e s s' := by
  cases step_cases he with
  | run => exact ⟨_, (runCall_goes _ _).closes⟩
  | @call e | @dup e => exact ⟨e, closes_of_eq e rfl rfl⟩
  | @resume c => exact ⟨c.stream, closes_of_eq _ rfl rfl⟩
  | @close e => exact ⟨e, closes_fcbDecref e rfl rfl⟩

theorem reaches_freed (hs : sys.Reaches s) : (∀ e, s.pipe.isOpen e = false) → s.freed = true := by
  refine hs.invariant (I := fun s => (∀ e, s.pipe.isOpen e = false) → s.freed = true) (fun s hs hall => ?_)
    fun s a s' h he => ?_
  · obtain ⟨buffer, rfl⟩ := hs
    cases hall .reader
  · obtain ⟨e, hc⟩ := step_closes he
    exact hc.freed h

end State

open State

variable {s s' : State}

/-- A freed pipe has no slots, no references and no calls. -/
theorem Inv.of_freed (h : Inv s) (hf : s.freed = true) : s.calls = [] ∧ ∀ e, s.slots e = 0 ∧ s.pipe.isOpen e = false := by
  have hzero : ∀ e, s.slots e = 0 ∧ pins s.calls e = 0 := fun e => by
    have := h.freed hf e
    have href := h.refs e
    omega
  refine ⟨List.eq_nil_iff_forall_not_mem.2 fun c hc => ?_, fun e => ⟨(hzero e).1, ?_⟩⟩
  · have hpin : 0 < pins s.calls c.stream := List.count_pos_iff.2 (List.mem_map_of_mem hc)
    have := (hzero c.stream).2
    omega
  · rw [← Bool.not_eq_true, h.open_iff e, h.freed hf e]
    exact Nat.lt_irrefl 0

/-- What the users of a pipe that `sys_Pipe` has made can rely on. -/
structure NoneStuck (s : State) : Prop where
  hasData : s.kernel = none → ∀ c ∈ s.calls, c.stream = .reader → c.place = .asleep →
    s.pipe.Empty ∧ s.pipe.isOpen .writer = true
  hasSpace : s.kernel = none → ∀ c ∈ s.calls, c.stream = .writer → c.place = .asleep →
    s.pipe.Full ∧ s.pipe.isOpen .reader = true
  freed_iff : s.freed = true ↔ ∀ e, s.pipe.isOpen e = false
  /-- The step that frees the block closes the end that is still open, and no call is left. -/
  last : ∀ a s', s.step a = some s' → s.freed = false → s'.freed = true →
    s'.calls = [] ∧ ∃ e, s.pipe.isOpen e = true ∧ s.pipe.isOpen (peer e) = false
  /-- No step comes after that. -/
  once : s.freed = true → ∀ a, s.step a = none

/-- **Nobody is stuck at a pipe, and its block is freed once.** -/
theorem none_stuck (hs : sys.Reaches s) : NoneStuck s := by
  obtain ⟨hinv, hw⟩ := reaches_waits hs
  have hblocked : s.kernel = none → ∀ c ∈ s.calls, c.place = .asleep →
      Blocked s.pipe c.stream ∧ s.pipe.isOpen (peer c.stream) = true := fun hk c hc hpl =>
    ⟨hw.blocked hk hc hpl, (hw c hc hpl).1⟩
  refine ⟨fun hk c hc hr hpl => ?_, fun hk c hc hwr hpl => ?_, ⟨fun hf e => ((hinv.of_freed hf).2 e).2, reaches_freed hs⟩,
    fun a s' he hf hf' => ?_, fun hf a => ?_⟩
  · have h := hblocked hk c hc hpl
    rwa [hr] at h
  · have h := hblocked hk c hc hpl
    rwa [hwr] at h
  · obtain ⟨hnil, hclosed⟩ := (hinv.step he).of_freed hf'
    obtain ⟨e, hc⟩ := step_closes he
    have hpeer : s.pipe.isOpen (peer e) = false := (hc.other _ (peer_ne e)).symm.trans (hclosed _).2
    refine ⟨hnil, e, ?_, hpeer⟩
    by_contra hne
    have hall : ∀ e', s.pipe.isOpen e' = false := fun e' => by
      rcases eq_or_eq_peer e e' with rfl | rfl
      · simpa using hne
      · exact hpeer
    cases hf.symm.trans (reaches_freed hs hall)
  · obtain ⟨hnil, hclosed⟩ := hinv.of_freed hf
    have hfind : ∀ id, s.find id = none := fun id => by simp [State.find, hnil]
    cases a <;> simp [State.step, hfind, fun e => (hclosed e).1]

/-- A reader that waits is woken up by the close of the writing end, and the block goes with the reading end. -/
theorem none_stuck_reader : ∃ s, sys.Reaches s ∧ s.kernel = none ∧ (∃ c ∈ s.calls, c.place = .asleep) ∧ NoneStuck s ∧
    ∃ s', sys.run s [.close .writer, .close .reader, .resume 0, .run 0] = some s' ∧ s'.freed = true := by
  have hrun : ((sys.run (State.boot fun _ => 0) [.call .reader 1 fun _ => 0, .run 0, .run 0, .run 0]).map fun s =>
      (s.kernel, s.calls.map Call.place,
        (sys.run s [.close .writer, .close .reader, .resume 0, .run 0]).map State.freed)) =
      some (none, [.asleep], some true) := by
    decide +kernel
  obtain ⟨s, hs, he⟩ := Option.map_eq_some_iff.1 hrun
  simp only [Prod.mk.injEq, Option.map_eq_some_iff] at he
  obtain ⟨hk, hcalls, s', hs', hf⟩ := he
  obtain ⟨c, hc⟩ : ∃ c, c ∈ s.calls ∧ c.place = .asleep := by
    obtain ⟨c, hc, hpl⟩ := List.mem_map.1 (show Place.asleep ∈ s.calls.map Call.place by rw [hcalls]; simp)
    exact ⟨c, hc, hpl⟩
  have hr : sys.Reaches s := Lts.reaches_of_run (Lts.Reaches.init ⟨fun _ => 0, rfl⟩) hs
  exact ⟨s, hr, hk, ⟨c, hc⟩, none_stuck hr, s', hs', hf⟩

end TinyOS.Pipe
