import Mathlib.Data.List.Count
import TinyOS.Connection.Accepted
import TinyOS.Pipe.Calls

/-!
# The ends of the two pipes

What the calls of `sys_ShutDown` and `socket_close` so far have made of the pointers in the two SCBs and of the two
pipes (`Ends`); when `socket_close` and `sys_ShutDown` find what they use (`closeFirst`, `closeSecond`, `sysShutDown`),
and when not (`close_eq_none`, `sysShutDown_eq_none`).
-/

namespace TinyOS.Connection

open Sockets (ScbPtr PipePtr Scb Variant)
open Sockets.State (ShutdownMode)
open Pipe (End Call PipeCB)

@[simp] theorem Side.other_other (x : Side) : x.other.other = x := by cases x <;> rfl

@[simp] theorem Side.other_ne (x : Side) : x.other ≠ x := by cases x <;> simp [Side.other]

@[simp] theorem Side.ne_other (x : Side) : x ≠ x.other := by cases x <;> simp [Side.other]

theorem Side.eq_or_eq_other (x y : Side) : y = x ∨ y = x.other := by cases x <;> cases y <;> simp [Side.other]

/-- The side that reads the pipe which `x` has end `e` of. -/
def Side.reading (x : Side) : End → Side
  | .reader => x
  | .writer => x.other

/-! ## A pipe -/

/-- The ends in `closed` have been closed, and the pipe is freed when both have. -/
def PipeIs (k : Heap PipeCB) (p : PipePtr) (closed : End → Prop) : Prop :=
  match k.get p with
  | none => ∀ e, closed e
  | some x => (∃ e, ¬closed e) ∧ ∀ e, x.isOpen e = true ↔ ¬closed e

section

variable {b : Sockets.State} {k : Heap PipeCB} {p q : PipePtr} {closed closed' : End → Prop} {e : End}

theorem PipeIs.get_eq_none (h : PipeIs k p closed) (hall : ∀ e, closed e) : k.get p = none := by
  unfold PipeIs at h
  split at h
  · assumption
  · obtain ⟨⟨e, he⟩, -⟩ := h
    exact absurd (hall e) he

theorem PipeIs.get_some (h : PipeIs k p closed) (hne : ¬∀ e, closed e) :
    ∃ x, k.get p = some x ∧ ∀ e, x.isOpen e = true ↔ ¬closed e := by
  unfold PipeIs at h
  split at h
  · exact absurd h hne
  · exact ⟨_, by assumption, h.2⟩

theorem PipeIs.of_get (h : PipeIs k p closed) {k' : Heap PipeCB} (hget : k'.get p = k.get p)
    (hiff : ∀ e, closed' e ↔ closed e) : PipeIs k' p closed' := by
  obtain rfl : closed' = closed := funext fun e => propext (hiff e)
  unfold PipeIs
  rw [hget]
  exact h

theorem pipeIs_new (hx : k.get p = some (.new fun _ => 0)) (hno : ∀ e, ¬closed e) : PipeIs k p closed := by
  unfold PipeIs
  rw [hx]
  exact ⟨⟨.reader, hno _⟩, fun e => by simp [PipeCB.new, hno e]⟩

/-- Transfers do not open or close anything. -/
theorem PipeIs.modify (h : PipeIs k p closed) {x y : PipeCB} (hx : k.get p = some x) (hy : y.isOpen = x.isOpen) :
    PipeIs (k.modify p fun _ => y) p closed := by
  unfold PipeIs at h ⊢
  rw [hx] at h
  rw [Heap.get_modify_self, hx]
  refine ⟨h.1, fun e => ?_⟩
  rw [hy]
  exact h.2 e

theorem closePipe_freed (h : PipeIs b.pipe p closed) (hall : ∀ e, closed e) (e : End) :
    b.closePipe (some p) e = none := by
  simp [Sockets.State.closePipe, h.get_eq_none hall]

/-- `pipe_reader_close` and `pipe_writer_close` of a pipe that is there. -/
theorem closePipe_spec (h : PipeIs b.pipe p closed) (hne : ¬∀ e, closed e) (e : End) :
    ∃ k, b.closePipe (some p) e = some { b with pipe := k } ∧ PipeIs k p (fun e' => e' = e ∨ closed e') ∧
      ∀ q ≠ p, k.get q = b.pipe.get q := by
  obtain ⟨x, hx, hopen⟩ := h.get_some hne
  have hpeer : Pipe.State.peer e ≠ e := by cases e <;> simp [Pipe.State.peer]
  have hends : ∀ e', e' = e ∨ e' = Pipe.State.peer e := by cases e <;> intro e' <;> cases e' <;> simp [Pipe.State.peer]
  have hclose : (x.close e).isOpen (Pipe.State.peer e) = x.isOpen (Pipe.State.peer e) := Function.update_of_ne hpeer _ _
  simp only [Sockets.State.closePipe, hx, Option.bind_some, Option.map_some, hclose]
  by_cases ho : closed (Pipe.State.peer e)
  · have hfalse : ¬x.isOpen (Pipe.State.peer e) = true := fun hf => (hopen _).1 hf ho
    rw [if_neg hfalse]
    refine ⟨_, rfl, ?_, fun q hq => Heap.get_free_of_ne hq⟩
    unfold PipeIs
    rw [Heap.get_free_self]
    intro e'
    obtain rfl | rfl := hends e'
    · exact .inl rfl
    · exact .inr ho
  · rw [if_pos ((hopen _).2 ho)]
    refine ⟨_, rfl, ?_, fun q hq => Heap.get_modify_of_ne hq⟩
    unfold PipeIs
    rw [Heap.get_modify_self, hx]
    refine ⟨⟨_, fun h => h.elim hpeer ho⟩, fun e' => ?_⟩
    obtain rfl | rfl := hends e'
    · simp [PipeCB.close]
    · rw [hclose, hopen]
      simp [hpeer]

end

/-! ## What the calls so far have closed -/

namespace State

/-- The end that `x` writes to: `x` has shut it down, or was closed when the other socket was open. -/
def WriterClosed (s : State) (x : Side) : Prop := (x, .write) ∈ s.shut ∨ s.closed.head? = some x

/-- The end that `x` reads from. -/
def ReaderClosed (s : State) (x : Side) : Prop := (x, .read) ∈ s.shut ∨ (x, .both) ∈ s.shut ∨ s.closed.head? = some x

/-- The ends of the pipe that `x` writes to. -/
def Ended (s : State) (x : Side) : End → Prop
  | .writer => s.WriterClosed x
  | .reader => s.ReaderClosed x.other

/-- Both ends of the pipe that `x` reads from have been closed. -/
def Dead (s : State) (x : Side) : Prop := s.WriterClosed x.other ∧ s.ReaderClosed x

/-- The references to the FCB of `x`. -/
def refs (s : State) (x : Side) : Nat := s.slots x + s.transfers.countP (·.side = x)

/-- If this is the last reference, and the other socket is open: the pointers of `x` are not `NULL` and their pipes are
there. -/
def ClosesOnce (s : State) (x : Side) : Prop :=
  s.refs x = 1 → x.other ∉ s.closed → (x, .write) ∉ s.shut ∧ (x, .both) ∉ s.shut ∧ ¬s.Dead x

/-- The pointer that `sys_ShutDown` uses is not `NULL`, and its pipe is there. -/
def ShutsOnce (s : State) (x : Side) : ShutdownMode → Prop
  | .write => (x, .write) ∉ s.shut ∧ (x, .both) ∉ s.shut
  | .read | .both => (x, .both) ∉ s.shut ∧ ¬s.Dead x
  | .other => True

/-- The action does not use an end that the calls so far have closed. -/
def Orderly (s : State) : Action → Prop
  | .call x .reader _ _ => (x, .both) ∈ s.shut ∨ ¬s.Dead x
  | .call _ .writer _ _ | .resume _ | .dup _ => True
  | .run =>
    match s.kernel with
    | .running t => ∀ c ∈ s.find t, ¬s.Dead (t.side.reading c.stream)
    | _ => True
  | .leave =>
    match s.kernel with
    | .leaving t => s.ClosesOnce t.side
    | _ => True
  | .shutDown x how => s.ShutsOnce x how
  | .drop x => s.ClosesOnce x

instance (s : State) (x : Side) : Decidable (s.WriterClosed x) := inferInstanceAs (Decidable (_ ∨ _))

instance (s : State) (x : Side) : Decidable (s.ReaderClosed x) := inferInstanceAs (Decidable (_ ∨ _ ∨ _))

instance (s : State) (x : Side) : Decidable (s.Dead x) := inferInstanceAs (Decidable (_ ∧ _))

instance (s : State) (x : Side) : Decidable (s.ClosesOnce x) := inferInstanceAs (Decidable (_ → _ → _ ∧ _ ∧ _))

instance (s : State) (x : Side) : ∀ how, Decidable (s.ShutsOnce x how)
  | .write | .read | .both => inferInstanceAs (Decidable (_ ∧ _))
  | .other => inferInstanceAs (Decidable True)

instance (s : State) : ∀ a, Decidable (s.Orderly a)
  | .call _ .reader _ _ => inferInstanceAs (Decidable (_ ∨ _))
  | .call _ .writer _ _ | .resume _ | .dup _ => inferInstanceAs (Decidable True)
  | .run => s.kernel.decidableRunning fun t => ∀ c ∈ s.find t, ¬s.Dead (t.side.reading c.stream)
  | .leave => s.kernel.decidableLeaving fun t => s.ClosesOnce t.side
  | .shutDown x how => inferInstanceAs (Decidable (s.ShutsOnce x how))
  | .drop x => inferInstanceAs (Decidable (s.ClosesOnce x))

/-! ## The invariant -/

/-- What `peer_s` of `x` holds. -/
def ends (s : State) (w : Side → PipePtr) (x : Side) : Variant :=
  .peer (if x.other ∈ s.closed then none else some (s.scb x.other))
    (if (x, .write) ∈ s.shut ∨ (x, .both) ∈ s.shut then none else some (w x))
    (if (x, .both) ∈ s.shut then none else some (w x.other))

/-- The references to the FCB of `x`, with one to that of `extra` that is neither a slot nor a call. -/
def held (s : State) (extra : Option Side) (x : Side) : Nat := s.refs x + if extra = some x then 1 else 0

@[simp] theorem held_none (s : State) (x : Side) : s.held none x = s.refs x := rfl

/-- Side `x` writes to pipe `w x`. -/
structure Ends (extra : Option Side) (s : State) (w : Side → PipePtr) : Prop where
  scb_ne : ∀ x, s.scb x.other ≠ s.scb x
  pipe_ne : ∀ x, w x.other ≠ w x
  socket : ∀ x ∉ s.closed, ∃ y, s.sockets.scb.get (s.scb x) = some y ∧ y.type = .peer ∧
    y.slots = s.held extra x ∧ y.variant = s.ends w x
  pipe : ∀ x, PipeIs s.sockets.pipe (w x) (s.Ended x)
  closed : ∀ x, x ∈ s.closed ↔ s.held extra x = 0

/-- The calls in progress are where their sockets have sent them. -/
structure InProgress (s : State) (w : Side → PipePtr) : Prop where
  lt : ∀ t ∈ s.transfers, t.id < (s.chan t.pipe).started
  pipe : ∀ t ∈ s.transfers, ∀ c, s.find t = some c → t.pipe = w (t.side.reading c.stream).other
  running : ∀ t, s.kernel = .running t → t ∈ s.transfers ∧ s.find t ≠ none
  leaving : ∀ t, s.kernel = .leaving t → t ∈ s.transfers ∧ s.find t = none

structure Tied (s : State) (w : Side → PipePtr) : Prop where
  ends : Ends none s w
  calls : s.InProgress w

variable {s t : State} {w : Side → PipePtr} {x y : Side} {extra : Option Side} {b : Sockets.State}

theorem dead_iff : s.Dead x ↔ ∀ e, s.Ended x.other e := by
  constructor
  · rintro ⟨hw, hr⟩ e
    cases e with
    | writer => exact hw
    | reader => simpa [Ended] using hr
  · intro h
    exact ⟨h .writer, by simpa [Ended] using h .reader⟩

theorem ended_congr (hclosed : t.closed = s.closed) (hshut : t.shut = s.shut) (x : Side) (e : End) :
    t.Ended x e ↔ s.Ended x e := by
  cases e <;> simp only [Ended, WriterClosed, ReaderClosed, hclosed, hshut]

theorem ends_congr (hscb : t.scb = s.scb) (hclosed : t.closed = s.closed) (hshut : t.shut = s.shut)
    (w : Side → PipePtr) (x : Side) : t.ends w x = s.ends w x := by
  simp only [ends, hscb, hclosed, hshut]

theorem Ends.ne_of_ne (h : Ends extra s w) (hyx : y ≠ x) : s.scb y ≠ s.scb x := by
  obtain rfl | rfl := x.eq_or_eq_other y
  · exact absurd rfl hyx
  · exact h.scb_ne x

theorem Ends.pipe_ne_of_ne (h : Ends extra s w) (hyx : y ≠ x) : w y ≠ w x := by
  obtain rfl | rfl := x.eq_or_eq_other y
  · exact absurd rfl hyx
  · exact h.pipe_ne x

/-- A change in the number of references to the FCB of `x`. -/
theorem Ends.setSlots {extra' : Option Side} {f : Nat → Nat} (h : Ends extra s w) (hscb : t.scb = s.scb)
    (hsockets : t.sockets = s.sockets.modifyScb (s.scb x) fun y => { y with slots := f y.slots })
    (hclosed : t.closed = s.closed) (hshut : t.shut = s.shut)
    (hheld : ∀ y, t.held extra' y = if y = x then f (s.held extra y) else s.held extra y)
    (hpos : f (s.held extra x) = 0 ↔ s.held extra x = 0) : Ends extra' t w := by
  refine ⟨hscb ▸ h.scb_ne, h.pipe_ne, fun y hy => ?_, fun y => ?_, fun y => ?_⟩
  · obtain ⟨z, hz, htype, hslots, hvariant⟩ := h.socket y (hclosed ▸ hy)
    rw [hscb, hsockets, hheld, ends_congr hscb hclosed hshut, ← hslots]
    by_cases hyx : y = x
    · subst hyx
      exact ⟨{ z with slots := f z.slots }, by simp [Sockets.State.modifyScb, hz], htype, by simp, hvariant⟩
    · exact ⟨z, (Heap.get_modify_of_ne (h.ne_of_ne hyx)).trans hz, htype, by rw [if_neg hyx], hvariant⟩
  · exact (h.pipe y).of_get (by rw [hsockets]; rfl) (ended_congr hclosed hshut y)
  · rw [hclosed, hheld, h.closed]
    split
    · rename_i hyx
      subst hyx
      exact hpos.symm
    · rfl

/-! ## Closing a socket -/

theorem fcbDecref_last {a : ScbPtr} {z : Scb} (hz : b.scb.get a = some z) (hslots : z.slots = 1) :
    b.fcbDecref a = ((b.dropSlot a).closeEnds { z with slots := 0 } a).bind fun b' =>
      (b'.scb.get a).map fun z' => b'.release a z'.refcount := by
  have hdrop : (b.dropSlot a).scb.get a = some { z with slots := 0 } := by
    simp [Sockets.State.dropSlot, Sockets.State.modifyScb, hz, hslots]
  have hclose : b.fcbDecref a = ((b.dropSlot a).socketClose a).map (·.2) := by
    simp only [Sockets.State.fcbDecref, hz, Option.bind_some, hslots]
    rfl
  rw [hclose, Sockets.State.socketClose, hdrop, Option.bind_some, Option.map_bind]
  congr 1
  funext b'
  rw [Function.comp_apply, Option.map_map]
  congr 1
  funext z'
  simp only [Function.comp_apply, Sockets.State.release]
  split <;> rfl

theorem release_get_of_ne {a a' : ScbPtr} (hne : a' ≠ a) (n : Int) : (b.release a n).scb.get a' = b.scb.get a' := by
  unfold Sockets.State.release
  split
  · exact Heap.get_free_of_ne hne
  · exact Heap.get_modify_of_ne hne

theorem release_not_open {a : ScbPtr} {z : Scb} (hz : b.scb.get a = some z) (hslots : z.slots = 0) (n : Int) :
    ¬(b.release a n).IsOpen a := by
  rintro ⟨z', hz', hpos⟩
  unfold Sockets.State.release at hz'
  split at hz'
  · cases Heap.get_free_self.symm.trans hz'
  · obtain ⟨z₀, hz₀, rfl⟩ := Heap.get_modify_eq_some.1 hz'
    cases hz.symm.trans hz₀
    rw [if_pos rfl] at hpos
    exact absurd hslots (Nat.ne_of_gt hpos)

theorem Ends.closed_append (h : Ends (some x) s w) (hrefs : s.refs x = 0) (y : Side) :
    y ∈ s.closed ++ [x] ↔ s.refs y = 0 := by
  rw [List.mem_append, List.mem_singleton, h.closed]
  by_cases hyx : y = x
  · subst hyx
    simp [hrefs]
  · have hne : some x ≠ some y := fun he => hyx (Option.some.inj he).symm
    simp [held, hyx, hne]

/-- The peer has been closed before: `socket_close` finds that `peer` is `NULL`. -/
theorem Ends.closeSecond (h : Ends (some x) s w) (hrefs : s.refs x = 0) (ho : x.other ∈ s.closed) :
    ∃ b, s.sockets.fcbDecref (s.scb x) = some b ∧ ¬b.IsOpen (s.scb x) ∧
      ∀ t : State, t.scb = s.scb → t.sockets = b → t.closed = s.closed ++ [x] → t.shut = s.shut →
        (∀ y, t.refs y = s.refs y) → Ends none t w := by
  have hx : x ∉ s.closed := fun hx => by
    have := (h.closed x).1 hx
    simp [held] at this
  obtain ⟨z, hz, htype, hslots, hv⟩ := h.socket x hx
  have hone : z.slots = 1 := by simpa [held, hrefs] using hslots
  have hget : (s.sockets.dropSlot (s.scb x)).scb.get (s.scb x) = some { z with slots := 0 } := by
    simp [Sockets.State.dropSlot, Sockets.State.modifyScb, hz, hone]
  refine ⟨_, ?_, release_not_open hget rfl z.refcount, fun t hscb hsockets hclosed hshut ht => ?_⟩
  · rw [fcbDecref_last hz hone]
    simp [Sockets.State.closeEnds, htype, hv, ends, ho, hget]
  · refine ⟨hscb ▸ h.scb_ne, h.pipe_ne, fun y hy => ?_, fun y => ?_, fun y => ?_⟩
    · rw [hclosed, List.mem_append, List.mem_singleton] at hy
      obtain rfl | rfl := x.eq_or_eq_other y
      · exact absurd (.inr rfl) hy
      · exact absurd (.inl ho) hy
    · have hhead : t.closed.head? = s.closed.head? := by
        rw [hclosed]
        cases hc : s.closed with
        | nil => simp [hc] at ho
        | cons => rfl
      refine (h.pipe y).of_get (by rw [hsockets, Sockets.State.release_pipe]; rfl) fun e => ?_
      cases e <;> simp only [Ended, WriterClosed, ReaderClosed, hhead, hshut]
    · rw [hclosed, h.closed_append hrefs, held_none, ht]

theorem Ends.open_of_extra (h : Ends (some x) s w) : x ∉ s.closed := fun hx => by
  have := (h.closed x).1 hx
  simp [held] at this

/-- `peer_s`, when nothing has been closed but by `sys_ShutDown`. -/
theorem ends_of_open (ho : x.other ∉ s.closed) (hw : (x, .write) ∉ s.shut) (hb : (x, .both) ∉ s.shut) :
    s.ends w x = .peer (some (s.scb x.other)) (some (w x)) (some (w x.other)) := by simp [ends, ho, hw, hb]

theorem closed_eq_nil (hx : x ∉ s.closed) (ho : x.other ∉ s.closed) : s.closed = [] := by
  refine List.eq_nil_iff_forall_not_mem.2 fun y hy => ?_
  obtain rfl | rfl := x.eq_or_eq_other y
  · exact hx hy
  · exact ho hy

/-- The first of the two to be closed closes its end of both pipes. -/
theorem Ends.closeFirst (h : Ends (some x) s w) (hrefs : s.refs x = 0) (ho : x.other ∉ s.closed)
    (hw : (x, .write) ∉ s.shut) (hb : (x, .both) ∉ s.shut) (hdead : ¬s.Dead x) :
    ∃ b, s.sockets.fcbDecref (s.scb x) = some b ∧ ¬b.IsOpen (s.scb x) ∧
      ∀ t : State, t.scb = s.scb → t.sockets = b → t.closed = s.closed ++ [x] → t.shut = s.shut →
        (∀ y, t.refs y = s.refs y) → Ends none t w := by
  have hx := h.open_of_extra
  have hnil := closed_eq_nil hx ho
  obtain ⟨z, hz, htype, hslots, hv⟩ := h.socket x hx
  obtain ⟨z', hz', htype', hslots', hv'⟩ := h.socket x.other ho
  have hone : z.slots = 1 := by simpa [held, hrefs] using hslots
  have hget : (s.sockets.dropSlot (s.scb x)).scb.get (s.scb x) = some { z with slots := 0 } := by
    simp [Sockets.State.dropSlot, Sockets.State.modifyScb, hz, hone]
  have hget' : (s.sockets.dropSlot (s.scb x)).scb.get (s.scb x.other) = some z' :=
    (Heap.get_modify_of_ne (h.scb_ne x)).trans hz'
  have halive : ¬∀ e, s.Ended x e := fun hall => (hall .writer).elim hw (by simp [hnil])
  obtain ⟨k₁, hk₁, hw₁, hsame₁⟩ := closePipe_spec (b := s.sockets.dropSlot (s.scb x)) (h.pipe x) halive .writer
  have hr₁ : PipeIs k₁ (w x.other) (s.Ended x.other) := (h.pipe x.other).of_get (hsame₁ _ (h.pipe_ne x)) fun _ => Iff.rfl
  obtain ⟨k₂, hk₂, hr₂, hsame₂⟩ :=
    closePipe_spec (b := { s.sockets.dropSlot (s.scb x) with pipe := k₁ }) hr₁ (dead_iff.not.1 hdead) .reader
  have hw₂ : PipeIs k₂ (w x) _ := hw₁.of_get (hsame₂ _ (Ne.symm (h.pipe_ne x))) fun _ => Iff.rfl
  obtain ⟨p, w', r', hpeer⟩ : ∃ p w' r', z'.variant = .peer p w' r' := ⟨_, _, _, hv'⟩
  have hends : (s.sockets.dropSlot (s.scb x)).closeEnds { z with slots := 0 } (s.scb x) =
      some ({ s.sockets.dropSlot (s.scb x) with pipe := k₂ }.modifyScb (s.scb x.other)
        (·.setVariant (.peer none w' r'))) := by
    simp only [Sockets.State.closeEnds, htype, hv.trans (ends_of_open ho hw hb), hk₁, Option.bind_some]
    simp only [hk₂, Option.bind_some, Sockets.State.unlinkPeer, hget', hpeer]
  have hget₃ : ({ s.sockets.dropSlot (s.scb x) with pipe := k₂ }.modifyScb (s.scb x.other)
      (·.setVariant (.peer none w' r'))).scb.get (s.scb x) = some { z with slots := 0 } :=
    (Heap.get_modify_of_ne (Ne.symm (h.scb_ne x))).trans hget
  refine ⟨_, ?_, release_not_open hget₃ rfl z.refcount, fun t hscb hsockets hclosed hshut ht => ?_⟩
  · rw [fcbDecref_last hz hone, hends, Option.bind_some, hget₃]
    rfl
  have hclosed' : t.closed = [x] := by rw [hclosed, hnil]; rfl
  refine ⟨hscb ▸ h.scb_ne, h.pipe_ne, fun y hy => ?_, fun y => ?_, fun y => ?_⟩
  · obtain rfl | rfl := x.eq_or_eq_other y
    · simp [hclosed'] at hy
    · refine ⟨z'.setVariant (.peer none w' r'), ?_, htype', ?_, ?_⟩
      · rw [hscb, hsockets, release_get_of_ne (h.scb_ne x)]
        exact Heap.get_modify_self.trans (congrArg (Option.map _) hget')
      · rw [held_none, ht]
        have hheld : s.held (some x) x.other = s.refs x.other := by simp [held]
        exact hslots'.trans hheld
      · have hpv := hpeer.symm.trans hv'
        simp only [ends, Side.other_other, hnil, List.not_mem_nil, if_false] at hpv
        cases hpv
        simp [ends, hclosed', hshut, Scb.setVariant]
  · have hpipe : t.sockets.pipe = k₂ := by rw [hsockets, Sockets.State.release_pipe]; rfl
    obtain rfl | rfl := x.eq_or_eq_other y
    · refine hw₂.of_get (by rw [hpipe]) fun e => ?_
      cases e <;> simp [Ended, WriterClosed, ReaderClosed, hclosed', hshut, hnil]
    · refine hr₂.of_get (by rw [hpipe]) fun e => ?_
      cases e <;> simp [Ended, WriterClosed, ReaderClosed, hclosed', hshut, hnil]
  · rw [hclosed, h.closed_append hrefs, held_none, ht]

/-- A pointer that is `NULL`, or to a pipe that was freed. -/
theorem Ends.close_eq_none (h : Ends (some x) s w) (hrefs : s.refs x = 0) (ho : x.other ∉ s.closed)
    (hbad : ¬((x, .write) ∉ s.shut ∧ (x, .both) ∉ s.shut ∧ ¬s.Dead x)) : s.sockets.fcbDecref (s.scb x) = none := by
  have hx := h.open_of_extra
  have hnil := closed_eq_nil hx ho
  obtain ⟨z, hz, htype, hslots, hv⟩ := h.socket x hx
  have hone : z.slots = 1 := by simpa [held, hrefs] using hslots
  rw [fcbDecref_last hz hone]
  suffices hends : (s.sockets.dropSlot (s.scb x)).closeEnds { z with slots := 0 } (s.scb x) = none by rw [hends]; rfl
  by_cases hw : (x, .write) ∈ s.shut ∨ (x, .both) ∈ s.shut
  · simp [Sockets.State.closeEnds, htype, hv, ends, ho, hw, Sockets.State.closePipe]
  · obtain ⟨hw, hb⟩ := not_or.1 hw
    have hdead : s.Dead x := by
      by_contra hn
      exact hbad ⟨hw, hb, hn⟩
    have halive : ¬∀ e, s.Ended x e := fun hall => (hall .writer).elim hw (by simp [hnil])
    obtain ⟨k, hk, -, hsame⟩ := closePipe_spec (b := s.sockets.dropSlot (s.scb x)) (h.pipe x) halive .writer
    have hr : PipeIs k (w x.other) (s.Ended x.other) := (h.pipe x.other).of_get (hsame _ (h.pipe_ne x)) fun _ => Iff.rfl
    have hfreed := closePipe_freed (b := { s.sockets.dropSlot (s.scb x) with pipe := k }) hr (dead_iff.1 hdead) .reader
    simp only [Sockets.State.closeEnds, htype, hv.trans (ends_of_open ho hw hb), hk, Option.bind_some]
    simp only [hfreed, Option.bind_none]

/-! ## Shutting down -/

theorem Ends.closeEnd (h : Ends extra s w) (y₀ : Side) (e₀ : End) (halive : ¬∀ e, s.Ended y₀ e) :
    ∃ k, s.sockets.closePipe (some (w y₀)) e₀ = some { s.sockets with pipe := k } ∧ ∀ t : State,
      (∀ y e, t.Ended y e ↔ (y = y₀ ∧ e = e₀) ∨ s.Ended y e) → ∀ y, PipeIs k (w y) (t.Ended y) := by
  obtain ⟨k, hk, hself, hsame⟩ := closePipe_spec (h.pipe y₀) halive e₀
  refine ⟨k, hk, fun t ht y => ?_⟩
  obtain rfl | rfl := y₀.eq_or_eq_other y
  · exact hself.of_get rfl fun e => by rw [ht, and_iff_right rfl]
  · exact (h.pipe _).of_get (hsame _ (h.pipe_ne y₀)) fun e => by simp [ht]

theorem writerClosed_shut {how : ShutdownMode} (hclosed : t.closed = s.closed) (hshut : t.shut = s.shut ++ [(x, how)])
    (y : Side) : t.WriterClosed y ↔ s.WriterClosed y ∨ y = x ∧ how = .write := by
  simp only [WriterClosed, hclosed, hshut, List.mem_append, List.mem_singleton, Prod.mk.injEq, eq_comm]
  tauto

theorem readerClosed_shut {how : ShutdownMode} (hclosed : t.closed = s.closed) (hshut : t.shut = s.shut ++ [(x, how)])
    (y : Side) : t.ReaderClosed y ↔ s.ReaderClosed y ∨ y = x ∧ (how = .read ∨ how = .both) := by
  simp only [ReaderClosed, hclosed, hshut, List.mem_append, List.mem_singleton, Prod.mk.injEq, eq_comm]
  tauto

/-- What a call of `sys_ShutDown` closes. -/
def shutEnd (x : Side) : ShutdownMode → Option (Side × End)
  | .read | .both => some (x.other, .reader)
  | .write => some (x, .writer)
  | .other => none

theorem ended_shut {how : ShutdownMode} (hclosed : t.closed = s.closed) (hshut : t.shut = s.shut ++ [(x, how)])
    (y : Side) (e : End) : t.Ended y e ↔ shutEnd x how = some (y, e) ∨ s.Ended y e := by
  have hother : y.other = x ↔ x.other = y := ⟨fun h => by rw [← h, y.other_other], fun h => by rw [← h, x.other_other]⟩
  cases e with
  | writer =>
    simp only [Ended, writerClosed_shut hclosed hshut]
    cases how <;> simp [shutEnd, eq_comm, or_comm]
  | reader =>
    simp only [Ended, readerClosed_shut hclosed hshut, hother]
    cases how <;> simp [shutEnd, or_comm]

/-- What it returns. -/
def shutResult : ShutdownMode → Int
  | .other => -1
  | _ => 0

/-- The other socket is as it was. -/
theorem Ends.shut {how : ShutdownMode} {z : Scb} (h : Ends none s w) (hscb : t.scb = s.scb) (hclosed : t.closed = s.closed)
    (hshut : t.shut = s.shut ++ [(x, how)]) (hrefs : ∀ y, t.refs y = s.refs y)
    (hself : t.sockets.scb.get (s.scb x) = some z) (htype : z.type = .peer) (hslots : z.slots = s.refs x)
    (hv : z.variant = t.ends w x) (hother : t.sockets.scb.get (s.scb x.other) = s.sockets.scb.get (s.scb x.other))
    (hpipe : ∀ y, PipeIs t.sockets.pipe (w y) (t.Ended y)) : Ends none t w := by
  refine ⟨hscb ▸ h.scb_ne, h.pipe_ne, fun y hy => ?_, hpipe, fun y => ?_⟩
  · rw [hscb, held_none, hrefs]
    obtain rfl | rfl := x.eq_or_eq_other y
    · exact ⟨z, hself, htype, hslots, hv⟩
    · obtain ⟨z', hz', htype', hslots', hv'⟩ := h.socket x.other (hclosed ▸ hy)
      refine ⟨z', hother.trans hz', htype', hslots', hv'.trans ?_⟩
      simp [ends, hscb, hclosed, hshut]
  · rw [hclosed, held_none, hrefs, h.closed, held_none]

theorem sysShutDown_peer {a : ScbPtr} {z : Scb} {p : Option ScbPtr} {wp rp : Option PipePtr}
    (hz : b.scb.get a = some z) (htype : z.type = .peer) (hv : z.variant = .peer p wp rp) (how : ShutdownMode) :
    b.sysShutDown how (some a) =
      match how with
      | .other => some (-1, b)
      | .read => (b.closePipe rp .reader).map fun b' => (0, b')
      | .write => (b.closePipe wp .writer).map fun b' => (0, b'.modifyScb a (·.setVariant (.peer p none rp)))
      | .both => (b.closePipe rp .reader).map fun b' => (0, b'.modifyScb a (·.setVariant (.peer p none none))) := by
  simp only [Sockets.State.sysShutDown, hz, Option.bind_some, htype, hv, ne_eq, not_true_eq_false, if_false]
  cases how <;> rfl

theorem Ends.sysShutDown (h : Ends none s w) (hx : x ∉ s.closed) {how : ShutdownMode} (hok : s.ShutsOnce x how) :
    ∃ b, s.sockets.sysShutDown how (some (s.scb x)) = some (shutResult how, b) ∧ ∀ t : State, t.scb = s.scb →
      t.sockets = b → t.closed = s.closed → t.shut = s.shut ++ [(x, how)] → (∀ y, t.refs y = s.refs y) →
        Ends none t w := by
  obtain ⟨z, hz, htype, hslots, hv⟩ := h.socket x hx
  cases how with
  | other =>
    refine ⟨s.sockets, sysShutDown_peer hz htype hv _, ?_⟩
    intro t hscb hsockets hclosed hshut hrefs
    refine h.shut hscb hclosed hshut hrefs (by rw [hsockets, hz]) htype hslots ?_ (by rw [hsockets]) fun y => ?_
    · rw [hv]
      simp [ends, hscb, hclosed, hshut]
    · exact (h.pipe y).of_get (by rw [hsockets]) fun e => by simp [ended_shut hclosed hshut, shutEnd]
  | write =>
    obtain ⟨hw, hb⟩ := hok
    have halive : ¬∀ e, s.Ended x e := fun hall => (hall .writer).elim hw fun hf => hx (List.mem_of_head? hf)
    obtain ⟨k, hk, hpipe⟩ := h.closeEnd x .writer halive
    simp only [ends, hw, hb, or_self, if_false] at hv
    refine ⟨_, by rw [sysShutDown_peer hz htype hv]; simp only [hk]; rfl, ?_⟩
    intro t hscb hsockets hclosed hshut hrefs
    refine h.shut (z := z.setVariant (t.ends w x)) hscb hclosed hshut hrefs ?_ htype hslots rfl
      (by rw [hsockets]; exact Heap.get_modify_of_ne (h.scb_ne x)) fun y => ?_
    · rw [hsockets]
      refine Heap.get_modify_self.trans ?_
      simp [hz, ends, hscb, hclosed, hshut, hb]
    · have ht := hpipe t fun y e => by simp [ended_shut hclosed hshut, shutEnd, eq_comm]
      rw [hsockets]
      exact ht y
  | read =>
    obtain ⟨hb, hdead⟩ := hok
    obtain ⟨k, hk, hpipe⟩ := h.closeEnd x.other .reader (dead_iff.not.1 hdead)
    simp only [ends, hb, if_false] at hv
    refine ⟨_, by rw [sysShutDown_peer hz htype hv]; simp only [hk]; rfl, ?_⟩
    intro t hscb hsockets hclosed hshut hrefs
    refine h.shut hscb hclosed hshut hrefs (by rw [hsockets]; exact hz) htype hslots ?_ (by rw [hsockets]) fun y => ?_
    · simp [ends, hscb, hclosed, hshut, hb, hv]
    · have ht := hpipe t fun y e => by simp [ended_shut hclosed hshut, shutEnd, eq_comm]
      rw [hsockets]
      exact ht y
  | both =>
    obtain ⟨hb, hdead⟩ := hok
    obtain ⟨k, hk, hpipe⟩ := h.closeEnd x.other .reader (dead_iff.not.1 hdead)
    simp only [ends, hb, if_false] at hv
    refine ⟨_, by rw [sysShutDown_peer hz htype hv]; simp only [hk]; rfl, ?_⟩
    intro t hscb hsockets hclosed hshut hrefs
    refine h.shut (z := z.setVariant (t.ends w x)) hscb hclosed hshut hrefs ?_ htype hslots rfl
      (by rw [hsockets]; exact Heap.get_modify_of_ne (h.scb_ne x)) fun y => ?_
    · rw [hsockets]
      refine Heap.get_modify_self.trans ?_
      simp [hz, ends, hscb, hclosed, hshut]
    · have ht := hpipe t fun y e => by simp [ended_shut hclosed hshut, shutEnd, eq_comm]
      rw [hsockets]
      exact ht y

theorem Ends.sysShutDown_eq_none (h : Ends none s w) (hx : x ∉ s.closed) {how : ShutdownMode}
    (hbad : ¬s.ShutsOnce x how) : s.sockets.sysShutDown how (some (s.scb x)) = none := by
  obtain ⟨z, hz, htype, -, hv⟩ := h.socket x hx
  have hreader : ¬((x, .both) ∉ s.shut ∧ ¬s.Dead x) →
      s.sockets.closePipe (if (x, .both) ∈ s.shut then none else some (w x.other)) .reader = none := by
    intro hn
    split
    · rfl
    · rename_i hb
      exact closePipe_freed (h.pipe x.other) (dead_iff.1 (by by_contra hd; exact hn ⟨hb, hd⟩)) .reader
  rw [sysShutDown_peer hz htype hv]
  cases how with
  | other => exact absurd trivial hbad
  | write =>
    have hnull : (x, .write) ∈ s.shut ∨ (x, .both) ∈ s.shut := by
      by_contra hn
      exact hbad (not_or.1 hn)
    rw [if_pos hnull]
    rfl
  | read | both => simp only [hreader hbad, Option.map_none]

end State

end TinyOS.Connection
