import Mathlib.Algebra.GroupWithZero.Nat
import TinyOS.Connection.Channels

/-!
# `SHUTDOWN_BOTH`

The calls that come after `SHUTDOWN_BOTH`, and after `SHUTDOWN_READ` and `SHUTDOWN_WRITE`. In `sys_ShutDown` the 0 of
`pipe_reader_close` ends the `&&`, so that `SHUTDOWN_BOTH` leaves the writing end open, and a `socket_read` at the other
side waits at the end of the data.
-/

namespace TinyOS.Connection

open Sockets (ScbPtr PipePtr)
open Sockets.State (ShutdownMode)
open Pipe (End Call PipeCB)

/-! ## Later calls -/

/-- A call of `socket_read` or `socket_write`. -/
structure Later where
  side : Side
  stream : End
  n : BitVec 32
  buf : Int → UInt8

namespace State

/-- The call in the kernel goes on until it waits or has returned; `none` if it takes more than that many steps. -/
def settle : Nat → State → Option State
  | 0, s => if s.kernel = .free then some s else none
  | k + 1, s =>
    match s.kernel with
    | .free => some s
    | .running _ => (s.step .run).bind (settle k)
    | .leaving _ => (s.step .leave).bind (settle k)

/-- One call; for a byte it takes two steps. -/
def transact (s : State) (k : Later) : Option State :=
  (s.step (.call k.side k.stream k.n k.buf)).bind (settle (2 * k.n.toNat + 3))

/-- What has been returned from `s` to `s'`. -/
def outcome (s s' : State) : Option Return := if s'.returns.length = s.returns.length then none else s'.returns.head?

/-- One call after the other; `none` stands for a call that waits. -/
def outcomes : State → List Later → Option (List (Option Return))
  | _, [] => some []
  | s, k :: ks => (s.transact k).bind fun s' => (s'.outcomes ks).map (s.outcome s' :: ·)

end State

/-! ## What they should return -/

/-- The bytes of `l` at the first addresses of `buf`. -/
def fill (buf : Int → UInt8) (l : List UInt8) : Int → UInt8
  | .ofNat i => l[i]?.getD (buf i)
  | i => buf i

/-- The `socket_read` calls of the other side take the bytes that `x` has left in the pipe, and then return 0; all other
calls return -1. -/
def drained (x : Side) : List UInt8 → List Later → List (Option Return)
  | _, [] => []
  | l, k :: ks =>
    if k.side = x.other ∧ k.stream = .reader then
      let l' := l.take k.n.toNat
      some ⟨k.side, k.stream, fill k.buf l', l'.length⟩ :: drained x (l.drop k.n.toNat) ks
    else some ⟨k.side, k.stream, k.buf, -1⟩ :: drained x l ks

/-- The bytes that the `socket_read` calls of the other side ask for. -/
def demand (x : Side) (ks : List Later) : Nat :=
  ((ks.filter fun k => k.side = x.other ∧ k.stream = .reader).map fun k => k.n.toNat).sum

/-! ## A call, step by step -/

namespace State

variable {s s' : State} {w : Side → PipePtr} {x : Side} {hs : List (Side × ShutdownMode)} {l l' : List UInt8}
  {t : Transfer} {c c' : Call} {z p : PipeCB}

/-- The positions of a pipe are in its buffer. -/
def InBounds (z : PipeCB) : Prop := z.rPosition < Pipe.pipeBufferSize ∧ z.wPosition < Pipe.pipeBufferSize

/-- The calls of `sys_ShutDown` so far are `hs`, nothing else has been closed, and `l` is in the pipe that `x` writes
to. -/
structure Holds (s : State) (w : Side → PipePtr) (x : Side) (hs : List (Side × ShutdownMode)) (l : List UInt8) : Prop where
  tied : s.Tied w
  shut : s.shut = hs
  closed : s.closed = []
  pipe : ∃ z, s.sockets.pipe.get (w x) = some z ∧ z.contents = l ∧ InBounds z

theorem settle_free (hk : s.kernel = .free) (k : Nat) : settle k s = some s := by
  cases k <;> simp [settle, hk]

theorem settle_run (hk : s.kernel = .running t) (hs : s.step .run = some s') (k : Nat) :
    settle (k + 1) s = settle k s' := by simp [settle, hk, hs]

theorem settle_leave (hk : s.kernel = .leaving t) (hs : s.step .leave = some s') (k : Nat) :
    settle (k + 1) s = settle k s' := by simp [settle, hk, hs]

/-- One go of the call in the kernel. -/
theorem step_run (hk : s.kernel = .running t) (hz : s.sockets.pipe.get t.pipe = some z) (hc : s.find t = some c) :
    s.step .run = some (s.record t (s.view t.pipe z) ((s.view t.pipe z).runCall c)) :=
  step_eq_some.2 ⟨⟨t, hk⟩, by simp only [perform, hk, run_eq hz hc]⟩

/-- The call goes on to `c'`. -/
theorem Holds.goesOn (h : s.Holds w x hs l) (hk : s.kernel = .running t) (hc : s.find t = some c) (hpipe : t.pipe = w x)
    (hz : s.sockets.pipe.get t.pipe = some z) {tk : List (Nat × UInt8)} (hid : c'.id = c.id)
    (hrun : (s.view t.pipe z).runCall c = Pipe.State.setCall { s.view t.pipe z with pipe := p, taken := tk } c')
    (hp : p.contents = l') (hbounds : InBounds p) : ∃ s', s.step .run = some s' ∧ s'.Holds w x hs l' ∧
      s'.kernel = .running t ∧ s'.find t = some c' ∧ s'.slots = s.slots ∧ s'.returns = s.returns := by
  have hstep := step_run hk hz hc
  refine ⟨_, hstep, ⟨(h.tied.step hstep).2, h.shut, h.closed, p, ?_, hp, hbounds⟩, ?_, ?_, rfl, ?_⟩
  · rw [hrun, ← hpipe]
    exact Heap.get_modify_self.trans (by rw [hz]; rfl)
  · have hkernel : (Pipe.State.setCall { s.view t.pipe z with pipe := p, taken := tk } c').kernel ≠ none := by
      show (s.view t.pipe z).kernel ≠ none
      simp [view_kernel_self hk]
    rw [hrun]
    simp only [record, if_pos hkernel, hk]
  · rw [find_record, if_pos rfl, hrun, Pipe.State.find_setCall]
    have hfind : Pipe.State.find { s.view t.pipe z with pipe := p, taken := tk } t.id = some c := hc
    rw [hfind, Option.map_some, if_pos hid.symm]
  · rw [hrun]
    show (List.take ((s.view t.pipe z).returns.length - (s.view t.pipe z).returns.length) _).map _ ++ s.returns = s.returns
    simp

/-- The call waits. -/
theorem waits (hk : s.kernel = .running t) (hc : s.find t = some c) (hz : s.sockets.pipe.get t.pipe = some z)
    (hrun : (s.view t.pipe z).runCall c = ((s.view t.pipe z).broadcast .writer).kernelWait c) :
    ∃ s', s.step .run = some s' ∧ s'.kernel = .free ∧ s'.returns = s.returns := by
  refine ⟨_, step_run hk hz hc, ?_, ?_⟩
  · rw [hrun]
    simp [record, Pipe.State.kernelWait, Pipe.State.setCall, Pipe.State.broadcast]
  · rw [hrun]
    show (List.take ((s.view t.pipe z).returns.length - (s.view t.pipe z).returns.length) _).map _ ++ s.returns = s.returns
    simp

/-- The call drops its reference. -/
theorem Holds.leave (h : s.Holds w x hs l) (hk : s.kernel = .leaving t) (hx : 0 < s.slots t.side) :
    ∃ s', s.step .leave = some s' ∧ s'.Holds w x hs l ∧ s'.kernel = .free ∧ s'.slots = s.slots ∧
      s'.returns = s.returns := by
  have hmem := (h.tied.calls.leaving t hk).1
  have hrefs : refs { s with transfers := s.transfers.erase t, kernel := .free } t.side ≠ 0 := by
    simp only [refs]
    omega
  have hstep : s.step .leave = _ :=
    step_eq_some.2 ⟨⟨t, hk⟩, by simp only [perform, hk]; exact (h.tied.ends.endTransfer hmem).fcbDecref_more hrefs⟩
  exact ⟨_, hstep, ⟨(h.tied.step hstep).2, h.shut, h.closed, h.pipe⟩, rfl, rfl, rfl⟩

/-- The call returns. -/
theorem Holds.returns (h : s.Holds w x hs l) (hk : s.kernel = .running t) (hc : s.find t = some c)
    (hx : 0 < s.slots t.side) (hz : s.sockets.pipe.get t.pipe = some z) {v : Pipe.State} {r : Int}
    (hrun : (s.view t.pipe z).runCall c = v.leave c r) (hpipe : v.pipe = z)
    (hreturns : v.returns = (s.view t.pipe z).returns) (href : v.refcount = (s.view t.pipe z).refcount) (k : Nat) :
    ∃ s', settle (k + 2) s = some s' ∧ s'.Holds w x hs l ∧ s'.kernel = .free ∧ s'.slots = s.slots ∧
      s'.returns = ⟨t.side, c.stream, c.buf, r⟩ :: s.returns := by
  have hmem : c ∈ (s.chan t.pipe).calls := List.mem_of_find?_eq_some hc
  have hcount : 0 < ((s.chan t.pipe).calls.map Call.stream).count c.stream :=
    List.count_pos_iff.2 (List.mem_map_of_mem hmem)
  have htwo : 2 ≤ v.refcount c.stream := by
    rw [href]
    show 2 ≤ 1 + _
    omega
  have hkernel : (v.leave c r).kernel = none := by rw [Pipe.State.leave_eq htwo]
  have hret : (v.leave c r).returns = ⟨c.id, c.stream, c.n, c.buf, r⟩ :: (s.view t.pipe z).returns := by
    rw [Pipe.State.leave_eq htwo, ← hreturns]
  have hsame : (v.leave c r).pipe = z := by rw [Pipe.State.leave_eq htwo, ← hpipe]
  have hstep := step_run hk hz hc
  rw [hrun] at hstep
  have htaken : (v.leave c r).returns.take ((v.leave c r).returns.length - (s.view t.pipe z).returns.length) =
      [⟨c.id, c.stream, c.n, c.buf, r⟩] := by
    rw [hret, List.length_cons, Nat.add_sub_cancel_left]
    rfl
  have hleaving : (s.record t (s.view t.pipe z) (v.leave c r)).kernel = .leaving t := by
    simp [record, hkernel, htaken]
  have hreturned : (s.record t (s.view t.pipe z) (v.leave c r)).returns = ⟨t.side, c.stream, c.buf, r⟩ :: s.returns := by
    simp [record, htaken]
  have hheap : (s.record t (s.view t.pipe z) (v.leave c r)).sockets.pipe.get (w x) = s.sockets.pipe.get (w x) := by
    show (s.sockets.pipe.modify t.pipe fun _ => (v.leave c r).pipe).get (w x) = _
    by_cases hw : w x = t.pipe
    · rw [hw, Heap.get_modify_self, hz, Option.map_some, hsame]
    · exact Heap.get_modify_of_ne hw
  have hholds : (s.record t (s.view t.pipe z) (v.leave c r)).Holds w x hs l :=
    ⟨(h.tied.step hstep).2, h.shut, h.closed, by rw [hheap]; exact h.pipe⟩
  obtain ⟨s', hs', hh, hfree, hslots, hrs⟩ := hholds.leave hleaving hx
  refine ⟨s', ?_, hh, hfree, hslots, hrs.trans hreturned⟩
  rw [settle_run hk hstep, settle_leave hleaving hs', settle_free hfree]

/-! ## Reading to the end -/

/-- `x` has shut down both directions, and the other side none. -/
structure ShutBy (x : Side) (hs : List (Side × ShutdownMode)) : Prop where
  writing : (x, .write) ∈ hs ∨ (x, .both) ∈ hs
  reading : (x, .read) ∈ hs ∨ (x, .both) ∈ hs
  other : ∀ how, (x.other, how) ∉ hs

/-- A call of `pipe_read` that has taken `d`. -/
def reading (t : Transfer) (pl : Pipe.Place) (n : BitVec 32) (buf : Int → UInt8) (d : List UInt8) : Call :=
  ⟨t.id, .reader, pl, n, fill buf d, .ofNat 32 d.length, .ofNat 32 d.length⟩

/-- Such a call is in the kernel. -/
structure Reads (s : State) (w : Side → PipePtr) (x : Side) (hs : List (Side × ShutdownMode)) (t : Transfer)
    (pl : Pipe.Place) (n : BitVec 32) (buf : Int → UInt8) (d l : List UInt8) : Prop where
  holds : s.Holds w x hs l
  kernel : s.kernel = .running t
  find : s.find t = some (reading t pl n buf d)
  side : t.side = x.other
  small : d.length + l.length < Pipe.pipeBufferSize
  le : d.length ≤ n.toNat

variable {n : BitVec 32} {buf : Int → UInt8} {d : List UInt8} {pl : Pipe.Place} {b : UInt8}

theorem fill_append (buf : Int → UInt8) (d : List UInt8) (b : UInt8) :
    Function.update (fill buf d) d.length b = fill buf (d ++ [b]) := by
  funext i
  cases i with
  | ofNat i =>
    show Function.update (fill buf d) (d.length : Int) b (i : Int) = (d ++ [b])[i]?.getD (buf i)
    rcases Nat.lt_trichotomy i d.length with hlt | rfl | hgt
    · rw [Function.update_of_ne (by omega), List.getElem?_append_left hlt]
      rfl
    · rw [Function.update_self, List.getElem?_concat_length, Option.getD_some]
    · have hnone : (d ++ [b])[i]? = none := List.getElem?_eq_none (by rw [List.length_append]; exact hgt)
      have hnone' : d[i]? = none := List.getElem?_eq_none (Nat.le_of_lt hgt)
      rw [Function.update_of_ne (by omega), hnone]
      show d[i]?.getD (buf i) = _
      rw [hnone']
  | negSucc i =>
    have hne : Int.negSucc i ≠ (d.length : Int) := nofun
    rw [Function.update_of_ne hne]
    rfl

theorem Reads.pipe (h : s.Reads w x hs t pl n buf d l) (hb : ShutBy x hs) : t.pipe = w x ∧
    ∃ z, s.sockets.pipe.get t.pipe = some z ∧ z.contents = l ∧ InBounds z ∧ z.isOpen .reader = true ∧
      (z.isOpen .writer = true ↔ (x, .write) ∉ hs) := by
  obtain ⟨hmem, -⟩ := h.holds.tied.calls.running t h.kernel
  have hpipe : t.pipe = w x := by
    rw [h.holds.tied.calls.pipe t hmem _ h.find, reading, Side.reading, h.side, Side.other_other]
  obtain ⟨z, hz, hcontents, hbounds⟩ := h.holds.pipe
  have hreader : ¬s.Ended x .reader := by simp [Ended, ReaderClosed, h.holds.shut, h.holds.closed, hb.other]
  have hwriter : s.Ended x .writer ↔ (x, .write) ∈ hs := by simp [Ended, WriterClosed, h.holds.shut, h.holds.closed]
  obtain ⟨z', hz', hopen⟩ := (h.holds.tied.ends.pipe x).get_some fun hall => hreader (hall .reader)
  cases hz.symm.trans hz'
  exact ⟨hpipe, z, by rw [hpipe, hz], hcontents, hbounds, (hopen .reader).2 hreader, (hopen .writer).trans hwriter.not⟩

theorem lt_of_length_lt (hsmall : d.length < Pipe.pipeBufferSize) :
    (BitVec.ofNat 32 d.length < n ↔ d.length < n.toNat) ∧ (BitVec.ofNat 32 d.length).toInt = d.length := by
  have hlt : d.length < 2 ^ 31 := Nat.lt_trans hsmall (by decide)
  have hnat : (BitVec.ofNat 32 d.length).toNat = d.length := by
    rw [BitVec.toNat_ofNat]
    omega
  refine ⟨by rw [BitVec.lt_def, hnat], ?_⟩
  rw [BitVec.toInt_eq_toNat_of_lt (by omega), hnat]

/-- `while(j<n)`. -/
theorem Reads.loop (h : s.Reads w x hs t .loop n buf d l) (hb : ShutBy x hs) (hlt : d.length < n.toNat) :
    ∃ s', s.step .run = some s' ∧ s'.Reads w x hs t .inner n buf d l ∧ s'.slots = s.slots ∧ s'.returns = s.returns := by
  obtain ⟨hpipe, z, hz, hcontents, hbounds, -⟩ := h.pipe hb
  have hsmall : d.length < Pipe.pipeBufferSize := Nat.lt_of_le_of_lt (Nat.le_add_right _ _) h.small
  have hindex : BitVec.ofNat 32 d.length < n := (lt_of_length_lt hsmall).1.2 hlt
  have hrun : (s.view t.pipe z).runCall (reading t .loop n buf d) = Pipe.State.setCall
      { s.view t.pipe z with pipe := z, taken := (s.view t.pipe z).taken } (reading t .inner n buf d) := by
    simp only [Pipe.State.runCall, Pipe.State.pipeRead, reading, hindex, if_true]
    rfl
  obtain ⟨s', hs', hholds, hk, hf, hslots, hreturns⟩ :=
    h.holds.goesOn h.kernel h.find hpipe hz (by rfl) hrun hcontents hbounds
  exact ⟨s', hs', ⟨hholds, hk, hf, h.side, h.small, h.le⟩, hslots, hreturns⟩

/-- A byte is taken. -/
theorem Reads.take (h : s.Reads w x hs t .inner n buf d (b :: l)) (hb : ShutBy x hs) (hlt : d.length < n.toNat) :
    ∃ s', s.step .run = some s' ∧ s'.Reads w x hs t .loop n buf (d ++ [b]) l ∧ s'.slots = s.slots ∧
      s'.returns = s.returns := by
  obtain ⟨hpipe, z, hz, hcontents, hbounds, hopen, -⟩ := h.pipe hb
  have hsmall := h.small
  rw [List.length_cons] at hsmall
  have hne : ¬z.Empty := by
    intro he
    rw [PipeCB.contents, show z.wPosition = z.rPosition from he, Ring.contents_empty] at hcontents
    cases hcontents
  have hpop := Ring.contents_pop hbounds.1 hbounds.2 hne z.buffer
  rw [PipeCB.contents, hpop, List.cons.injEq] at hcontents
  obtain ⟨hfront, hrest⟩ := hcontents
  obtain ⟨-, hindex⟩ := lt_of_length_lt (n := n) (d := d) (by omega)
  have hcall : reading t .loop n buf (d ++ [b]) = { reading t .inner n buf d with
      place := .loop
      buf := Function.update (fill buf d) (BitVec.ofNat 32 d.length).toInt z.front
      bytes := .ofNat 32 d.length + 1
      index := .ofNat 32 d.length + 1 } := by
    have hsucc : BitVec.ofNat 32 (d.length + 1) = BitVec.ofNat 32 d.length + 1 := BitVec.ofNat_add ..
    rw [hindex, PipeCB.front, hfront, fill_append]
    simp only [reading, List.length_append, List.length_singleton, hsucc]
  have hrun : (s.view t.pipe z).runCall (reading t .inner n buf d) = Pipe.State.setCall
      { s.view t.pipe z with pipe := z.advance, taken := (s.view t.pipe z).taken ++ [(t.id, z.front)] }
      (reading t .loop n buf (d ++ [b])) := by
    have hview : (s.view t.pipe z).pipe = z := rfl
    rw [hcall]
    simp only [Pipe.State.runCall, Pipe.State.pipeRead, reading, hview, hne, hopen, false_and, if_false, Bool.true_eq_false]
    rfl
  obtain ⟨s', hs', hholds, hk, hf, hslots, hreturns⟩ :=
    h.holds.goesOn h.kernel h.find hpipe hz (by rfl) hrun hrest ⟨Ring.next_lt hbounds.1, hbounds.2⟩
  refine ⟨s', hs', ⟨hholds, hk, hf, h.side, ?_, ?_⟩, hslots, hreturns⟩
  · simp only [List.length_append, List.length_singleton]
    omega
  · simp only [List.length_append, List.length_singleton]
    omega

/-- The call returns the number of its bytes. -/
theorem Reads.finish (h : s.Reads w x hs t pl n buf d l) (hb : ShutBy x hs) (hx : 0 < s.slots x.other)
    (hrun : ∀ z, z.contents = l → InBounds z → z.isOpen .reader = true → (z.isOpen .writer = true ↔ (x, .write) ∉ hs) →
      (s.view t.pipe z).runCall (reading t pl n buf d) = (s.view t.pipe z).finish (reading t pl n buf d)) (k : Nat) :
    ∃ s', settle (k + 2) s = some s' ∧ s'.Holds w x hs l ∧ s'.kernel = .free ∧ s'.slots = s.slots ∧
      s'.returns = ⟨x.other, .reader, fill buf d, d.length⟩ :: s.returns := by
  obtain ⟨-, z, hz, hcontents, hbounds, hopen, hwriter⟩ := h.pipe hb
  have hlen := (lt_of_length_lt (n := n) (Nat.lt_of_le_of_lt (Nat.le_add_right d.length l.length) h.small)).2
  obtain ⟨s', hs', hholds, hk, hslots, hreturns⟩ := h.holds.returns h.kernel h.find (h.side ▸ hx) hz
    (hrun z hcontents hbounds hopen hwriter) (by rfl) (by rfl) (by rfl) k
  refine ⟨s', hs', hholds, hk, hslots, hreturns.trans ?_⟩
  rw [h.side]
  simp only [reading, hlen]

theorem empty_iff (hbounds : InBounds z) : z.Empty ↔ z.contents = [] :=
  (Ring.contents_eq_nil hbounds.1 hbounds.2 z.buffer).symm

/-- The end of the loop. -/
theorem Reads.finish_loop (h : s.Reads w x hs t .loop n buf d l) (hb : ShutBy x hs) (hx : 0 < s.slots x.other)
    (hle : n.toNat ≤ d.length) (k : Nat) :
    ∃ s', settle (k + 2) s = some s' ∧ s'.Holds w x hs l ∧ s'.kernel = .free ∧ s'.slots = s.slots ∧
      s'.returns = ⟨x.other, .reader, fill buf d, d.length⟩ :: s.returns := by
  have hindex : ¬BitVec.ofNat 32 d.length < n := fun hlt =>
    absurd ((lt_of_length_lt (Nat.lt_of_le_of_lt (Nat.le_add_right _ _) h.small)).1.1 hlt) (Nat.not_lt.2 hle)
  refine h.finish hb hx (fun z _ _ _ _ => ?_) k
  simp only [Pipe.State.runCall, Pipe.State.pipeRead, reading, hindex, if_false]

/-- The end of the data. -/
theorem Reads.finish_inner (h : s.Reads w x hs t .inner n buf d []) (hb : ShutBy x hs) (hx : 0 < s.slots x.other)
    (hwrite : (x, .write) ∈ hs) (k : Nat) :
    ∃ s', settle (k + 2) s = some s' ∧ s'.Holds w x hs [] ∧ s'.kernel = .free ∧ s'.slots = s.slots ∧
      s'.returns = ⟨x.other, .reader, fill buf d, d.length⟩ :: s.returns := by
  refine h.finish hb hx (fun z hc hbounds hopen hwriter => ?_) k
  have hempty := (empty_iff hbounds).2 hc
  have hclosed : z.isOpen .writer = false := by simpa [hwrite] using hwriter
  have hview : (s.view t.pipe z).pipe = z := rfl
  simp [Pipe.State.runCall, Pipe.State.pipeRead, reading, hview, hempty, hclosed, hopen]

/-- The same when the writing end is open. -/
theorem Reads.wait (h : s.Reads w x hs t .inner n buf d []) (hb : ShutBy x hs) (hwrite : (x, .write) ∉ hs) (k : Nat) :
    ∃ s', settle (k + 1) s = some s' ∧ s'.returns = s.returns := by
  obtain ⟨-, z, hz, hc, hbounds, -, hwriter⟩ := h.pipe hb
  have hempty := (empty_iff hbounds).2 hc
  have hview : (s.view t.pipe z).pipe = z := rfl
  obtain ⟨s', hs', hk, hreturns⟩ := waits h.kernel h.find hz
    (by simp [Pipe.State.runCall, Pipe.State.pipeRead, reading, hview, hempty, hwriter.2 hwrite])
  exact ⟨s', (settle_run h.kernel hs' k).trans (settle_free hk k), hreturns⟩

/-- One round of the loop. -/
theorem Reads.round (h : s.Reads w x hs t .loop n buf d (b :: l)) (hb : ShutBy x hs) (hlt : d.length < n.toNat) :
    ∃ s', (∀ k, settle (k + 2) s = settle k s') ∧ s'.Reads w x hs t .loop n buf (d ++ [b]) l ∧ s'.slots = s.slots ∧
      s'.returns = s.returns := by
  obtain ⟨s₁, hs₁, h₁, hslots₁, hreturns₁⟩ := h.loop hb hlt
  obtain ⟨s₂, hs₂, h₂, hslots₂, hreturns₂⟩ := h₁.take hb hlt
  refine ⟨s₂, fun k => ?_, h₂, hslots₂.trans hslots₁, hreturns₂.trans hreturns₁⟩
  rw [settle_run h.kernel hs₁, settle_run h₁.kernel hs₂]

/-- **A read that returns.** It takes what it asks for, or what there is if the writing end is closed. -/
theorem Reads.drain (h : s.Reads w x hs t .loop n buf d l) (hb : ShutBy x hs) (hx : 0 < s.slots x.other) {m : Nat}
    (hm : n.toNat = d.length + m) (hok : (x, .write) ∈ hs ∨ m ≤ l.length) :
    ∃ s', settle (2 * m + 2) s = some s' ∧ s'.Holds w x hs (l.drop m) ∧ s'.kernel = .free ∧ s'.slots = s.slots ∧
      s'.returns = ⟨x.other, .reader, fill buf (d ++ l.take m), (d ++ l.take m).length⟩ :: s.returns := by
  induction m generalizing s d l with
  | zero => simpa using h.finish_loop hb hx (Nat.le_of_eq hm) 0
  | succ m ih =>
    have hlt : d.length < n.toNat := by omega
    cases l with
    | nil =>
      obtain ⟨s₁, hs₁, h₁, hslots₁, hreturns₁⟩ := h.loop hb hlt
      obtain ⟨s', hs', hrest⟩ := h₁.finish_inner hb (hslots₁ ▸ hx) (hok.resolve_right (by simp)) (2 * m + 1)
      refine ⟨s', (settle_run h.kernel hs₁ _).trans hs', ?_⟩
      simpa [hslots₁, hreturns₁] using hrest
    | cons b l =>
      obtain ⟨s₁, hs₁, h₁, hslots₁, hreturns₁⟩ := h.round hb hlt
      obtain ⟨s', hs', hrest⟩ := ih h₁ (hslots₁ ▸ hx) (by simp only [List.length_append, List.length_singleton]; omega)
        (hok.imp_right Nat.le_of_succ_le_succ)
      refine ⟨s', (hs₁ _).trans hs', ?_⟩
      simpa [hslots₁, hreturns₁] using hrest

/-- **A read that waits.** The writing end is open, and the read asks for more than there is. -/
theorem Reads.drain_wait (h : s.Reads w x hs t .loop n buf d l) (hb : ShutBy x hs) {m : Nat}
    (hm : n.toNat = d.length + m) (hwrite : (x, .write) ∉ hs) (hlt : l.length < m) :
    ∃ s', settle (2 * m + 2) s = some s' ∧ s'.returns = s.returns := by
  induction l generalizing s d m with
  | nil =>
    obtain ⟨s₁, hs₁, h₁, -, hreturns₁⟩ := h.loop hb (by simp at hlt; omega)
    obtain ⟨s', hs', hreturns⟩ := h₁.wait hb hwrite (2 * m)
    exact ⟨s', (settle_run h.kernel hs₁ _).trans hs', hreturns.trans hreturns₁⟩
  | cons b l ih =>
    obtain ⟨m, rfl⟩ : ∃ m', m = m' + 1 := ⟨m - 1, by omega⟩
    obtain ⟨s₁, hs₁, h₁, -, hreturns₁⟩ := h.round hb (by omega)
    obtain ⟨s', hs', hreturns⟩ := ih h₁ (m := m) (by simp only [List.length_append, List.length_singleton]; omega)
      (Nat.lt_of_succ_lt_succ hlt)
    exact ⟨s', (hs₁ _).trans hs', hreturns.trans hreturns₁⟩

/-! ## One call -/

variable {y : Side} {e : End} {q : PipePtr}

theorem fill_nil (buf : Int → UInt8) : fill buf [] = buf := by
  funext i
  cases i <;> rfl

/-- The call comes to `pipe_read` or `pipe_write`. -/
theorem Holds.call (h : s.Holds w x hs l) (hk : s.kernel = .free) (hy : 0 < s.slots y)
    (hptr : s.pointer w y e = some q) (hz : s.sockets.pipe.get q = some z) (n : BitVec 32) (buf : Int → UInt8) :
    s.step (.call y e n buf) = some (s.begin y q e n buf) ∧ (s.begin y q e n buf).Holds w x hs l := by
  obtain ⟨v, hv, hsock⟩ := h.tied.socketPipe hy e
  have hstep : s.step (.call y e n buf) = some (s.begin y q e n buf) := by
    refine step_eq_some.2 ⟨⟨hk, hy⟩, ?_⟩
    simp only [perform, State.transfer, hv, hsock, hptr, hz, Option.bind_some, Option.map_some]
  exact ⟨hstep, (h.tied.step hstep).2, h.shut, h.closed, h.pipe⟩

/-- A read of what `x` has left in the pipe. -/
theorem Holds.read (h : s.Holds w x hs l) (hb : ShutBy x hs) (hk : s.kernel = .free) (hx : 0 < s.slots x.other)
    (n : BitVec 32) (buf : Int → UInt8) : ∃ t s₁, (∀ k, (s.step (.call x.other .reader n buf)).bind (settle (k + 1)) =
      settle k s₁) ∧ s₁.Reads w x hs t .loop n buf [] l ∧ s₁.slots = s.slots ∧ s₁.returns = s.returns := by
  obtain ⟨z, hz, hcontents, hbounds⟩ := h.pipe
  have hptr : s.pointer w x.other .reader = some (w x) := by simp [pointer, h.shut, hb.other]
  obtain ⟨hstep, hbegin⟩ := h.call hk hx hptr hz n buf
  set s₀ := s.begin x.other (w x) .reader n buf
  let t : Transfer := ⟨w x, (s.chan (w x)).started, x.other⟩
  have hfind : s₀.find t = some ⟨t.id, .reader, .entry, n, buf, 0, 0⟩ := (find_begin t).trans (if_pos ⟨rfl, rfl⟩)
  have hreader : ¬s.Ended x .reader := by simp [Ended, ReaderClosed, h.shut, h.closed, hb.other]
  have hopen : z.isOpen .reader = true := by
    obtain ⟨z', hz', hopen⟩ := (h.tied.ends.pipe x).get_some fun hall => hreader (hall .reader)
    cases hz.symm.trans hz'
    exact (hopen .reader).2 hreader
  have hrun : (s₀.view t.pipe z).runCall ⟨t.id, .reader, .entry, n, buf, 0, 0⟩ = Pipe.State.setCall
      { s₀.view t.pipe z with pipe := z, taken := (s₀.view t.pipe z).taken } (reading t .loop n buf []) := by
    have hview : (s₀.view t.pipe z).pipe = z := rfl
    simp only [Pipe.State.runCall, Pipe.State.pipeRead, reading, hview, hopen, Bool.true_eq_false, if_false, fill_nil]
    rfl
  obtain ⟨s₁, hs₁, hholds, hk₁, hf₁, hslots, hreturns⟩ := hbegin.goesOn rfl hfind rfl hz (by rfl) hrun hcontents hbounds
  have hsmall : ([] : List UInt8).length + l.length < Pipe.pipeBufferSize := by
    rw [List.length_nil, Nat.zero_add, ← hcontents, PipeCB.contents, Ring.length_contents]
    exact Ring.count_lt hbounds.1
  refine ⟨t, s₁, fun k => ?_, ⟨hholds, hk₁, hf₁, rfl, hsmall, Nat.zero_le _⟩, hslots, hreturns⟩
  rw [hstep, Option.bind_some]
  exact settle_run rfl hs₁ k

/-- All other calls fail: the pointer is `NULL`, or `x` has closed the end at which `x.other` writes. -/
theorem Holds.fail (h : s.Holds w x hs l) (hb : ShutBy x hs) (hk : s.kernel = .free) (hy : 0 < s.slots y)
    (hne : ¬(y = x.other ∧ e = .reader)) (n : BitVec 32) (buf : Int → UInt8) (k : Nat) :
    ∃ s', (s.step (.call y e n buf)).bind (settle (k + 2)) = some s' ∧ s'.Holds w x hs l ∧ s'.kernel = .free ∧
      s'.slots = s.slots ∧ s'.returns = ⟨y, e, buf, -1⟩ :: s.returns := by
  cases hptr : s.pointer w y e with
  | none =>
    obtain ⟨v, hv, hsock⟩ := h.tied.socketPipe hy e
    have hstep : s.step (.call y e n buf) = some { s with returns := ⟨y, e, buf, -1⟩ :: s.returns } := by
      refine step_eq_some.2 ⟨⟨hk, hy⟩, ?_⟩
      simp only [perform, State.transfer, hv, hsock, hptr, Option.bind_some]
    refine ⟨_, ?_, ⟨(h.tied.step hstep).2, h.shut, h.closed, h.pipe⟩, hk, rfl, rfl⟩
    rw [hstep, Option.bind_some]
    exact settle_free (by exact hk) _
  | some q =>
    have hq : q = w x.other := by
      obtain rfl | rfl := x.eq_or_eq_other y
      · cases e with
        | reader =>
          simp only [pointer, h.shut, Option.ite_none_left_eq_some, Option.some.injEq] at hptr
          exact hptr.2.symm
        | writer => simp [pointer, h.shut, hb.writing] at hptr
      · cases e with
        | reader => exact absurd ⟨rfl, rfl⟩ hne
        | writer =>
          simp only [pointer, h.shut, hb.other, or_self, if_false, Option.some.injEq] at hptr
          exact hptr.symm
    have hwriter : ¬s.Ended x.other .writer := by simp [Ended, WriterClosed, h.shut, h.closed, hb.other]
    have hreader : s.Ended x.other .reader := by
      simp only [Ended, ReaderClosed, Side.other_other, h.shut, ← or_assoc, hb.reading, true_or]
    obtain ⟨z, hz, hopen⟩ := (h.tied.ends.pipe x.other).get_some fun hall => hwriter (hall .writer)
    have hclosed : z.isOpen .reader = false := by simpa [hreader] using hopen .reader
    rw [← hq] at hz
    obtain ⟨hstep, hbegin⟩ := h.call hk hy hptr hz n buf
    set s₀ := s.begin y q e n buf
    let t : Transfer := ⟨q, (s.chan q).started, y⟩
    have hfind : s₀.find t = some ⟨t.id, e, .entry, n, buf, 0, 0⟩ := (find_begin t).trans (if_pos ⟨rfl, rfl⟩)
    have hrun : (s₀.view t.pipe z).runCall ⟨t.id, e, .entry, n, buf, 0, 0⟩ =
        (s₀.view t.pipe z).leave ⟨t.id, e, .entry, n, buf, 0, 0⟩ (-1) := by
      have hview : (s₀.view t.pipe z).pipe = z := rfl
      cases e <;> simp [Pipe.State.runCall, Pipe.State.pipeRead, Pipe.State.pipeWrite, hview, hclosed]
    obtain ⟨s', hs', hholds, hfree, hslots, hreturns⟩ := hbegin.returns rfl hfind hy hz hrun rfl rfl rfl k
    exact ⟨s', by rw [hstep, Option.bind_some, hs'], hholds, hfree, hslots, hreturns⟩

/-! ## All calls -/

theorem outcome_returned {r : Return} (h : s'.returns = r :: s.returns) : s.outcome s' = some r := by
  simp [outcome, h]

theorem outcome_waits (h : s'.returns = s.returns) : s.outcome s' = none := by simp [outcome, h]

theorem demand_cons_read {k : Later} {ks : List Later} (hr : k.side = x.other ∧ k.stream = .reader) :
    demand x (k :: ks) = k.n.toNat + demand x ks := by simp [demand, hr]

theorem demand_cons_other {k : Later} {ks : List Later} (hr : ¬(k.side = x.other ∧ k.stream = .reader)) :
    demand x (k :: ks) = demand x ks := by simp [demand, hr]

theorem outcomes_cons {k : Later} {ks : List Later} {r : Return} {os : List (Option Return)}
    (hk : s.transact k = some s') (hr : s'.returns = r :: s.returns) :
    s.outcomes (k :: ks) = some (some r :: os) ↔ s'.outcomes ks = some os := by
  simp [outcomes, hk, outcome_returned hr]

/-- **Later calls.** They return what they should if the writing end is closed, and otherwise exactly when the other side
does not ask for more than there is. -/
theorem Holds.outcomes_eq_iff (h : s.Holds w x hs l) (hb : ShutBy x hs) (hk : s.kernel = .free) {ks : List Later}
    (hslots : ∀ k ∈ ks, 0 < s.slots k.side) :
    s.outcomes ks = some (drained x l ks) ↔ (x, .write) ∈ hs ∨ demand x ks ≤ l.length := by
  induction ks generalizing s l with
  | nil => simp [outcomes, drained, demand]
  | cons k ks ih =>
    have hself := hslots k List.mem_cons_self
    have hrest : ∀ {s' : State}, s'.slots = s.slots → ∀ k ∈ ks, 0 < s'.slots k.side := fun he k hk => by
      rw [he]
      exact hslots k (List.mem_cons_of_mem _ hk)
    by_cases hread : k.side = x.other ∧ k.stream = .reader
    · rw [demand_cons_read hread, drained, if_pos hread]
      obtain ⟨t, s₁, hs₁, h₁, hslots₁, hreturns₁⟩ := h.read hb hk (hread.1 ▸ hself) k.n k.buf
      by_cases hok : (x, .write) ∈ hs ∨ k.n.toNat ≤ l.length
      · obtain ⟨s', hs', hholds, hfree, hslots', hreturns⟩ := h₁.drain hb (hslots₁ ▸ hread.1 ▸ hself)
          (m := k.n.toNat) (by simp) hok
        have htransact : s.transact k = some s' := by
          rw [transact, hread.1, hread.2, hs₁, hs']
        rw [hreturns₁, List.nil_append] at hreturns
        rw [hread.1, hread.2, outcomes_cons htransact hreturns,
          ih hholds hfree (hrest (hslots'.trans hslots₁)), List.length_drop]
        rcases hok with hwrite | hle
        · simp [hwrite]
        · exact or_congr_right (by omega)
      · obtain ⟨hwrite, hlt⟩ := not_or.1 hok
        obtain ⟨s', hs', hreturns⟩ := h₁.drain_wait hb (m := k.n.toNat) (by simp) hwrite (Nat.lt_of_not_le hlt)
        have htransact : s.transact k = some s' := by
          rw [transact, hread.1, hread.2, hs₁, hs']
        simp only [outcomes, htransact, Option.bind_some, outcome_waits (hreturns.trans hreturns₁)]
        simp [hwrite]
        omega
    · rw [demand_cons_other hread, drained, if_neg hread]
      obtain ⟨s', hs', hholds, hfree, hslots', hreturns⟩ := h.fail hb hk hself hread k.n k.buf (2 * k.n.toNat + 1)
      rw [outcomes_cons hs' hreturns]
      exact ih hholds hfree (hrest hslots')

/-! ## After `sys_ShutDown` -/

/-- What `ks` returns after the actions `as`. -/
def after (s : State) (as : List Action) (ks : List Later) : Option (List (Option Return)) :=
  (connection.run s as).bind (·.outcomes ks)

/-- Closing an end leaves the bytes as they are. -/
theorem closePipe_get {b b' : Sockets.State} {r : Option PipePtr} (hs : b.closePipe r e = some b')
    (hz : b'.pipe.get q = some z) : ∃ z' f, b.pipe.get q = some z' ∧ z = { z' with isOpen := f } := by
  obtain ⟨p, rfl, hs⟩ := Option.bind_eq_some_iff.1 hs
  obtain ⟨v, hv, rfl⟩ := Option.map_eq_some_iff.1 hs
  by_cases hq : q = p
  · subst hq
    split at hz
    · obtain ⟨v', hv', rfl⟩ := Heap.get_modify_eq_some.1 hz
      rw [if_pos rfl]
      exact ⟨v', _, hv', rfl⟩
    · cases Heap.get_free_self.symm.trans hz
  · refine ⟨z, z.isOpen, ?_, rfl⟩
    split at hz
    · exact (Heap.get_modify_of_ne hq).symm.trans hz
    · exact (Heap.get_free_of_ne hq).symm.trans hz

theorem sysShutDown_get {b b' : Sockets.State} {how : ShutdownMode} {a : ScbPtr} {r : Int}
    (hs : b.sysShutDown how (some a) = some (r, b')) (hz : b'.pipe.get q = some z) :
    ∃ z' f, b.pipe.get q = some z' ∧ z = { z' with isOpen := f } := by
  have hsame : b'.pipe = b.pipe → ∃ z' f, b.pipe.get q = some z' ∧ z = { z' with isOpen := f } := fun he =>
    ⟨z, z.isOpen, he ▸ hz, rfl⟩
  have hclose : ∀ (ptr : Option PipePtr) (e : End) (f : Sockets.State → Int × Sockets.State),
      (∀ u, (f u).2.pipe = u.pipe) → (b.closePipe ptr e).map f = some (r, b') →
        ∃ z' f, b.pipe.get q = some z' ∧ z = { z' with isOpen := f } := by
    intro ptr e f hf hs
    obtain ⟨u, hu, hu'⟩ := Option.map_eq_some_iff.1 hs
    refine closePipe_get hu ?_
    rw [← hf u, hu', hz]
  obtain ⟨y, -, hs⟩ := Option.bind_eq_some_iff.1 hs
  split at hs
  · cases hs
    exact hsame rfl
  · split at hs
    · cases hs
      exact hsame rfl
    · exact hclose _ _ _ (fun _ => rfl) hs
    · exact hclose _ _ _ (fun _ => rfl) hs
    · exact hclose _ _ _ (fun _ => rfl) hs
    · cases hs

/-- A call of `sys_ShutDown` by `x` leaves the bytes that it has sent. -/
theorem Holds.shutDown {how : ShutdownMode} (h : s.Holds w x hs l) (hk : s.kernel = .free) (hx : 0 < s.slots x)
    (hok : s.ShutsOnce x how) (hother : ∀ how, (x.other, how) ∉ hs) : ∃ s', s.step (.shutDown x how) = some s' ∧
      s'.Holds w x (hs ++ [(x, how)]) l ∧ s'.kernel = .free ∧ s'.slots = s.slots := by
  obtain ⟨s', hs', htied⟩ := h.tied.shutDown hx hok
  have hstep : s.step (.shutDown x how) = some s' := step_eq_some.2 ⟨⟨hk, hx⟩, by rw [perform, hs']; rfl⟩
  obtain ⟨⟨r, b⟩, hb, hs'⟩ := Option.map_eq_some_iff.1 hs'
  cases hs'
  refine ⟨_, hstep, ⟨htied, congrArg (· ++ _) h.shut, h.closed, ?_⟩, hk, rfl⟩
  have hreader : ¬Ended { s.broadcast b with shut := s.shut ++ [(x, how)] } x .reader := by
    simp [Ended, ReaderClosed, broadcast, h.shut, h.closed, hother]
  obtain ⟨z, hz, -⟩ := (htied.ends.pipe x).get_some fun hall => hreader (hall .reader)
  obtain ⟨z', f, hz', rfl⟩ := sysShutDown_get hb hz
  obtain ⟨v, hv, hcontents, hbounds⟩ := h.pipe
  cases hz'.symm.trans hv
  exact ⟨_, hz, hcontents, hbounds⟩

theorem Channels.holds (h : s.Channels w) (hl : s.contents x = some l) : s.Holds w x [] l := by
  obtain ⟨z, hz, hv⟩ := h.pipe x
  have hinv := Pipe.reaches_inv hv
  rw [h.contents_eq, hz, Option.map_some, Option.some.injEq] at hl
  exact ⟨h.tied, h.shut, h.closed, z, hz, hl, hinv.r_lt, hinv.w_lt⟩

theorem run_cons_of_step {a : Action} (h : s.step a = some s') (as : List Action) :
    connection.run s (a :: as) = connection.run s' as := by
  show (s.step a).bind _ = _
  rw [h]
  rfl

theorem Holds.after_both (h : s.Holds w x [] l) (hk : s.kernel = .free) (hx : 0 < s.slots x) {ks : List Later}
    (hslots : ∀ k ∈ ks, 0 < s.slots k.side) :
    s.after [.shutDown x .both] ks = some (drained x l ks) ↔ demand x ks ≤ l.length := by
  have hok : s.ShutsOnce x .both := by simp [ShutsOnce, Dead, WriterClosed, h.shut, h.closed]
  obtain ⟨s₁, hs₁, h₁, hk₁, hslots₁⟩ := h.shutDown hk hx hok (by simp)
  have hb : ShutBy x ([] ++ [(x, .both)]) := ⟨by simp, by simp, by simp⟩
  rw [after, run_cons_of_step hs₁, Lts.run, Option.bind_some, h₁.outcomes_eq_iff hb hk₁ (hslots₁ ▸ hslots)]
  simp

theorem Holds.after_each (h : s.Holds w x [] l) (hk : s.kernel = .free) (hx : 0 < s.slots x) {ks : List Later}
    (hslots : ∀ k ∈ ks, 0 < s.slots k.side) :
    s.after [.shutDown x .read, .shutDown x .write] ks = some (drained x l ks) := by
  have hok : s.ShutsOnce x .read := by simp [ShutsOnce, Dead, WriterClosed, h.shut, h.closed]
  obtain ⟨s₁, hs₁, h₁, hk₁, hslots₁⟩ := h.shutDown hk hx hok (by simp)
  have hok₁ : s₁.ShutsOnce x .write := by simp [ShutsOnce, h₁.shut]
  obtain ⟨s₂, hs₂, h₂, hk₂, hslots₂⟩ := h₁.shutDown hk₁ (hslots₁ ▸ hx) hok₁ (by simp)
  have hb : ShutBy x ([] ++ [(x, .read)] ++ [(x, .write)]) := ⟨by simp, by simp, by simp⟩
  rw [after, run_cons_of_step hs₁, run_cons_of_step hs₂, Lts.run, Option.bind_some,
    h₂.outcomes_eq_iff hb hk₂ (hslots₂ ▸ hslots₁ ▸ hslots)]
  simp

end State

/-- **`SHUTDOWN_BOTH` and both shutdowns.** In a connection where nothing has been shut down or closed, each later call of
`socket_read` or `socket_write` returns after `SHUTDOWN_BOTH` what it returns after `SHUTDOWN_READ` and `SHUTDOWN_WRITE`,
which is what it should, exactly when the reads of the other side ask for no more bytes than `x` has left in its pipe. -/
theorem both_iff_demand {s : State} {x : Side} {l : List UInt8} (hs : connection.Reaches s) (hshut : s.shut = [])
    (hclosed : s.closed = []) (hk : s.kernel = .free) (hx : 0 < s.slots x) (hl : s.contents x = some l)
    {ks : List Later} (hslots : ∀ k ∈ ks, 0 < s.slots k.side) :
    (s.after [.shutDown x .both] ks = s.after [.shutDown x .read, .shutDown x .write] ks ∧
      s.after [.shutDown x .read, .shutDown x .write] ks = some (drained x l ks)) ↔ demand x ks ≤ l.length := by
  obtain ⟨w, h⟩ := State.reaches_channels hs hshut hclosed
  have hholds := h.holds hl
  have heach := hholds.after_each hk hx hslots
  rw [and_iff_left heach, heach]
  exact hholds.after_both hk hx hslots

/-- The server receives the byte that the client has sent, and cannot send. -/
theorem both_iff_demand_received :
    let ks : List Later := [⟨.server, .reader, 1, fun _ => 0⟩, ⟨.server, .writer, 1, fun _ => 0⟩]
    ∃ s, connection.run accepted [.call .client .writer 1 fun _ => 7, .run, .run, .run, .run, .leave] = some s ∧
      s.contents .client = some [7] ∧
      s.after [.shutDown .client .both] ks = s.after [.shutDown .client .read, .shutDown .client .write] ks ∧
      s.after [.shutDown .client .read, .shutDown .client .write] ks = some (drained .client [7] ks) := by
  intro ks
  have hsome : (connection.run accepted [.call .client .writer 1 fun _ => 7, .run, .run, .run, .run, .leave]).isSome := by
    decide +kernel
  obtain ⟨s, hs⟩ := Option.isSome_iff_exists.1 hsome
  have hfacts : (connection.run accepted [.call .client .writer 1 fun _ => 7, .run, .run, .run, .run, .leave]).all fun s =>
      s.shut = [] ∧ s.closed = [] ∧ s.kernel = .free ∧ s.slots .client = 1 ∧ s.slots .server = 1 ∧
        s.contents .client = some [7] := by decide +kernel
  simp only [hs, Option.all_some, decide_eq_true_eq] at hfacts
  obtain ⟨hshut, hclosed, hk, hclient, hserver, hl⟩ := hfacts
  refine ⟨s, hs, hl, (both_iff_demand (Lts.reaches_of_run (.init accepted_init) hs) hshut hclosed hk ?_ hl ?_).2 ?_⟩
  · rw [hclient]
    exact Nat.one_pos
  · simp [ks, hserver]
  · decide

/-- After `SHUTDOWN_BOTH` by the client, a read at the server waits; after both shutdowns it returns 0. -/
theorem both_waits : ∃ s l ks, connection.Reaches s ∧ s.shut = [] ∧ s.closed = [] ∧ s.kernel = .free ∧
    0 < s.slots .client ∧ s.contents .client = some l ∧ (∀ k ∈ ks, 0 < s.slots k.side) ∧
    ¬(s.after [.shutDown .client .both] ks = s.after [.shutDown .client .read, .shutDown .client .write] ks ∧
      s.after [.shutDown .client .read, .shutDown .client .write] ks = some (drained .client l ks)) := by
  refine ⟨accepted, [], [⟨.server, .reader, 1, fun _ => 0⟩], .init accepted_init, rfl, rfl, rfl, by decide +kernel,
    by decide +kernel, by decide +kernel, fun h => ?_⟩
  have hreturned := congrArg (Option.map (List.map Option.isSome)) h.1
  exact absurd hreturned (by decide +kernel)

end TinyOS.Connection
