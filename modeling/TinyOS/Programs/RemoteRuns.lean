import TinyOS.Pipe.Pair
import TinyOS.Programs.Remote

/-!
# A remote command gets through

However the calls of the client and the server interleave, and however the pipe splits what they write and read: the
server comes to execute the arguments of the client, unless they are longer than it asserts. `Inv` ties the two loops to
the bytes in the logs of the pipe, and `rank` is what every step makes smaller.
-/

namespace TinyOS.Remote

open CString (packed)
open Execute (Ptr)
open Packing (Points intMax pointers)
open Pipe (End Call Place)
open Pipe.State (peer Blocked Effect Turned)

variable {ss : List CString} {p : Part} {l : Loop} {m : Message} {buf stack : Memory} {n : Nat} {v v' : Pipe.State}
  {c c' : Call} {e : End} {s s' : State} {a : Action}

/-! ## The message -/

/-- The bytes that the client sends. -/
def wire (ss : List CString) : List UInt8 := leBytes sizeofInt (packed ss).length ++ packed ss

namespace Part

/-- Where the part is in the message. -/
def offset : Part → Nat
  | .argl => 0
  | .args => sizeofInt

def length (ss : List CString) : Part → Nat
  | .argl => sizeofInt
  | .args => (packed ss).length

/-- The first `n` bytes of the part are in `buf`. -/
def Has (ss : List CString) (p : Part) (buf : Memory) (n : Nat) : Prop :=
  ∀ i < n, (wire ss)[p.offset + i]? = some (buf i)

/-- The server has come to this part. -/
def Admitted (ss : List CString) : Part → Prop
  | .argl => True
  | .args => (packed ss).length ≤ 2048

end Part

theorem length_wire (ss : List CString) : (wire ss).length = sizeofInt + (packed ss).length := by simp [wire]

theorem offset_add_le : p.offset + p.length ss ≤ (wire ss).length := by
  rw [length_wire]
  cases p with
  | argl => exact (Nat.zero_add _).trans_le (Nat.le_add_right _ _)
  | args => exact Nat.le_refl _

theorem take_drop_wire (ss : List CString) (p : Part) : ((wire ss).drop p.offset).take (p.length ss) =
    match p with
    | .argl => leBytes sizeofInt (packed ss).length
    | .args => packed ss := by
  cases p with
  | argl => exact List.take_left' (length_leBytes ..)
  | args =>
    have hdrop : (wire ss).drop sizeofInt = packed ss := List.drop_left' (length_leBytes ..)
    show ((wire ss).drop sizeofInt).take _ = _
    rw [hdrop]
    exact List.take_length

theorem Part.Has.read (h : p.Has ss buf n) : buf.read 0 n = ((wire ss).drop p.offset).take n := by
  apply List.ext_getElem?
  intro i
  by_cases hi : i < n
  · have hread : (buf.read 0 n)[i]? = some (buf i) := by simp [Memory.read, hi]
    rw [hread, List.getElem?_take_of_lt hi, List.getElem?_drop, h i hi]
  · rw [List.getElem?_eq_none (by rw [Memory.length_read]; omega), List.getElem?_eq_none]
    rw [List.length_take]
    omega

/-! ## The two programs and the pipe -/

structure Loop.Ok (ss : List CString) (p : Part) (l : Loop) : Prop where
  len : l.len = p.length ss
  lt : l.count < l.len

def Client.Ok (ss : List CString) (v : Pipe.State) : Client → Prop
  | .sending p l => l.Ok ss p ∧ p.Has ss l.buf l.len ∧ v.slots .writer = 1 ∧ v.callAt .writer = none ∧
      v.stored.length = p.offset + l.count
  | .inWrite p l => l.Ok ss p ∧ p.Has ss l.buf l.len ∧ v.slots .writer = 1 ∧ ∃ c, v.callAt .writer = some c ∧
      (c.n = l.size ∧ c.buf = l.rest) ∧ v.stored.length = p.offset + l.count + c.index.toNat
  | .shutDown => v.slots .writer = 1 ∧ v.callAt .writer = none ∧ v.stored.length = (wire ss).length
  | .exit => False
  | .closed => v.slots .writer = 0 ∧ v.callAt .writer = none ∧ v.stored.length = (wire ss).length

def Server.Ok (ss : List CString) (v : Pipe.State) : Server → Prop
  | .receiving p l => l.Ok ss p ∧ p.Admitted ss ∧ p.Has ss l.buf l.count ∧ v.callAt .reader = none ∧
      v.taken.length = p.offset + l.count
  | .inRead p l => l.Ok ss p ∧ p.Admitted ss ∧ ∃ c, v.callAt .reader = some c ∧
      (c.n = l.size ∧ p.Has ss (l.fill c.buf).buf (l.count + c.index.toNat)) ∧
      v.taken.length = p.offset + l.count + c.index.toNat
  | .finish | .overrun => False
  | .failed => v.callAt .reader = none ∧ 2048 < (packed ss).length
  | .execute argc argv => v.callAt .reader = none ∧ (packed ss).length ≤ 2048 ∧ argc = ss.length ∧
      List.Forall₂ Points argv ss

structure Inv (ss : List CString) (s : State) : Prop where
  pipe : Pipe.Inv s.pipe
  waits : s.pipe.Waits
  running : s.pipe.Running
  outside : s.pipe.Outside
  sole : s.pipe.Sole
  reader : s.pipe.slots .reader = 1
  sent : s.pipe.stored.map Prod.snd <+: wire ss
  argl : s.message.argl = (packed ss).length
  args : Part.args.Has ss s.message.args (packed ss).length
  client : s.client.Ok ss s.pipe
  server : s.server.Ok ss s.pipe

/-! ## What the programs do between their calls -/

/-- The message is not empty, and `argl` can count it. -/
structure Fits (ss : List CString) : Prop where
  pos : 0 < (packed ss).length
  le : (packed ss).length ≤ intMax

theorem Fits.length_le (h : Fits ss) : p.length ss ≤ intMax := by
  cases p with
  | argl =>
    show sizeofInt ≤ intMax
    decide
  | args => exact h.le

theorem Client.loop_ok (hf : Fits ss) (hargl : m.argl = (packed ss).length)
    (hargs : Part.args.Has ss m.args (packed ss).length) (hlen : l.len = p.length ss) (hle : l.count ≤ l.len)
    (hbuf : p.Has ss l.buf l.len) (hslots : v.slots .writer = 1) (hcall : v.callAt .writer = none)
    (hstored : v.stored.length = p.offset + l.count) : (Client.loop m p l).Ok ss v := by
  unfold Client.loop
  split
  · rename_i hlt
    exact ⟨⟨hlen, hlt⟩, hbuf, hslots, hcall, hstored⟩
  · rename_i hlt
    have hcount : l.count = p.length ss := by omega
    cases p with
    | argl =>
      dsimp only
      rw [if_pos (hargl ▸ hf.pos)]
      refine ⟨⟨hargl, hargl ▸ hf.pos⟩, hargl ▸ hargs, hslots, hcall, ?_⟩
      rw [hstored, hcount]
      exact (Nat.zero_add _).trans (Nat.add_zero _).symm
    | args =>
      refine ⟨hslots, hcall, ?_⟩
      rw [hstored, hcount, length_wire]
      rfl

theorem Server.unpack_eq (hlen : l.len = (packed ss).length) (hread : l.buf.read 0 l.len = packed ss) :
    Server.unpack l = .execute ss.length (pointers ss []) := by
  have hcount := Execute.argscount_packed ss []
  have hunpack := Packing.argvunpack_pointers ss []
  rw [List.append_nil] at hcount hunpack
  have hargc : Packing.argscount l.len (packed ss) = some ss.length := by
    rw [Packing.argscount_refines (by rw [Int.toNat_natCast, hlen]), hlen, ← Execute.argvlen_eq, hcount]
  simp only [Server.unpack, hread, hargc, hunpack, Option.bind_some, Option.map_some]

theorem Server.loop_ok (hf : Fits ss) (hadm : p.Admitted ss) (hlen : l.len = p.length ss) (hle : l.count ≤ l.len)
    (hbuf : p.Has ss l.buf l.count) (hcall : v.callAt .reader = none) (htaken : v.taken.length = p.offset + l.count) :
    (Server.loop stack p l).Ok ss v := by
  unfold Server.loop
  split
  · rename_i hlt
    exact ⟨⟨hlen, hlt⟩, hadm, hbuf, hcall, htaken⟩
  · rename_i hlt
    have hcount : l.count = p.length ss := by omega
    have hread := hbuf.read
    rw [hcount, take_drop_wire] at hread
    cases p with
    | argl =>
      have hle := hf.le
      unfold intMax at hle
      have hload : l.buf.load 0 sizeofInt = (packed ss).length := by
        refine (Memory.load_eq_iff ?_).2 hread
        unfold sizeofInt
        omega
      have hargl : (BitVec.ofNat 32 (l.buf.load 0 sizeofInt)).toInt = (packed ss).length := by
        rw [hload, BitVec.toInt_eq_toNat_of_lt] <;> rw [BitVec.toNat_ofNat, Nat.mod_eq_of_lt] <;> omega
      have hpos := hf.pos
      dsimp only
      rw [hargl]
      split
      · rename_i hok
        refine ⟨⟨Int.toNat_natCast _, ?_⟩, ?_, fun i hi => absurd hi (Nat.not_lt_zero i), hcall, ?_⟩
        · rw [Int.toNat_natCast]
          exact hpos
        · show (packed ss).length ≤ 2048
          omega
        · rw [htaken, hcount]
          exact (Nat.zero_add _).trans (Nat.add_zero _).symm
      · exact ⟨hcall, by omega⟩
    | args =>
      dsimp only
      have hall : l.len = (packed ss).length := hlen
      rw [Server.unpack_eq hall (by rw [hall]; exact hread)]
      exact ⟨hcall, hadm, rfl, Packing.pointers_point ss []⟩

/-! ## Other calls -/

/-- A step that leaves the data of a call as it is. -/
structure Keeps (f : Call → Call) : Prop where
  n : ∀ c, (f c).n = c.n
  buf : ∀ c, (f c).buf = c.buf
  index : ∀ c, (f c).index = c.index

theorem keeps_id : Keeps fun c => c := ⟨fun _ => rfl, fun _ => rfl, fun _ => rfl⟩

theorem keeps_wake : Keeps Call.wake := ⟨fun _ => Call.wake_n, fun _ => Call.wake_buf, fun _ => Call.wake_index⟩

theorem keeps_place (pl : Place) : Keeps fun c => { c with place := pl } :=
  ⟨fun _ => rfl, fun _ => rfl, fun _ => rfl⟩

theorem Client.Ok.keep {f : Call → Call} {k : Client} (h : k.Ok ss v) (hf : Keeps f) (hslots : v'.slots = v.slots)
    (hlog : v'.stored.length = v.stored.length) (hcall : v'.callAt .writer = (v.callAt .writer).map f) :
    k.Ok ss v' := by
  cases k with
  | sending p l =>
    obtain ⟨hl, hbuf, hsl, hc, hlen⟩ := h
    exact ⟨hl, hbuf, by rw [hslots, hsl], by rw [hcall, hc]; rfl, hlog.trans hlen⟩
  | inWrite p l =>
    obtain ⟨hl, hbuf, hsl, c, hc, ⟨hn, hb⟩, hlen⟩ := h
    refine ⟨hl, hbuf, by rw [hslots, hsl], f c, by rw [hcall, hc]; rfl, ⟨(hf.n c).trans hn, (hf.buf c).trans hb⟩, ?_⟩
    rw [hlog, hlen, hf.index]
  | shutDown =>
    obtain ⟨hsl, hc, hlen⟩ := h
    exact ⟨by rw [hslots, hsl], by rw [hcall, hc]; rfl, hlog.trans hlen⟩
  | exit => exact h
  | closed =>
    obtain ⟨hsl, hc, hlen⟩ := h
    exact ⟨by rw [hslots, hsl], by rw [hcall, hc]; rfl, hlog.trans hlen⟩

theorem Server.Ok.keep {f : Call → Call} {k : Server} (h : k.Ok ss v) (hf : Keeps f)
    (hlog : v'.taken.length = v.taken.length) (hcall : v'.callAt .reader = (v.callAt .reader).map f) : k.Ok ss v' := by
  cases k with
  | receiving p l =>
    obtain ⟨hl, hadm, hbuf, hc, hlen⟩ := h
    exact ⟨hl, hadm, hbuf, by rw [hcall, hc]; rfl, hlog.trans hlen⟩
  | inRead p l =>
    obtain ⟨hl, hadm, c, hc, ⟨hn, hb⟩, hlen⟩ := h
    refine ⟨hl, hadm, f c, by rw [hcall, hc]; rfl, ⟨(hf.n c).trans hn, ?_⟩, ?_⟩
    · rwa [hf.buf, hf.index]
    · rw [hlog, hlen, hf.index]
  | finish | overrun => exact h
  | failed => exact ⟨by rw [hcall, h.1]; rfl, h.2⟩
  | execute argc argv => exact ⟨by rw [hcall, h.1]; rfl, h.2⟩

/-! ## The calls themselves -/

theorem Loop.Ok.size (h : l.Ok ss p) (hf : Fits ss) : l.size.toNat = l.len - l.count ∧ l.len ≤ intMax := by
  have hle : l.len ≤ intMax := h.len ▸ hf.length_le
  refine ⟨?_, hle⟩
  unfold intMax at hle
  rw [Loop.size, BitVec.toNat_ofNat, Nat.mod_eq_of_lt (by omega)]

/-- A call that has moved all its bytes is the last one of its loop. -/
theorem Loop.Ok.full (h : l.Ok ss p) (hf : Fits ss) (hsize : c.n = l.size) (hn : c.index = c.n)
    (hbytes : c.bytes = c.index) :
    c.index.toNat = l.len - l.count ∧ 1 ≤ c.bytes.toInt ∧ (l.add c.bytes.toInt).count = l.len := by
  obtain ⟨hnat, hle⟩ := h.size hf
  have hlt := h.lt
  unfold intMax at hle
  have hint : c.bytes.toInt = (l.len - l.count : Nat) := by
    rw [hbytes, hn, hsize, BitVec.toInt_eq_toNat_of_lt (by omega), hnat]
  refine ⟨by rw [hn, hsize, hnat], by omega, ?_⟩
  rw [hint]
  show l.count + (l.len - l.count) = _
  omega

/-- The writer stores the next byte of the message. -/
theorem Client.Ok.move {k : Client} (h : k.Ok ss v) (hf : Fits ss) (hc : v.callAt .writer = some c)
    (hlt : c.index < c.n) (hs : c.stream = .writer) {x : UInt8} (hx : x = c.buf c.index.toInt) (hslots : v'.slots = v.slots)
    (hlog : v'.stored = v.stored ++ [(c.id, x)]) (hcall : v'.callAt .writer = some (c.moved x)) :
    k.Ok ss v' ∧ (wire ss)[v.stored.length]? = some x := by
  cases k with
  | inWrite p l =>
    obtain ⟨hl, hbuf, hsl, c', hc', ⟨hn, hb⟩, hlen⟩ := h
    cases hc.symm.trans hc'
    obtain ⟨hsize, hle⟩ := hl.size hf
    have hlt' : c.index.toNat < l.len - l.count := by
      rw [← hsize, ← hn]
      exact hlt
    have hsucc := Pipe.succ_toNat hlt
    unfold intMax at hle
    have hint : c.index.toInt = c.index.toNat := BitVec.toInt_eq_toNat_of_lt (by omega)
    have hbyte := hbuf (l.count + c.index.toNat) (by omega)
    refine ⟨⟨hl, hbuf, by rw [hslots, hsl], c.moved x, hcall, ⟨hn, ?_⟩, ?_⟩, ?_⟩
    · simp only [Call.moved, hs, hb]
    · rw [hlog, List.length_append, hlen]
      show _ = _ + (c.index + 1).toNat
      rw [hsucc, List.length_singleton]
      omega
    · rw [hlen, Nat.add_assoc, hbyte, hx, hb, Loop.rest, hint]
      rfl
  | sending p l => cases hc.symm.trans h.2.2.2.1
  | shutDown | closed => cases hc.symm.trans h.2.1
  | exit => exact h.elim

/-- The reader takes the next byte of the message. -/
theorem Server.Ok.move {k : Server} (h : k.Ok ss v) (hf : Fits ss) (hc : v.callAt .reader = some c)
    (hlt : c.index < c.n) (hs : c.stream = .reader) {x : UInt8} (hx : (wire ss)[v.taken.length]? = some x)
    (hlog : v'.taken = v.taken ++ [(c.id, x)]) (hcall : v'.callAt .reader = some (c.moved x)) : k.Ok ss v' := by
  cases k with
  | inRead p l =>
    obtain ⟨hl, hadm, c', hc', ⟨hn, hb⟩, hlen⟩ := h
    cases hc.symm.trans hc'
    obtain ⟨hsize, hle⟩ := hl.size hf
    have hlt' : c.index.toNat < l.len - l.count := by
      rw [← hsize, ← hn]
      exact hlt
    have hsucc := Pipe.succ_toNat hlt
    unfold intMax at hle
    have hint : c.index.toInt = c.index.toNat := BitVec.toInt_eq_toNat_of_lt (by omega)
    have hindex : (c.moved x).index.toNat = c.index.toNat + 1 := hsucc
    refine ⟨hl, hadm, c.moved x, hcall, ⟨hn, fun i hi => ?_⟩, ?_⟩
    · rw [hindex] at hi
      have hbuf : (l.fill (c.moved x).buf).buf i = if i = l.count + c.index.toNat then x else (l.fill c.buf).buf i := by
        simp only [Loop.fill, Call.moved, hs, hint, Function.update_apply]
        refine if_congr ?_ rfl rfl
        omega
      rw [hbuf]
      split
      · rename_i he
        rw [he, ← Nat.add_assoc, ← hlen, hx]
      · exact hb i (by omega)
    · rw [hlog, List.length_append, hlen, hindex, List.length_singleton]
      omega
  | receiving p l => cases hc.symm.trans h.2.2.2.1
  | failed => cases hc.symm.trans h.1
  | execute argc argv => cases hc.symm.trans h.1
  | finish | overrun => exact h.elim

/-- `Write` returns. -/
theorem Client.Ok.returned {k : Client} (h : k.Ok ss v) (hf : Fits ss) (hargl : m.argl = (packed ss).length)
    (hargs : Part.args.Has ss m.args (packed ss).length) (hc : v.callAt .writer = some c) (hn : c.index = c.n)
    (hbytes : c.bytes = c.index) (hslots : v'.slots = v.slots) (hlog : v'.stored = v.stored)
    (hcall : v'.callAt .writer = none) : (k.written m c.bytes.toInt).Ok ss v' := by
  cases k with
  | inWrite p l =>
    obtain ⟨hl, hbuf, hsl, c', hc', ⟨hn', -⟩, hlen⟩ := h
    cases hc.symm.trans hc'
    have hlt := hl.lt
    obtain ⟨hindex, hpos, hcount⟩ := hl.full hf hn' hn hbytes
    rw [Client.written, if_pos hpos]
    refine Client.loop_ok hf hargl hargs hl.len hcount.le hbuf (by rw [hslots, hsl]) hcall ?_
    rw [hlog, hlen, hcount, hindex]
    omega
  | sending p l => cases hc.symm.trans h.2.2.2.1
  | shutDown | closed => cases hc.symm.trans h.2.1
  | exit => exact h.elim

/-- `Read` returns. -/
theorem Server.Ok.returned {k : Server} (h : k.Ok ss v) (hf : Fits ss) (hc : v.callAt .reader = some c)
    (hn : c.index = c.n) (hbytes : c.bytes = c.index) (hlog : v'.taken = v.taken) (hcall : v'.callAt .reader = none) :
    (k.read stack c.buf c.bytes.toInt).Ok ss v' := by
  cases k with
  | inRead p l =>
    obtain ⟨hl, hadm, c', hc', ⟨hn', hb⟩, hlen⟩ := h
    cases hc.symm.trans hc'
    have hlt := hl.lt
    obtain ⟨hindex, hpos, hcount⟩ := hl.full hf hn' hn hbytes
    have hall : l.count + c.index.toNat = l.len := by omega
    have hcount : ((l.fill c.buf).add c.bytes.toInt).count = l.len := hcount
    rw [Server.read, if_pos hpos]
    refine Server.loop_ok hf hadm hl.len hcount.le ?_ hcall ?_
    · rw [hcount, ← hall]
      exact hb
    · rw [hlog, hlen, hcount, ← hall, Nat.add_assoc]
  | receiving p l => cases hc.symm.trans h.2.2.2.1
  | failed => cases hc.symm.trans h.1
  | execute argc argv => cases hc.symm.trans h.1
  | finish | overrun => exact h.elim

/-! ## The measure -/

/-- The steps that a call can make before it waits or moves a byte; it has one more while its test has changed. -/
def callRank (z : Pipe.PipeCB) (c : Call) : Nat :=
  match c.place with
  | .entry => 14
  | .loop | .woken => 13
  | .inner => 12
  | .asleep => if Blocked z c.stream then 11 else 14

def endRank (v : Pipe.State) (e : End) : Nat := (v.callAt e).elim 0 (callRank v.pipe)

def Client.rank (ss : List CString) : Client → Nat
  | .sending p l => 20 * ((wire ss).length - (p.offset + l.count)) + 20
  | .inWrite p l => 20 * ((wire ss).length - (p.offset + l.count))
  | .shutDown | .exit => 20
  | .closed => 0

def Server.rank (ss : List CString) : Server → Nat
  | .receiving p l => 20 * ((wire ss).length - (p.offset + l.count)) + 20
  | .inRead p l => 20 * ((wire ss).length - (p.offset + l.count))
  | .finish | .failed | .overrun | .execute .. => 0

/-- The bytes to be stored and taken, and then what is between one byte and the next one. -/
def State.rank (ss : List CString) (s : State) : Nat :=
  100 * ((wire ss).length - s.pipe.stored.length + ((wire ss).length - s.pipe.taken.length)) +
    (s.client.rank ss + s.server.rank ss) + (endRank s.pipe .writer + endRank s.pipe .reader)

theorem endRank_add (v : Pipe.State) (e : End) :
    endRank v .writer + endRank v .reader = endRank v e + endRank v (peer e) := by
  cases e
  · exact Nat.add_comm _ _
  · rfl

theorem callRank_wake_le (z : Pipe.PipeCB) (c : Call) : callRank z c.wake ≤ callRank z c + 2 := by
  unfold Call.wake
  split
  · rename_i hpl
    simp only [callRank, hpl]
    split <;> omega
  · exact Nat.le_add_right _ _

/-- A call that sleeps in vain gains nothing when it is woken up. -/
theorem callRank_wake_le_of_free {z : Pipe.PipeCB} (h : ¬Blocked z c.stream) : callRank z c.wake ≤ callRank z c := by
  unfold Call.wake
  split
  · rename_i hpl
    simp only [callRank, hpl, if_neg h]
    omega
  · exact Nat.le_refl _

theorem callRank_pipe_le (z z' : Pipe.PipeCB) (c : Call) : callRank z c ≤ callRank z' c + 3 := by
  unfold callRank
  cases c.place with
  | asleep =>
    dsimp only
    split <;> split <;> omega
  | _ => exact Nat.le_add_right _ _

theorem elim_wake_le (z : Pipe.PipeCB) (o : Option Call) :
    (o.map Call.wake).elim 0 (callRank z) ≤ o.elim 0 (callRank z) + 2 := by
  cases o with
  | none => exact Nat.zero_le _
  | some c => exact callRank_wake_le z c

theorem elim_callRank_le (z z' : Pipe.PipeCB) (o : Option Call) :
    o.elim 0 (callRank z) ≤ o.elim 0 (callRank z') + 3 := by
  cases o with
  | none => exact Nat.zero_le _
  | some c => exact callRank_pipe_le z z' c

theorem Client.rank_loop_le (hargl : m.argl = (packed ss).length) (hpos : 0 < (packed ss).length)
    (hlen : l.len = p.length ss) (hle : l.count ≤ l.len) :
    (Client.loop m p l).rank ss ≤ 20 * ((wire ss).length - (p.offset + l.count)) + 20 := by
  unfold Client.loop
  split
  · exact Nat.le_refl _
  · have hcount : l.count = p.length ss := by omega
    cases p with
    | argl =>
      dsimp only
      rw [if_pos (hargl ▸ hpos), hcount]
      exact Nat.le_refl _
    | args => exact Nat.le_add_left _ _

theorem Server.rank_loop_le (hlen : l.len = p.length ss) (hle : l.count ≤ l.len) :
    (Server.loop stack p l).rank ss ≤ 20 * ((wire ss).length - (p.offset + l.count)) + 20 := by
  unfold Server.loop
  split
  · exact Nat.le_refl _
  · have hcount : l.count = p.length ss := by omega
    cases p with
    | argl =>
      dsimp only
      split
      · rw [hcount]
        exact Nat.le_refl _
      · exact Nat.zero_le _
    | args =>
      dsimp only
      unfold Server.unpack
      dsimp only
      split <;> exact Nat.zero_le _

/-! ## The calls go on -/

theorem keeps_wakes (w : Bool) : Keeps (bif w then Call.wake else fun c => c) := by
  cases w
  · exact keeps_id
  · exact keeps_wake

theorem Client.Ok.slots {k : Client} (h : k.Ok ss v) (hc : v.callAt .writer = some c) : v.slots .writer = 1 := by
  cases k with
  | sending p l => exact h.2.2.1
  | inWrite p l => exact h.2.2.1
  | shutDown => exact h.1
  | exit => exact h.elim
  | closed => cases hc.symm.trans h.2.1

namespace Inv

theorem two_le_refcount (h : Inv ss s) (hc : c ∈ s.pipe.calls) : 2 ≤ s.pipe.refcount c.stream := by
  have href := h.pipe.refs c.stream
  have hpin : 0 < Pipe.pins s.pipe.calls c.stream := List.count_pos_iff.2 (List.mem_map_of_mem hc)
  have hslots : s.pipe.slots c.stream = 1 := by
    cases hs : c.stream with
    | reader => exact h.reader
    | writer => exact h.client.slots (c := c) (by rw [← hs]; exact h.sole c hc)
  omega

/-- What holds of any pipe with its calls. -/
theorem base (h : Inv ss s) {b : Pipe.Action} (he : s.pipe.step b = some v) :
    Pipe.Inv v ∧ v.Waits ∧ v.Running ∧ v.Outside :=
  ⟨h.pipe.step he, h.waits.step h.pipe he, h.running.step h.pipe he,
    h.outside.step (fun _ hc => h.two_le_refcount hc) he⟩

theorem reader_open (h : Inv ss s) : s.pipe.pipe.isOpen .reader = true := by
  have href := h.pipe.refs .reader
  have hslots := h.reader
  exact (h.pipe.open_iff .reader).2 (by omega)

theorem stored_le (h : Inv ss s) : s.pipe.stored.length ≤ (wire ss).length := by
  have := h.sent.length_le
  rwa [List.length_map] at this

theorem taken_le (h : Inv ss s) : s.pipe.taken.length ≤ s.pipe.stored.length := by
  have := congrArg List.length h.pipe.fifo
  rw [List.length_append, List.length_map, List.length_map] at this
  omega

/-- The rest of the state is as it was. -/
theorem of_pipe (h : Inv ss s) (hb : Pipe.Inv v ∧ v.Waits ∧ v.Running ∧ v.Outside) (hsole : v.Sole)
    (hreader : v.slots .reader = 1) (hsent : v.stored.map Prod.snd <+: wire ss) {k : Client} {k' : Server}
    (hk : k.Ok ss v) (hk' : k'.Ok ss v) : Inv ss { s with pipe := v, client := k, server := k' } :=
  ⟨hb.1, hb.2.1, hb.2.2.1, hb.2.2.2, hsole, hreader, hsent, h.argl, h.args, hk, hk'⟩

/-- The other program, while the call of this one goes on. -/
theorem client_peer (h : Inv ss s) {own : Option Call} {w : Bool} (ht : Turned s.pipe v c own w)
    (hs : c.stream = .reader) (hlog : v.stored.length = s.pipe.stored.length) : s.client.Ok ss v := by
  have hpeer := ht.peer
  rw [hs] at hpeer
  exact h.client.keep (keeps_wakes w) ht.slots hlog hpeer

theorem server_peer (h : Inv ss s) {own : Option Call} {w : Bool} (ht : Turned s.pipe v c own w)
    (hs : c.stream = .writer) (hlog : v.taken.length = s.pipe.taken.length) : s.server.Ok ss v := by
  have hpeer := ht.peer
  rw [hs] at hpeer
  exact h.server.keep (keeps_wakes w) hlog hpeer

end Inv

/-- What a step leaves of the ranks, if `own` is the call of its end then. -/
theorem endRank_turned {own : Option Call} {w : Bool} (ht : Turned v v' c own w) :
    endRank v' .writer + endRank v' .reader =
      own.elim 0 (callRank v'.pipe) +
        ((v.callAt (peer c.stream)).map (bif w then Call.wake else fun d => d)).elim 0 (callRank v'.pipe) := by
  rw [endRank_add v' c.stream, endRank, endRank, ht.own, ht.peer]

theorem stored_of_log (h : v'.log = v.log) : v'.stored = v.stored := congrFun h .writer

theorem taken_of_log (h : v'.log = v.log) : v'.taken = v.taken := congrFun h .reader

namespace Inv

/-- The call goes on to another place, and may wake up the other one. -/
theorem place (h : Inv ss s) (hb : Pipe.Inv v ∧ v.Waits ∧ v.Running ∧ v.Outside) (hat : s.pipe.callAt c.stream = some c)
    {pl : Place} {w : Bool} (ht : Turned s.pipe v c (some { c with place := pl }) w) (hlog : v.log = s.pipe.log) :
    Inv ss { s with pipe := v } := by
  have hstored := stored_of_log hlog
  have htaken := taken_of_log hlog
  have hown : v.callAt c.stream = (s.pipe.callAt c.stream).map fun c => { c with place := pl } := by
    rw [ht.own, hat]
    rfl
  refine h.of_pipe hb ht.sole (by rw [ht.slots, h.reader]) (by rw [hstored]; exact h.sent) ?_ ?_
  · cases hs : c.stream with
    | reader => exact h.client_peer ht hs (by rw [hstored])
    | writer =>
      rw [hs] at hown
      exact h.client.keep (keeps_place pl) ht.slots (by rw [hstored]) hown
  · cases hs : c.stream with
    | writer => exact h.server_peer ht hs (by rw [htaken])
    | reader =>
      rw [hs] at hown
      exact h.server.keep (keeps_place pl) (by rw [htaken]) hown

/-- The call moves a byte of the message. -/
theorem moves (h : Inv ss s) (hf : Fits ss) (hb : Pipe.Inv v ∧ v.Waits ∧ v.Running ∧ v.Outside)
    (hat : s.pipe.callAt c.stream = some c) (hlt : c.index < c.n) {x : UInt8}
    (hx : c.stream = .writer → x = c.buf c.index.toInt) (ht : Turned s.pipe v c (some (c.moved x)) false)
    (hlog : v.log = Function.update s.pipe.log c.stream (s.pipe.log c.stream ++ [(c.id, x)])) :
    Inv ss { s with pipe := v } ∧
      v.stored.length + v.taken.length = s.pipe.stored.length + s.pipe.taken.length + 1 := by
  have hown := ht.own
  have hw : v.stored = _ := congrFun hlog .writer
  have hr : v.taken = _ := congrFun hlog .reader
  cases hs : c.stream with
  | writer =>
    rw [hs] at hat hown hw hr
    rw [Function.update_self] at hw
    rw [Function.update_of_ne (by simp)] at hr
    have hw : v.stored = s.pipe.stored ++ [(c.id, x)] := hw
    have hr : v.taken = s.pipe.taken := hr
    obtain ⟨hclient, hbyte⟩ := h.client.move hf hat hlt hs (hx hs) ht.slots hw hown
    refine ⟨h.of_pipe hb ht.sole (by rw [ht.slots, h.reader]) ?_ hclient (h.server_peer ht hs (by rw [hr])), ?_⟩
    · have hsent := List.prefix_iff_eq_take.1 h.sent
      rw [List.length_map] at hsent
      rw [hw, List.map_append, hsent]
      have hlt' : s.pipe.stored.length < (wire ss).length := (List.getElem?_eq_some_iff.1 hbyte).1
      have hget := (List.getElem?_eq_some_iff.1 hbyte).2
      have hsucc := List.take_append_getElem hlt'
      rw [hget] at hsucc
      exact hsucc ▸ List.take_prefix _ _
    · rw [hw, hr, List.length_append, List.length_singleton]
      omega
  | reader =>
    rw [hs] at hat hown hw hr
    rw [Function.update_of_ne (by simp)] at hw
    rw [Function.update_self] at hr
    have hw : v.stored = s.pipe.stored := hw
    have hr : v.taken = s.pipe.taken ++ [(c.id, x)] := hr
    have hpre : v.taken.map Prod.snd <+: wire ss := by
      refine List.IsPrefix.trans ⟨v.pipe.contents, hb.1.fifo.symm⟩ ?_
      rw [hw]
      exact h.sent
    have hbyte : (wire ss)[s.pipe.taken.length]? = some x := by
      obtain ⟨rest, hrest⟩ := hpre
      rw [← hrest, hr, List.map_append, List.append_assoc, List.getElem?_append_right (by simp), List.length_map,
        Nat.sub_self]
      rfl
    refine ⟨h.of_pipe hb ht.sole (by rw [ht.slots, h.reader]) (by rw [hw]; exact h.sent)
      (h.client_peer ht hs (by rw [hw])) (h.server.move hf hat hlt hs hbyte hr hown), ?_⟩
    rw [hw, hr, List.length_append, List.length_singleton]
    omega

/-- The call returns to its program. -/
theorem returns (h : Inv ss s) (hf : Fits ss) (hb : Pipe.Inv v ∧ v.Waits ∧ v.Running ∧ v.Outside)
    (hat : s.pipe.callAt c.stream = some c) (hn : c.index = c.n) (hbytes : c.bytes = c.index)
    (ht : Turned s.pipe v c none true) (hlog : v.log = s.pipe.log) :
    Inv ss (State.returned { s with pipe := v } ⟨c.id, c.stream, c.n, c.buf, c.bytes.toInt⟩) := by
  have hstored := stored_of_log hlog
  have htaken := taken_of_log hlog
  have hown := ht.own
  have hreader : v.slots .reader = 1 := by rw [ht.slots, h.reader]
  have hsent : v.stored.map Prod.snd <+: wire ss := by rw [hstored]; exact h.sent
  unfold State.returned
  cases hs : c.stream with
  | writer =>
    rw [hs] at hat hown
    exact h.of_pipe hb ht.sole hreader hsent (h.client.returned hf h.argl h.args hat hn hbytes ht.slots hstored hown)
      (h.server_peer ht hs (by rw [htaken]))
  | reader =>
    rw [hs] at hat hown
    exact h.of_pipe hb ht.sole hreader hsent (h.client_peer ht hs (by rw [hstored]))
      (h.server.returned hf hat hn hbytes htaken hown)

end Inv

/-- While the server is in `Read`, it has not got all of the message. -/
theorem Server.Ok.short {k : Server} (h : k.Ok ss v) (hf : Fits ss) (hc : v.callAt .reader = some c)
    (hlt : c.index < c.n) : v.taken.length < (wire ss).length := by
  cases k with
  | inRead p l =>
    obtain ⟨hl, -, c', hc', ⟨hn, -⟩, hlen⟩ := h
    cases hc.symm.trans hc'
    have hsize := (hl.size hf).1
    have hlt' : c.index.toNat < l.len - l.count := by
      rw [← hsize, ← hn]
      exact hlt
    have hle : p.offset + p.length ss ≤ (wire ss).length := offset_add_le
    rw [← hl.len] at hle
    omega
  | receiving p l => cases hc.symm.trans h.2.2.2.1
  | failed => cases hc.symm.trans h.1
  | execute argc argv => cases hc.symm.trans h.1
  | finish | overrun => exact h.elim

theorem Client.Ok.all_sent {k : Client} (h : k.Ok ss v) (hclosed : v.slots .writer = 0) :
    v.stored.length = (wire ss).length := by
  cases k with
  | sending p l => cases hclosed.symm.trans h.2.2.1
  | inWrite p l => cases hclosed.symm.trans h.2.2.1
  | shutDown => cases hclosed.symm.trans h.1
  | exit => exact h.elim
  | closed => exact h.2.2

theorem Inv.empty (h : Inv ss s) (he : s.pipe.pipe.Empty) : s.pipe.stored.length = s.pipe.taken.length := by
  have hnil : s.pipe.pipe.contents = [] := (Ring.contents_eq_nil h.pipe.r_lt h.pipe.w_lt _).2 he
  have hlen := congrArg List.length h.pipe.fifo
  rwa [hnil, List.append_nil, List.length_map, List.length_map] at hlen

/-- So it never sees the end of the data. -/
theorem Inv.not_ended (h : Inv ss s) (hf : Fits ss) (hat : s.pipe.callAt .reader = some c) (hlt : c.index < c.n)
    (he : s.pipe.pipe.Empty) : s.pipe.pipe.isOpen .writer = true := by
  by_contra hclosed
  have href := h.pipe.refs .writer
  have hzero : ¬0 < s.pipe.refcount .writer := fun hpos => hclosed ((h.pipe.open_iff .writer).2 hpos)
  have hshort := h.server.short hf hat hlt
  have hall := h.client.all_sent (by omega)
  have hempty := h.empty he
  omega

/-! ## Each step -/

theorem Client.Ok.rank_written {k : Client} (h : k.Ok ss v) (hf : Fits ss) (hargl : m.argl = (packed ss).length)
    (hc : v.callAt .writer = some c) (hn : c.index = c.n) (hbytes : c.bytes = c.index) :
    (k.written m c.bytes.toInt).rank ss ≤ k.rank ss := by
  cases k with
  | inWrite p l =>
    obtain ⟨hl, -, -, c', hc', ⟨hn', -⟩, -⟩ := h
    cases hc.symm.trans hc'
    have hlt := hl.lt
    obtain ⟨-, hpos, hcount⟩ := hl.full hf hn' hn hbytes
    have hwire : p.offset + p.length ss ≤ (wire ss).length := offset_add_le
    rw [← hl.len] at hwire
    rw [Client.written, if_pos hpos]
    refine (Client.rank_loop_le (l := l.add c.bytes.toInt) hargl hf.pos hl.len hcount.le).trans ?_
    rw [hcount]
    show _ ≤ 20 * _
    omega
  | sending p l => exact Nat.le_refl _
  | shutDown | closed => exact Nat.le_refl _
  | exit => exact h.elim

theorem Server.Ok.rank_read {k : Server} (h : k.Ok ss v) (hf : Fits ss) (hc : v.callAt .reader = some c)
    (hn : c.index = c.n) (hbytes : c.bytes = c.index) : (k.read stack c.buf c.bytes.toInt).rank ss ≤ k.rank ss := by
  cases k with
  | inRead p l =>
    obtain ⟨hl, -, c', hc', ⟨hn', -⟩, -⟩ := h
    cases hc.symm.trans hc'
    have hlt := hl.lt
    obtain ⟨-, hpos, hcount⟩ := hl.full hf hn' hn hbytes
    have hcount : ((l.fill c.buf).add c.bytes.toInt).count = l.len := hcount
    have hwire : p.offset + p.length ss ≤ (wire ss).length := offset_add_le
    rw [← hl.len] at hwire
    rw [Server.read, if_pos hpos]
    refine (Server.rank_loop_le (l := (l.fill c.buf).add c.bytes.toInt) hl.len hcount.le).trans ?_
    rw [hcount]
    show _ ≤ 20 * _
    omega
  | receiving p l => exact Nat.le_refl _
  | failed => exact Nat.le_refl _
  | execute argc argv => exact Nat.le_refl _
  | finish | overrun => exact h.elim

/-- What a program does with the result of a call lowers the rank, or keeps it. -/
theorem Inv.rank_returned (h : Inv ss s) (hf : Fits ss) (v : Pipe.State) (hat : s.pipe.callAt c.stream = some c)
    (hn : c.index = c.n) (hbytes : c.bytes = c.index) :
    (State.returned { s with pipe := v } ⟨c.id, c.stream, c.n, c.buf, c.bytes.toInt⟩).rank ss ≤
      State.rank ss { s with pipe := v } := by
  unfold State.returned
  cases hs : c.stream with
  | writer =>
    rw [hs] at hat
    have hclient := h.client.rank_written hf h.argl hat hn hbytes
    simp only [State.rank]
    omega
  | reader =>
    rw [hs] at hat
    have hserver : (s.server.read s.stack c.buf c.bytes.toInt).rank ss ≤ s.server.rank ss :=
      h.server.rank_read hf hat hn hbytes
    simp only [State.rank]
    omega

/-- The peer of a call that falls asleep finds nothing to wait for. -/
theorem Inv.peer_rank_le (h : Inv ss s) {e : End} (hblocked : Blocked s.pipe.pipe e) :
    ((s.pipe.callAt (peer e)).map Call.wake).elim 0 (callRank s.pipe.pipe) ≤
      (s.pipe.callAt (peer e)).elim 0 (callRank s.pipe.pipe) := by
  cases hd : s.pipe.callAt (peer e) with
  | none => exact Nat.le_refl _
  | some d =>
    have hfree : ¬Blocked s.pipe.pipe d.stream := by
      rw [(Pipe.State.callAt_mem hd).2]
      exact Pipe.State.not_blocked_peer h.pipe.r_lt hblocked
    exact callRank_wake_le_of_free hfree

/-- The call in the kernel goes on. -/
theorem Inv.run (h : Inv ss s) (hf : Fits ss) {id : Nat} (hs : s.kernel (.run id) = some s') :
    Inv ss s' ∧ s'.rank ss < s.rank ss := by
  obtain ⟨v, he, rfl⟩ := Option.map_eq_some_iff.1 hs
  have hb := h.base he
  cases Pipe.State.step_cases he with
  | @run c hk hc _ =>
  have hat := h.sole c hc
  have hok := h.pipe.call c hc
  have hturn := Pipe.State.runCall_turn (h.running c hc hk) h.reader_open fun hw => hw ▸ h.pipe.own_open hc
  have hrank : endRank s.pipe .writer + endRank s.pipe .reader =
      callRank s.pipe.pipe c + (s.pipe.callAt (peer c.stream)).elim 0 (callRank s.pipe.pipe) := by
    rw [endRank_add _ c.stream, endRank, endRank, hat]
    rfl
  cases hturn.effect h.sole h.pipe.nodup hat (h.two_le_refcount hc) with
  | goes pl hpl ht hpipe hlog hreturns =>
    rw [hreturns, Nat.sub_self, List.take_zero]
    refine ⟨h.place hb hat ht hlog, ?_⟩
    have hsum := endRank_turned ht
    rw [hpipe, cond_false, Option.map_id'] at hsum
    simp only [State.rank, stored_of_log hlog, taken_of_log hlog, hrank, hsum]
    have hlt : callRank s.pipe.pipe { c with place := pl } < callRank s.pipe.pipe c := by
      rcases hpl with ⟨hpl, rfl⟩ | ⟨hpl, rfl⟩ <;> simp [callRank, hpl]
    simp only [Option.elim_some]
    omega
  | waits hpl hblocked ht hpipe hlog hreturns =>
    rw [hreturns, Nat.sub_self, List.take_zero]
    refine ⟨h.place hb hat ht hlog, ?_⟩
    have hsum := endRank_turned ht
    rw [hpipe, cond_true] at hsum
    simp only [State.rank, stored_of_log hlog, taken_of_log hlog, hrank, hsum]
    have hlt : callRank s.pipe.pipe { c with place := .asleep } < callRank s.pipe.pipe c := by
      simp [callRank, hpl, hblocked]
    have hle := h.peer_rank_le hblocked
    simp only [Option.elim_some]
    omega
  | returns hpl ht hpipe hlog hreturns =>
    have hn : c.index = c.n := by
      refine BitVec.le_antisymm hok.le ?_
      rcases hpl with ⟨-, hge⟩ | ⟨hpl, hs, hempty, hclosed⟩
      · exact BitVec.not_lt.1 hge
      · rw [hs] at hat
        cases hclosed.symm.trans (h.not_ended hf hat (hok.lt (by rw [hpl]; rfl)) hempty)
    rw [hreturns, List.length_cons, Nat.add_sub_cancel_left]
    refine ⟨h.returns hf hb hat hn hok.bytes ht hlog, ?_⟩
    have hsum := endRank_turned ht
    rw [hpipe, cond_true] at hsum
    have hwake := elim_wake_le s.pipe.pipe (s.pipe.callAt (peer c.stream))
    have hout : 12 ≤ callRank s.pipe.pipe c := by
      rcases hpl with ⟨hpl, -⟩ | ⟨hpl, -⟩ <;> simp [callRank, hpl]
    refine (h.rank_returned hf (s.pipe.runCall c) hat hn hok.bytes).trans_lt ?_
    simp only [State.rank, stored_of_log hlog, taken_of_log hlog, hrank, hsum, Option.elim_none]
    omega
  | moves x hpl hx ht hlog hreturns =>
    rw [hreturns, Nat.sub_self, List.take_zero]
    have hlt := hok.lt (by rw [hpl]; rfl)
    obtain ⟨hinv, hbytes⟩ := h.moves hf hb hat hlt hx ht hlog
    refine ⟨hinv, ?_⟩
    have hsum := endRank_turned ht
    rw [cond_false, Option.map_id'] at hsum
    have hpeer := elim_callRank_le (s.pipe.runCall c).pipe s.pipe.pipe (s.pipe.callAt (peer c.stream))
    have hown : callRank (s.pipe.runCall c).pipe (c.moved x) = 13 := rfl
    have hout : callRank s.pipe.pipe c = 12 := by simp [callRank, hpl]
    have hstored : (s.pipe.runCall c).stored.length ≤ (wire ss).length := hinv.stored_le
    have htaken : (s.pipe.runCall c).taken.length ≤ (s.pipe.runCall c).stored.length := hinv.taken_le
    have hstored' := h.stored_le
    have htaken' := h.taken_le
    simp only [State.rank, hrank, hsum, Option.elim_some, hown, hout]
    omega

/-- A call that has been woken up gets the kernel. -/
theorem Inv.resume (h : Inv ss s) {id : Nat} (hs : s.kernel (.resume id) = some s') :
    Inv ss s' ∧ s'.rank ss < s.rank ss := by
  obtain ⟨v, he, rfl⟩ := Option.map_eq_some_iff.1 hs
  have hb := h.base he
  cases Pipe.State.step_cases he with
  | @resume c hk hc hpl =>
  have hat := h.sole c hc
  have ht : Turned s.pipe (Pipe.State.setCall { s.pipe with kernel := some c.id } { c with place := .inner }) c
      (some { c with place := .inner }) false := Pipe.State.turned_setCall h.sole h.pipe.nodup hat rfl rfl rfl rfl
  have hlog : (Pipe.State.setCall { s.pipe with kernel := some c.id } { c with place := .inner }).log = s.pipe.log :=
    Pipe.State.log_congr rfl rfl
  have hreturns : (Pipe.State.setCall { s.pipe with kernel := some c.id } { c with place := .inner }).returns =
      s.pipe.returns := rfl
  rw [hreturns, Nat.sub_self, List.take_zero]
  refine ⟨h.place hb hat ht hlog, ?_⟩
  have hsum := endRank_turned ht
  have hrank : endRank s.pipe .writer + endRank s.pipe .reader =
      callRank s.pipe.pipe c + (s.pipe.callAt (peer c.stream)).elim 0 (callRank s.pipe.pipe) := by
    rw [endRank_add _ c.stream, endRank, endRank, hat]
    rfl
  have hpipe : (Pipe.State.setCall { s.pipe with kernel := some c.id } { c with place := .inner }).pipe =
      s.pipe.pipe := rfl
  rw [hpipe, cond_false, Option.map_id'] at hsum
  have hin : callRank s.pipe.pipe { c with place := .inner } = 12 := rfl
  have hout : callRank s.pipe.pipe c = 13 := by simp [callRank, hpl]
  simp only [State.rank, stored_of_log hlog, taken_of_log hlog, hrank, hsum, Option.elim_some, hin, hout]
  omega

/-- A program makes a call. -/
theorem Inv.call (h : Inv ss s) {n : BitVec 32} {buf : Int → UInt8} (hnone : s.pipe.callAt e = none)
    (he : s.pipe.step (.call e n buf) = some v) :
    v.Sole ∧ v.slots = s.pipe.slots ∧ v.log = s.pipe.log ∧
      v.callAt e = some ⟨s.pipe.started, e, .entry, n, buf, 0, 0⟩ ∧ v.callAt (peer e) = s.pipe.callAt (peer e) ∧
      endRank v .writer + endRank v .reader = endRank s.pipe .writer + endRank s.pipe .reader + 14 := by
  cases Pipe.State.step_cases he with
  | call _ _ hk hsl =>
  obtain ⟨hsole, hat⟩ := h.sole.cons (c := ⟨s.pipe.started, e, .entry, n, buf, 0, 0⟩) (u := { s.pipe.fcbIncref e with
    calls := ⟨s.pipe.started, e, .entry, n, buf, 0, 0⟩ :: s.pipe.calls
    kernel := some s.pipe.started
    started := s.pipe.started + 1 }) hnone rfl
  have hown := (hat e).trans (if_pos rfl)
  have hpeer := (hat (peer e)).trans (if_neg (Pipe.State.peer_ne e))
  refine ⟨hsole, rfl, Pipe.State.log_congr rfl rfl, hown, hpeer, ?_⟩
  rw [endRank_add _ e, endRank_add s.pipe e, endRank, endRank, hown, hpeer, endRank, endRank, hnone]
  simp only [Option.elim_none, Option.elim_some, callRank]
  exact (Nat.add_comm _ _).trans (congrArg (· + 14) (Nat.zero_add _).symm)

/-- The writing end is closed, and the reader woken up. -/
theorem Inv.close (h : Inv ss s) (hnone : s.pipe.callAt .writer = none) (hslots : s.pipe.slots .writer = 1)
    (he : s.pipe.step (.close .writer) = some v) :
    v.Sole ∧ v.slots .reader = 1 ∧ v.slots .writer = 0 ∧ v.log = s.pipe.log ∧ v.callAt .writer = none ∧
      v.callAt .reader = (s.pipe.callAt .reader).map Call.wake ∧
      endRank v .writer + endRank v .reader ≤ endRank s.pipe .writer + endRank s.pipe .reader + 2 := by
  have hpins : Pipe.pins s.pipe.calls .writer = 0 := List.count_eq_zero.2 fun hm => by
    obtain ⟨c, hc, hs⟩ := List.mem_map.1 hm
    exact Pipe.State.callAt_eq_none.1 hnone c hc hs
  have href := h.pipe.refs .writer
  rw [hslots, hpins] at href
  have hopen : (s.pipe.pipe.close .writer).isOpen .reader = true := h.reader_open
  cases Pipe.State.step_cases he with
  | close hk hsl =>
  have hclose : Pipe.State.fcbDecref
      { s.pipe with slots := Function.update s.pipe.slots .writer (s.pipe.slots .writer - 1) } .writer =
      Pipe.State.broadcast { s.pipe with
        slots := Function.update s.pipe.slots .writer (s.pipe.slots .writer - 1)
        refcount := Function.update s.pipe.refcount .writer (s.pipe.refcount .writer - 1)
        pipe := s.pipe.pipe.close .writer } .reader := by
    unfold Pipe.State.fcbDecref Pipe.State.closeEnd
    dsimp only
    rw [if_pos (by rw [Function.update_self, href]; rfl)]
    exact if_pos hopen
  rw [hclose]
  obtain ⟨hsole, hat⟩ := h.sole.broadcast (u := Pipe.State.broadcast { s.pipe with
    slots := Function.update s.pipe.slots .writer (s.pipe.slots .writer - 1)
    refcount := Function.update s.pipe.refcount .writer (s.pipe.refcount .writer - 1)
    pipe := s.pipe.pipe.close .writer } .reader) .reader rfl
  have hown := (hat .writer).trans ((if_neg (by simp)).trans hnone)
  have hpeer := (hat .reader).trans (if_pos rfl)
  refine ⟨hsole, h.reader, ?_, Pipe.State.log_congr rfl rfl, hown, hpeer, ?_⟩
  · show Function.update s.pipe.slots .writer (s.pipe.slots .writer - 1) .writer = 0
    rw [Function.update_self, hslots]
  · rw [endRank, endRank, hown, hpeer, endRank, endRank, hnone]
    simp only [Option.elim_none]
    cases s.pipe.callAt .reader with
    | none => exact Nat.zero_le _
    | some d =>
      have hsame : ∀ d, callRank (s.pipe.pipe.close .writer) d = callRank s.pipe.pipe d := fun d => rfl
      have hle := callRank_wake_le s.pipe.pipe d
      simp only [Option.map_some, Option.elim_some, Nat.zero_add]
      exact (hsame d.wake).trans_le hle

theorem rank_call (p : Part) (l : Loop) : (Client.inWrite p l).rank ss + 20 = (Client.sending p l).rank ss ∧
    (Server.inRead p l).rank ss + 20 = (Server.receiving p l).rank ss := ⟨rfl, rfl⟩

/-- The client goes on. -/
theorem Inv.clientStep (h : Inv ss s) (hs : s.step .client = some s') : Inv ss s' ∧ s'.rank ss < s.rank ss := by
  have hclient := h.client
  simp only [State.step] at hs
  split at hs
  · rename_i p l hk
    rw [hk] at hclient
    obtain ⟨hl, hbuf, hslots, hnone, hlen⟩ := hclient
    obtain ⟨v, he, rfl⟩ := Option.map_eq_some_iff.1 hs
    obtain ⟨hsole, hsl, hlog, hown, hpeer, hsum⟩ := h.call hnone he
    have hstored := stored_of_log hlog
    have htaken := taken_of_log hlog
    refine ⟨h.of_pipe (h.base he) hsole (by rw [hsl, h.reader]) (by rw [hstored]; exact h.sent) ?_ ?_, ?_⟩
    · refine ⟨hl, hbuf, by rw [hsl, hslots], _, hown, ⟨rfl, rfl⟩, ?_⟩
      rw [hstored, hlen]
      rfl
    · exact h.server.keep keeps_id (by rw [htaken]) (hpeer.trans Option.map_id'.symm)
    · have hrank : (Client.inWrite p l).rank ss + 20 = (Client.sending p l).rank ss := (rank_call p l).1
      simp only [State.rank, hstored, htaken, hsum, hk]
      omega
  · rename_i hk
    rw [hk] at hclient
    obtain ⟨hslots, hnone, hlen⟩ := hclient
    obtain ⟨v, he, rfl⟩ := Option.map_eq_some_iff.1 hs
    obtain ⟨hsole, hreader, hwriter, hlog, hown, hpeer, hsum⟩ := h.close hnone hslots he
    have hstored := stored_of_log hlog
    have htaken := taken_of_log hlog
    refine ⟨h.of_pipe (h.base he) hsole hreader (by rw [hstored]; exact h.sent) ?_ ?_, ?_⟩
    · exact ⟨hwriter, hown, by rw [hstored, hlen]⟩
    · exact h.server.keep keeps_wake (by rw [htaken]) hpeer
    · simp only [State.rank, hstored, htaken, hk, Client.rank]
      omega
  · rename_i hk
    rw [hk] at hclient
    exact hclient.elim
  · cases hs
  · cases hs

/-- The server goes on. -/
theorem Inv.serverStep (h : Inv ss s) (hs : s.step .server = some s') : Inv ss s' ∧ s'.rank ss < s.rank ss := by
  have hserver := h.server
  simp only [State.step] at hs
  split at hs
  · rename_i p l hk
    rw [hk] at hserver
    obtain ⟨hl, hadm, hbuf, hnone, hlen⟩ := hserver
    obtain ⟨v, he, rfl⟩ := Option.map_eq_some_iff.1 hs
    obtain ⟨hsole, hsl, hlog, hown, hpeer, hsum⟩ := h.call hnone he
    have hstored := stored_of_log hlog
    have htaken := taken_of_log hlog
    refine ⟨h.of_pipe (h.base he) hsole (by rw [hsl, h.reader]) (by rw [hstored]; exact h.sent) ?_ ?_, ?_⟩
    · exact h.client.keep keeps_id hsl (by rw [hstored]) (hpeer.trans Option.map_id'.symm)
    · refine ⟨hl, hadm, _, hown, ⟨rfl, fun i hi => ?_⟩, ?_⟩
      · rw [hbuf i (Nat.lt_of_lt_of_eq hi (Nat.add_zero _))]
        simp only [Loop.fill, Loop.rest]
        congr 2
        omega
      · rw [htaken, hlen]
        rfl
    · have hrank : (Server.inRead p l).rank ss + 20 = (Server.receiving p l).rank ss := (rank_call p l).2
      simp only [State.rank, hstored, htaken, hsum, hk]
      omega
  all_goals cases hs

/-- **Step lemma.** -/
theorem Inv.step (h : Inv ss s) (hf : Fits ss) (hs : s.step a = some s') : Inv ss s' ∧ s'.rank ss < s.rank ss := by
  cases a with
  | client => exact h.clientStep hs
  | server => exact h.serverStep hs
  | run id => exact h.run hf hs
  | resume id => exact h.resume hs

/-! ## The end of a run -/

/-- Nothing is left to do only when the server has the request, or has failed. -/
theorem Inv.stuck (h : Inv ss s) (hf : Fits ss) (hstuck : ∀ a, s.step a = none) :
    (∃ argc argv, s.server = .execute argc argv) ∨ s.server = .failed := by
  have hk : s.pipe.kernel = none := by
    cases hk : s.pipe.kernel with
    | none => rfl
    | some id =>
      obtain ⟨c, hc, rfl⟩ := h.outside.inside id hk
      have hstep := hstuck (.run c.id)
      simp [State.step, State.kernel, Pipe.State.step, hk, h.pipe.find_of_mem hc] at hstep
  -- a call that is awake could go on
  have hasleep : ∀ c ∈ s.pipe.calls, c.place = .asleep := fun c hc => by
    refine (h.outside.outside c hc (by simp [hk])).resolve_right fun hpl => ?_
    have hstep := hstuck (.resume c.id)
    simp [State.step, State.kernel, Pipe.State.step, hk, h.pipe.find_of_mem hc, hpl] at hstep
  have hserver := h.server
  cases hs : s.server with
  | receiving p l =>
    have hstep := hstuck .server
    simp [State.step, hs, Pipe.State.step, hk, h.reader] at hstep
  | inRead p l =>
    rw [hs] at hserver
    obtain ⟨-, -, c, hat, -, -⟩ := id hserver
    obtain ⟨hc, hstream⟩ := Pipe.State.callAt_mem hat
    have hpl := hasleep c hc
    have hempty : s.pipe.pipe.Empty := by
      have := h.waits.blocked hk hc hpl
      rwa [hstream] at this
    have hshort := hserver.short hf hat ((h.pipe.call c hc).lt (by rw [hpl]; rfl))
    have hsent := h.empty hempty
    have hclient := h.client
    exfalso
    cases hcl : s.client with
    | sending p l =>
      rw [hcl] at hclient
      have hstep := hstuck .client
      simp [State.step, hcl, Pipe.State.step, hk, hclient.2.2.1] at hstep
    | inWrite p l =>
      rw [hcl] at hclient
      obtain ⟨-, -, -, d, hdat, -, -⟩ := hclient
      obtain ⟨hd, hdstream⟩ := Pipe.State.callAt_mem hdat
      have hfull := h.waits.blocked hk hd (hasleep d hd)
      rw [hdstream] at hfull
      exact Pipe.State.not_blocked_peer h.pipe.r_lt hfull hempty
    | shutDown =>
      rw [hcl] at hclient
      have hstep := hstuck .client
      simp [State.step, hcl, Pipe.State.step, hk, hclient.1] at hstep
    | exit =>
      rw [hcl] at hclient
      exact hclient
    | closed =>
      rw [hcl] at hclient
      have := hclient.2.2
      omega
  | finish | overrun =>
    rw [hs] at hserver
    exact hserver.elim
  | failed => exact .inr rfl
  | execute argc argv => exact .inl ⟨argc, argv, rfl⟩

/-! ## From the start -/

theorem fits (hne : ss ≠ []) (hle : (packed ss).length ≤ intMax) : Fits ss :=
  ⟨(List.length_pos_iff.2 hne).trans_le (CString.length_le_packed ss), hle⟩

/-- The message that is made up. -/
theorem makeUp_eq {argv : List Ptr} (hf : Fits ss) (h : List.Forall₂ Points argv ss) (hm : makeUp argv stack = some m) :
    m = ⟨(packed ss).length, stack.write 0 (packed ss)⟩ := by
  have hmax : intMax < 2 ^ 64 := by decide
  have hle := hf.le
  have hlen : Packing.argvlen argv = some (packed ss).length := by
    rw [Packing.argvlen_refines h (by omega), Execute.argvlen_eq]
  rw [makeUp, hlen, Option.bind_some, if_pos ⟨hf.pos, hle⟩, Packing.argvpack_refines h hle, Option.map_some,
    Execute.argvpack_eq] at hm
  exact (Option.some.inj hm).symm

theorem Part.has_of_read (h : buf.read 0 (p.length ss) = ((wire ss).drop p.offset).take (p.length ss)) :
    p.Has ss buf (p.length ss) := by
  intro i hi
  have hget := congrArg (fun l => l[i]?) h
  simp only [Memory.read, List.getElem?_map, List.getElem?_range hi, List.getElem?_take_of_lt hi,
    List.getElem?_drop, Option.map_some] at hget
  rw [← hget, Nat.zero_add]

theorem init_inv {argv : List Ptr} (hf : Fits ss) (h : List.Forall₂ Points argv ss) (hs : (remote argv).init s) :
    Inv ss s ∧ s.rank ss ≤ 240 * ((packed ss).length + sizeofInt) + 40 := by
  obtain ⟨buffer, stack, m, hm, rfl⟩ := hs
  obtain rfl := makeUp_eq hf h hm
  have hread : ∀ bs : List UInt8, (stack.write 0 bs).read 0 bs.length = bs := fun bs => by
    have hread : (stack.write 0 bs).read 0 bs.length = bs ++ (stack.read 0 bs.length).drop bs.length :=
      Memory.read_write_append (Nat.le_refl bs.length)
    rwa [List.drop_eq_nil_of_le (by simp), List.append_nil] at hread
  have hargs : Part.args.Has ss (stack.write 0 (packed ss)) (packed ss).length :=
    Part.has_of_read ((hread _).trans (take_drop_wire ss .args).symm)
  have hargl : Part.argl.Has ss (stack.write 0 (leBytes sizeofInt (packed ss).length)) sizeofInt := by
    refine Part.has_of_read (p := .argl) (((?_ : _ = _)).trans (take_drop_wire ss .argl).symm)
    have := hread (leBytes sizeofInt (packed ss).length)
    rwa [length_leBytes] at this
  refine ⟨⟨Pipe.boot_inv buffer, List.forall_mem_nil _, List.forall_mem_nil _, Pipe.State.boot_outside buffer,
    List.forall_mem_nil _, rfl, List.nil_prefix, rfl, hargs, ?_, ?_⟩, ?_⟩
  · show (Client.loop ⟨(packed ss).length, stack.write 0 (packed ss)⟩ .argl
      ⟨stack.write 0 (leBytes sizeofInt (packed ss).length), sizeofInt, 0⟩).Ok ss (.boot buffer)
    exact Client.loop_ok hf rfl hargs rfl (Nat.zero_le _) hargl rfl rfl rfl
  · exact ⟨⟨rfl, Nat.zero_lt_succ 3⟩, trivial, fun i hi => absurd hi (Nat.not_lt_zero i), rfl, rfl⟩
  · show 100 * ((wire ss).length - 0 + ((wire ss).length - 0)) + ((20 * ((wire ss).length - 0) + 20) +
      (20 * ((wire ss).length - 0) + 20)) + (0 + 0) ≤ _
    rw [length_wire]
    omega

/-- The request that the server is about to execute. -/
def Server.request : Server → Option (Nat × List Ptr)
  | .execute argc argv => some (argc, argv)
  | _ => none

/-- What holds of the two programs in every state. -/
structure Correct (ss : List CString) (s : State) : Prop where
  /-- The server executes the client's arguments. -/
  request : ∀ argc argv, s.server.request = some (argc, argv) → argc = ss.length ∧ List.Forall₂ Points argv ss
  bounded : s.server.request.isSome → (packed ss).length ≤ 2048
  asserted : s.server = .failed → 2048 < (packed ss).length
  /-- No program gives up, or reads what it may not. -/
  server : s.server ≠ .finish ∧ s.server ≠ .overrun
  client : s.client ≠ .exit
  /-- When nothing is left to do, the server has come to its assertion or to `Execute`. -/
  served : (∀ a, s.step a = none) → s.server.request.isSome ∨ s.server = .failed

theorem Inv.correct (h : Inv ss s) (hf : Fits ss) : Correct ss s := by
  have hserver := h.server
  have hclient := h.client
  refine ⟨fun argc argv hreq => ?_, fun hreq => ?_, fun hs => ?_, ⟨fun hs => ?_, fun hs => ?_⟩, fun hs => ?_,
    fun hstuck => ?_⟩
  · cases hs : s.server with
    | execute argc' argv' =>
      rw [hs] at hreq hserver
      cases hreq
      exact hserver.2.2
    | _ =>
      rw [hs] at hreq
      cases hreq
  · cases hs : s.server with
    | execute argc argv =>
      rw [hs] at hserver
      exact hserver.2.1
    | _ =>
      rw [hs] at hreq
      cases hreq
  · rw [hs] at hserver
    exact hserver.2
  · rw [hs] at hserver
    exact hserver
  · rw [hs] at hserver
    exact hserver
  · rw [hs] at hclient
    exact hclient
  · obtain ⟨argc, argv, hs⟩ | hs := h.stuck hf hstuck
    · exact .inl (by rw [hs]; rfl)
    · exact .inr hs

/-- **Run lemma.** Each step leaves less to do. -/
theorem Inv.run_le (h : Inv ss s) (hf : Fits ss) {argv : List Ptr} {as : List Action}
    (hr : (remote argv).run s as = some s') : Inv ss s' ∧ s'.rank ss + as.length ≤ s.rank ss := by
  induction as generalizing s with
  | nil =>
    cases hr
    exact ⟨h, Nat.le_refl _⟩
  | cons a as ih =>
    obtain ⟨t, ht, hr⟩ := Lts.run_cons hr
    obtain ⟨hinv, hlt⟩ := h.step hf ht
    obtain ⟨hinv', hle⟩ := ih hinv hr
    refine ⟨hinv', ?_⟩
    rw [List.length_cons]
    omega

/-- **A remote command gets through.** A run comes to its end after so many steps, and then the server has the
client's arguments, or more of them than it asserts. -/
theorem request_served {argv : List Ptr} (h : List.Forall₂ Points argv ss) (hne : ss ≠ [])
    (hle : (packed ss).length ≤ intMax) {as : List Action} (hs : (remote argv).init s)
    (hr : (remote argv).run s as = some s') :
    as.length ≤ 240 * ((packed ss).length + sizeofInt) + 40 ∧ Correct ss s' := by
  have hf := fits hne hle
  obtain ⟨hinv, hrank⟩ := init_inv hf h hs
  obtain ⟨hinv', hsteps⟩ := hinv.run_le hf hr
  exact ⟨by omega, hinv'.correct hf⟩

/-- The server comes first, and waits for both parts of the message; the argument is "a". -/
theorem request_served_argA : ∃ s s' as, (remote [[97, 0]]).init s ∧ (remote [[97, 0]]).run s as = some s' ∧
    s'.server.request = some (1, [[97, 0]]) ∧ as.length ≤ 240 * ((packed [Execute.argA]).length + sizeofInt) + 40 ∧
    Correct [Execute.argA] s' := by
  have hrun : ((makeUp [[97, 0]] fun _ => 0).bind fun m =>
      ((remote [[97, 0]]).run (.boot (fun _ => 0) (fun _ => 0) m) (.server :: .replicate 3 (.run 0) ++
        .client :: .replicate 10 (.run 1) ++ .resume 0 :: .replicate 8 (.run 0) ++ .server :: .replicate 3 (.run 2) ++
        .client :: .replicate 6 (.run 3) ++ .resume 2 :: .replicate 4 (.run 2))).bind fun s' => s'.server.request) =
      some (1, [[97, 0]]) := by
    decide +kernel
  obtain ⟨m, hm, hrun⟩ := Option.bind_eq_some_iff.1 hrun
  obtain ⟨s', hs', hreq⟩ := Option.bind_eq_some_iff.1 hrun
  have hinit : (remote [[97, 0]]).init (.boot (fun _ => 0) (fun _ => 0) m) := ⟨_, _, m, hm, rfl⟩
  exact ⟨_, s', _, hinit, hs', hreq, request_served (.cons ⟨[], rfl⟩ .nil) (by decide) (by decide) hinit hs'⟩

end TinyOS.Remote
