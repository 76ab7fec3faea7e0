import TinyOS.Connection.Model
import TinyOS.Lib.Bytes
import TinyOS.Pipe.Calls
import TinyOS.Proc.Info

/-!
# Read methods

The `Read` method of each kind of stream: `nulldev_read`, `serial_read`, `pipe_read`, `socket_read` and `procinfo_read`,
from any state of the stream. While a call is asleep the others make of the pipe what they like, and the terminal gives a
byte or none whenever it is asked. A call of `pipe_read` goes through the steps of `TinyOS.Pipe`.

- `step_inv`: what a call keeps, as long as it has not returned a record of an info stream;
- `read_fits_iff`: a call stays inside its buffer unless it returns a record of an info stream to a buffer that is too
  small for it.
-/

namespace TinyOS.Reads

open Pipe (PipeCB Call)
open Sockets (Scb)
open Proc (PidState Procinfo ProcinfoCb)
open Streams (maxProc)

/-! ## Streams -/

/-- The object of a stream, with what its `Read` method uses. -/
inductive Stream
  | null
  | serial
  | pipe (p : PipeCB)
  /-- An SCB that reads as its type says, and the pipe that `read_pipe` names, if any. -/
  | socket (y : Scb) (typed : (Connection.State.socketPipe y .reader).isSome) (p : PipeCB)
  | info (table : Proc.State) (cb : ProcinfoCb)

/-- The memory from the address `buf` on. -/
abbrev Memory := Int → UInt8

/-- `memset(buf, 0, size)`. -/
def clear (size : BitVec 32) (buf : Memory) : Memory := fun i => if 0 ≤ i ∧ i < size.toNat then 0 else buf i

/-- `memcpy` of these bytes to `buf`. -/
def copy (bytes : List UInt8) (buf : Memory) : Memory := fun i =>
  if 0 ≤ i then (bytes[i.toNat]?).getD (buf i) else buf i

/-- `sizeof(procinfo)`. -/
def sizeofProcinfo : Nat := 168

/-- The bytes of a record; those between `alive` and `thread_count`, and after `args`, belong to no field. -/
def bytesOf (r : Procinfo) (gap₁ gap₂ : Fin 4 → UInt8) : List UInt8 :=
  leBytes 4 (BitVec.ofInt 32 r.pid).toNat ++ leBytes 4 (BitVec.ofInt 32 r.ppid).toNat ++
  leBytes 4 (BitVec.ofInt 32 r.alive).toNat ++ List.ofFn gap₁ ++ leBytes 8 r.threadCount.toNat ++
  leBytes 8 (r.mainTask.getD 0) ++ leBytes 4 (BitVec.ofInt 32 r.argl).toNat ++ List.ofFn r.args ++ List.ofFn gap₂

theorem length_bytesOf (r : Procinfo) (gap₁ gap₂ : Fin 4 → UInt8) : (bytesOf r gap₁ gap₂).length = sizeofProcinfo := by
  simp only [bytesOf, List.length_append, length_leBytes, List.length_ofFn]
  rfl

/-! ## Calls -/

/-- A call of a `Read` method, with the caller's memory. -/
inductive Reading
  | entry (st : Stream) (buf : Memory)
  /-- In the loop of `serial_read`, or asleep in it. -/
  | serial (count : BitVec 32) (asleep : Bool) (buf : Memory)
  /-- In `pipe_read`, on the pipe as it is now. -/
  | pipe (p : PipeCB) (c : Call)
  | returned (result : Int) (buf : Memory)
  /-- After a step that C leaves undefined. -/
  | undefined

inductive Action
  /-- The call goes on. -/
  | run
  /-- `bios_read_serial` gets this byte from the terminal, or none. -/
  | poll (x : Option UInt8)
  /-- The call goes on after its `kernel_wait`; the others have left the pipe so. -/
  | wake (p : PipeCB)
  /-- `procinfo_read`, with these bytes in the gaps of the record. -/
  | record (gap₁ gap₂ : Fin 4 → UInt8)

/-- Pipe `p` with this call of `pipe_read` in the kernel. -/
def pipeState (p : PipeCB) (c : Call) : Pipe.State where
  pipe := p
  freed := false
  slots := fun _ => 1
  refcount := fun _ => 2
  calls := [c]
  kernel := some c.id
  started := c.id + 1
  stored := []
  taken := []
  returns := []

/-- What has become of the call. -/
def ofPipe (v : Pipe.State) : Reading :=
  match v.returns, v.calls with
  | r :: _, _ => .returned r.result r.buf
  | [], c :: _ => .pipe v.pipe c
  | [], [] => .undefined

/-- The call of `pipe_read`. -/
def enterPipe (p : PipeCB) (size : BitVec 32) (buf : Memory) : Reading := .pipe p ⟨0, .reader, .entry, size, buf, 0, 0⟩

/-- `procinfo_read`, for a `buf` that is not `NULL`. -/
def ofInfo (table : Proc.State) (cb : ProcinfoCb) (gap₁ gap₂ : Fin 4 → UInt8) (buf : Memory) : Reading :=
  match table.procinfoRead false cb with
  | none => .undefined
  | some (none, _) => .returned (-1) buf
  | some (some r, _) => .returned sizeofProcinfo (copy (bytesOf r gap₁ gap₂) buf)

def step (size : BitVec 32) (x : Reading) (a : Action) : Option Reading :=
  match x, a with
  | .entry .null buf, .run => some (.returned size.toInt (clear size buf))
  | .entry .serial buf, .run => some (.serial 0 false buf)
  | .serial count false buf, .run => if count < size then none else some (.returned count.toInt buf)
  | .serial count false buf, .poll x =>
    if count < size then
      match x with
      | some x => some (.serial (count + 1) false (Function.update buf count.toNat x))
      | none => if count = 0 then some (.serial count true buf) else some (.returned count.toInt buf)
    else none
  | .serial count true buf, .run => some (.serial count false buf)
  | .entry (.pipe p) buf, .run => some (enterPipe p size buf)
  | .entry (.socket y h p) buf, .run =>
    match (Connection.State.socketPipe y .reader).get h with
    | none => some (.returned (-1) buf)
    | some _ => some (enterPipe p size buf)
  | .pipe p c, .run => if c.place = .asleep then none else some (ofPipe ((pipeState p c).pipeRead c))
  | .pipe _ c, .wake p => if c.place = .asleep then some (.pipe p { c with place := .inner }) else none
  | .entry (.info table cb) buf, .record gap₁ gap₂ => some (ofInfo table cb gap₁ gap₂ buf)
  | _, _ => none

/-- The calls on `st`. -/
def system (st : Stream) (size : BitVec 32) (buf : Memory) : Lts Reading Action where
  init x := x = .entry st buf
  step := step size

/-! ## Staying inside the buffer -/

variable {size : BitVec 32} {buf b : Memory} {p : PipeCB} {c : Call}

/-- Only bytes of `buf` below index `size` have changed. -/
def Frame (size : BitVec 32) (buf b : Memory) : Prop := ∀ i, i < 0 ∨ size.toNat ≤ i → b i = buf i

/-- `-1`, or at most `size`. -/
def Within (size : BitVec 32) (result : Int) : Prop := result = -1 ∨ 0 ≤ result ∧ result ≤ size.toNat

/-- The call has stayed inside its buffer, and returns no more than the size of it. -/
def Reading.Fits (size : BitVec 32) (buf : Memory) : Reading → Prop
  | .entry _ b | .serial _ _ b => Frame size buf b
  | .pipe _ c => Frame size buf c.buf
  | .returned result b => Within size result ∧ Frame size buf b
  | .undefined => False

theorem frame_clear (size : BitVec 32) (buf : Memory) : Frame size buf (clear size buf) := by
  intro i hi
  exact if_neg (by omega)

theorem frame_copy {bytes : List UInt8} (h : bytes.length ≤ size.toNat) (buf : Memory) :
    Frame size buf (copy bytes buf) := by
  intro i hi
  unfold copy
  split
  · rw [List.getElem?_eq_none (by omega), Option.getD_none]
  · rfl

theorem Frame.update (h : Frame size buf b) {i : Nat} (hi : i < size.toNat) (x : UInt8) :
    Frame size buf (Function.update b i x) := by
  intro j hj
  rw [Function.update_of_ne (by omega)]
  exact h j hj

theorem toInt_of_le {n : BitVec 32} (hsize : size.toNat < 2 ^ 31) (h : n.toNat ≤ size.toNat) : n.toInt = n.toNat :=
  BitVec.toInt_eq_toNat_of_lt (by omega)

theorem within_of_le {n : BitVec 32} (hsize : size.toNat < 2 ^ 31) (h : n.toNat ≤ size.toNat) : Within size n.toInt := by
  rw [toInt_of_le hsize h]
  exact .inr ⟨Int.natCast_nonneg _, Int.ofNat_le.2 h⟩

theorem toNat_succ {n : BitVec 32} (h : n < size) : (n + 1).toNat = n.toNat + 1 := by
  have := BitVec.lt_def.1 h
  rw [BitVec.toNat_add]
  exact Nat.mod_eq_of_lt (by have := size.isLt; simp; omega)

/-! ## `pipe_read` -/

theorem ofPipe_leave (p : PipeCB) (c : Call) (result : Int) :
    ofPipe ((pipeState p c).leave c result) = .returned result c.buf := by
  simp [pipeState, Pipe.State.leave, Pipe.State.fcbDecref, ofPipe]

theorem ofPipe_finish (p : PipeCB) (c : Call) :
    ofPipe ((pipeState p c).finish c) = .returned c.bytes.toInt c.buf := by
  simp [pipeState, Pipe.State.finish, Pipe.State.broadcast, Pipe.State.leave, Pipe.State.fcbDecref, ofPipe]

theorem ofPipe_setCall (p : PipeCB) (c : Call) (d : Call) (hd : d.id = c.id) :
    ofPipe ((pipeState p c).setCall d) = .pipe p d := by
  simp [pipeState, Pipe.State.setCall, ofPipe, hd]

theorem ofPipe_take (p : PipeCB) (c : Call) :
    ofPipe ((pipeState p c).take c) = .pipe p.advance
      { c with
        place := .loop
        buf := Function.update c.buf c.index.toInt p.front
        bytes := c.bytes + 1
        index := c.index + 1 } := by
  simp [pipeState, Pipe.State.take, Pipe.State.setCall, ofPipe]

theorem ofPipe_wait (p : PipeCB) (c : Call) :
    ofPipe (((pipeState p c).broadcast .writer).kernelWait c) =
      .pipe p { c with place := .asleep } := by
  by_cases h : c.stream = .writer ∧ c.place = .asleep <;>
    simp [pipeState, Pipe.State.broadcast, Pipe.State.kernelWait, Pipe.State.setCall, ofPipe, h]

/-- The call of `pipe_read`: it has stored as many bytes as it says, at the first indices. -/
structure PipeInv (size : BitVec 32) (buf : Memory) (c : Call) : Prop where
  stream : c.stream = .reader
  n : c.n = size
  bytes : c.bytes = c.index
  index_le : c.index.toNat ≤ size.toNat
  index_lt : c.place = .inner ∨ c.place = .asleep → c.index < size
  frame : Frame size buf c.buf

/-- What a call in `pipe_read` has come to. -/
def PipeGoes (size : BitVec 32) (buf : Memory) (x : Reading) : Prop :=
  (∃ p c, x = .pipe p c ∧ PipeInv size buf c) ∨
  (∃ result b, x = .returned result b ∧ Within size result ∧ Frame size buf b)

/-- The step lemma of `pipe_read`. -/
theorem pipeRead_goes (hsize : size.toNat < 2 ^ 31) (h : PipeInv size buf c) (p : PipeCB) :
    PipeGoes size buf (ofPipe ((pipeState p c).pipeRead c)) := by
  have hgoes := Pipe.State.pipeRead_goes (s := pipeState p c) h.stream
  generalize (pipeState p c).pipeRead c = v at hgoes ⊢
  cases hgoes with
  | goto pl hpl =>
    refine .inl ⟨p, _, ofPipe_setCall p c _ rfl, { h with index_lt := fun hp => ?_ }⟩
    rcases hpl with ⟨-, rfl⟩ | ⟨-, rfl, hlt⟩
    · simp at hp
    · exact h.n ▸ hlt
  | fail _ _ => exact .inr ⟨-1, c.buf, ofPipe_leave p c (-1), .inl rfl, h.frame⟩
  | wait hpl _ _ =>
    have hwait := ofPipe_wait p c
    rw [show Pipe.End.writer = Pipe.State.peer c.stream by rw [h.stream]; rfl] at hwait
    exact .inl ⟨p, _, hwait, { h with index_lt := fun _ => h.index_lt (.inl hpl) }⟩
  | finish _ =>
    refine .inr ⟨c.bytes.toInt, c.buf, ofPipe_finish p c, ?_, h.frame⟩
    rw [h.bytes]
    exact within_of_le hsize h.index_le
  | store hs _ _ =>
    rw [h.stream] at hs
    cases hs
  | take _ hpl _ =>
    have hlt := h.index_lt (.inl hpl)
    have hle := BitVec.lt_def.1 hlt
    refine .inl ⟨_, _, ofPipe_take p c, { h with
      bytes := by rw [h.bytes]
      index_le := by rw [toNat_succ hlt]; exact hle
      index_lt := fun hp => by simp at hp
      frame := ?_ }⟩
    rw [toInt_of_le hsize h.index_le]
    exact h.frame.update hle _
  | stay _ => exact .inl ⟨p, c, rfl, h⟩

/-! ## All streams -/

/-- If the call is to return a record of an info stream, the buffer holds one, and the arguments fit in it. -/
def Stream.Suits (size : BitVec 32) : Stream → Prop
  | .info table cb => ∀ q, table.FirstInUse cb.ptCursor q → sizeofProcinfo ≤ size.toNat ∧ table.ArgsFitIn q
  | _ => True

def Inv (st : Stream) (size : BitVec 32) (buf : Memory) : Reading → Prop
  | .entry st' b => st' = st ∧ b = buf
  | .serial count _ b => count.toNat ≤ size.toNat ∧ Frame size buf b
  | .pipe _ c => PipeInv size buf c
  | .returned result b => Within size result ∧ Frame size buf b
  | .undefined => False

variable {st : Stream} {x y : Reading} {a : Action}

theorem inv_of_pipeGoes (h : PipeGoes size buf x) : Inv st size buf x := by
  rcases h with ⟨p, c, rfl, h⟩ | ⟨result, b, rfl, h⟩
  · exact h
  · exact h

theorem enterPipe_inv (st : Stream) (p : PipeCB) (size : BitVec 32) (buf : Memory) :
    Inv st size buf (enterPipe p size buf) where
  stream := rfl
  n := rfl
  bytes := rfl
  index_le := Nat.zero_le _
  index_lt := fun h => by simp at h
  frame := fun _ _ => rfl

/-- A read of an info stream returns a record if the arguments of the PCB it finds fit in it. -/
theorem ofInfo_of_fit {table : Proc.State} {cb : ProcinfoCb} {q : Proc.Pid} (hlt : cb.ptCursor < maxProc)
    (hq : table.skipFree ⟨cb.ptCursor, hlt⟩ = some q) (hfirst : table.FirstInUse cb.ptCursor q)
    (hfit : table.ArgsFitIn q) (gap₁ gap₂ : Fin 4 → UInt8) (buf : Memory) :
    ∃ r, ofInfo table cb gap₁ gap₂ buf = .returned sizeofProcinfo (copy (bytesOf r gap₁ gap₂) buf) := by
  obtain ⟨r, hr, -⟩ := Proc.State.procinfoRead_of_skipFree hfit hlt hq hfirst.2.1
  exact ⟨r, by simp only [ofInfo, hr]⟩

/-- A read of an info stream that stays inside its buffer. -/
theorem ofInfo_inv {table : Proc.State} {cb : ProcinfoCb} (hsuits : (Stream.info table cb).Suits size)
    (gap₁ gap₂ : Fin 4 → UInt8) : Inv st size buf (ofInfo table cb gap₁ gap₂ buf) := by
  rcases table.skipFree_cases cb with ⟨-, cb', hr⟩ | ⟨hlt, q, hq, hfirst⟩
  · rw [ofInfo, hr]
    exact ⟨.inl rfl, fun _ _ => rfl⟩
  · obtain ⟨hle, hfit⟩ := hsuits q hfirst
    obtain ⟨r, hr⟩ := ofInfo_of_fit hlt hq hfirst hfit gap₁ gap₂ buf
    rw [hr]
    refine ⟨.inr ⟨Int.natCast_nonneg _, Int.ofNat_le.2 hle⟩, frame_copy ?_ buf⟩
    rw [length_bytesOf]
    exact hle

/-- One that does not: it returns more than `size`, or overruns `args` of the record. -/
theorem ofInfo_not_fits {table : Proc.State} {cb : ProcinfoCb} (hnot : ¬(Stream.info table cb).Suits size)
    (gap₁ gap₂ : Fin 4 → UInt8) : ¬(ofInfo table cb gap₁ gap₂ buf).Fits size buf := by
  simp only [Stream.Suits] at hnot
  push Not at hnot
  obtain ⟨p, hp, hnot⟩ := hnot
  rcases table.skipFree_cases cb with ⟨hrest, -⟩ | ⟨hlt, q, hq, hfirst⟩
  · exact absurd hp.2.1 (hrest p hp.1)
  · rw [hp.unique hfirst] at hnot
    by_cases hfit : table.ArgsFitIn q
    · obtain ⟨r, hr⟩ := ofInfo_of_fit hlt hq hfirst hfit gap₁ gap₂ buf
      have hsize : ¬sizeofProcinfo ≤ size.toNat := fun hle => hnot hle hfit
      rw [hr]
      rintro ⟨hres, -⟩
      unfold Within at hres
      omega
    · rw [ofInfo, Proc.State.procinfoRead_undefined hfit hlt hq]
      exact not_false

theorem exists_not_fits {table : Proc.State} {cb : ProcinfoCb} (hnot : ¬(Stream.info table cb).Suits size) :
    ∃ x, (system (.info table cb) size buf).Reaches x ∧ ¬x.Fits size buf :=
  ⟨_, (Lts.Reaches.init rfl).step (a := .record (fun _ => 0) fun _ => 0) rfl, ofInfo_not_fits hnot _ _⟩

/-- The step lemma. -/
theorem step_inv (hsize : size.toNat < 2 ^ 31) (hsuits : st.Suits size) (hinv : Inv st size buf x)
    (hs : step size x a = some y) : Inv st size buf y := by
  unfold step at hs
  split at hs
  · -- the null device
    cases hs
    obtain ⟨-, rfl⟩ := hinv
    exact ⟨within_of_le hsize (le_refl _), frame_clear size _⟩
  · cases hs
    obtain ⟨-, rfl⟩ := hinv
    exact ⟨Nat.zero_le _, fun _ _ => rfl⟩
  · split at hs
    · cases hs
    · cases hs
      exact ⟨within_of_le hsize hinv.1, hinv.2⟩
  · -- `bios_read_serial`
    split at hs
    · rename_i hlt
      have hlt' := BitVec.lt_def.1 hlt
      split at hs
      · cases hs
        refine ⟨?_, hinv.2.update hlt' _⟩
        rw [toNat_succ hlt]
        exact hlt'
      · split at hs
        · cases hs
          exact hinv
        · cases hs
          exact ⟨within_of_le hsize hinv.1, hinv.2⟩
    · cases hs
  · cases hs
    exact hinv
  · cases hs
    obtain ⟨-, rfl⟩ := hinv
    exact enterPipe_inv st _ size _
  · obtain ⟨-, rfl⟩ := hinv
    split at hs
    · cases hs
      exact ⟨.inl rfl, fun _ _ => rfl⟩
    · cases hs
      exact enterPipe_inv st _ size _
  · split at hs
    · cases hs
    · cases hs
      exact inv_of_pipeGoes (pipeRead_goes hsize hinv _)
  · split at hs
    · rename_i hasleep
      cases hs
      have hpipe : PipeInv size buf _ := hinv
      have hlt := hpipe.index_lt (.inr hasleep)
      exact { hpipe with index_lt := fun _ => hlt }
    · cases hs
  · cases hs
    obtain ⟨rfl, rfl⟩ := hinv
    exact ofInfo_inv hsuits _ _
  · cases hs

theorem Inv.fits (h : Inv st size buf x) : x.Fits size buf := by
  cases x with
  | entry st' b => exact fun i _ => congrFun h.2 i
  | serial count asleep b => exact h.2
  | pipe p c => exact PipeInv.frame h
  | returned result b => exact h
  | undefined => exact h

/-- Every call on `st` stays inside its buffer, and returns `-1` or at most `size`, exactly when `st` suits `size`. -/
theorem read_fits_iff (st : Stream) (size : BitVec 32) (hsize : size.toNat < 2 ^ 31) (buf : Memory) :
    (∀ x, (system st size buf).Reaches x → x.Fits size buf) ↔ st.Suits size := by
  constructor
  · intro hall
    cases st with
    | info table cb =>
      by_contra hnot
      obtain ⟨x, hx, hfits⟩ : ∃ x, (system (.info table cb) size buf).Reaches x ∧ ¬x.Fits size buf :=
        exists_not_fits hnot
      exact hfits (hall x hx)
    | _ => trivial
  · intro hsuits x hx
    have hinv : Inv st size buf x := by
      refine hx.invariant (I := Inv st size buf) (fun y hy => ?_) fun y a z hy hz => step_inv hsize hsuits hy hz
      rw [show y = .entry st buf from hy]
      exact ⟨rfl, rfl⟩
    exact hinv.fits

/-- The info stream that has just been opened, on a table of processes without arguments. -/
def freshInfo : Stream := .info (Proc.State.tableOf fun _ => .alive) (Proc.openInfo Proc.State.noRecord)

/-- A buffer for one record. -/
theorem read_fits_iff_record : freshInfo.Suits 168 ∧
    ∀ x, (system freshInfo 168 fun _ => 0).Reaches x → x.Fits 168 fun _ => 0 := by
  have hsuits : freshInfo.Suits 168 := fun q hq => ⟨by decide, Proc.State.tableOf_argsFit _ q hq.2.1⟩
  exact ⟨hsuits, (read_fits_iff freshInfo 168 (by decide) fun _ => 0).2 hsuits⟩

/-- A buffer of four bytes. -/
theorem record_overruns : ¬∀ x, (system freshInfo 4 fun _ => 0).Reaches x → x.Fits 4 fun _ => 0 := by
  have hfirst : (Proc.State.tableOf fun _ => .alive).FirstInUse 0 ⟨0, by decide⟩ :=
    ⟨le_refl 0, PidState.noConfusion, fun u _ hu => absurd hu (Nat.not_lt_zero _)⟩
  have hnot : ¬freshInfo.Suits 4 := fun hsuits => absurd (hsuits _ hfirst).1 (by decide)
  obtain ⟨x, hx, hfits⟩ := exists_not_fits hnot
  exact fun hall => hfits (hall x hx)

end TinyOS.Reads
