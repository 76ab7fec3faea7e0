import TinyOS.Lib.Bytes
import TinyOS.Proc.Info
import TinyOS.Sockets.Model
import TinyOS.Streams.Closing

/-!
# The lookup of a socket

`findSCB` returns the object of any stream as an `SCB*`. The four calls that use it are modelled here on the memory of that
object, up to where they wait or go on with what one of its pointers points to. A pointer takes eight bytes.

- `read_type`: each of them first reads the type of the `SCB`, whatever the object is;
- `accept_pipe`: to `sys_Accept` a pipe is a listener, and loses its reader;
- `listen_socket`, `accept_socket`, `connect_socket`, `shutDown_socket`: on a socket they return what the calls of
  `TinyOS.Sockets` do;
- `socket_calls_iff`: they leave other streams alone exactly if these have no object.
-/

namespace TinyOS.Lookup

open Proc (Pid)
open Streams (FileOps FcbPtr)
open Streams.View (maxPort)
open Sockets (SocketType Variant Scb)
open Sockets.State (ShutdownMode)

/-! ## Objects -/

/-- `CondVar`. -/
structure CondVar where
  waitset : BitVec 64
  waitsetLock : UInt8

/-- `COND_INIT`. -/
def CondVar.init : CondVar := ⟨0, 0⟩

/-- `serial_dcb_t`. -/
structure SerialDcb where
  devno : BitVec 32
  spinlock : UInt8
  rxReady : CondVar

/-- `Pipe_CB` up to its positions. -/
structure PipeCb where
  reader : BitVec 64
  writer : BitVec 64
  hasSpace : CondVar
  hasData : CondVar

/-- A condition variable at `off`; the bytes after its lock keep what is in them. -/
def storeCondVar (m : Memory) (off : Nat) (c : CondVar) : Memory :=
  (m.store off 8 c.waitset.toNat).write (off + 8) [c.waitsetLock]

/-- The object of a stream of each kind, in memory that holds `junk` everywhere else. -/
inductive Object : FileOps → Type
  | null : Object .null
  | serial (dcb : SerialDcb) (junk : Memory) : Object .serial
  | reader (cb : PipeCb) (junk : Memory) : Object .pipeReader
  | writer (cb : PipeCb) (junk : Memory) : Object .pipeWriter
  | socket (scb : Memory) : Object .socket
  | info (cb : Proc.ProcinfoCb) (junk : Memory) : Object .procInfo

def serialMemory (dcb : SerialDcb) (junk : Memory) : Memory :=
  storeCondVar ((junk.store 0 4 dcb.devno.toNat).write 4 [dcb.spinlock]) 8 dcb.rxReady

def pipeMemory (cb : PipeCb) (junk : Memory) : Memory :=
  storeCondVar (storeCondVar ((junk.store 0 8 cb.reader.toNat).store 8 8 cb.writer.toNat) 16 cb.hasSpace) 32 cb.hasData

def infoMemory (cb : Proc.ProcinfoCb) (junk : Memory) : Memory :=
  let r := cb.processInfo
  (((((((junk.store 0 4 (BitVec.ofInt 32 r.pid).toNat).store 4 4 (BitVec.ofInt 32 r.ppid).toNat).store 8 4
    (BitVec.ofInt 32 r.alive).toNat).store 16 8 r.threadCount.toNat).store 24 8 (r.mainTask.getD 0)).store 32 4
    (BitVec.ofInt 32 r.argl).toNat).write 36 (List.ofFn r.args)).store 168 4 cb.ptCursor

/-- What is at the address `streamobj`; `none` if that is `NULL`. -/
def Object.memory : {ops : FileOps} → Object ops → Option Memory
  | _, .null => none
  | _, .serial dcb junk => some (serialMemory dcb junk)
  | _, .reader cb junk => some (pipeMemory cb junk)
  | _, .writer cb junk => some (pipeMemory cb junk)
  | _, .socket scb => some scb
  | _, .info cb junk => some (infoMemory cb junk)

/-- The null device is the only one without an object. -/
theorem memory_eq_none {ops : FileOps} (o : Object ops) : o.memory = none ↔ ops = .null := by
  cases o <;> simp [Object.memory]

/-! ## Fields of an `SCB` -/

inductive Field
  | refcount
  | type
  | port
  /-- `listener_s.queue.obj`, and the pointers of the list. -/
  | queueObj
  | queuePrev
  | queueNext
  /-- `listener_s.req_available`. -/
  | waitset
  | waitsetLock
  /-- `peer_s`. -/
  | writePipe
  | readPipe
  deriving DecidableEq, Repr

namespace Field

def offset : Field → Nat
  | .refcount => 0
  | .type => 16
  | .port => 20
  | .queueObj => 24
  | .queuePrev | .writePipe => 32
  | .queueNext | .readPipe => 40
  | .waitset => 48
  | .waitsetLock => 56

def size : Field → Nat
  | .refcount | .type => 4
  | .port => 2
  | .waitsetLock => 1
  | _ => 8

end Field

inductive Access
  | read (f : Field)
  | write (f : Field)
  deriving DecidableEq, Repr

def get (m : Memory) (f : Field) : Nat := m.load f.offset f.size

def put (m : Memory) (f : Field) (x : Nat) : Memory := m.store f.offset f.size x

theorem get_put (m : Memory) (f : Field) (x : Nat) : get (put m f x) f = x % 256 ^ f.size := Memory.load_store ..

/-- The numbers of the constants of `socket_type`. -/
def code : SocketType → Nat
  | .listener => 0
  | .unbound => 1
  | .peer => 2

/-- `port_t`. -/
def portOf (m : Memory) : Int := (BitVec.ofNat 16 (get m .port)).toInt

/-! ## Calls -/

inductive Outcome
  | returns (value : Int)
  /-- `Port_Map` has no element with this index. -/
  | outside
  /-- In the `kernel_wait` of `sys_Accept`, or the `kernel_timedwait` of `sys_Connect`. -/
  | waits
  /-- It goes on with what a pointer of the object points to. -/
  | follows
  deriving DecidableEq, Repr

/-- How a call has used an object so far, and the object after. -/
structure Result where
  accesses : List Access
  object : Option Memory
  outcome : Outcome

/-- The address of the object, and `Port_Map` with the type that is read at each pointer of it. -/
structure Env where
  address : Nat
  portMap : Nat → Option Nat

/-- `Port_Map[port]`; `none` if there is no such element. -/
def Env.portSlot (e : Env) (port : Int) : Option (Option Nat) :=
  if 0 ≤ port ∧ port < maxPort then some (e.portMap port.toNat) else none

def sysListen (e : Env) (m : Memory) : Result :=
  if get m .type ≠ code .unbound then ⟨[.read .type], some m, .returns (-1)⟩
  else if portOf m < 1 ∨ portOf m > maxPort then ⟨[.read .type, .read .port], some m, .returns (-1)⟩
  else
    match e.portSlot (portOf m) with
    | none => ⟨[.read .type, .read .port], some m, .outside⟩
    | some (some _) => ⟨[.read .type, .read .port], some m, .returns (-1)⟩
    | some none =>
      let m := put m .type (code .listener)
      let m := put (put m .waitset 0) .waitsetLock 0
      let m := put (put (put m .queueObj 0) .queuePrev (e.address + 24)) .queueNext (e.address + 24)
      ⟨[.read .type, .read .port, .write .type, .write .waitset, .write .waitsetLock, .write .queueObj, .write .queuePrev,
        .write .queueNext], some m, .returns 0⟩

/-- `is_rlist_empty(&scb->listener_s.queue)`. -/
def queueEmpty (e : Env) (m : Memory) : Bool := get m .queueNext = e.address + 24

/-- `refcount++` on what may be part of a pointer: it wraps. -/
def sysAccept (e : Env) (m : Memory) : Result :=
  if get m .type ≠ code .listener then ⟨[.read .type], some m, .returns (-1)⟩
  else
    let m := put m .refcount (get m .refcount + 1)
    let accesses : List Access := [.read .type, .read .refcount, .write .refcount, .read .queueNext, .read .port]
    match e.portSlot (portOf m) with
    | none => ⟨accesses, some m, .outside⟩
    | some none => ⟨accesses, some m, .returns (-1)⟩
    | some (some _) =>
      if queueEmpty e m then ⟨accesses ++ [.read .waitset], some m, .waits⟩ else ⟨accesses, some m, .follows⟩

def sysConnect (e : Env) (port : Int) (m : Memory) : Result :=
  if get m .type ≠ code .unbound ∨ port > maxPort ∨ port < 1 then ⟨[.read .type], some m, .returns (-1)⟩
  else
    match e.portSlot port with
    | none => ⟨[.read .type], some m, .outside⟩
    | some none => ⟨[.read .type], some m, .returns (-1)⟩
    | some (some type) =>
      if type ≠ code .listener then ⟨[.read .type], some m, .returns (-1)⟩
      else ⟨[.read .type, .read .refcount, .write .refcount], some (put m .refcount (get m .refcount + 1)), .waits⟩

def sysShutDown (how : ShutdownMode) (m : Memory) : Result :=
  if get m .type ≠ code .peer then ⟨[.read .type], some m, .returns (-1)⟩
  else
    match how with
    | .read | .both => ⟨[.read .type, .read .readPipe], some m, .follows⟩
    | .write => ⟨[.read .type, .read .writePipe], some m, .follows⟩
    | .other => ⟨[.read .type], some m, .returns (-1)⟩

inductive Call
  | listen
  | accept
  | connect (port : Int)
  | shutDown (how : ShutdownMode)
  deriving DecidableEq, Repr

/-- The call with what `findSCB` gives. -/
def Call.run (e : Env) : Option Memory → Call → Result
  | none, _ => ⟨[], none, .returns (-1)⟩
  | some m, .listen => sysListen e m
  | some m, .accept => sysAccept e m
  | some m, .connect port => sysConnect e port m
  | some m, .shutDown how => sysShutDown how m

variable {e : Env} {m : Memory}

/-- A call that gets an object reads its type. -/
theorem read_type (e : Env) (m : Memory) (c : Call) : ∃ l, (c.run e (some m)).accesses = .read .type :: l := by
  cases c with
  | listen =>
    simp only [Call.run, sysListen]
    split
    · exact ⟨_, rfl⟩
    · split
      · exact ⟨_, rfl⟩
      · split <;> exact ⟨_, rfl⟩
  | accept =>
    simp only [Call.run, sysAccept]
    split
    · exact ⟨_, rfl⟩
    · split
      · exact ⟨_, rfl⟩
      · exact ⟨_, rfl⟩
      · split <;> exact ⟨_, rfl⟩
  | connect port =>
    simp only [Call.run, sysConnect]
    split
    · exact ⟨_, rfl⟩
    · split
      · exact ⟨_, rfl⟩
      · exact ⟨_, rfl⟩
      · split <;> exact ⟨_, rfl⟩
  | shutDown how =>
    simp only [Call.run, sysShutDown]
    split
    · exact ⟨_, rfl⟩
    · cases how <;> exact ⟨_, rfl⟩

/-! ## A pipe as a listener -/

theorem load_storeCondVar_outside {c : CondVar} {off off' n : Nat} (h : off' + n ≤ off) :
    (storeCondVar m off c).load off' n = m.load off' n := by
  rw [storeCondVar, Memory.load_write_outside (by omega), Memory.load_store_outside (by omega)]

variable {cb : PipeCb} {junk : Memory}

/-- The waitset of `has_space` is where an `SCB` has its type and its port, 16 bits between them and the next field. -/
theorem load_waitset {off n : Nat} (h : off + n ≤ 8) :
    (pipeMemory cb junk).load (16 + off) n = cb.hasSpace.waitset.toNat / 256 ^ off % 256 ^ n := by
  rw [pipeMemory, load_storeCondVar_outside (by omega), storeCondVar, Memory.load_write_outside (by simp; omega),
    Memory.load_store_inside _ _ _ h]

/-- The low half of `reader` is where an `SCB` has its `refcount`. -/
theorem get_refcount_pipe : get (pipeMemory cb junk) .refcount = cb.reader.toNat % 256 ^ 4 := by
  have hin := Memory.load_store_inside junk 0 cb.reader.toNat (show 0 + 4 ≤ 8 by decide)
  rw [get, pipeMemory, Field.offset, Field.size, load_storeCondVar_outside (by decide),
    load_storeCondVar_outside (by decide),
    Memory.load_store_outside (by decide)]
  simpa using hin

/-- To `sys_Accept`, a pipe that no writer waits for is a listener on port 0; it returns as if that had been closed, when it
has incremented a part of the pointer `reader`. -/
theorem accept_pipe (cb : PipeCb) (junk : Memory) (h : cb.hasSpace.waitset = 0) (hport : e.portMap 0 = none) :
    ∃ m, ((Call.accept).run e (some (pipeMemory cb junk))).object = some m ∧
      m.load 0 4 = (cb.reader.toNat + 1) % 256 ^ 4 ∧
      ((Call.accept).run e (some (pipeMemory cb junk))).outcome = .returns (-1) := by
  have hzero : ∀ {off n}, off + n ≤ 8 → (pipeMemory cb junk).load (16 + off) n = 0 := fun hle => by
    rw [load_waitset hle, h]
    simp
  have htype : get (pipeMemory cb junk) .type = code .listener := hzero (show 0 + 4 ≤ 8 by decide)
  have hport0 : portOf (put (pipeMemory cb junk) .refcount (get (pipeMemory cb junk) .refcount + 1)) = 0 := by
    have hload : get (put (pipeMemory cb junk) .refcount (get (pipeMemory cb junk) .refcount + 1)) .port = 0 :=
      (Memory.load_store_outside (by decide)).trans (hzero (show 4 + 2 ≤ 8 by decide))
    rw [portOf, hload]
    rfl
  have hslot : e.portSlot 0 = some none := by
    rw [Env.portSlot, if_pos (by decide)]
    exact congrArg some hport
  have hrun : (Call.accept).run e (some (pipeMemory cb junk)) =
      ⟨[.read .type, .read .refcount, .write .refcount, .read .queueNext, .read .port],
        some (put (pipeMemory cb junk) .refcount (get (pipeMemory cb junk) .refcount + 1)), .returns (-1)⟩ := by
    simp only [Call.run, sysAccept, htype, ne_eq, not_true_eq_false, if_false, hport0, hslot]
  rw [hrun]
  refine ⟨_, rfl, ?_, rfl⟩
  refine (get_put _ .refcount _).trans ?_
  rw [get_refcount_pipe]
  exact Nat.mod_add_mod ..

/-! ## Sockets -/

/-- The memory of an SCB `x` of `s`. -/
structure Encodes (e : Env) (s : Sockets.State) (m : Memory) (x : Scb) : Prop where
  type : get m .type = code x.type
  port : portOf m = x.port
  /-- The same elements of `Port_Map` are `NULL`, and there is an SCB behind the others. -/
  portMap : ∀ p, (s.portMap p = none ∧ e.portMap p = none) ∨
    ∃ l y, s.portMap p = some l ∧ s.scb.get l = some y ∧ e.portMap p = some (code y.type)

variable {s : Sockets.State} {x : Scb} {a : Sockets.ScbPtr}

theorem code_inj {t u : SocketType} : code t = code u ↔ t = u := by
  cases t <;> cases u <;> decide

theorem Encodes.portSlot (h : Encodes e s m x) (p : Nat) :
    (s.portSlot p = none ∧ e.portSlot p = none) ∨ (s.portSlot p = some none ∧ e.portSlot p = some none) ∨
      ∃ l y, s.portSlot p = some (some l) ∧ s.scb.get l = some y ∧ e.portSlot p = some (some (code y.type)) := by
  unfold Sockets.State.portSlot Env.portSlot
  by_cases hp : p < maxPort
  · have hp' : 0 ≤ (p : Int) ∧ (p : Int) < maxPort := ⟨Int.natCast_nonneg p, Int.ofNat_lt.2 hp⟩
    rw [if_pos hp, if_pos hp', Int.toNat_natCast]
    rcases h.portMap p with ⟨hs, he⟩ | ⟨l, y, hs, hy, he⟩
    · exact .inr (.inl ⟨congrArg some hs, congrArg some he⟩)
    · exact .inr (.inr ⟨l, y, congrArg some hs, hy, congrArg some he⟩)
  · exact .inl ⟨if_neg hp, if_neg fun h => hp (Int.ofNat_lt.1 h.2)⟩

/-- `sys_Listen` returns the same as in `TinyOS.Sockets`. -/
theorem listen_socket (h : Encodes e s m x) (hx : s.scb.get a = some x) :
    (sysListen e m).outcome = (s.sysListen (some a)).elim .outside fun r => .returns r.1 := by
  simp only [sysListen, Sockets.State.sysListen, hx, Option.bind_some, h.type, h.port, ne_eq, code_inj]
  by_cases ht : x.type = .unbound
  · rw [if_neg (not_not.2 ht), if_neg (not_not.2 ht)]
    by_cases hp : x.port < 1 ∨ x.port > maxPort
    · rw [if_pos hp, if_pos (by omega)]
      rfl
    · rw [if_neg hp, if_neg (by omega)]
      rcases h.portSlot x.port with ⟨hs, he⟩ | ⟨hs, he⟩ | ⟨l, y, hs, -, he⟩ <;> rw [hs, he] <;> rfl
  · rw [if_pos ht, if_pos ht]
    rfl

/-- `sys_ShutDown` returns -1 when it does in `TinyOS.Sockets`. -/
theorem shutDown_socket (how : ShutdownMode) (h : Encodes e s m x) (hx : s.scb.get a = some x) :
    (sysShutDown how m).outcome = .returns (-1) ↔ s.sysShutDown how (some a) = some (-1, s) := by
  simp only [sysShutDown, Sockets.State.sysShutDown, hx, Option.bind_some, h.type, ne_eq, code_inj]
  by_cases ht : x.type = .peer
  · rw [if_neg (not_not.2 ht), if_neg (not_not.2 ht)]
    cases how <;> cases x.variant <;> simp
  · rw [if_pos ht, if_pos ht]
    simp

/-- `sys_Connect` returns -1 at once when it does in `TinyOS.Sockets`. -/
theorem connect_socket (port : Int) (timeout : Nat) (h : Encodes e s m x) (hx : s.scb.get a = some x) :
    (sysConnect e port m).outcome = .returns (-1) ↔
      s.sysConnect port timeout (some a) = some (s.start (.connected none (-1))) := by
  simp only [sysConnect, Sockets.State.sysConnect, hx, Option.bind_some, h.type, ne_eq, code_inj]
  by_cases hc : ¬x.type = .unbound ∨ port > maxPort ∨ port < 1
  · rw [if_pos hc, if_pos hc]
    simp
  · rw [if_neg hc, if_neg hc]
    have hport : port = (port.toNat : Int) := by omega
    rw [hport, Int.toNat_natCast]
    rcases h.portSlot port.toNat with ⟨hs, he⟩ | ⟨hs, he⟩ | ⟨l, y, hs, hy, he⟩
    · rw [hs, he]
      simp
    · rw [hs, he]
      simp
    · rw [hs, he]
      simp only [hy, Option.bind_some, code_inj]
      by_cases hl : y.type = .listener
      · rw [if_neg (not_not.2 hl), if_neg (not_not.2 hl)]
        cases y.variant with
        | listener queue waitset =>
          simp [Sockets.State.request, Sockets.State.start]
        | unbound | peer => simp
      · rw [if_pos hl, if_pos hl]
        simp

/-- `sys_Accept` returns at once, or leaves the bounds of `Port_Map`, only where it does in `TinyOS.Sockets`. -/
theorem accept_socket (fid : Option Streams.Fid) (h : Encodes e s m x) (hx : s.scb.get a = some x)
    (hv : x.type = .listener → ∃ queue waitset, x.variant = .listener queue waitset) :
    (∀ v, (sysAccept e m).outcome = .returns v → v = -1 ∧
      ∃ t l, s.sysAccept fid (some a) = some t ∧ t.calls[s.calls.length]? = some (.refused l none)) ∧
    ((sysAccept e m).outcome = .outside → s.sysAccept fid (some a) = none) := by
  have hport : portOf (put m .refcount (get m .refcount + 1)) = x.port := by
    rw [← h.port, portOf, portOf]
    exact congrArg _ (congrArg _ (Memory.load_store_outside (by decide)))
  simp only [sysAccept, Sockets.State.sysAccept, hx, Option.bind_some, h.type, hport, ne_eq, code_inj]
  by_cases ht : x.type = .listener
  · rw [if_neg (not_not.2 ht), if_neg (not_not.2 ht)]
    obtain ⟨queue, waitset, hv⟩ := hv ht
    have hget : ((s.modifyScb a Scb.ref).start (.accepting a true)).scb.get a = some x.ref := by
      simp [Sockets.State.modifyScb, Sockets.State.start, hx]
    have hslot : ((s.modifyScb a Scb.ref).start (.accepting a true)).portSlot x.port = s.portSlot x.port := rfl
    simp only [Sockets.State.acceptLoop, hget, Option.bind_some, Scb.ref, hv, hslot]
    rcases h.portSlot x.port with ⟨hs, he⟩ | ⟨hs, he⟩ | ⟨l, y, hs, -, he⟩
    · rw [hs, he]
      exact ⟨fun v hv => (by cases hv), fun _ => rfl⟩
    · rw [hs, he]
      refine ⟨fun v hv => ⟨by cases hv; rfl, _, some a, rfl, ?_⟩, fun hv => by cases hv⟩
      simp [Sockets.State.setPlace, Sockets.State.start, Sockets.State.modifyScb]
    · rw [he]
      refine ⟨fun v hv => ?_, fun hv => ?_⟩ <;> (dsimp only at hv; split at hv <;> cases hv)
  · rw [if_pos ht, if_pos ht]
    refine ⟨fun v hv => ⟨by cases hv; rfl, _, none, rfl, ?_⟩, fun hv => by cases hv⟩
    simp [Sockets.State.start]

/-! ## Files -/

/-- The object of each block, by the kind of its stream. -/
abbrev Objects := FcbPtr → (ops : FileOps) → Object ops

/-- The kind of the stream that `fid` is open on. -/
def kindOf (s : Streams.State) (p : Pid) (fid : Int) : Option FileOps :=
  ((s.view p).getFcb fid).bind fun f => (s.files.fcb f).streamfunc

/-- `findSCB`. -/
def findSCB (s : Streams.State) (objects : Objects) (p : Pid) (fid : Int) : Option Memory :=
  ((s.view p).getFcb fid).bind fun f => (s.files.fcb f).streamfunc.bind fun ops => (objects f ops).memory

/-- What the call may do with the object `o` of a stream of this kind; `none` if the fid is not open. -/
structure Respects (kind : Option FileOps) (o : Option Memory) (r : Result) : Prop where
  accesses : r.accesses ≠ [] → kind = some .socket
  rejects : ∀ ops, kind = some ops → ops ≠ .socket → r.outcome = .returns (-1) ∧ r.object = o

theorem respects_iff (s : Streams.State) (objects : Objects) (p : Pid) (fid : Int) (e : Env) (c : Call) :
    Respects (kindOf s p fid) (findSCB s objects p fid) (c.run e (findSCB s objects p fid)) ↔
      ∀ ops, kindOf s p fid = some ops → ops = .socket ∨ ops = .null := by
  constructor
  · intro h ops hk
    obtain ⟨f, hf, hops⟩ := Option.bind_eq_some_iff.1 hk
    have hfind : findSCB s objects p fid = (objects f ops).memory := by
      rw [findSCB, hf, Option.bind_some, hops, Option.bind_some]
    cases ho : (objects f ops).memory with
    | none => exact .inr ((memory_eq_none _).1 ho)
    | some m =>
      obtain ⟨l, hl⟩ := read_type e m c
      rw [hfind, ho] at h
      have hsocket := h.accesses (by rw [hl]; exact List.cons_ne_nil _ _)
      exact .inl (Option.some.inj (hk.symm.trans hsocket))
  · intro h
    cases hfind : findSCB s objects p fid with
    | none => exact ⟨fun hne => absurd rfl hne, fun _ _ _ => ⟨rfl, rfl⟩⟩
    | some m =>
      obtain ⟨f, hf, hm⟩ := Option.bind_eq_some_iff.1 hfind
      obtain ⟨ops, hops, hm⟩ := Option.bind_eq_some_iff.1 hm
      have hk : kindOf s p fid = some ops := Option.bind_eq_some_iff.2 ⟨f, hf, hops⟩
      obtain rfl : ops = .socket := by
        rcases h ops hk with hs | rfl
        · exact hs
        · cases ((memory_eq_none _).2 rfl).symm.trans hm
      exact ⟨fun _ => hk, fun ops' hk' hne => absurd (Option.some.inj (hk'.symm.trans hk)) hne⟩

/-- `&FT[i]`, if `FT` is at 4096. -/
def fcbAddress (i : Nat) : BitVec 64 := BitVec.ofNat 64 (4096 + 48 * i)

/-- The objects when all devices are idle and all pipes new, with consecutive blocks. -/
def idle : Objects := fun f ops =>
  match ops with
  | .null => .null
  | .serial => .serial ⟨0, 0, .init⟩ fun _ => 0
  | .pipeReader => .reader ⟨fcbAddress f.val, fcbAddress (f.val + 1), .init, .init⟩ fun _ => 0
  | .pipeWriter => .writer ⟨fcbAddress (f.val - 1), fcbAddress f.val, .init, .init⟩ fun _ => 0
  | .socket => .socket fun _ => 0
  | .procInfo => .info (Proc.openInfo ⟨⟨0, 0, 0, 0, none, 0, fun _ => 0⟩, 0⟩) fun _ => 0

/-- **The calls on sockets** leave a stream that is not a socket alone exactly if it is a null device, in every state
reached. -/
theorem socket_calls_iff {s : Streams.State} (hs : Streams.system.Reaches s) (objects : Objects) (p : Pid) (fid : Int)
    (e : Env) (c : Call) :
    Respects (kindOf s p fid) (findSCB s objects p fid) (c.run e (findSCB s objects p fid)) ↔
      ∀ f, (s.view p).getFcb fid = some f →
        (s.files.fcb f).streamfunc = some .socket ∨ (s.files.fcb f).streamfunc = some .null := by
  have hstream : ∀ f, (s.view p).getFcb fid = some f → (s.files.fcb f).streamfunc ≠ none := fun f hf =>
    (Streams.refcount_correct hs).1.stream f (Streams.State.refs_pos_of_getFcb hf)
  rw [respects_iff]
  constructor
  · intro h f hf
    obtain ⟨ops, hops⟩ := Option.ne_none_iff_exists'.1 (hstream f hf)
    rw [hops]
    have hk := h ops (Option.bind_eq_some_iff.2 ⟨f, hf, hops⟩)
    simpa using hk
  · intro h ops hk
    obtain ⟨f, hf, hops⟩ := Option.bind_eq_some_iff.1 hk
    have hf := h f hf
    rw [hops] at hf
    simpa using hf

theorem finRange_add_two (n : Nat) : ∃ rest, List.finRange (n + 2) = 0 :: 1 :: rest :=
  ⟨_, List.finRange_succ.trans (congrArg (fun l => 0 :: l.map Fin.succ) List.finRange_succ)⟩

theorem exists_freelist : ∃ rest, List.finRange Streams.maxFiles = ⟨0, by decide⟩ :: ⟨1, by decide⟩ :: rest :=
  finRange_add_two (Streams.maxFiles - 2)

/-- Process 1 opens the null device, and `sys_Accept` rejects it. -/
theorem socket_calls_iff_null : ∃ s, Streams.system.run Streams.State.boot [.file Proc.initPid (.openNull 1)] = some s ∧
    kindOf s Proc.initPid 0 = some .null ∧
    Respects (kindOf s Proc.initPid 0) (findSCB s idle Proc.initPid 0)
      (Call.accept.run ⟨0, fun _ => none⟩ (findSCB s idle Proc.initPid 0)) := by
  obtain ⟨rest, hrest⟩ := exists_freelist
  have hrun : ∀ s : Streams.State, s.fidt = Streams.State.boot.fidt → s.pstate = Streams.State.boot.pstate →
      s.files = ⟨fun _ => ⟨0, none, 0, 0⟩, ⟨0, by decide⟩ :: ⟨1, by decide⟩ :: rest⟩ →
      ∃ s', Streams.system.run s [.file Proc.initPid (.openNull 1)] = some s' ∧
        (s'.view Proc.initPid).getFcb 0 = some ⟨0, by decide⟩ ∧
        (s'.files.fcb ⟨0, by decide⟩).streamfunc = some .null := by
    rintro ⟨ps, fidt, files, calls⟩ rfl rfl rfl
    exact ⟨_, rfl, rfl, rfl⟩
  obtain ⟨s, hs, hf, hops⟩ := hrun Streams.State.boot rfl rfl (congrArg (Streams.Files.mk _) hrest)
  refine ⟨s, hs, Option.bind_eq_some_iff.2 ⟨_, hf, hops⟩,
    (socket_calls_iff (Lts.reaches_of_run (Lts.Reaches.init rfl) hs) idle _ _ _ _).2 fun f hf' => .inr ?_⟩
  cases hf.symm.trans hf'
  exact hops

/-- Process 1 opens a pipe. -/
theorem exists_pipe : ∃ s, Streams.system.Reaches s ∧ (s.view Proc.initPid).getFcb 0 = some ⟨0, by decide⟩ ∧
    (s.files.fcb ⟨0, by decide⟩).streamfunc = some .pipeReader := by
  obtain ⟨rest, hrest⟩ := exists_freelist
  have hrun : ∀ s : Streams.State, s.fidt = Streams.State.boot.fidt → s.pstate = Streams.State.boot.pstate →
      s.files = ⟨fun _ => ⟨0, none, 0, 0⟩, ⟨0, by decide⟩ :: ⟨1, by decide⟩ :: rest⟩ →
      ∃ s', Streams.system.run s [.file Proc.initPid .pipe] = some s' ∧
        (s'.view Proc.initPid).getFcb 0 = some ⟨0, by decide⟩ ∧
        (s'.files.fcb ⟨0, by decide⟩).streamfunc = some .pipeReader := by
    rintro ⟨ps, fidt, files, calls⟩ rfl rfl rfl
    exact ⟨_, rfl, rfl, rfl⟩
  obtain ⟨s, hs, hf⟩ := hrun Streams.State.boot rfl rfl (congrArg (Streams.Files.mk _) hrest)
  exact ⟨s, Lts.reaches_of_run (.init rfl) hs, hf⟩

/-- `sys_Accept` on an end of a pipe changes the pipe. -/
theorem accepts_pipe : ¬∀ s, Streams.system.Reaches s → ∀ objects p fid e (c : Call),
    Respects (kindOf s p fid) (findSCB s objects p fid) (c.run e (findSCB s objects p fid)) := by
  intro h
  obtain ⟨s, hs, hf, hops⟩ := exists_pipe
  have hr := h s hs idle Proc.initPid 0 ⟨0, fun _ => none⟩ .accept
  have hfind : findSCB s idle Proc.initPid 0 =
      some (pipeMemory ⟨fcbAddress 0, fcbAddress 1, .init, .init⟩ fun _ => 0) := by
    rw [findSCB, hf, Option.bind_some, hops]
    rfl
  have hsame := (hr.rejects .pipeReader (Option.bind_eq_some_iff.2 ⟨_, hf, hops⟩) (by decide)).2
  obtain ⟨m, hm, hload, -⟩ := accept_pipe ⟨fcbAddress 0, fcbAddress 1, .init, .init⟩ (fun _ => 0) rfl
    (show Env.portMap ⟨0, fun _ => none⟩ 0 = none from rfl)
  rw [hfind] at hsame
  obtain rfl := Option.some.inj (hm.symm.trans hsame)
  cases hload.symm.trans get_refcount_pipe

end TinyOS.Lookup
