import Mathlib.Algebra.Group.Nat.Defs
import TinyOS.Lib.Lts
import TinyOS.Lib.Ring

/-!
# Pipes

`kernel_pipe.c` on one pipe that `sys_Pipe` has made. The calls of `pipe_read` and `pipe_write` come from `sys_Read`
and `sys_Write`, which hold a reference to the FCB of their end for as long as the call lasts; the `Close` method of an
end runs when its last reference goes. At most one call is inside the kernel; it gives way at `kernel_wait` and when it
returns. A step is one test of a loop with what follows it.

The counters of the C code are 32-bit words: `i < n` compares them unsigned, and as an `int` they index the caller's
buffer and are returned.
-/

namespace TinyOS.Pipe

def pipeBufferSize : Nat := 16384

/-! ## The control block -/

/-- The two FCBs of a pipe. -/
inductive End
  | reader
  | writer
  deriving DecidableEq, Repr

structure PipeCB where
  /-- `reader` and `writer` are not `NULL`. -/
  isOpen : End → Bool
  wPosition : Nat
  rPosition : Nat
  buffer : Nat → UInt8

namespace PipeCB

/-- What `sys_Pipe` makes of a new block. -/
def new (buffer : Nat → UInt8) : PipeCB := ⟨fun _ => true, 0, 0, buffer⟩

def Full (p : PipeCB) : Prop := p.rPosition = Ring.next pipeBufferSize p.wPosition

def Empty (p : PipeCB) : Prop := p.wPosition = p.rPosition

instance (p : PipeCB) : Decidable p.Full := inferInstanceAs (Decidable (_ = _))

instance (p : PipeCB) : Decidable p.Empty := inferInstanceAs (Decidable (_ = _))

/-- The store of `pipe_write`. -/
def put (p : PipeCB) (x : UInt8) : PipeCB :=
  { p with
    buffer := Function.update p.buffer p.wPosition x
    wPosition := Ring.next pipeBufferSize p.wPosition }

/-- The byte that `pipe_read` takes. -/
def front (p : PipeCB) : UInt8 := p.buffer p.rPosition

def advance (p : PipeCB) : PipeCB := { p with rPosition := Ring.next pipeBufferSize p.rPosition }

def close (p : PipeCB) (e : End) : PipeCB := { p with isOpen := Function.update p.isOpen e false }

/-- The positions of the unread bytes. -/
def unread (p : PipeCB) : List Nat := Ring.cells pipeBufferSize p.rPosition p.wPosition

/-- The bytes from `r_position` up to `w_position`. -/
def contents (p : PipeCB) : List UInt8 := Ring.contents pipeBufferSize p.buffer p.rPosition p.wPosition

end PipeCB

/-! ## Calls -/

inductive Place
  /-- At the test before the loop. -/
  | entry
  /-- At `while(i<n)`. -/
  | loop
  /-- At the test of the inner loop. -/
  | inner
  /-- Asleep in `kernel_wait`. -/
  | asleep
  /-- Woken up, and waiting for the kernel. -/
  | woken
  deriving DecidableEq, Repr

/-- A call of `pipe_write` (at the writing end) or `pipe_read` (at the reading end). -/
structure Call where
  id : Nat
  stream : End
  place : Place
  n : BitVec 32
  /-- The caller's memory, from the address `buf`. -/
  buf : Int → UInt8
  /-- `i`, or `j`. -/
  index : BitVec 32
  /-- `bytes_written`, or `bytes_read`. -/
  bytes : BitVec 32

/-- A call that has returned. -/
structure Return where
  id : Nat
  stream : End
  n : BitVec 32
  buf : Int → UInt8
  result : Int

structure State where
  pipe : PipeCB
  freed : Bool
  /-- The FIDT slots that point to the FCB of an end. -/
  slots : End → Nat
  /-- The reference count of the FCB. -/
  refcount : End → Nat
  /-- The calls that have not returned. -/
  calls : List Call
  /-- The call inside the kernel. -/
  kernel : Option Nat
  /-- The number of calls so far. -/
  started : Nat
  /-- Every byte put into the buffer, and every byte taken out of it, with its call; the first one first. -/
  stored : List (Nat × UInt8)
  taken : List (Nat × UInt8)
  returns : List Return

namespace State

/-! ## The kernel's side -/

/-- `kernel_broadcast` on the condition that the calls at end `e` wait for: `has_data` for readers, `has_space` for
writers. -/
def broadcast (s : State) (e : End) : State :=
  { s with calls := s.calls.map fun c => if c.stream = e ∧ c.place = .asleep then { c with place := .woken } else c }

/-- The other end. -/
def peer : End → End
  | .reader => .writer
  | .writer => .reader

/-- `pipe_reader_close` and `pipe_writer_close`. -/
def closeEnd (s : State) (e : End) : State :=
  let s := { s with pipe := s.pipe.close e }
  if s.pipe.isOpen (peer e) then s.broadcast (peer e) else { s with freed := true }

/-- `FCB_decref`. -/
def fcbDecref (s : State) (e : End) : State :=
  let s := { s with refcount := Function.update s.refcount e (s.refcount e - 1) }
  if s.refcount e = 0 then s.closeEnd e else s

def fcbIncref (s : State) (e : End) : State :=
  { s with refcount := Function.update s.refcount e (s.refcount e + 1) }

def setCall (s : State) (c : Call) : State :=
  { s with calls := s.calls.map fun c' => if c'.id = c.id then c else c' }

/-- The call returns, and `sys_Read` or `sys_Write` drops its reference. -/
def leave (s : State) (c : Call) (result : Int) : State :=
  { s with
    calls := s.calls.filter fun c' => c'.id ≠ c.id
    kernel := none
    returns := ⟨c.id, c.stream, c.n, c.buf, result⟩ :: s.returns }.fcbDecref c.stream

/-- `kernel_wait`. -/
def kernelWait (s : State) (c : Call) : State := { s.setCall { c with place := .asleep } with kernel := none }

/-! ## `pipe_write` and `pipe_read` -/

/-- After the loop: wake up the other side, and return the number of bytes. -/
def finish (s : State) (c : Call) : State := (s.broadcast (peer c.stream)).leave c c.bytes.toInt

def store (s : State) (c : Call) : State :=
  let x := c.buf c.index.toInt
  { s with pipe := s.pipe.put x, stored := s.stored ++ [(c.id, x)] }.setCall
    { c with place := .loop, bytes := c.bytes + 1, index := c.index + 1 }

def pipeWrite (s : State) (c : Call) : State :=
  match c.place with
  | .entry =>
    if s.pipe.isOpen .writer = false ∨ s.pipe.isOpen .reader = false then s.leave c (-1)
    else s.setCall { c with place := .loop }
  | .loop => if c.index < c.n then s.setCall { c with place := .inner } else s.finish c
  | .inner =>
    if s.pipe.Full ∧ s.pipe.isOpen .reader then (s.broadcast .reader).kernelWait c
    else if s.pipe.isOpen .reader = false then s.leave c (-1)
    else if s.pipe.isOpen .writer = false then s.finish c
    else s.store c
  | .asleep | .woken => s

def take (s : State) (c : Call) : State :=
  let x := s.pipe.front
  { s with pipe := s.pipe.advance, taken := s.taken ++ [(c.id, x)] }.setCall
    { c with
      place := .loop
      buf := Function.update c.buf c.index.toInt x
      bytes := c.bytes + 1
      index := c.index + 1 }

def pipeRead (s : State) (c : Call) : State :=
  match c.place with
  | .entry => if s.pipe.isOpen .reader = false then s.leave c (-1) else s.setCall { c with place := .loop }
  | .loop => if c.index < c.n then s.setCall { c with place := .inner } else s.finish c
  | .inner =>
    if s.pipe.Empty ∧ s.pipe.isOpen .writer then (s.broadcast .writer).kernelWait c
    else if s.pipe.isOpen .reader = false then s.leave c (-1)
    else if s.pipe.Empty ∧ s.pipe.isOpen .writer = false then s.finish c
    else s.take c
  | .asleep | .woken => s

def runCall (s : State) (c : Call) : State :=
  match c.stream with
  | .writer => s.pipeWrite c
  | .reader => s.pipeRead c

end State

/-! ## The system -/

inductive Action
  /-- `Write` at the writing end, `Read` at the reading end. -/
  | call (e : End) (n : BitVec 32) (buf : Int → UInt8)
  /-- The call inside the kernel goes on. -/
  | run (id : Nat)
  /-- A call that has been woken up gets the kernel. -/
  | resume (id : Nat)
  /-- One more FIDT slot for an end (`Dup2`, `Exec`). -/
  | dup (e : End)
  /-- One less (`Close`, `Dup2`, the exit of a process). -/
  | close (e : End)

namespace State

def find (s : State) (id : Nat) : Option Call := s.calls.find? fun c => c.id = id

def step (s : State) : Action → Option State
  | .call e n buf =>
    if s.kernel = none ∧ 0 < s.slots e then
      some { s.fcbIncref e with
        calls := ⟨s.started, e, .entry, n, buf, 0, 0⟩ :: s.calls
        kernel := some s.started
        started := s.started + 1 }
    else none
  | .run id => if s.kernel = some id then (s.find id).map s.runCall else none
  | .resume id =>
    match s.find id with
    | some c =>
      if s.kernel = none ∧ c.place = .woken then
        some ({ s with kernel := some id }.setCall { c with place := .inner })
      else none
    | none => none
  | .dup e =>
    if s.kernel = none ∧ 0 < s.slots e then
      some { s.fcbIncref e with slots := Function.update s.slots e (s.slots e + 1) }
    else none
  | .close e =>
    if s.kernel = none ∧ 0 < s.slots e then
      some ({ s with slots := Function.update s.slots e (s.slots e - 1) }.fcbDecref e)
    else none

/-- A new pipe, with one slot for each end; `xmalloc` leaves the buffer as it is. -/
def boot (buffer : Nat → UInt8) : State where
  pipe := .new buffer
  freed := false
  slots := fun _ => 1
  refcount := fun _ => 1
  calls := []
  kernel := none
  started := 0
  stored := []
  taken := []
  returns := []

end State

/-- One pipe. -/
def sys : Lts State Action := ⟨fun s => ∃ buffer, s = State.boot buffer, State.step⟩

end TinyOS.Pipe
