import TinyOS.Pipe.Model
import TinyOS.Sockets.Model

/-!
# Connections

The two sockets that `sys_Accept` has connected: `socket_read`, `socket_write`, `sys_ShutDown` and `socket_close` on
them, by any number of threads. A call of `pipe_read` or `pipe_write` goes through the steps of `TinyOS.Pipe`, at the
pipe that the SCB of its socket names.

`perform` is `none` where the code fails an assertion or uses a block that was freed.
-/

namespace TinyOS.Connection

open Sockets (ScbPtr PipePtr CallId Scb)
open Sockets.State (ShutdownMode)
open Pipe (End Call)

/-! ## Data -/

/-- The socket of the request, and the one that `sys_Accept` has made. -/
inductive Side
  | client
  | server
  deriving DecidableEq, Repr

def Side.other : Side → Side
  | .client => .server
  | .server => .client

/-- The calls on a pipe, and what has become of them. -/
structure Chan where
  calls : List Call
  started : Nat
  stored : List (Nat × UInt8)
  taken : List (Nat × UInt8)
  returns : List Pipe.Return

/-- A call of `pipe_read` or `pipe_write`, which holds a reference to the FCB of the socket it came through. -/
structure Transfer where
  pipe : PipePtr
  id : Nat
  side : Side
  deriving DecidableEq, Repr

inductive Kernel
  | free
  /-- In `pipe_read` or `pipe_write`. -/
  | running (t : Transfer)
  /-- Back in `sys_Read` or `sys_Write`, at `FCB_decref`. -/
  | leaving (t : Transfer)
  deriving DecidableEq, Repr

instance Kernel.decidableRunning (k : Kernel) (p : Transfer → Prop) [DecidablePred p] :
    Decidable (match k with | .running t => p t | _ => True) :=
  match k with
  | .running t => inferInstanceAs (Decidable (p t))
  | .free | .leaving _ => inferInstanceAs (Decidable True)

instance Kernel.decidableLeaving (k : Kernel) (p : Transfer → Prop) [DecidablePred p] :
    Decidable (match k with | .leaving t => p t | _ => True) :=
  match k with
  | .leaving t => inferInstanceAs (Decidable (p t))
  | .free | .running _ => inferInstanceAs (Decidable True)

/-- A call of `socket_read` or `socket_write` that has returned. -/
structure Return where
  side : Side
  stream : End
  buf : Int → UInt8
  result : Int

/-- Named, for membership in `shut`. -/
instance : LawfulBEq (Side × ShutdownMode) := inferInstance

structure State where
  sockets : Sockets.State
  scb : Side → ScbPtr
  /-- The FIDT slots that point to the FCB of a socket. -/
  slots : Side → Nat
  chan : PipePtr → Chan
  /-- The calls that hold a reference. -/
  transfers : List Transfer
  kernel : Kernel
  /-- Every call so far of `sys_ShutDown`, and of `socket_close`; the first one first. -/
  shut : List (Side × ShutdownMode)
  closed : List Side
  /-- The bytes that `socket_write` has stored, and those that `socket_read` has taken, through each socket. -/
  sent : Side → List UInt8
  received : Side → List UInt8
  /-- The last one first. -/
  returns : List Return

namespace State

/-! ## Calls on a pipe -/

/-- Pipe `p` with its calls, as one of its own; the socket at an end has the only slot of that end. -/
def view (s : State) (p : PipePtr) (x : Pipe.PipeCB) : Pipe.State where
  pipe := x
  freed := false
  slots := fun _ => 1
  refcount e := 1 + ((s.chan p).calls.map Call.stream).count e
  calls := (s.chan p).calls
  kernel :=
    match s.kernel with
    | .running t => if t.pipe = p then some t.id else none
    | _ => none
  started := (s.chan p).started
  stored := (s.chan p).stored
  taken := (s.chan p).taken
  returns := (s.chan p).returns

/-- What has become of pipe `p`. -/
def put (s : State) (p : PipePtr) (v : Pipe.State) : State :=
  { s with
    sockets := { s.sockets with pipe := s.sockets.pipe.modify p fun _ => v.pipe }
    chan := Function.update s.chan p ⟨v.calls, v.started, v.stored, v.taken, v.returns⟩ }

/-- The tests of `socket_read` and `socket_write`: the pipe for `pipe_read` or `pipe_write`, if they come to that. -/
def socketPipe (y : Scb) (e : End) : Option (Option PipePtr) :=
  if y.type ≠ .peer then some none
  else
    match y.variant, e with
    | .peer _ w _, .writer => some w
    | .peer _ _ r, .reader => some r
    | _, _ => none

/-- `FCB_incref`, and the call of `pipe_read` or `pipe_write`. -/
def begin (s : State) (x : Side) (p : PipePtr) (e : End) (n : BitVec 32) (buf : Int → UInt8) : State :=
  let c := s.chan p
  let t := ⟨p, c.started, x⟩
  { s with
    sockets := s.sockets.fcbIncref (s.scb x)
    chan := Function.update s.chan p
      { c with calls := ⟨c.started, e, .entry, n, buf, 0, 0⟩ :: c.calls, started := c.started + 1 }
    transfers := t :: s.transfers
    kernel := .running t }

/-- `sys_Read` at the reading end and `sys_Write` at the writing end, up to their call of `pipe_read` or `pipe_write`. -/
def transfer (s : State) (x : Side) (e : End) (n : BitVec 32) (buf : Int → UInt8) : Option State :=
  (s.sockets.scb.get (s.scb x)).bind fun y =>
    (socketPipe y e).bind fun
      | none => some { s with returns := ⟨x, e, buf, -1⟩ :: s.returns }
      | some p => (s.sockets.pipe.get p).map fun _ => s.begin x p e n buf

/-- What a call has done, from `v` to `v'`: if it is not in the kernel any more, it waits or has returned. -/
def record (s : State) (t : Transfer) (v v' : Pipe.State) : State :=
  let returned := v'.returns.take (v'.returns.length - v.returns.length)
  { s.put t.pipe v' with
    kernel := if v'.kernel ≠ none then s.kernel else if returned = [] then .free else .leaving t
    sent := Function.update s.sent t.side (s.sent t.side ++ (v'.stored.drop v.stored.length).map Prod.snd)
    received := Function.update s.received t.side (s.received t.side ++ (v'.taken.drop v.taken.length).map Prod.snd)
    returns := (returned.map fun r => ⟨t.side, r.stream, r.buf, r.result⟩) ++ s.returns }

/-- The call in the kernel goes on, up to its next test, its `kernel_wait` or its return. -/
def run (s : State) (t : Transfer) : Option State :=
  (s.sockets.pipe.get t.pipe).bind fun x =>
    let v := s.view t.pipe x
    (v.find t.id).map fun c => s.record t v (v.runCall c)

/-- The call that is awake goes back to the test of its loop. -/
def resume (s : State) (t : Transfer) : State :=
  let c := s.chan t.pipe
  { s with
    chan := Function.update s.chan t.pipe
      { c with calls := c.calls.map fun d => if d.id = t.id then { d with place := .inner } else d }
    kernel := .running t }

def find (s : State) (t : Transfer) : Option Call := (s.chan t.pipe).calls.find? fun c => c.id = t.id

/-! ## Closing -/

/-- From the sockets as they are to `b`, end `e` of pipe `p` is closed and the other one is open. -/
def Shuts (s : State) (b : Sockets.State) (p : PipePtr) (e : End) : Bool :=
  (s.sockets.pipe.get p).any (·.isOpen e) &&
    (b.pipe.get p).any fun x => !x.isOpen e && x.isOpen (Pipe.State.peer e)

/-- The broadcasts of `pipe_reader_close` and `pipe_writer_close`; one for an end that was closed before finds no call
that waits. -/
def broadcast (s : State) (b : Sockets.State) : State :=
  { s with
    sockets := b
    chan := fun p =>
      { s.chan p with
        calls := (s.chan p).calls.map fun c =>
          if c.place = .asleep ∧ s.Shuts b p (Pipe.State.peer c.stream) then { c with place := .woken } else c } }

/-- `FCB_decref`. -/
def fcbDecref (s : State) (x : Side) : Option State :=
  (s.sockets.fcbDecref (s.scb x)).map fun b =>
    { s.broadcast b with closed := if b.IsOpen (s.scb x) then s.closed else s.closed ++ [x] }

def shutDown (s : State) (x : Side) (how : ShutdownMode) : Option (Int × State) :=
  (s.sockets.sysShutDown how (some (s.scb x))).map fun (result, b) =>
    (result, { s.broadcast b with shut := s.shut ++ [(x, how)] })

end State

/-! ## The system -/

inductive Action
  /-- `Write` (at the writing end) or `Read` (at the reading end) on a socket. -/
  | call (x : Side) (e : End) (n : BitVec 32) (buf : Int → UInt8)
  /-- The call in the kernel goes on. -/
  | run
  /-- A call that has been woken up gets the kernel. -/
  | resume (t : Transfer)
  /-- The call that has returned drops its reference. -/
  | leave
  | shutDown (x : Side) (how : ShutdownMode)
  /-- One more FIDT slot for a socket (`Dup2`, `Exec`). -/
  | dup (x : Side)
  /-- One less (`Close`, `Dup2`, the exit of a process). -/
  | drop (x : Side)

namespace State

/-- The action is one that can be next. -/
def Enabled (s : State) : Action → Prop
  | .call x _ _ _ | .shutDown x _ | .dup x | .drop x => s.kernel = .free ∧ 0 < s.slots x
  | .run => ∃ t, s.kernel = .running t
  | .resume t => s.kernel = .free ∧ t ∈ s.transfers ∧ (s.find t).any fun c => c.place = .woken
  | .leave => ∃ t, s.kernel = .leaving t

instance (s : State) (a : Action) : Decidable (s.Enabled a) :=
  match a with
  | .call .. | .shutDown .. | .dup _ | .drop _ => inferInstanceAs (Decidable (_ ∧ _))
  | .resume _ => inferInstanceAs (Decidable (_ ∧ _ ∧ _))
  | .run =>
    match h : s.kernel with
    | .running t => isTrue ⟨t, h⟩
    | .free | .leaving _ => isFalse fun ⟨_, ht⟩ => nomatch h.symm.trans ht
  | .leave =>
    match h : s.kernel with
    | .leaving t => isTrue ⟨t, h⟩
    | .free | .running _ => isFalse fun ⟨_, ht⟩ => nomatch h.symm.trans ht

def perform (s : State) : Action → Option State
  | .call x e n buf => s.transfer x e n buf
  | .run =>
    match s.kernel with
    | .running t => s.run t
    | _ => none
  | .resume t => some (s.resume t)
  | .leave =>
    match s.kernel with
    | .leaving t => { s with transfers := s.transfers.erase t, kernel := .free }.fcbDecref t.side
    | _ => none
  | .shutDown x how => (s.shutDown x how).map (·.2)
  | .dup x =>
    some { s with
      sockets := s.sockets.fcbIncref (s.scb x)
      slots := Function.update s.slots x (s.slots x + 1) }
  | .drop x => { s with slots := Function.update s.slots x (s.slots x - 1) }.fcbDecref x

def step (s : State) (a : Action) : Option State := if s.Enabled a then s.perform a else none

/-- No calls yet. -/
def new (b : Sockets.State) (scb : Side → ScbPtr) : State where
  sockets := b
  scb := scb
  slots x := ((b.scb.get (scb x)).map Scb.slots).getD 0
  chan _ := ⟨[], 0, [], [], []⟩
  transfers := []
  kernel := .free
  shut := []
  closed := []
  sent _ := []
  received _ := []
  returns := []

end State

/-- From `s` to `b`, a call of `sys_Accept` returns the new socket `server`; both ends of the connection are open. -/
def Accepts (s b : Sockets.State) (client server : ScbPtr) : Prop :=
  ∃ c l r fid cr, s.calls[c]? = some (.signalling l r server fid) ∧ s.cr r = some cr ∧ cr.peer = client ∧
    s.step (.signal c) = some b ∧ b.IsOpen client ∧ b.IsOpen server

/-- A connection, from the return of `sys_Accept` on. -/
def connection : Lts State Action where
  init s := ∃ a b scb, Sockets.system.Reaches a ∧ Accepts a b (scb .client) (scb .server) ∧ s = State.new b scb
  step := State.step

end TinyOS.Connection
