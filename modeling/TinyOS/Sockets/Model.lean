import Mathlib.Algebra.Group.Nat.Defs
import TinyOS.Lib.Heap
import TinyOS.Lib.Lts
import TinyOS.Pipe.Model
import TinyOS.Streams.Model

/-!
# Sockets

`kernel_socket.c`, all but the transfer of data. A call that waits is one step up to its `kernel_wait` and one step from
there on; `sys_Accept` also stops at its `kernel_signal`, inside the kernel, since the timer does not wait for the kernel.
A socket is named by its SCB, and `slots` stands for the references to its FCB: those of the file tables, and those of
reads and writes in progress. `sys_Accept` and `sys_Connect` hold none.

A step is `none` if it cannot happen, and also where the code fails an assertion, uses a block that was freed, reads
another member of the union than the one last written, or leaves the bounds of `Port_Map`.
-/

namespace TinyOS.Sockets

open Streams (Fid)
open Streams.View (maxPort)
open Pipe (End)

/-! ## Data -/

/-- `SCB*`. -/
abbrev ScbPtr := Nat

/-- `Pipe_CB*`. -/
abbrev PipePtr := Nat

/-- A call of `sys_Accept` or `sys_Connect`, and the `CR` that the latter makes. -/
abbrev CallId := Nat

/-- `NO_TIMEOUT`. -/
def noTimeout : Nat := 2 ^ 64 - 1

inductive SocketType
  | listener
  | unbound
  | peer
  deriving DecidableEq, Repr

/-- The union in an SCB: the member that was written last. -/
inductive Variant
  | unbound
  /-- `queue`, and the calls in the waitset of `req_available`. -/
  | listener (queue waitset : List CallId)
  | peer (peer : Option ScbPtr) (writePipe readPipe : Option PipePtr)
  deriving DecidableEq, Repr

structure Scb where
  refcount : Int
  type : SocketType
  port : Nat
  variant : Variant
  /-- The references to the FCB of the socket; the socket is open while there are some. -/
  slots : Nat
  /-- How often `sys_Accept` has made the socket one of the ends of a connection. -/
  wirings : Nat
  deriving DecidableEq, Repr

/-- A `CR`. Only the call that made it waits on its `connected_cv`. -/
structure Cr where
  admitted : Bool
  peer : ScbPtr
  deriving DecidableEq, Repr

/-- How the `kernel_timedwait` of a call of `sys_Connect` stands. -/
inductive Wake
  | asleep
  | signalled
  | expired
  deriving DecidableEq, Repr

inductive Place
  /-- In the `kernel_wait` of `sys_Accept` on `l`; at the loop again when woken. -/
  | accepting (l : ScbPtr) (woken : Bool)
  /-- `sys_Accept` at `kernel_signal(&cr->connected_cv)`, with the new socket `sock`. -/
  | signalling (l : ScbPtr) (req : CallId) (sock : ScbPtr) (fid : Fid)
  /-- `sys_Accept` has returned `fid`; whether its socket was connected to that of the request. -/
  | accepted (l : ScbPtr) (req : CallId) (sock : ScbPtr) (fid : Fid) (linked : Bool)
  /-- `sys_Accept` has returned `NOFILE`: on which listener it has incremented `refcount`, and which request it admitted. -/
  | refused (l : Option ScbPtr) (req : Option CallId)
  /-- In the `kernel_timedwait` of `sys_Connect`. -/
  | connecting (sock : ScbPtr) (timeout : Nat) (wake : Wake)
  /-- `sys_Connect` has returned `value`; on which socket it had incremented `refcount`. -/
  | connected (sock : Option ScbPtr) (value : Int)
  deriving DecidableEq, Repr

structure State where
  scb : Heap Scb
  pipe : Heap Pipe.PipeCB
  portMap : Nat → Option ScbPtr
  cr : CallId → Option Cr
  /-- All calls so far of `sys_Accept` and `sys_Connect`. -/
  calls : List Place
  /-- The call that is inside the kernel. -/
  kernel : Option CallId

namespace Scb

def ref (x : Scb) : Scb := { x with refcount := x.refcount + 1 }

def unref (x : Scb) : Scb := { x with refcount := x.refcount - 1 }

def setVariant (x : Scb) (v : Variant) : Scb := { x with variant := v }

/-- The requests that wait for `sys_Accept`. -/
def queue (x : Scb) : List CallId :=
  match x.variant with
  | .listener queue _ => queue
  | _ => []

/-- `scb->type = SOCKET_PEER`. -/
def toPeer (x : Scb) : Scb := { x with type := .peer }

@[simp] theorem ref_queue (x : Scb) : x.ref.queue = x.queue := rfl

/-- What `sys_Accept` writes to each end of a new connection. -/
def wire (x : Scb) (peer : ScbPtr) (writePipe readPipe : PipePtr) : Scb :=
  { x with variant := .peer (some peer) (some writePipe) (some readPipe), wirings := x.wirings + 1 }

end Scb

namespace State

def modifyScb (s : State) (a : ScbPtr) (f : Scb → Scb) : State := { s with scb := s.scb.modify a f }

def setPlace (s : State) (c : CallId) (pl : Place) : State := { s with calls := s.calls.set c pl }

/-- A new call. -/
def start (s : State) (pl : Place) : State := { s with calls := s.calls ++ [pl] }

/-- `Port_Map[port]`; `none` if there is no such element. -/
def portSlot (s : State) (port : Nat) : Option (Option ScbPtr) := if port < maxPort then some (s.portMap port) else none

/-- `scb->refcount--; if (scb->refcount < 0) free(scb)`. -/
def unref (s : State) (a : ScbPtr) : Option State :=
  (s.scb.get a).map fun x =>
    if x.refcount - 1 < 0 then { s with scb := s.scb.free a } else s.modifyScb a Scb.unref

/-- `kernel_signal` for calls of `sys_Accept`, and what is left of the waitset. -/
def signal (s : State) : List CallId → List CallId × State
  | [] => ([], s)
  | c :: rest =>
    match s.calls[c]? with
    | some (.accepting l false) => (rest, s.setPlace c (.accepting l true))
    | _ => s.signal rest

/-- `kernel_signal(&l->listener_s.req_available)`. -/
def signalAvailable (s : State) (l : ScbPtr) (queue waitset : List CallId) : State :=
  let (waitset, s) := s.signal waitset
  s.modifyScb l (·.setVariant (.listener queue waitset))

/-- `kernel_signal(&cr->connected_cv)` for the request of call `r`. -/
def signalConnected (s : State) (r : CallId) : State :=
  match s.calls[r]? with
  | some (.connecting a timeout .asleep) => s.setPlace r (.connecting a timeout .signalled)
  | _ => s

/-! ## `sys_Socket` and `sys_Listen` -/

/-- `sys_Socket`, when `FCB_reserve` gives `fid`. The SCB of a call that fails is never used. -/
def sysSocket (s : State) (port : Int) (fid : Option Fid) : Option (Fid × ScbPtr) × State :=
  if port < 0 ∨ port > maxPort then (none, s)
  else
    match fid with
    | none => (none, s)
    | some fid =>
      (some (fid, s.scb.next), { s with scb := s.scb.alloc ⟨0, .unbound, port.toNat, .unbound, 1, 0⟩ })

/-- `sock` is what `findSCB` gives. -/
def sysListen (s : State) : Option ScbPtr → Option (Int × State)
  | none => some (-1, s)
  | some a =>
    (s.scb.get a).bind fun x =>
      if x.type ≠ .unbound then some (-1, s)
      else if x.port < 1 ∨ x.port > maxPort then some (-1, s)
      else
        (s.portSlot x.port).map fun
          | some _ => (-1, s)
          | none => (0, { s.modifyScb a fun x => { x with type := .listener, variant := .listener [] [] } with
              portMap := Function.update s.portMap x.port (some a) })

/-! ## `sys_Accept` -/

/-- The pipes of a new connection, and the two ends of it. -/
def connect (s : State) (a b : ScbPtr) : State :=
  let p := s.pipe.next
  let s := { s with pipe := (s.pipe.alloc (.new fun _ => 0)).alloc (.new fun _ => 0) }
  (s.modifyScb a (·.wire b p (p + 1))).modifyScb b fun x => (x.wire a (p + 1) p).toPeer

/-- `sys_Accept` from `connectionRequestNode->cr->admitted = 1` up to its `kernel_signal`. -/
def honor (s : State) (c : CallId) (l : ScbPtr) (port : Nat) (r : CallId) (fid : Option Fid) : Option State :=
  (s.cr r).bind fun cr =>
    (s.scb.get cr.peer).map fun _ =>
      let s := { s.modifyScb cr.peer Scb.toPeer with cr := Function.update s.cr r (some { cr with admitted := true }) }
      match s.sysSocket port fid with
      | (none, s) => s.setPlace c (.refused (some l) (some r))
      | (some (fid, b), s) => { (s.connect cr.peer b).setPlace c (.signalling l r b fid) with kernel := some c }

/-- The loop of `sys_Accept` and what follows it, up to its `kernel_signal`. -/
def acceptLoop (s : State) (c : CallId) (l : ScbPtr) (fid : Option Fid) : Option State :=
  (s.scb.get l).bind fun x =>
    match x.variant with
    | .listener queue waitset =>
      (s.portSlot x.port).bind fun slot =>
        match slot, queue with
        | none, _ => some (s.setPlace c (.refused (some l) none))
        | some _, [] =>
          some ((s.modifyScb l (·.setVariant (.listener [] (waitset ++ [c])))).setPlace c (.accepting l false))
        | some _, r :: queue => (s.modifyScb l (·.setVariant (.listener queue waitset))).honor c l x.port r fid
    | _ => none

def sysAccept (s : State) (fid : Option Fid) : Option ScbPtr → Option State
  | none => some (s.start (.refused none none))
  | some l =>
    (s.scb.get l).bind fun x =>
      if x.type ≠ .listener then some (s.start (.refused none none))
      else ((s.modifyScb l Scb.ref).start (.accepting l true)).acceptLoop s.calls.length l fid

/-- Both are ends of connections, and each writes the pipe that the other reads. -/
def linked (s : State) (a b : ScbPtr) : Bool :=
  match s.scb.get a, s.scb.get b with
  | some ⟨_, .peer, _, .peer p (some w) (some r), _, _⟩, some ⟨_, .peer, _, .peer q (some w') (some r'), _, _⟩ =>
    p = some b ∧ q = some a ∧ w = r' ∧ r = w'
  | _, _ => false

/-- `sys_Accept` from its `kernel_signal` on. -/
def finishAccept (s : State) (c : CallId) (l : ScbPtr) (r : CallId) (b : ScbPtr) (fid : Fid) : Option State :=
  (s.cr r).bind fun cr =>
    ((s.signalConnected r).unref l).map fun t =>
      { t.setPlace c (.accepted l r b fid (s.linked cr.peer b)) with kernel := none }

/-! ## `sys_Connect` -/

/-- `sys_Connect` from `scb->refcount++` up to its `kernel_timedwait`; `queue` and `waitset` are those of the listener. -/
def request (s : State) (a l : ScbPtr) (queue waitset : List CallId) (timeout : Nat) : State :=
  let c := s.calls.length
  let s := { s.modifyScb a Scb.ref with cr := Function.update s.cr c (some ⟨false, a⟩) }
  (s.signalAvailable l (queue ++ [c]) waitset).start (.connecting a timeout .asleep)

def sysConnect (s : State) (port : Int) (timeout : Nat) : Option ScbPtr → Option State
  | none => some (s.start (.connected none (-1)))
  | some a =>
    (s.scb.get a).bind fun x =>
      if x.type ≠ .unbound ∨ port > maxPort ∨ port < 1 then some (s.start (.connected none (-1)))
      else
        (s.portSlot port.toNat).bind fun
          | none => some (s.start (.connected none (-1)))
          | some l =>
            (s.scb.get l).bind fun y =>
              if y.type ≠ .listener then some (s.start (.connected none (-1)))
              else
                match y.variant with
                | .listener queue waitset => some (s.request a l queue waitset timeout)
                | _ => none

/-- `sys_Connect` after its `kernel_timedwait`. The request that `rlist_remove` takes out is in no list any more. -/
def connectResume (s : State) (c : CallId) (a : ScbPtr) (signalled : Bool) : Option State :=
  (s.cr c).bind fun cr =>
    if cr.admitted = false then some (s.setPlace c (.connected (some a) (-1)))
    else if signalled = false then
      some { s.setPlace c (.connected (some a) (-1)) with cr := Function.update s.cr c none }
    else (s.unref a).map (·.setPlace c (.connected (some a) 0))

/-! ## `sys_ShutDown` and `socket_close` -/

/-- `pipe_reader_close` and `pipe_writer_close`. -/
def closePipe (s : State) (p : Option PipePtr) (e : End) : Option State :=
  p.bind fun p =>
    (s.pipe.get p).map fun x =>
      if (x.close e).isOpen (Pipe.State.peer e) then { s with pipe := s.pipe.modify p (·.close e) }
      else { s with pipe := s.pipe.free p }

/-- `shutdown_mode`, and all other values. -/
inductive ShutdownMode
  | read
  | write
  | both
  | other
  deriving DecidableEq, Repr

/-- `pipe_reader_close` returns 0, so that `&&` does not come to `pipe_writer_close`. -/
def sysShutDown (s : State) (how : ShutdownMode) : Option ScbPtr → Option (Int × State)
  | none => some (-1, s)
  | some a =>
    (s.scb.get a).bind fun x =>
      if x.type ≠ .peer then some (-1, s)
      else
        match how, x.variant with
        | .other, _ => some (-1, s)
        | .read, .peer _ _ r => (s.closePipe r .reader).map fun s => (0, s)
        | .write, .peer p w r =>
          (s.closePipe w .writer).map fun s => (0, s.modifyScb a (·.setVariant (.peer p none r)))
        | .both, .peer p _ r =>
          (s.closePipe r .reader).map fun s => (0, s.modifyScb a (·.setVariant (.peer p none none)))
        | _, _ => none

/-- `scb->peer_s.peer = NULL`. -/
def unlinkPeer (s : State) (b : ScbPtr) : Option State :=
  (s.scb.get b).bind fun y =>
    match y.variant with
    | .peer _ w r => some (s.modifyScb b (·.setVariant (.peer none w r)))
    | _ => none

/-- The `switch` of `socket_close`. -/
def closeEnds (s : State) (x : Scb) (a : ScbPtr) : Option State :=
  match x.type, x.variant with
  | .peer, .peer none _ _ => some s
  | .peer, .peer (some b) w r => (s.closePipe w .writer).bind fun s => (s.closePipe r .reader).bind (·.unlinkPeer b)
  | .listener, .listener queue waitset =>
    (s.portSlot x.port).map fun _ =>
      { s with portMap := Function.update s.portMap x.port none }.signalAvailable a queue waitset
  | .unbound, _ => some s
  | _, _ => none

def socketClose (s : State) (a : ScbPtr) : Option (Int × State) :=
  (s.scb.get a).bind fun x =>
    (s.closeEnds x a).bind fun s =>
      (s.scb.get a).map fun x =>
        if x.refcount - 1 ≤ 0 then (0, { s with scb := s.scb.free a }) else (-1, s.modifyScb a Scb.unref)

/-- `FCB_decref`. -/
def fcbDecref (s : State) (a : ScbPtr) : Option State :=
  (s.scb.get a).bind fun x =>
    let s := s.modifyScb a fun x => { x with slots := x.slots - 1 }
    if x.slots - 1 = 0 then (s.socketClose a).map (·.2) else some s

/-- `FCB_incref`. -/
def fcbIncref (s : State) (a : ScbPtr) : State := s.modifyScb a fun x => { x with slots := x.slots + 1 }

/-- There is a reference to the FCB of the socket, so that its `Close` method has not been called. -/
def IsOpen (s : State) (a : ScbPtr) : Prop := ∃ x, s.scb.get a = some x ∧ 0 < x.slots

instance (s : State) (a : ScbPtr) : Decidable (s.IsOpen a) :=
  decidable_of_iff (((s.scb.get a).any fun x => 0 < x.slots) = true) (by simp [IsOpen, Option.any_eq_true])

end State

/-! ## The system -/

/-- `sock` is what `findSCB` gives for the fid of the call, and `fid` what `FCB_reserve` gives if it is called. -/
inductive Action
  | socket (port : Int) (fid : Option Fid)
  | listen (sock : Option ScbPtr)
  | accept (sock : Option ScbPtr) (fid : Option Fid)
  | connect (sock : Option ScbPtr) (port : Int) (timeout : Nat)
  | shutDown (sock : Option ScbPtr) (how : State.ShutdownMode)
  /-- One more reference to the FCB of a socket. -/
  | dup (a : ScbPtr)
  /-- One less (`Close`, `Dup2`, the exit of a process, the end of a read or write). -/
  | drop (a : ScbPtr)
  /-- A call of `sys_Accept` or `sys_Connect` goes on after its wait. -/
  | resume (c : CallId) (fid : Option Fid)
  /-- A call of `sys_Accept` goes on at its `kernel_signal`. -/
  | signal (c : CallId)
  /-- The timeout of a call of `sys_Connect` expires. -/
  | expire (c : CallId)
  deriving DecidableEq, Repr

namespace State

/-- The step is by a call that needs the kernel; `findSCB` gives open sockets only. -/
def perform (s : State) : Action → Option State
  | .socket port fid => some (s.sysSocket port fid).2
  | .listen sock => if ∀ a ∈ sock, s.IsOpen a then (s.sysListen sock).map (·.2) else none
  | .accept sock fid => if ∀ a ∈ sock, s.IsOpen a then s.sysAccept fid sock else none
  | .connect sock port timeout => if ∀ a ∈ sock, s.IsOpen a then s.sysConnect port timeout sock else none
  | .shutDown sock how => if ∀ a ∈ sock, s.IsOpen a then (s.sysShutDown how sock).map (·.2) else none
  | .dup a => if s.IsOpen a then some (s.fcbIncref a) else none
  | .drop a => if s.IsOpen a then s.fcbDecref a else none
  | .resume c fid =>
    match s.calls[c]? with
    | some (.accepting l true) => s.acceptLoop c l fid
    | some (.connecting a _ .signalled) => s.connectResume c a true
    | some (.connecting a _ .expired) => s.connectResume c a false
    | _ => none
  | .signal _ | .expire _ => none

def step (s : State) : Action → Option State
  | .signal c =>
    match s.calls[c]? with
    | some (.signalling l r b fid) => if s.kernel = some c then s.finishAccept c l r b fid else none
    | _ => none
  | .expire c =>
    match s.calls[c]? with
    | some (.connecting a timeout .asleep) =>
      if timeout ≠ noTimeout then some (s.setPlace c (.connecting a timeout .expired)) else none
    | _ => none
  | a => if s.kernel = none then s.perform a else none

/-- No sockets. -/
def boot : State where
  scb := .empty
  pipe := .empty
  portMap _ := none
  cr _ := none
  calls := []
  kernel := none

end State

def system : Lts State Action where
  init s := s = State.boot
  step := State.step

end TinyOS.Sockets
