import TinyOS.Pipe.Model
import TinyOS.Programs.Packing

/-!
# Remote commands

`RemoteClient` of `tinyos_shell.c` and the thread `rsrv_client` that serves it, from the return of `Connect` and of
`Accept` to the call of `Execute`. The client sends the length of its packed arguments, and then the arguments; the
calls of `Write` and `Read` go through the steps of `TinyOS.Pipe`, at the pipe from the client's socket to the
server's. What a program does between two calls is done when the first one returns.
-/

namespace TinyOS.Remote

open Execute (Ptr argvunpack)
open Packing (argvlen argvpack argscount intMax)
open Pipe (End)

def sizeofInt : Nat := 4

/-- The two parts of `[int argl, void* args]`. -/
inductive Part
  | argl
  | args
  deriving DecidableEq, Repr

/-! ## The loops of `send_message` and `recv_message` -/

structure Loop where
  buf : Memory
  len : Nat
  count : Nat

namespace Loop

/-- The memory at `buf+count`. -/
def rest (l : Loop) : Int → UInt8 := fun i => l.buf (l.count + i).toNat

/-- `len-count`. -/
def size (l : Loop) : BitVec 32 := .ofNat 32 (l.len - l.count)

/-- `count += rc`. -/
def add (l : Loop) (rc : Int) : Loop := { l with count := l.count + rc.toNat }

/-- What `Read` has made of the memory at `buf+count`. -/
def fill (l : Loop) (buf : Int → UInt8) : Loop := { l with buf := fun i => buf (i - l.count) }

end Loop

/-! ## `RemoteClient` -/

/-- The variables `argl` and `args`. -/
structure Message where
  argl : Nat
  args : Memory

/-- The message for the arguments after the first one; `none` if `args` cannot hold it. -/
def makeUp (argv : List Ptr) (stack : Memory) : Option Message :=
  (argvlen argv).bind fun argl =>
    if 0 < argl ∧ argl ≤ intMax then (argvpack stack argv).map fun (args, _) => ⟨argl, args⟩ else none

inductive Client
  /-- At `Write`. -/
  | sending (p : Part) (l : Loop)
  | inWrite (p : Part) (l : Loop)
  /-- At `ShutDown(sock, SHUTDOWN_WRITE)`. -/
  | shutDown
  /-- At `Exit(1)`. -/
  | exit
  /-- The writing end is closed. -/
  | closed

namespace Client

/-- At `while(count<len)`. -/
def loop (m : Message) (p : Part) (l : Loop) : Client :=
  if l.count < l.len then .sending p l
  else
    match p with
    | .argl => if 0 < m.argl then .sending .args ⟨m.args, m.argl, 0⟩ else .shutDown
    | .args => .shutDown

/-- `send_message(sock, &argl, sizeof(argl))`. -/
def start (m : Message) (stack : Memory) : Client :=
  loop m .argl ⟨stack.write 0 (leBytes sizeofInt m.argl), sizeofInt, 0⟩

/-- `Write` returns `rc`. -/
def written (m : Message) (rc : Int) : Client → Client
  | .inWrite p l =>
    if 1 ≤ rc then loop m p (l.add rc)
    else if l.count ≠ l.len then .exit
    else loop m p l
  | c => c

end Client

/-! ## `rsrv_client` -/

inductive Server
  /-- At `Read`. -/
  | receiving (p : Part) (l : Loop)
  | inRead (p : Part) (l : Loop)
  /-- At `finish`, with no request received. -/
  | finish
  /-- The assertion on `argl` has failed. -/
  | failed
  /-- A read past the end of `args`. -/
  | overrun
  /-- At `Execute`, with these arguments after the first two. -/
  | execute (argc : Nat) (argv : List Ptr)

namespace Server

/-- The request in `args`. -/
def unpack (l : Loop) : Server :=
  let args := l.buf.read 0 l.len
  match (argscount l.len args).bind fun argc => (argvunpack argc args).map fun (argv, _) => (argc, argv) with
  | some (argc, argv) => .execute argc argv
  | none => .overrun

/-- At `while(count<len)`; the stack is what `args` is made of. -/
def loop (stack : Memory) (p : Part) (l : Loop) : Server :=
  if l.count < l.len then .receiving p l
  else
    match p with
    | .argl =>
      let argl := (BitVec.ofNat 32 (l.buf.load 0 sizeofInt)).toInt
      if 0 < argl ∧ argl ≤ 2048 then .receiving .args ⟨stack, argl.toNat, 0⟩ else .failed
    | .args => unpack l

/-- `Read` returns `rc`. -/
def read (stack : Memory) (buf : Int → UInt8) (rc : Int) : Server → Server
  | .inRead p l =>
    if 1 ≤ rc then loop stack p ((l.fill buf).add rc)
    else if l.count ≠ l.len then .finish
    else loop stack p (l.fill buf)
  | s => s

end Server

/-! ## The system -/

structure State where
  pipe : Pipe.State
  message : Message
  /-- What is on the server's stack before `args` is. -/
  stack : Memory
  client : Client
  server : Server

namespace State

/-- A call has returned to its program. -/
def returned (s : State) (r : Pipe.Return) : State :=
  match r.stream with
  | .writer => { s with client := s.client.written s.message r.result }
  | .reader => { s with server := s.server.read s.stack r.buf r.result }

/-- The kernel goes on with a call. -/
def kernel (s : State) (a : Pipe.Action) : Option State :=
  (s.pipe.step a).map fun pipe =>
    match pipe.returns.take (pipe.returns.length - s.pipe.returns.length) with
    | [] => { s with pipe := pipe }
    | r :: _ => { s with pipe := pipe }.returned r

end State

inductive Action
  /-- The client makes its next call. -/
  | client
  /-- The server does. -/
  | server
  /-- The call inside the kernel goes on. -/
  | run (id : Nat)
  /-- A call that has been woken up gets the kernel. -/
  | resume (id : Nat)
  deriving DecidableEq, Repr

namespace State

def step (s : State) : Action → Option State
  | .client =>
    match s.client with
    | .sending p l =>
      (s.pipe.step (.call .writer l.size l.rest)).map fun pipe => { s with pipe := pipe, client := .inWrite p l }
    | .shutDown | .exit => (s.pipe.step (.close .writer)).map fun pipe => { s with pipe := pipe, client := .closed }
    | .inWrite .. | .closed => none
  | .server =>
    match s.server with
    | .receiving p l =>
      (s.pipe.step (.call .reader l.size l.rest)).map fun pipe => { s with pipe := pipe, server := .inRead p l }
    | .inRead .. | .finish | .failed | .overrun | .execute .. => none
  | .run id => s.kernel (.run id)
  | .resume id => s.kernel (.resume id)

/-- The two are connected, and the message is made up. -/
def boot (buffer : Nat → UInt8) (stack : Memory) (m : Message) : State where
  pipe := .boot buffer
  message := m
  stack := stack
  client := .start m stack
  server := .receiving .argl ⟨stack, sizeofInt, 0⟩

end State

/-- The client has the arguments `argv` after its first one. -/
def remote (argv : List Ptr) : Lts State Action where
  init s := ∃ buffer stack m, makeUp argv stack = some m ∧ s = State.boot buffer stack m
  step := State.step

end TinyOS.Remote
