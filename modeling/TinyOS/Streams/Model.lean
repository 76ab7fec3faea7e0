import Mathlib.Logic.Function.Basic
import Mathlib.Order.Fin.Basic
import Mathlib.Tactic.Common

/-!
# Streams

The file control blocks of `kernel_streams.c`, and the functions that change the file table of one process. The `Close`
methods of the drivers are counted and not modelled; none of them gives up the kernel.
-/

namespace TinyOS.Streams

def maxProc : Nat := 65536

def maxFiles : Nat := maxProc

def maxFileid : Nat := 16

/-- `FCB*`: an index into `FT`. -/
abbrev FcbPtr := Fin maxFiles

/-- A legal `Fid_t`. -/
abbrev Fid := Fin maxFileid

theorem zero_lt_maxFileid : 0 < maxFileid := by decide

theorem one_lt_maxFileid : 1 < maxFileid := by decide

theorem two_lt_maxFileid : 2 < maxFileid := by decide

/-- The `file_ops` objects. -/
inductive FileOps
  | null
  | serial
  | pipeReader
  | pipeWriter
  | socket
  | procInfo
  deriving DecidableEq, Repr

/-- `Read` is not `NULL`. -/
def FileOps.hasRead : FileOps → Bool
  | .pipeWriter => false
  | _ => true

/-- `Write` is not `NULL`. -/
def FileOps.hasWrite : FileOps → Bool
  | .pipeReader | .procInfo => false
  | _ => true

/-- The method that `sys_Write` or `sys_Read` calls is not `NULL`. -/
def FileOps.hasMethod (ops : FileOps) (write : Bool) : Bool := if write then ops.hasWrite else ops.hasRead

structure Fcb where
  refcount : Nat
  streamfunc : Option FileOps
  /-- How often a stream has been attached to this block, and how often its `Close` method has been called. -/
  opened : Nat
  closed : Nat
  deriving DecidableEq, Repr

/-- `FT` and `FCB_freelist`. -/
structure Files where
  fcb : FcbPtr → Fcb
  freelist : List FcbPtr

/-- `FIDT`. -/
abbrev Fidt := Fid → Option FcbPtr

namespace Files

def setFcb (s : Files) (f : FcbPtr) (x : Fcb) : Files := { s with fcb := Function.update s.fcb f x }

/-- `initialize_files`. -/
def init : Files := ⟨fun _ => ⟨0, none, 0, 0⟩, List.finRange maxFiles⟩

def acquireFcb (s : Files) : Option (FcbPtr × Files) :=
  match s.freelist with
  | [] => none
  | f :: rest => some (f, { s with freelist := rest }.setFcb f { s.fcb f with refcount := 0 })

def releaseFcb (s : Files) (f : FcbPtr) : Files := { s with freelist := s.freelist ++ [f] }

def fcbIncref (s : Files) (f : FcbPtr) : Files := s.setFcb f { s.fcb f with refcount := (s.fcb f).refcount + 1 }

/-- Whether the `Close` method was called, and the state after. -/
def fcbDecref (s : Files) (f : FcbPtr) : Bool × Files :=
  let s := s.setFcb f { s.fcb f with refcount := (s.fcb f).refcount - 1 }
  if (s.fcb f).refcount = 0 then
    (true, (s.setFcb f { s.fcb f with closed := (s.fcb f).closed + 1 }).releaseFcb f)
  else (false, s)

/-- `fcb->streamfunc = ops`, with the stream object. -/
def attach (s : Files) (f : FcbPtr) (ops : FileOps) : Files :=
  s.setFcb f { s.fcb f with streamfunc := some ops, opened := (s.fcb f).opened + 1 }

/-- The second loop of `FCB_reserve`; `acc` holds what it has acquired, the last one first. It gives all of them back if
the blocks run out. -/
def acquireMany : Nat → List FcbPtr → Files → Option (List FcbPtr) × Files
  | 0, acc, s => (some acc.reverse, s)
  | n + 1, acc, s =>
    match s.acquireFcb with
    | some (f, s) => acquireMany n (f :: acc) s
    | none => (none, acc.foldl releaseFcb s)

end Files

/-! ## The file table of a process -/

/-- What the functions below read and write: `CURPROC->FIDT`, and the blocks. -/
structure View where
  fidt : Fidt
  files : Files

/-- The first free fid from `f` on. -/
def nextFree (fidt : Fidt) (f : Nat) : Option Fid := (List.finRange maxFileid).find? fun g => f ≤ g ∧ fidt g = none

/-- The first loop of `FCB_reserve`: `num` distinct fids from `f` on. -/
def findFids (fidt : Fidt) : Nat → Nat → Option (List Fid)
  | _, 0 => some []
  | f, num + 1 =>
    match nextFree fidt f with
    | none => none
    | some g => (findFids fidt (g + 1) num).map (g :: ·)

namespace View

/-- `cur->FIDT[fid] = fcb; FCB_incref(fcb)`. -/
def bind (s : View) (fid : Fid) (f : FcbPtr) : View := ⟨Function.update s.fidt fid (some f), s.files.fcbIncref f⟩

def fcbReserve (s : View) (num : Nat) : Option (List (Fid × FcbPtr)) × View :=
  match findFids s.fidt 0 num with
  | none => (none, s)
  | some fids =>
    match s.files.acquireMany num [] with
    | (none, files) => (none, { s with files := files })
    | (some fcbs, files) => (some (fids.zip fcbs), (fids.zip fcbs).foldl (fun s x => s.bind x.1 x.2) ⟨s.fidt, files⟩)

/-- `FCB_unreserve` of one fid; `none` if its assertion fails. -/
def fcbUnreserve (s : View) (fid : Fid) (f : FcbPtr) : Option View :=
  if s.fidt fid = some f then some ⟨Function.update s.fidt fid none, s.files.releaseFcb f⟩ else none

def getFcb (s : View) (fd : Int) : Option FcbPtr :=
  if h : 0 ≤ fd ∧ fd.toNat < maxFileid then s.fidt ⟨fd.toNat, h.2⟩ else none

/-! ## System calls -/

/-- `retval` is what the `Close` method returns. -/
def sysClose (s : View) (fd : Int) (retval : Int) : Int × View :=
  if h : 0 ≤ fd ∧ fd.toNat < maxFileid then
    match s.fidt ⟨fd.toNat, h.2⟩ with
    | none => (0, s)
    | some f =>
      let (closed, files) := s.files.fcbDecref f
      (if closed then retval else 0, ⟨Function.update s.fidt ⟨fd.toNat, h.2⟩ none, files⟩)
  else (-1, s)

def sysDup2 (s : View) (oldfd newfd : Int) : Int × View :=
  if h : (0 ≤ oldfd ∧ oldfd.toNat < maxFileid) ∧ 0 ≤ newfd ∧ newfd.toNat < maxFileid then
    let new := s.fidt ⟨newfd.toNat, h.2.2⟩
    match s.fidt ⟨oldfd.toNat, h.1.2⟩ with
    | none => (-1, s)
    | some old =>
      if some old ≠ new then
        let files := match new with
          | some f => (s.files.fcbDecref f).2
          | none => s.files
        (0, ⟨Function.update s.fidt ⟨newfd.toNat, h.2.2⟩ (some old), files.fcbIncref old⟩)
      else (0, s)
  else (-1, s)

/-- `sys_Pipe`: the fids of its two ends. -/
def sysPipe (s : View) : Option (Fid × Fid) × View :=
  match s.fcbReserve 2 with
  | (some [(r, f), (w, g)], s) =>
    (some (r, w), { s with files := (s.files.attach f .pipeReader).attach g .pipeWriter })
  | (_, s) => (none, s)

/-- `FCB_reserve` of one fid, and the attachment of a new stream (`sys_Socket`, `sys_OpenInfo`). -/
def openOne (s : View) (ops : FileOps) : Option Fid × View :=
  match s.fcbReserve 1 with
  | (some [(fid, f)], s) => (some fid, { s with files := s.files.attach f ops })
  | (_, s) => (none, s)

def maxPort : Nat := 1023

/-- `sys_Socket` for a port from -32768 to 32767. -/
def sysSocket (s : View) (port : Int) : Option Fid × View :=
  if port < 0 ∨ port > maxPort then (none, s) else s.openOne .socket

def sysOpenInfo (s : View) : Option Fid × View := s.openOne .procInfo

/-- `open_stream` for a device with `devnum` units; `none` if the assertion of `FCB_unreserve` fails. -/
def openStream (s : View) (ops : FileOps) (devnum minor : Nat) : Option (Option Fid × View) :=
  match s.fcbReserve 1 with
  | (some [(fid, f)], s) =>
    if minor ≥ devnum then (s.fcbUnreserve fid f).map (none, ·)
    else some (some fid, { s with files := s.files.attach f ops })
  | (_, s) => some (none, s)

def sysOpenNull (s : View) (devnum : Nat) : Option (Option Fid × View) := s.openStream .null devnum 0

def sysOpenTerminal (s : View) (devnum termno : Nat) : Option (Option Fid × View) := s.openStream .serial devnum termno

/-! ## Exec and exit -/

/-- The loop of `sys_Exec` that copies the file table of the parent, on the table of the new process. -/
def inherit (s : View) (parent : Fidt) : List Fid → View
  | [] => s
  | i :: l =>
    let files := match parent i with
      | some f => s.files.fcbIncref f
      | none => s.files
    inherit ⟨Function.update s.fidt i (parent i), files⟩ parent l

/-- The loop of `sys_ThreadExit` that cleans up the file table. -/
def cleanup (s : View) : List Fid → View
  | [] => s
  | i :: l =>
    match s.fidt i with
    | some f => cleanup ⟨Function.update s.fidt i none, (s.files.fcbDecref f).2⟩ l
    | none => cleanup s l

/-- The slots that the loop has passed are empty. -/
theorem cleanup_fidt (i : Fid) : ∀ (l : List Fid) (v : View), (v.cleanup l).fidt i = if i ∈ l then none else v.fidt i := by
  intro l
  induction l with
  | nil => exact fun v => by simp [cleanup]
  | cons a l ih =>
    intro v
    simp only [cleanup]
    split
    · rw [ih]
      by_cases hia : i = a
      · subst hia
        simp
      · simp [hia]
    · rename_i ha
      rw [ih]
      by_cases hia : i = a
      · subst hia
        simp [ha]
      · simp [hia]

end View

/-- The system calls that work on the file table of the caller and never wait. -/
inductive FileCall
  | close (fd retval : Int)
  | dup2 (oldfd newfd : Int)
  | pipe
  | socket (port : Int)
  | openInfo
  | openNull (devnum : Nat)
  | openTerminal (devnum termno : Nat)

/-- What such a call leaves behind; `none` if its assertion fails. -/
def FileCall.apply (s : View) : FileCall → Option View
  | close fd retval => some (s.sysClose fd retval).2
  | dup2 oldfd newfd => some (s.sysDup2 oldfd newfd).2
  | pipe => some s.sysPipe.2
  | socket port => some (s.sysSocket port).2
  | openInfo => some s.sysOpenInfo.2
  | openNull devnum => (s.sysOpenNull devnum).map (·.2)
  | openTerminal devnum termno => (s.sysOpenTerminal devnum termno).map (·.2)

end TinyOS.Streams
