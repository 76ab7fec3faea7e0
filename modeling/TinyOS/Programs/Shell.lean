import TinyOS.Lib.Interference
import TinyOS.Streams.Tables

/-!
# The shell

`process_line` of the shell, up to where it waits for its children: a program that makes system calls on the file table
of its process, which has one thread. Between two calls the other processes change their own file tables; `calm` worlds
are those where the children of the shell do not, and where there is a PCB for each of them.

- `Keeps`: what the shell knows of its file table; the others keep it, and each call has its effect on it.
-/

namespace TinyOS.Shell

open Interference Streams
open Proc (Pid PidState initPid)

/-! ## The command line -/

/-- What `process_line` prints when it gives up. -/
inductive Complaint
  | emptyFragment
  | commandNotFound (cmdname : String)

/-- The loop that splits up the arguments into fragments. -/
def fragments : List String → List (List String)
  | [] => [[]]
  | arg :: argv => if arg = "|" then [] :: fragments argv else (fragments argv).modifyHead (arg :: ·)

/-- The loop that checks that no fragment is empty and each has a program; `commands` are the names in `COMMANDS`. -/
def check (commands : List String) : List (List String) → Option Complaint
  | [] => none
  | [] :: _ => some .emptyFragment
  | (cmdname :: _) :: frags => if cmdname ∈ commands then check commands frags else some (.commandNotFound cmdname)

/-! ## System calls -/

inductive Call
  | openNull
  | dup2 (oldfd newfd : Int)
  | close (fd : Int)
  | pipe
  /-- `Execute` of the program of a fragment, with its arguments. -/
  | exec (frag : List String)

abbrev Call.Ret : Call → Type
  | openNull => Option Fid
  | pipe => Option (Fid × Fid)
  | exec _ => Option Pid
  | dup2 _ _ | close _ => Int

abbrev Process := Prog Call Call.Ret (Except Complaint (List (Option Pid)))

def savefid (fsaved : Int) (k : Int → Process) : Process :=
  .call .openNull fun
    | none => .abort
    | some savior => .call (.dup2 fsaved savior.val) fun _ => k savior.val

/-- The fids of a new pipe; they stay what they were if there is none. -/
def pipeFids (pipe : Int × Int) : Option (Fid × Fid) → Int × Int
  | some (r, w) => (r.val, w.val)
  | none => pipe

/-- The loop that constructs the pipeline; `child` are the children so far. -/
def construct (savein saveout : Int) : List (List String) → Int × Int → List (Option Pid) → Process
  | [], _, child => .ret (.ok child)
  | [frag], _, child =>
    .call (.dup2 saveout 1) fun _ => .call (.close saveout) fun _ =>
    .call (.exec frag) fun c =>
    .call (.dup2 savein 0) fun _ => .call (.close savein) fun _ =>
    .ret (.ok (child ++ [c]))
  | frag :: next :: frags, pipe, child =>
    .call .pipe fun ends =>
    let pipe := pipeFids pipe ends
    .call (.dup2 pipe.2 1) fun _ => .call (.close pipe.2) fun _ =>
    .call (.exec frag) fun c =>
    .call (.dup2 pipe.1 0) fun _ => .call (.close pipe.1) fun _ =>
    construct savein saveout (next :: frags) pipe (child ++ [c])

/-- `process_line`; `pipe` is what the variable holds at its declaration. -/
def processLine (commands argv : List String) (pipe : Int × Int) : Process :=
  match check commands (fragments argv) with
  | some complaint => .ret (.error complaint)
  | none => savefid 0 fun savein => savefid 1 fun saveout => construct savein saveout (fragments argv) pipe []

/-! ## The shell among other processes -/

abbrev Event := Interference.Event State Call Call.Ret

variable (p : Pid)

/-- The child that a call has made. -/
def child : Event → Option Pid
  | ⟨_, .exec _, c, _⟩ => c
  | _ => none

/-- The blocks of the read end and of the write end of the pipe that a call has made. -/
def ends : Event → Option (FcbPtr × FcbPtr)
  | ⟨_, .pipe, some (r, w), s⟩ =>
    match s.fidt p r, s.fidt p w with
    | some f, some g => some (f, g)
    | _, _ => none
  | _ => none

def children (h : List Event) : List Pid := h.filterMap child

def pipes (h : List Event) : List (FcbPtr × FcbPtr) := h.filterMap (ends p)

/-- The process that makes a call which changes a file table. -/
def caller : Action → Option Pid
  | .exec cur _ => some cur
  | .exit q | .file q _ => some q
  | _ => none

/-- What a call of `p` does. PCBs 0 and 1 are never free while there is a shell. -/
def does (s : State) : (c : Call) → c.Ret → State → Prop
  | .openNull, r, s' => ∃ v, (s.view p).sysOpenNull 1 = some (r, v) ∧ s' = s.setView p v
  | .dup2 oldfd newfd, r, s' =>
    r = ((s.view p).sysDup2 oldfd newfd).1 ∧ s' = s.setView p ((s.view p).sysDup2 oldfd newfd).2
  | .close fd, r, s' =>
    ∃ retval, r = ((s.view p).sysClose fd retval).1 ∧ s' = s.setView p ((s.view p).sysClose fd retval).2
  | .pipe, r, s' => r = (s.view p).sysPipe.1 ∧ s' = s.setView p (s.view p).sysPipe.2
  | .exec _, some c, s' => 1 < c.val ∧ s.sysExec p c = some s'
  | .exec _, none, s' => (∀ c : Pid, 1 < c.val → s.pstate c ≠ .free) ∧ s' = s

def world (calm : Bool) : World State Call Call.Ret where
  does := does p
  others h s s' := ∃ a, s.step a = some s' ∧ caller a ≠ some p ∧
    (calm = true → ∀ c ∈ children h, caller a ≠ some c)

/-- There are enough free blocks for the call, and in a calm world enough free PCBs. -/
def Enough (calm : Bool) (s : State) : Call → Prop
  | .openNull => 1 ≤ s.files.freelist.length
  | .pipe => 2 ≤ s.files.freelist.length
  | .exec _ => calm = true → ∃ c : Pid, 1 < c.val ∧ s.pstate c = .free
  | _ => True

def stdin : Fid := ⟨0, zero_lt_maxFileid⟩

def stdout : Fid := ⟨1, one_lt_maxFileid⟩

theorem stdin_ne_stdout : stdin ≠ stdout := by decide

/-! ## What the shell knows of its file table -/

variable {p : Pid} {F T : Fidt} {h : List Event} {e : Event} {s s' t u : State} {f g : FcbPtr} {i j : Fid} {c : Pid}
  {calm : Bool} {a : Action}

theorem children_append : children (h ++ [e]) = children h ++ (child e).toList := by
  rw [children, List.filterMap_append, List.filterMap_cons, List.filterMap_nil]
  cases child e <;> rfl

theorem pipes_append : pipes p (h ++ [e]) = pipes p h ++ (ends p e).toList := by
  rw [pipes, List.filterMap_append, List.filterMap_cons, List.filterMap_nil]
  cases ends p e <;> rfl

/-- The shell runs, and its file table is `T`; the pipes so far are none of the streams in `F`. -/
structure Keeps (p : Pid) (F T : Fidt) (h : List Event) (s : State) : Prop where
  inv : s.Inv
  alive : s.pstate p = .alive
  fidt : s.fidt p = T
  apart : ∀ e ∈ pipes p h, ∀ i, F i ≠ some e.1 ∧ F i ≠ some e.2

/-- Only its own calls change the file table of a process that runs. -/
theorem owner_ne (hp : s.pstate p = .alive) (hs : s.step a = some s') (ha : caller a ≠ some p) : a.owner ≠ some p := by
  cases State.step_cases hs with
  | first hfree | exec hfree =>
    rintro ⟨⟩
    exact PidState.noConfusion (hfree.symm.trans hp)
  | exit | file => exact ha
  | reap | ioFail | io | ioNone | finish => exact (Option.some_ne_none p).symm

/-- Nobody else makes a process exit. -/
theorem alive_of_step (hp : s.pstate p = .alive) (hs : s.step a = some s') (ha : caller a ≠ some p) :
    s'.pstate p = .alive := by
  cases State.step_cases hs with
  | @first _ q hfree | @exec _ q hfree | @reap q hfree =>
    have hpq : p ≠ q := by
      rintro rfl
      exact PidState.noConfusion (hfree.symm.trans hp)
    exact (Function.update_of_ne hpq _ _).trans hp
  | exit => exact (Function.update_of_ne (fun he => ha (congrArg some he.symm)) _ _).trans hp
  | file | ioFail | io | ioNone | finish => exact hp

theorem keeps_stable : (world p calm).Stable (Keeps p F T) := by
  rintro h s s' hk ⟨a, hs, ha, -⟩
  exact ⟨hk.inv.step hs, alive_of_step hk.alive hs ha,
    (State.fidt_of_step hs (owner_ne hk.alive hs ha)).trans hk.fidt, hk.apart⟩

theorem notMem_free (hinv : s.Inv) (hi : s.fidt p i = some f) : f ∉ s.files.freelist := by
  have hpos : 0 < s.refs f := by
    rw [State.refs_view s p]
    exact Nat.add_pos_left (slots_pos hi) _
  exact (hinv.counted.notMem_free hpos).1

namespace Keeps

/-- A call on the file table that makes no pipe. -/
theorem file {v : View} (call : FileCall) (hk : Keeps p F T h t) (he : call.apply (t.view p) = some v)
    (hpipe : ends p e = none) : Keeps p F v.fidt (h ++ [e]) (t.setView p v) := by
  have hs : t.step (.file p call) = some (t.setView p v) := by
    show (if t.pstate p = .alive then (call.apply (t.view p)).map (t.setView p) else none) = some (t.setView p v)
    rw [if_pos hk.alive, he, Option.map_some]
  refine ⟨hk.inv.step hs, hk.alive, Function.update_self .., ?_⟩
  rw [pipes_append, hpipe, Option.toList_none, List.append_nil]
  exact hk.apart

theorem openNull {r : Option Fid} (hk : Keeps p F T h t) (hfids : 1 ≤ (freeFrom T 0).card)
    (hok : Enough calm t .openNull) (hd : does p t .openNull r u) :
    ∃ i f, r = some i ∧ T i = none ∧ Keeps p F (Function.update T i (some f)) (h ++ [⟨t, .openNull, r, u⟩]) u := by
  obtain ⟨v, hv, rfl⟩ := hd
  have hT : (t.view p).fidt = T := hk.fidt
  rw [← hT] at hfids
  obtain ⟨i, f, v', hv', hi, hfidt, -⟩ := View.sysOpenNull_some hfids hok
  obtain ⟨rfl, rfl⟩ := Prod.mk.inj (Option.some.inj (hv'.symm.trans hv))
  rw [hT] at hi hfidt
  refine ⟨i, f, rfl, hi, ?_⟩
  rw [← hfidt]
  refine hk.file (.openNull 1) ?_ rfl
  show ((t.view p).sysOpenNull 1).map (·.2) = some v'
  rw [hv, Option.map_some]

theorem dup2 {r : Int} (hk : Keeps p F T h t) (hi : T i = some f) (hd : does p t (.dup2 i.val j.val) r u) :
    Keeps p F (Function.update T j (some f)) (h ++ [⟨t, .dup2 i.val j.val, r, u⟩]) u := by
  obtain ⟨-, rfl⟩ := hd
  have hT : (t.view p).fidt = T := hk.fidt
  rw [← hT] at hi
  rw [← hT, ← View.sysDup2_fidt hi]
  exact hk.file (.dup2 i.val j.val) rfl rfl

theorem close {r : Int} (hk : Keeps p F T h t) (hd : does p t (.close i.val) r u) :
    Keeps p F (Function.update T i none) (h ++ [⟨t, .close i.val, r, u⟩]) u := by
  obtain ⟨retval, -, rfl⟩ := hd
  have hT : (t.view p).fidt = T := hk.fidt
  rw [← hT, ← View.sysClose_fidt (t.view p) i retval]
  exact hk.file (.close i.val retval) rfl rfl

theorem exec {frag : List String} {r : Option Pid} (hk : Keeps p F T h t) (hd : does p t (.exec frag) r u) :
    Keeps p F T (h ++ [⟨t, .exec frag, r, u⟩]) u := by
  have hpipes : pipes p (h ++ [⟨t, .exec frag, r, u⟩]) = pipes p h := by
    rw [pipes_append]
    exact List.append_nil _
  cases r with
  | none =>
    obtain ⟨-, rfl⟩ := hd
    exact ⟨hk.inv, hk.alive, hk.fidt, hpipes ▸ hk.apart⟩
  | some c =>
    obtain ⟨-, he⟩ := hd
    have hfree : t.pstate c = .free := by
      simp only [State.sysExec, Option.ite_none_right_eq_some] at he
      exact he.1.1
    have hcp : c ≠ p := by
      rintro rfl
      exact PidState.noConfusion (hfree.symm.trans hk.alive)
    refine ⟨hk.inv.sysExec he, ?_, ?_, hpipes ▸ hk.apart⟩
    · simp only [State.sysExec, Option.ite_none_right_eq_some, Option.some.injEq] at he
      obtain ⟨-, rfl⟩ := he
      split <;> exact (Function.update_of_ne hcp.symm _ _).trans hk.alive
    · exact (State.fidt_of_step (a := .exec p c) he fun ho => hcp (Option.some.inj ho)).trans hk.fidt

/-- A new pipe: its blocks were free, so they are in no file table. -/
theorem pipe {r : Option (Fid × Fid)} (hk : Keeps p F T h t) (hF : ∀ i f, F i = some f → ∃ j, T j = some f)
    (hfids : 2 ≤ (freeFrom T 0).card) (hok : Enough calm t .pipe) (hd : does p t .pipe r u) :
    ∃ i j f g, r = some (i, j) ∧ (i ≠ j ∧ T i = none ∧ T j = none) ∧
      (f ≠ g ∧ f ∈ t.files.freelist ∧ g ∈ t.files.freelist) ∧
      ends p ⟨t, .pipe, r, u⟩ = some (f, g) ∧ (∀ q, q ≠ p → u.fidt q = t.fidt q) ∧
      Keeps p F (Function.update (Function.update T i (some f)) j (some g)) (h ++ [⟨t, .pipe, r, u⟩]) u := by
  obtain ⟨rfl, rfl⟩ := hd
  have hT : (t.view p).fidt = T := hk.fidt
  rw [← hT] at hfids
  have hn : (t.view p).files.freelist.Nodup := by
    have := hk.inv.counted.nodup
    rwa [List.append_nil] at this
  obtain ⟨i, j, f, g, v, hv, ⟨hij, hi, hj⟩, ⟨hfg, hf, hg⟩, hfidt, -⟩ := View.sysPipe_some hfids hok hn
  rw [hT] at hi hj hfidt
  have hends : ends p ⟨t, .pipe, some (i, j), t.setView p v⟩ = some (f, g) := by
    have hv' : (t.setView p v).fidt p = v.fidt := Function.update_self ..
    simp only [ends, hv', hfidt, Function.update_self, Function.update_of_ne hij]
  have hs : t.step (.file p .pipe) = some (t.setView p v) := by
    show (if t.pstate p = .alive then some (t.setView p (t.view p).sysPipe.2) else none) = _
    rw [if_pos hk.alive, hv]
  have hfree : ∀ {x i}, x ∈ t.files.freelist → F i ≠ some x := by
    intro x i hx hi
    obtain ⟨j, hj⟩ := hF i x hi
    exact notMem_free hk.inv (hk.fidt.symm ▸ hj) hx
  rw [hv]
  refine ⟨i, j, f, g, rfl, ⟨hij, hi, hj⟩, ⟨hfg, hf, hg⟩, hends, fun q hq => Function.update_of_ne hq _ _,
    hk.inv.step hs, hk.alive, (Function.update_self ..).trans hfidt, ?_⟩
  rw [pipes_append, hends, Option.toList_some]
  intro e he i
  rcases List.mem_append.1 he with he | he
  · exact hk.apart e he i
  · obtain rfl := List.mem_singleton.1 he
    exact ⟨hfree hf, hfree hg⟩

end Keeps

end TinyOS.Shell
