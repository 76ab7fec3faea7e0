import TinyOS.Lib.Bytes
import TinyOS.Proc.Args

/-!
# Programs with arguments

`Execute`, `exec_wrapper` and `ParseProcInfo` of `tinyoslib.c`, with the string vectors of `util.h`. A pointer into an
argument buffer is the memory of the buffer from there on; a step that reads past its end is undefined (`none`).

- `argvunpack_packed`, `argscount_packed`: unpacking what was packed, with anything after it;
- `execute_runs`: the process started by `Execute` calls the program with the same arguments;
- `execute_parses`: `ParseProcInfo` gets them back, but not the program;
- `execute_agrees_iff`: so the two agree exactly when no program is asked for, or it is there already.
-/

namespace TinyOS.Execute

open Proc (Pid Tid Task Call Procinfo ProcinfoCb maxArgsSize)

/-- `Program`: the address of a function. -/
abbrev Program := BitVec 64

/-- `const char*`. -/
abbrev Ptr := List UInt8

/-- `sizeof(prog)`. -/
def sizeofProgram : Nat := 8

/-! ## `util.h` -/

def argvlen (argv : List CString) : Nat := argv.foldl (fun l s => l + (s.chars.length + 1)) 0

/-- The bytes stored in the buffer, and the result. -/
def argvpack (argv : List CString) : List UInt8 × Nat :=
  let (args, argl) := argv.foldl (fun (args, argl) s => (args ++ s.stored, argl + s.chars.length)) ([], 0)
  (args, argl + argv.length)

def argscount (argl : Int) (args : Ptr) : Nat := (args.take argl.toNat).count 0

/-- The pointers stored in the vector, and the result. -/
def argvunpack : Nat → Ptr → Option (List Ptr × Ptr)
  | 0, a => some ([], a)
  | n + 1, a => (CString.skip a).bind fun b => (argvunpack n b).map fun (argv, last) => (a :: argv, last)

/-! ## `tinyoslib.c` -/

/-- The argument buffer of `Execute`. -/
def packArgs (prog : Program) (argv : List CString) : List UInt8 :=
  leBytes sizeofProgram prog.toNat ++ (argvpack argv).1

/-- `memcpy(&prog, args, sizeof(prog))`, and the memory after it. -/
def unpackProgram (args : Ptr) : Option (Program × Ptr) :=
  if sizeofProgram ≤ args.length then
    some (BitVec.ofNat 64 (ofLe (args.take sizeofProgram)), args.drop sizeofProgram)
  else none

/-- A call of a program. -/
structure ProgCall where
  prog : Program
  argc : Nat
  argv : List Ptr

/-- The call that `exec_wrapper` makes. -/
def execWrapper (argl : Int) (args : Ptr) : Option ProgCall :=
  (unpackProgram args).bind fun (prog, args) =>
    let argc := argscount (argl - sizeofProgram) args
    (argvunpack argc args).map fun (argv, _) => ⟨prog, argc, argv⟩

/-- The system call of `Execute`, and the PTCB for the new main thread; `wrapper` is the address of `exec_wrapper`. -/
def execute (wrapper : Task) (tid : Tid) (prog : Program) (argv : List CString) : Call :=
  .exec tid (some wrapper) (BitVec.ofNat 32 (argvlen argv + sizeofProgram)).toInt (some (packArgs prog argv))

/-- What `exec_wrapper` calls in the main thread of `p`, if that is what `start_main_thread` calls. -/
def mainProgram (wrapper : Task) (s : Proc.State) (p : Pid) : Option ProgCall :=
  match (s.pcb p).mainCall with
  | (some task, argl, some args) => if task = wrapper then execWrapper argl args else none
  | _ => none

/-- What `ParseProcInfo` returns, and what is then at `*prog` and in the vector. -/
structure Parsed where
  ret : Int
  prog : Option Program
  argv : Option (List Ptr)

/-- `ParseProcInfo`. `prog` and `argv` are what the pointers point to; `none` if they are `NULL`. -/
def parseProcInfo (wrapper : Task) (pinfo : Procinfo) (prog : Option Program) (argc : BitVec 32)
    (argv : Option (List Ptr)) : Option Parsed :=
  if pinfo.mainTask ≠ some wrapper then some ⟨-1, prog, argv⟩
  else if maxArgsSize < pinfo.argl then some ⟨-1, prog, argv⟩
  else
    -- `memcpy(&prog, args, sizeof(prog))` writes to the parameter `prog` itself, so `*prog` stays as it is
    let args := (List.ofFn pinfo.args).drop sizeofProgram
    let n := argscount (pinfo.argl - sizeofProgram) args
    match argv with
    | none => some ⟨n, prog, none⟩
    | some out =>
      -- `argc>N` compares as `size_t`
      let argc := (BitVec.ofInt 64 argc.toInt).toNat
      let argc := if n < argc then n else argc
      (argvunpack argc args).map fun (ptrs, _) => ⟨n, prog, some (ptrs ++ out.drop ptrs.length)⟩

/-! ## Packing and unpacking -/

variable {argv : List CString} {rest : List UInt8} {prog : Program}

theorem argvlen_eq (argv : List CString) : argvlen argv = (CString.packed argv).length := by
  have h : ∀ (argv : List CString) (l : Nat),
      argv.foldl (fun l s => l + (s.chars.length + 1)) l = l + (CString.packed argv).length := by
    intro argv
    induction argv with
    | nil => exact fun l => rfl
    | cons s argv ih =>
      intro l
      rw [List.foldl_cons, ih, CString.packed_cons, List.length_append, CString.length_stored]
      omega
  rw [argvlen, h, Nat.zero_add]

/-- `argvpack` stores the strings one after the other, and returns how many bytes that takes. -/
theorem argvpack_eq (argv : List CString) : argvpack argv = (CString.packed argv, argvlen argv) := by
  have h : ∀ (argv : List CString) (args : List UInt8) (argl : Nat),
      ∃ n, argv.foldl (fun (x : List UInt8 × Nat) s => (x.1 ++ s.stored, x.2 + s.chars.length)) (args, argl) =
        (args ++ CString.packed argv, n) ∧ n + argv.length = argl + (CString.packed argv).length := by
    intro argv
    induction argv with
    | nil => exact fun args argl => ⟨argl, by simp⟩
    | cons s argv ih =>
      intro args argl
      obtain ⟨n, hfold, hn⟩ := ih (args ++ s.stored) (argl + s.chars.length)
      refine ⟨n, by rw [List.foldl_cons, hfold, CString.packed_cons, List.append_assoc], ?_⟩
      rw [List.length_cons, CString.packed_cons, List.length_append, CString.length_stored]
      omega
  obtain ⟨n, hfold, hn⟩ := h argv [] 0
  unfold argvpack
  rw [hfold, argvlen_eq]
  simp only [List.nil_append, hn, Nat.zero_add]

theorem length_packArgs (prog : Program) (argv : List CString) :
    (packArgs prog argv).length = argvlen argv + sizeofProgram := by
  rw [packArgs, List.length_append, length_leBytes, argvpack_eq, ← argvlen_eq, Nat.add_comm]

theorem argscount_packed (argv : List CString) (rest : List UInt8) :
    argscount (argvlen argv) (CString.packed argv ++ rest) = argv.length := by
  rw [argscount, Int.toNat_natCast, argvlen_eq, List.take_left, CString.count_packed]

/-- The first `n` pointers point to the first `n` strings. -/
theorem argvunpack_packed (rest : List UInt8) {n : Nat} (hn : n ≤ argv.length) :
    ∃ ptrs last, argvunpack n (CString.packed argv ++ rest) = some (ptrs, last) ∧
      ptrs.map CString.pointed = (argv.take n).map CString.chars := by
  induction n generalizing argv with
  | zero => exact ⟨[], _, rfl, by simp⟩
  | succ n ih =>
    cases argv with
    | nil => simp at hn
    | cons s argv =>
      obtain ⟨ptrs, last, hunpack, hptrs⟩ := @ih argv (by simpa using hn)
      refine ⟨(CString.packed (s :: argv) ++ rest) :: ptrs, last, ?_, ?_⟩
      · rw [argvunpack, CString.packed_cons, List.append_assoc, CString.skip_stored, Option.bind_some, hunpack]
        rfl
      · rw [CString.packed_cons, List.append_assoc, List.map_cons, CString.pointed_stored, hptrs]
        rfl

theorem unpackProgram_packArgs (prog : Program) (argv : List CString) :
    unpackProgram (packArgs prog argv) = some (prog, CString.packed argv) := by
  have hlen : (leBytes sizeofProgram prog.toNat).length = sizeofProgram := length_leBytes _ _
  have hle : sizeofProgram ≤ (packArgs prog argv).length := by
    rw [length_packArgs]
    omega
  have hprog : prog.toNat % 256 ^ sizeofProgram = prog.toNat := Nat.mod_eq_of_lt prog.isLt
  rw [unpackProgram, if_pos hle, packArgs, List.take_left' hlen, List.drop_left' hlen, argvpack_eq, ofLe_leBytes, hprog,
    BitVec.ofNat_toNat, BitVec.setWidth_eq]

/-- The call of the program is the one asked for. -/
def ProgCall.Is (call : ProgCall) (prog : Program) (argv : List CString) : Prop :=
  call.prog = prog ∧ call.argc = argv.length ∧ call.argv.map CString.pointed = argv.map CString.chars

theorem execWrapper_packArgs (prog : Program) (argv : List CString) :
    ∃ call, execWrapper ((argvlen argv + sizeofProgram : Nat) : Int) (packArgs prog argv) = some call ∧
      call.Is prog argv := by
  obtain ⟨ptrs, last, hunpack, hptrs⟩ := argvunpack_packed [] (le_refl argv.length)
  have hcount := argscount_packed argv []
  rw [List.append_nil] at hunpack hcount
  have hargl : ((argvlen argv + sizeofProgram : Nat) : Int) - sizeofProgram = argvlen argv := by omega
  refine ⟨⟨prog, argv.length, ptrs⟩, ?_, rfl, rfl, by rw [hptrs, List.take_length]⟩
  simp only [execWrapper, unpackProgram_packArgs, Option.bind_some, hargl, hcount, hunpack, Option.map_some]

/-- The first entries of the vector point to the strings, as many as there are of both; the others are as before. -/
def Filled (argv : List CString) (old new : List Ptr) : Prop :=
  let n := min old.length argv.length
  new.length = old.length ∧ (new.take n).map CString.pointed = (argv.take n).map CString.chars ∧
    new.drop n = old.drop n

/-- What `ParseProcInfo` makes of a record with packed arguments. -/
theorem parseProcInfo_packArgs {wrapper : Task} {r : Procinfo} (hmain : r.mainTask = some wrapper)
    (hargl : r.argl = ((argvlen argv + sizeofProgram : Nat) : Int)) (hsize : argvlen argv + sizeofProgram ≤ maxArgsSize)
    (hargs : packArgs prog argv <+: List.ofFn r.args) (loc : Option Program) {argc : BitVec 32}
    {out : Option (List Ptr)} (hargc : ∀ vec ∈ out, argc.toInt = vec.length) :
    ∃ out', parseProcInfo wrapper r loc argc out = some ⟨argv.length, loc, out'⟩ ∧
      ∀ vec ∈ out, ∃ vec' ∈ out', Filled argv vec vec' := by
  obtain ⟨rest, hrest⟩ := hargs
  have hlen : (leBytes sizeofProgram prog.toNat).length = sizeofProgram := length_leBytes _ _
  have hmem : (List.ofFn r.args).drop sizeofProgram = CString.packed argv ++ rest := by
    rw [← hrest, packArgs, argvpack_eq, List.append_assoc, List.drop_left' hlen]
  have hargl' : r.argl - sizeofProgram = argvlen argv := by omega
  have hshort : ¬(maxArgsSize : Int) < r.argl := by omega
  simp only [parseProcInfo, hmain, ne_eq, not_true_eq_false, if_false, hshort, hmem, hargl', argscount_packed]
  cases out with
  | none => exact ⟨none, rfl, by simp⟩
  | some vec =>
    have hvec : (BitVec.ofInt 64 argc.toInt).toNat = vec.length := by
      have h := hargc vec rfl
      have hlt := BitVec.toInt_lt (x := argc)
      rw [h, BitVec.ofInt_natCast, BitVec.toNat_ofNat]
      exact Nat.mod_eq_of_lt (by omega)
    have hmin : (if argv.length < vec.length then argv.length else vec.length) = min vec.length argv.length := by
      split <;> omega
    obtain ⟨ptrs, last, hunpack, hptrs⟩ := argvunpack_packed rest (Nat.min_le_right vec.length argv.length)
    have hptrslen : ptrs.length = min vec.length argv.length := by
      have := congrArg List.length hptrs
      simpa using this
    refine ⟨some (ptrs ++ vec.drop ptrs.length), ?_, fun v hv => ⟨_, rfl, ?_⟩⟩
    · simp only [hvec, hmin, hunpack, Option.map_some]
    · cases hv
      refine ⟨?_, ?_, ?_⟩
      · rw [List.length_append, List.length_drop]
        omega
      · rw [← hptrslen, List.take_left, hptrs, hptrslen]
      · rw [← hptrslen, List.drop_left]

/-! ## The process -/

section Process

variable {wrapper : Task} {s s' t : Proc.State} {i : Proc.ThreadId} {tid : Tid} {p : Pid} {as : List Proc.Action}
  {cb cb' : ProcinfoCb} {r : Procinfo}

/-- `Execute` returns `p`: the PCB of `p` has the call of `exec_wrapper`. -/
theorem execute_mainCall (hsize : argvlen argv + sizeofProgram ≤ maxArgsSize)
    (hs : s.step (.call i (execute wrapper tid prog argv)) = some s')
    (hret : (s'.threads[i]?).map Proc.Thread.ret = some (p.val : Int)) :
    (s'.pcb p).mainCall =
      (some wrapper, ((argvlen argv + sizeofProgram : Nat) : Int), some (packArgs prog argv)) := by
  have hargl : (BitVec.ofNat 32 (argvlen argv + sizeofProgram)).toInt = ((argvlen argv + sizeofProgram : Nat) : Int) := by
    have hmax : maxArgsSize = 128 := rfl
    rw [BitVec.toInt_eq_toNat_of_lt, BitVec.toNat_ofNat, Nat.mod_eq_of_lt]
    · omega
    · rw [BitVec.toNat_ofNat]
      omega
  obtain ⟨j, c, th, hc, hi, hplace, he⟩ | ⟨j, w, th, hc, -⟩ := Proc.State.step_cases hs
  · cases hc
    simp only [execute, Proc.State.perform, hargl] at he
    split at he
    · cases hx : s.sysExec th.ownerPcb tid (some wrapper) ((argvlen argv + sizeofProgram : Nat) : Int)
          (some (packArgs prog argv)) with
      | mk q s₁ =>
        rw [hx] at he
        cases he
        rw [Proc.State.ret, List.getElem?_modify_eq] at hret
        obtain ⟨_, hmod, hq⟩ := Option.map_eq_some_iff.1 hret
        obtain ⟨_, -, rfl⟩ := Option.map_eq_some_iff.1 hmod
        cases q with
        | none =>
          have hq : Proc.noproc = (p.val : Int) := hq
          exact absurd hq (by unfold Proc.noproc; omega)
        | some q =>
          have hq : (q.val : Int) = p.val := hq
          rw [show q = p from Fin.ext (by omega)] at hx
          have hcall := Proc.State.sysExec_mainCall hx
          exact hcall
    · cases he
  · cases hc

/-- As long as the process lives, its PCB has this call. -/
theorem executed_mainCall (hsize : argvlen argv + sizeofProgram ≤ maxArgsSize)
    (hs : s.step (.call i (execute wrapper tid prog argv)) = some s')
    (hret : (s'.threads[i]?).map Proc.Thread.ret = some (p.val : Int)) (hrun : Proc.system.run s' as = some t)
    (hser : t.serial p = s'.serial p) (hal : t.tree.pstate p = .alive) :
    (t.pcb p).mainCall =
      (some wrapper, ((argvlen argv + sizeofProgram : Nat) : Int), some (packArgs prog argv)) :=
  ((Proc.State.run_lasts p hrun).same hser hal).2.trans (execute_mainCall hsize hs hret)

/-- The arguments fit in a record of the process. -/
theorem execute_argsFitIn
    (hcall : (t.pcb p).mainCall =
      (some wrapper, ((argvlen argv + sizeofProgram : Nat) : Int), some (packArgs prog argv)))
    (hsize : argvlen argv + sizeofProgram ≤ maxArgsSize) : t.ArgsFitIn p := by
  simp only [Proc.Pcb.mainCall, Prod.mk.injEq] at hcall
  obtain ⟨-, hargl, hargs⟩ := hcall
  intro args h
  rw [hargs, Option.some.injEq] at h
  rw [← h, length_packArgs]
  exact ⟨hargl, hsize⟩

/-- Its main thread calls the program with these arguments. -/
theorem execute_runs
    (hcall : (t.pcb p).mainCall =
      (some wrapper, ((argvlen argv + sizeofProgram : Nat) : Int), some (packArgs prog argv))) :
    ∃ call, mainProgram wrapper t p = some call ∧ call.Is prog argv := by
  obtain ⟨call, hexec, his⟩ := execWrapper_packArgs prog argv
  exact ⟨call, by simp only [mainProgram, hcall, if_true, hexec], his⟩

/-- `ParseProcInfo` returns the number of arguments and fills the vector, but leaves `*prog` as it is. -/
theorem execute_parses
    (hcall : (t.pcb p).mainCall =
      (some wrapper, ((argvlen argv + sizeofProgram : Nat) : Int), some (packArgs prog argv)))
    (hsize : argvlen argv + sizeofProgram ≤ maxArgsSize) (hp : t.FirstInUse cb.ptCursor p)
    (hr : t.procinfoRead false cb = some (some r, cb')) (loc : Option Program) {argc : BitVec 32}
    {out : Option (List Ptr)} (hargc : ∀ vec ∈ out, argc.toInt = vec.length) :
    ∃ out', parseProcInfo wrapper r loc argc out = some ⟨argv.length, loc, out'⟩ ∧
      ∀ vec ∈ out, ∃ vec' ∈ out', Filled argv vec vec' := by
  obtain ⟨hmain, hargl, hargs⟩ := Proc.State.procinfoRead_main hp hcall hr
  exact parseProcInfo_packArgs hmain hargl hsize hargs loc hargc

/-- In `t`, the process `p` runs the program, and `ParseProcInfo` on a record `r` of it gets the program and the
arguments back. -/
structure Agrees (wrapper : Task) (prog : Program) (argv : List CString) (t : Proc.State) (p : Pid) (r : Procinfo)
    (loc : Option Program) (argc : BitVec 32) (out : Option (List Ptr)) : Prop where
  runs : ∃ call, mainProgram wrapper t p = some call ∧ call.Is prog argv
  parses : ∃ res, parseProcInfo wrapper r loc argc out = some res ∧ res.ret = argv.length ∧
    (∀ q ∈ loc, res.prog = some prog) ∧ ∀ vec ∈ out, ∃ vec' ∈ res.argv, Filled argv vec vec'

/-- `Execute` and `ParseProcInfo` agree exactly when the program is not asked for, or its location holds it already. -/
theorem execute_agrees_iff (hsize : argvlen argv + sizeofProgram ≤ maxArgsSize)
    (hs : s.step (.call i (execute wrapper tid prog argv)) = some s')
    (hret : (s'.threads[i]?).map Proc.Thread.ret = some (p.val : Int)) (hrun : Proc.system.run s' as = some t)
    (hser : t.serial p = s'.serial p) (hal : t.tree.pstate p = .alive) (hp : t.FirstInUse cb.ptCursor p)
    (hr : t.procinfoRead false cb = some (some r, cb')) (loc : Option Program) (argc : BitVec 32)
    (out : Option (List Ptr)) (hargc : ∀ vec ∈ out, argc.toInt = vec.length) :
    Agrees wrapper prog argv t p r loc argc out ↔ loc = none ∨ loc = some prog := by
  have hcall := executed_mainCall hsize hs hret hrun hser hal
  obtain ⟨out', hparse, hfill⟩ := execute_parses hcall hsize hp hr loc hargc
  constructor
  · rintro ⟨-, res, hres, -, hprog, -⟩
    cases hparse.symm.trans hres
    cases loc with
    | none => exact .inl rfl
    | some q => exact .inr (hprog q rfl)
  · intro hloc
    refine ⟨execute_runs hcall, _, hparse, rfl, fun q hq => ?_, hfill⟩
    rcases hloc with rfl | rfl
    · cases hq
    · rfl

end Process

/-! ## A program with one argument -/

/-- The argument "a". -/
def argA : CString := ⟨[97], by decide⟩

/-- Init executes the program at 5, and the new process 2 is read from an info stream. -/
theorem exists_record : ∃ s' cb r cb', (Proc.State.boot 1 0 0 none).step (.call 0 (execute 7 2 5 [argA])) = some s' ∧
    (s'.threads[0]?).map Proc.Thread.ret = some 2 ∧ s'.tree.pstate ⟨2, by decide⟩ = .alive ∧
    s'.FirstInUse cb.ptCursor ⟨2, by decide⟩ ∧ s'.procinfoRead false cb = some (some r, cb') := by
  have hstep : ((Proc.State.boot 1 0 0 none).step (.call 0 (execute 7 2 5 [argA]))).map (fun s' =>
      ((s'.threads[0]?).map Proc.Thread.ret, s'.tree.pstate ⟨2, by decide⟩)) = some (some 2, .alive) := by
    decide +kernel
  obtain ⟨s', hs, hres⟩ := Option.map_eq_some_iff.1 hstep
  obtain ⟨hret, hal⟩ := Prod.mk.inj hres
  have huse : s'.InUse ⟨2, by decide⟩ := fun hfree => by
    rw [hal] at hfree
    cases hfree
  have hfit := execute_argsFitIn (execute_mainCall (p := ⟨2, by decide⟩) (by decide) hs hret) (by decide)
  let cb : ProcinfoCb := ⟨Proc.State.noRecord.processInfo, 2⟩
  have hq : s'.skipFree ⟨cb.ptCursor, by decide⟩ = some ⟨2, by decide⟩ := Proc.State.skipFree_of_used huse
  obtain ⟨r, hr, -⟩ := Proc.State.procinfoRead_of_skipFree hfit _ hq huse
  exact ⟨s', cb, r, _, hs, hret, hal, ⟨le_refl 2, huse, fun u hu hlt => absurd hlt (not_lt.2 hu)⟩, hr⟩

/-- Nobody asks for the program, and there is room for two arguments. -/
theorem execute_agrees_iff_one : ∃ t r, Agrees 7 5 [argA] t ⟨2, by decide⟩ r none 2 (some [[], []]) := by
  obtain ⟨s', cb, r, cb', hs, hret, hal, hp, hr⟩ := exists_record
  have hrun : Proc.system.run s' [] = some s' := rfl
  have hargc : ∀ vec ∈ some [[], ([] : Ptr)], (2 : BitVec 32).toInt = vec.length := fun vec hvec => by
    cases hvec
    decide
  exact ⟨s', r, (execute_agrees_iff (by decide) hs hret hrun rfl hal hp hr none 2 _ hargc).2 (.inl rfl)⟩

/-- The location that is to get the program holds 0 before and after. -/
theorem program_not_stored : ∃ s' cb r cb',
    (Proc.State.boot 1 0 0 none).step (.call 0 (execute 7 2 5 [argA])) = some s' ∧
    (s'.threads[0]?).map Proc.Thread.ret = some 2 ∧ s'.tree.pstate ⟨2, by decide⟩ = .alive ∧
    s'.FirstInUse cb.ptCursor ⟨2, by decide⟩ ∧ s'.procinfoRead false cb = some (some r, cb') ∧
    ¬Agrees 7 5 [argA] s' ⟨2, by decide⟩ r (some 0) 0 none := by
  obtain ⟨s', cb, r, cb', hs, hret, hal, hp, hr⟩ := exists_record
  refine ⟨s', cb, r, cb', hs, hret, hal, hp, hr, ?_⟩
  rintro ⟨-, res, hres, -, hprog, -⟩
  have hargc : ∀ vec ∈ (none : Option (List Ptr)), (0 : BitVec 32).toInt = vec.length := by simp
  have hcall := execute_mainCall (p := ⟨2, by decide⟩) (by decide) hs hret
  obtain ⟨out', hparse, -⟩ := execute_parses hcall (by decide) hp hr (some 0) hargc
  cases hparse.symm.trans hres
  exact absurd (hprog 0 rfl) (by simp)

end TinyOS.Execute
