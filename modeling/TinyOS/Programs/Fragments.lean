import TinyOS.Programs.Shell

/-!
# The fragments of a command line

The first two loops of `process_line`, with its arrays: one splits up the line, the other looks for the programs. They are
`fragments` and `check` of `TinyOS.Shell`.

- `splitLoop_eq`: from any point on, the first loop completes the fragment that it is in, and finds the others;
- `checkLoop_eq`: the second one finds what `check` does;
- `splits_iff`: all of this, if the arrays are long enough for the fragments.
-/

namespace TinyOS.Shell

/-! ## The loops -/

/-- `Vargc` and `Vargv` of a line of `argc` arguments, and `frag`. An element that has not been written is `none`, and
`argv+k` is the number `k`. -/
structure Arrays (argc : Nat) where
  vargc : Fin argc → Option Nat
  vargv : Fin argc → Option Nat
  frag : Nat

variable {argc : Nat}

/-- One turn of the loop that splits up the arguments; `none` outside the arrays. -/
def splitStep (x : Arrays argc) (i : Nat) (arg : String) : Option (Arrays argc) :=
  if arg ≠ "|" then
    if h : x.frag < argc then
      (x.vargc ⟨x.frag, h⟩).map fun n =>
        { x with
          vargc := Function.update x.vargc ⟨x.frag, h⟩ (some (n + 1))
          vargv := if n + 1 = 1 then Function.update x.vargv ⟨x.frag, h⟩ (some i) else x.vargv }
    else none
  else if h : x.frag + 1 < argc then
    some { x with vargc := Function.update x.vargc ⟨x.frag + 1, h⟩ (some 0), frag := x.frag + 1 }
  else none

def splitLoop (x : Arrays argc) (i : Nat) : List String → Option (Arrays argc)
  | [] => some x
  | arg :: argv => (splitStep x i arg).bind fun x => splitLoop x (i + 1) argv

/-- All turns; there are `frag + 1` fragments then. -/
def split (argv : List String) : Option (Arrays argv.length) :=
  if h : 0 < argv.length then
    splitLoop ⟨Function.update (fun _ => none) ⟨0, h⟩ (some 0), fun _ => none, 0⟩ 0 argv
  else none

/-- The loop that checks the fragments from `i` on, of which `left` are left, and looks for their programs; `none` outside
the arrays. -/
def checkLoop (commands argv : List String) (x : Arrays argc) (i : Nat) :
    Nat → List Nat → Option (Except Complaint (List Nat))
  | 0, comd => some (.ok comd)
  | left + 1, comd =>
    if h : i < argc then
      (x.vargc ⟨i, h⟩).bind fun n =>
        if n = 0 then some (.error .emptyFragment)
        else
          (x.vargv ⟨i, h⟩).bind fun k =>
            argv[k]?.bind fun cmdname =>
              match commands.idxOf? cmdname with
              | none => some (.error (.commandNotFound cmdname))
              | some c => checkLoop commands argv x (i + 1) left (comd ++ [c])
    else none

/-- The fragment `j`. -/
def Arrays.fragment (x : Arrays argc) (argv : List String) (j : Nat) : Option (List String) :=
  if h : j < argc then
    (x.vargc ⟨j, h⟩).bind fun n =>
      if n = 0 then some []
      else (x.vargv ⟨j, h⟩).bind fun k => if k + n ≤ argv.length then some ((argv.drop k).take n) else none
  else none

/-! ## Splitting -/

theorem fragments_eq (argv : List String) : fragments argv = argv.splitOn "|" := by
  induction argv with
  | nil => rfl
  | cons arg argv ih =>
    rw [fragments, List.splitOn_cons_eq_if_modifyHead, ih]
    simp only [beq_iff_eq]

theorem length_fragments (argv : List String) : (fragments argv).length = argv.count "|" + 1 := by
  induction argv with
  | nil => rfl
  | cons arg argv ih =>
    rw [fragments, List.count_cons]
    by_cases h : arg = "|"
    · simp [h, ih]
    · simp [h, ih]

variable {x : Arrays argc} {argv rest : List String} {i j n k : Nat} {arg : String} {D : List (List String)}
  {C : List String}

/-- Before the argument `i`: the fragments `D` are complete, and `C` is the beginning of the next one. -/
structure Filled (argv : List String) (i : Nat) (D : List (List String)) (C : List String) (x : Arrays argc) : Prop where
  le : i ≤ argv.length
  lt : D.length < argc
  frag : x.frag = D.length
  done : ∀ j < D.length, x.fragment argv j = D[j]?
  count : x.vargc ⟨D.length, lt⟩ = some C.length
  current : C ≠ [] → ∃ k, x.vargv ⟨D.length, lt⟩ = some k ∧ k + C.length = i ∧ (argv.drop k).take C.length = C

theorem fragment_congr (x' x : Arrays argc)
    (h : ∀ hj : j < argc, x'.vargc ⟨j, hj⟩ = x.vargc ⟨j, hj⟩ ∧ x'.vargv ⟨j, hj⟩ = x.vargv ⟨j, hj⟩) :
    x'.fragment argv j = x.fragment argv j := by
  unfold Arrays.fragment
  split
  · rename_i hj
    rw [(h hj).1, (h hj).2]
  · rfl

theorem Filled.fragment (hx : Filled argv i D C x) : x.fragment argv D.length = some C := by
  rw [Arrays.fragment, dif_pos hx.lt, hx.count, Option.bind_some]
  split
  · rename_i hC
    rw [List.length_eq_zero_iff.1 hC]
  · rename_i hC
    obtain ⟨k, hk, hki, htake⟩ := hx.current fun h => hC (List.length_eq_zero_iff.2 h)
    rw [hk, Option.bind_some, if_pos (hki.trans_le hx.le), htake]

/-- An argument of the fragment. -/
theorem Filled.add (hx : Filled argv i D C x) (harg : argv[i]? = some arg) (hne : arg ≠ "|") :
    ∃ x', splitStep x i arg = some x' ∧ Filled argv (i + 1) D (C ++ [arg]) x' := by
  have hlt : x.frag < argc := hx.frag ▸ hx.lt
  have hi : i < argv.length := (List.getElem?_eq_some_iff.1 harg).1
  have hcount : x.vargc ⟨x.frag, hlt⟩ = some C.length := by simp only [hx.frag, hx.count]
  rw [splitStep, if_pos hne, dif_pos hlt, hcount]
  refine ⟨_, rfl, hi, hx.lt, hx.frag, fun j hj => ?_, ?_, fun _ => ?_⟩
  · have hne : ∀ hj : j < argc, (⟨j, hj⟩ : Fin argc) ≠ ⟨x.frag, hlt⟩ := fun _ h => by
      have := congrArg Fin.val h
      simp only [hx.frag] at this
      omega
    rw [← hx.done j hj]
    refine fragment_congr _ x fun hj => ⟨Function.update_of_ne (hne hj) _ _, ?_⟩
    dsimp only
    split
    · exact Function.update_of_ne (hne hj) _ _
    · rfl
  · simp [hx.frag]
  · dsimp only
    by_cases hC : C = []
    · subst hC
      refine ⟨i, by simp [hx.frag], rfl, ?_⟩
      simp [List.take_add_one, harg]
    · have hlen : ¬C.length + 1 = 1 := fun h => hC (List.length_eq_zero_iff.1 (by omega))
      obtain ⟨k, hk, hki, htake⟩ := hx.current hC
      refine ⟨k, by rw [if_neg hlen]; exact hk, by rw [List.length_append, ← hki]; rfl, ?_⟩
      have hnext : (argv.drop k)[C.length]? = some arg := by rw [List.getElem?_drop, hki, harg]
      rw [List.length_append, List.length_singleton, List.take_add_one, htake, hnext]
      rfl

/-- The end of the fragment. -/
theorem Filled.next (hx : Filled argv i D C x) (hi : i < argv.length) (hlt : D.length + 1 < argc) :
    ∃ x', splitStep x i "|" = some x' ∧ Filled argv (i + 1) (D ++ [C]) [] x' := by
  have hlt' : x.frag + 1 < argc := hx.frag ▸ hlt
  rw [splitStep, if_neg (not_not.2 rfl), dif_pos hlt']
  have hlen : (D ++ [C]).length = D.length + 1 := by rw [List.length_append, List.length_singleton]
  refine ⟨_, rfl, hi, by rwa [hlen], (congrArg (· + 1) hx.frag).trans hlen.symm, fun j hj => ?_, ?_,
    fun h => absurd rfl h⟩
  · rw [hlen] at hj
    have hne : ∀ hj' : j < argc, (⟨j, hj'⟩ : Fin argc) ≠ ⟨x.frag + 1, hlt'⟩ := fun _ h => by
      have := congrArg Fin.val h
      simp only [hx.frag] at this
      omega
    refine (fragment_congr ⟨Function.update x.vargc ⟨x.frag + 1, hlt'⟩ (some 0), x.vargv, x.frag + 1⟩ x fun hj' =>
      ⟨Function.update_of_ne (hne hj') _ _, rfl⟩).trans ?_
    rcases Nat.lt_succ_iff_lt_or_eq.1 hj with hj | rfl
    · rw [hx.done j hj, List.getElem?_append_left hj]
    · rw [hx.fragment, List.getElem?_concat_length]
  · simp [hx.frag]

/-- No room for another fragment. -/
theorem Filled.outside (hx : Filled argv i D C x) (hge : argc ≤ D.length + 1) : splitStep x i "|" = none := by
  rw [splitStep, if_neg (not_not.2 rfl), dif_neg (by rw [hx.frag]; omega)]

theorem next_of_drop (h : argv.drop i = arg :: rest) : argv[i]? = some arg ∧ argv.drop (i + 1) = rest := by
  constructor
  · have hhead := congrArg (·[0]?) h
    simpa using hhead
  · rw [← List.tail_drop, h, List.tail_cons]

/-- From any argument on, the loop completes the fragment that it is in, and finds the others. -/
theorem splitLoop_eq (hx : Filled argv i D C x) (hrest : argv.drop i = rest) (hroom : D.length + rest.count "|" < argc) :
    ∃ x' D' C', splitLoop x i rest = some x' ∧ Filled argv argv.length D' C' x' ∧
      D' ++ [C'] = D ++ (fragments rest).modifyHead (C ++ ·) := by
  induction rest generalizing i D C x with
  | nil =>
    obtain rfl : i = argv.length := Nat.le_antisymm hx.le (List.drop_eq_nil_iff.1 hrest)
    exact ⟨x, D, C, rfl, hx, by simp [fragments]⟩
  | cons arg rest ih =>
    obtain ⟨harg, hnext⟩ := next_of_drop hrest
    rw [splitLoop]
    by_cases hbar : arg = "|"
    · subst hbar
      rw [List.count_cons_self] at hroom
      obtain ⟨x₁, hx₁, hfill⟩ := hx.next (List.getElem?_eq_some_iff.1 harg).1 (by omega)
      obtain ⟨x', D', C', hloop, hfill', hall⟩ := ih hfill hnext (by rw [List.length_append, List.length_singleton]; omega)
      refine ⟨x', D', C', by rw [hx₁, Option.bind_some, hloop], hfill', ?_⟩
      rw [hall, fragments, if_pos rfl]
      cases fragments rest <;> simp
    · rw [List.count_cons_of_ne hbar] at hroom
      obtain ⟨x₁, hx₁, hfill⟩ := hx.add harg hbar
      obtain ⟨x', D', C', hloop, hfill', hall⟩ := ih hfill hnext hroom
      refine ⟨x', D', C', by rw [hx₁, Option.bind_some, hloop], hfill', ?_⟩
      rw [hall, fragments, if_neg hbar, List.modifyHead_modifyHead]
      simp [Function.comp_def]

/-- It leaves the arrays if there are too many separators. -/
theorem splitLoop_outside (hx : Filled argv i D C x) (hrest : argv.drop i = rest)
    (hge : argc ≤ D.length + rest.count "|") : splitLoop x i rest = none := by
  induction rest generalizing i D C x with
  | nil => exact absurd hx.lt (by simpa using hge)
  | cons arg rest ih =>
    obtain ⟨harg, hnext⟩ := next_of_drop hrest
    rw [splitLoop]
    by_cases hbar : arg = "|"
    · subst hbar
      rw [List.count_cons_self] at hge
      rcases Nat.lt_or_ge (D.length + 1) argc with hlt | hge'
      · obtain ⟨x₁, hx₁, hfill⟩ := hx.next (List.getElem?_eq_some_iff.1 harg).1 hlt
        rw [hx₁, Option.bind_some]
        exact ih hfill hnext (by rw [List.length_append, List.length_singleton]; omega)
      · rw [hx.outside hge', Option.bind_none]
    · rw [List.count_cons_of_ne hbar] at hge
      obtain ⟨x₁, hx₁, hfill⟩ := hx.add harg hbar
      rw [hx₁, Option.bind_some]
      exact ih hfill hnext hge

/-- At the beginning. -/
theorem filled_start (h : 0 < argc) (argv : List String) :
    Filled argv 0 [] [] (⟨Function.update (fun _ => none) ⟨0, h⟩ (some 0), fun _ => none, 0⟩ : Arrays argc) :=
  ⟨Nat.zero_le _, h, rfl, fun j hj => absurd hj (Nat.not_lt_zero j), by simp, fun hC => absurd rfl hC⟩

/-! ## Checking -/

variable {commands : List String}

theorem check_eq_none_iff {frags : List (List String)} :
    check commands frags = none ↔ ∀ f ∈ frags, ∃ cmdname args, f = cmdname :: args ∧ cmdname ∈ commands := by
  induction frags with
  | nil => simp [check]
  | cons f frags ih =>
    cases f with
    | nil => simp [check]
    | cons cmdname args =>
      by_cases h : cmdname ∈ commands <;> simp [check, h, ih]

/-- The elements of the arrays that a fragment is made of. -/
theorem fragment_cases {f : List String} (h : x.fragment argv j = some f) : ∃ hj : j < argc,
    (f = [] ∧ x.vargc ⟨j, hj⟩ = some 0) ∨
    ∃ n k, x.vargc ⟨j, hj⟩ = some (n + 1) ∧ x.vargv ⟨j, hj⟩ = some k ∧ k < argv.length ∧ f.head? = argv[k]? := by
  unfold Arrays.fragment at h
  split at h
  swap
  · cases h
  · rename_i hj
    refine ⟨hj, ?_⟩
    obtain ⟨n, hn, h⟩ := Option.bind_eq_some_iff.1 h
    split at h
    · rename_i hzero
      cases h
      exact .inl ⟨rfl, hzero ▸ hn⟩
    · obtain ⟨k, hk, h⟩ := Option.bind_eq_some_iff.1 h
      split at h
      swap
      · cases h
      · cases h
        obtain ⟨n, rfl⟩ : ∃ n', n = n' + 1 := ⟨n - 1, by omega⟩
        refine .inr ⟨n, k, hn, hk, by omega, ?_⟩
        simp [List.head?_take]

/-- The loop finds what `check` does. -/
theorem checkLoop_eq (commands : List String) (frags : List (List String)) (i : Nat) (comd : List Nat)
    (h : ∀ j < frags.length, x.fragment argv (i + j) = frags[j]?) :
    (check commands frags = none → ∃ comd', checkLoop commands argv x i frags.length comd = some (.ok comd')) ∧
      ∀ c, check commands frags = some c → checkLoop commands argv x i frags.length comd = some (.error c) := by
  induction frags generalizing i comd with
  | nil => exact ⟨fun _ => ⟨comd, rfl⟩, fun c hc => by cases hc⟩
  | cons f frags ih =>
    have hf : x.fragment argv i = some f := h 0 (Nat.zero_lt_succ _)
    have hrest := ih (i + 1)
    obtain ⟨hi, ⟨rfl, hzero⟩ | ⟨n, k, hn, hk, hlt, hhead⟩⟩ := fragment_cases hf
    · rw [List.length_cons, checkLoop, dif_pos hi, hzero]
      exact ⟨fun hc => (by cases hc), fun c hc => (by cases hc; rfl)⟩
    · rw [List.getElem?_eq_getElem hlt] at hhead
      obtain ⟨args, rfl⟩ : ∃ args, f = argv[k] :: args := ⟨_, List.eq_cons_of_mem_head? hhead⟩
      rw [List.length_cons, checkLoop, dif_pos hi, hn, Option.bind_some, if_neg (Nat.succ_ne_zero n), hk, Option.bind_some,
        List.getElem?_eq_getElem hlt, Option.bind_some, check]
      by_cases hmem : argv[k] ∈ commands
      · rw [if_pos hmem]
        obtain ⟨c, hc⟩ := Option.isSome_iff_exists.1 (List.isSome_idxOf?.2 hmem)
        rw [hc]
        refine hrest (comd ++ [c]) fun j hj => ?_
        rw [Nat.add_assoc, Nat.add_comm 1 j, h (j + 1) (Nat.succ_lt_succ hj), List.getElem?_cons_succ]
      · rw [if_neg hmem, List.idxOf?_eq_none_iff.2 hmem]
        exact ⟨fun hc => (by cases hc), fun c hc => (by cases hc; rfl)⟩

/-! ## The line -/

/-- What `process_line` makes of its arguments before it constructs the pipeline: `x` holds the runs between the separators,
and they are accepted if they have programs. -/
structure Splits (commands argv : List String) (x : Arrays argv.length) : Prop where
  made : split argv = some x
  number : x.frag + 1 = argv.count "|" + 1
  length : (argv.splitOn "|").length = x.frag + 1
  fragment : ∀ j < x.frag + 1, x.fragment argv j = (argv.splitOn "|")[j]?
  accepts : (∃ comd, checkLoop commands argv x 0 (x.frag + 1) [] = some (.ok comd)) ↔
    ∀ f ∈ argv.splitOn "|", ∃ cmdname args, f = cmdname :: args ∧ cmdname ∈ commands

theorem Splits.of_filled {x : Arrays argv.length} (hs : split argv = some x) (hx : Filled argv argv.length D C x)
    (hall : D ++ [C] = fragments argv) : Splits commands argv x := by
  have hlen : x.frag + 1 = (fragments argv).length := by
    rw [← hall, List.length_append, List.length_singleton, hx.frag]
  have hfrag : ∀ j < x.frag + 1, x.fragment argv j = (fragments argv)[j]? := by
    intro j hj
    rw [← hall]
    rcases Nat.lt_succ_iff_lt_or_eq.1 hj with hj | rfl
    · rw [hx.frag] at hj
      rw [hx.done j hj, List.getElem?_append_left hj]
    · rw [hx.frag, hx.fragment, List.getElem?_concat_length]
  obtain ⟨hok, herror⟩ := checkLoop_eq commands (fragments argv) 0 [] fun j hj =>
    (congrArg (x.fragment argv) (Nat.zero_add j)).trans (hfrag j (hlen ▸ hj))
  rw [← hlen] at hok herror
  refine ⟨hs, hlen.trans (length_fragments argv), by rw [← fragments_eq, hlen], ?_, ?_⟩
  · rwa [← fragments_eq]
  · rw [← fragments_eq, ← check_eq_none_iff]
    constructor
    · rintro ⟨comd, hcomd⟩
      cases hc : check commands (fragments argv) with
      | none => rfl
      | some c => cases (herror c hc).symm.trans hcomd
    · exact hok

theorem exists_splits_iff (commands : List String) {argv : List String} (h : argv ≠ []) :
    (∃ x, Splits commands argv x) ↔ argv.count "|" < argv.length := by
  have hpos : 0 < argv.length := List.length_pos_iff.2 h
  have hstart := filled_start hpos argv
  have hsplit : split argv = splitLoop ⟨Function.update (fun _ => none) ⟨0, hpos⟩ (some 0), fun _ => none, 0⟩ 0 argv :=
    dif_pos hpos
  have hdrop : argv.drop 0 = argv := rfl
  constructor
  · rintro ⟨x, hx⟩
    by_contra hge
    have hnone := splitLoop_outside hstart hdrop (by
      rw [List.length_nil, Nat.zero_add]
      exact not_lt.1 hge)
    cases (hsplit.trans hnone).symm.trans hx.made
  · intro hlt
    obtain ⟨x, D, C, hloop, hfill, hall⟩ := splitLoop_eq hstart hdrop (by simpa using hlt)
    refine ⟨x, .of_filled (hsplit.trans hloop) hfill (hall.trans ?_)⟩
    cases fragments argv <;> rfl

/-- **The shell splits a command line** into its fragments, inside its arrays, exactly if some argument is not a
separator. -/
theorem splits_iff (commands argv : List String) (h : argv ≠ []) :
    (∃ x, Splits commands argv x) ↔ ∃ arg ∈ argv, arg ≠ "|" := by
  rw [exists_splits_iff commands h, List.count_le_length.lt_iff_ne, ne_eq, List.count_eq_length]
  push Not
  exact exists_congr fun arg => and_congr_right fun _ => ne_comm

/-- A pipeline of two programs. -/
theorem splits_iff_two : ∃ x, Splits ["ls", "wc"] ["ls", "|", "wc"] x :=
  (splits_iff ["ls", "wc"] ["ls", "|", "wc"] (List.cons_ne_nil _ _)).2 ⟨"ls", List.mem_cons_self, by decide⟩

/-- A line that is one separator has two fragments, and the arrays have one element. -/
theorem separator_outside : ¬∀ commands argv, argv ≠ [] → ∃ x, Splits commands argv x := by
  intro h
  obtain ⟨x, hx⟩ := h [] ["|"] (List.cons_ne_nil _ _)
  have hnone : split ["|"] = none := rfl
  cases hnone.symm.trans hx.made

end TinyOS.Shell
