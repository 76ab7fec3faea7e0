import TinyOS.Programs.Shell

/-!
# Pipelines of the shell

- `HeldBy`, `Linked`: which slots of other processes refer to the ends of a pipe;
- `construct_triple`: what the shell makes of its file table, and of the pipes, fragment by fragment;
- `built_of_runs`: every run of `process_line` ends with the pipeline built.
-/

namespace TinyOS.Shell

open Interference Streams
open Proc (Pid PidState initPid)

variable {p : Pid} {F T : Fidt} {h h' : List Event} {e : Event} {s s' t u : State} {f : FcbPtr} {i j : Fid} {c : Pid}
  {calm : Bool} {a : Action} {l : List (Pid × Fid)}

/-! ## Who else holds a block -/

/-- The slots that refer to `f`, but for those of `p`. -/
def HeldBy (p : Pid) (s : State) (f : FcbPtr) (l : List (Pid × Fid)) : Prop :=
  ∀ q, q ≠ p → ∀ i, s.fidt q i = some f ↔ (q, i) ∈ l

/-- A process that is started had an empty table, -/
theorem empty_of_exec {cur : Pid} (hinv : s.Inv) (hs : s.step (.exec cur c) = some s') (i : Fid) : s.fidt c i ≠ some f := by
  cases State.step_cases hs with
  | first hfree | exec hfree =>
    rw [hinv.empty c (by rw [hfree]; exact PidState.noConfusion)]
    exact (Option.some_ne_none f).symm

/-- and now has that of its parent, unless it is one of the first two. -/
theorem fidt_of_exec_iff {cur : Pid} (hinv : s.Inv) (hs : s.step (.exec cur c) = some s') :
    s'.fidt c i = some f ↔ 1 < c.val ∧ s.fidt cur i = some f := by
  have hempty := empty_of_exec (f := f) hinv hs i
  cases State.step_cases hs with
  | first _ _ hc => exact ⟨fun hi => absurd hi hempty, fun hi => absurd hi.1 (Nat.not_lt.2 hc)⟩
  | exec _ _ hc =>
    rw [State.fidt_of_exec hc hs]
    exact (and_iff_right hc).symm

theorem fidt_of_exit {q : Pid} (hs : s.step (.exit q) = some s') : s'.fidt q i = none := by
  cases State.step_cases hs
  show Function.update s.fidt q _ q i = none
  rw [Function.update_self, View.cleanup_fidt, if_pos (List.mem_finRange i)]

/-- In a calm world the others leave alone what only children hold. -/
theorem HeldBy.other (hh : HeldBy p s f l) (hinv : s.Inv) (hl : ∀ x ∈ l, x.1 ∈ children h) (hf : f ∉ s.files.freelist)
    (hs : s.step a = some s') (hp : caller a ≠ some p) (hc : ∀ c ∈ children h, caller a ≠ some c) :
    HeldBy p s' f l := by
  intro q hq i
  by_cases ho : a.owner = some q
  · cases a with
    | exec cur r =>
      obtain rfl := Option.some.inj ho
      rw [fidt_of_exec_iff hinv hs]
      refine ⟨fun hi => ?_, fun hm => ?_⟩
      · have hcur : cur ≠ p := fun he => hp (congrArg some he)
        exact absurd rfl (hc cur (hl _ ((hh cur hcur i).1 hi.2)))
      · exact absurd ((hh r hq i).2 hm) (empty_of_exec hinv hs i)
    | exit r =>
      obtain rfl := Option.some.inj ho
      exact ⟨fun hi => absurd hi (by rw [fidt_of_exit hs]; exact (Option.some_ne_none f).symm),
        fun hm => absurd rfl (hc r (hl _ hm))⟩
    | file r call =>
      obtain rfl := Option.some.inj ho
      cases State.step_cases hs with
      | @file _ _ v _ hv =>
        refine ⟨fun hi => ?_, fun hm => absurd rfl (hc r (hl _ hm))⟩
        rw [show (s.setView r v).fidt r = v.fidt from Function.update_self ..] at hi
        rcases FileCall.apply_stocked hv i f hi with ⟨j, hj⟩ | hfree
        · exact absurd rfl (hc r (hl _ ((hh r hq j).1 hj)))
        · exact absurd hfree hf
    | reap r => cases ho
    | io r write fd => cases ho
    | finish n => cases ho
  · rw [State.fidt_of_step hs ho]
    exact hh q hq i

/-- A call of the shell that starts no process. -/
theorem HeldBy.same (hh : HeldBy p s f l) (hs : ∀ q, q ≠ p → s'.fidt q = s.fidt q) : HeldBy p s' f l := by
  intro q hq i
  rw [hs q hq]
  exact hh q hq i

/-- A new child holds what the shell holds. -/
theorem HeldBy.exec (l' : List Fid) (hh : HeldBy p s f l) (hinv : s.Inv) (hc : 1 < c.val)
    (hs : s.sysExec p c = some s') (hl : ∀ i, s.fidt p i = some f ↔ i ∈ l') :
    HeldBy p s' f (l ++ l'.map fun i => (c, i)) := by
  intro q hq i
  rw [List.mem_append]
  by_cases hqc : q = c
  · subst hqc
    rw [State.fidt_of_exec hc hs, hl i]
    have hnot : (q, i) ∉ l := fun hm => empty_of_exec hinv hs i ((hh q hq i).2 hm)
    simp [hnot]
  · rw [State.fidt_of_step (a := .exec p c) hs fun ho => hqc (Option.some.inj ho).symm, hh q hq i]
    simp [Ne.symm hqc]

/-- Nobody holds a free block. -/
theorem heldBy_free (hinv : s.Inv) (hf : f ∈ s.files.freelist) : HeldBy p s f [] :=
  fun _ _ _ => ⟨fun hi => absurd hf (notMem_free hinv hi), fun hm => absurd hm List.not_mem_nil⟩

/-! ## The ends of the pipes -/

/-- The write end `e.2` of a pipe is the standard output of child `c`; the read end `e.1` is in another slot of `c`, and
is the standard input of the next child, if there is one. -/
def Linked (p : Pid) (s : State) (c : Pid) (next : Option Pid) (e : FcbPtr × FcbPtr) : Prop :=
  HeldBy p s e.2 [(c, stdout)] ∧ ∃ r, r ≠ stdin ∧ HeldBy p s e.1 ((c, r) :: next.toList.map fun c' => (c', stdin))

/-- The blocks of the pipes are all different. -/
def Distinct (ps : List (FcbPtr × FcbPtr)) : Prop :=
  ∀ (i j : ℕ) (e e' : FcbPtr × FcbPtr), ps[i]? = some e → ps[j]? = some e' →
    e.1 ≠ e'.2 ∧ (i ≠ j → e.1 ≠ e'.1 ∧ e.2 ≠ e'.2)

/-- The pipes are different, and those of the children so far are linked up. -/
structure Links (p : Pid) (h : List Event) (s : State) : Prop where
  distinct : Distinct (pipes p h)
  linked : ∀ (i : ℕ) (e : FcbPtr × FcbPtr) (c : Pid), (pipes p h)[i]? = some e → (children h)[i]? = some c → c ≠ p ∧ Linked p s c (children h)[i + 1]? e

theorem Linked.other {next : Option Pid} {x : FcbPtr × FcbPtr} (hl : Linked p s c next x) (hinv : s.Inv) (hcp : c ≠ p)
    (hch : c ∈ children h) (hnext : ∀ c' ∈ next, c' ∈ children h) (hs : s.step a = some s') (hp : caller a ≠ some p)
    (hc : ∀ c ∈ children h, caller a ≠ some c) : Linked p s' c next x := by
  obtain ⟨hw, r, hr, hrd⟩ := hl
  have hwf := notMem_free hinv ((hw c hcp stdout).2 (List.mem_singleton_self _))
  have hrf := notMem_free hinv ((hrd c hcp r).2 List.mem_cons_self)
  refine ⟨hw.other hinv (fun y hy => ?_) hwf hs hp hc, r, hr, hrd.other hinv (fun y hy => ?_) hrf hs hp hc⟩
  · obtain rfl := List.mem_singleton.1 hy
    exact hch
  · rcases List.mem_cons.1 hy with rfl | hy
    · exact hch
    · obtain ⟨c', hc', rfl⟩ := List.mem_map.1 hy
      exact hnext c' (Option.mem_toList.1 hc')

theorem Links.other (hl : Links p h s) (hinv : s.Inv) (hs : s.step a = some s') (hp : caller a ≠ some p)
    (hc : ∀ c ∈ children h, caller a ≠ some c) : Links p h s' := by
  refine ⟨hl.distinct, fun i x c hx hci => ?_⟩
  obtain ⟨hcp, hlk⟩ := hl.linked i x c hx hci
  exact ⟨hcp, hlk.other hinv hcp (List.mem_of_getElem? hci) (fun c' hc' => List.mem_of_getElem? hc') hs hp hc⟩

/-- A call of the shell that makes no pipe and no process. -/
theorem Links.same (hl : Links p h s) (hpipes : pipes p h' = pipes p h) (hch : children h' = children h)
    (hs : ∀ q, q ≠ p → s'.fidt q = s.fidt q) : Links p h' s' := by
  refine ⟨by rw [hpipes]; exact hl.distinct, fun i x c hx hci => ?_⟩
  rw [hpipes] at hx
  rw [hch] at hci ⊢
  obtain ⟨hcp, hw, r, hr, hrd⟩ := hl.linked i x c hx hci
  exact ⟨hcp, hw.same hs, r, hr, hrd.same hs⟩

/-- A new pipe, of two blocks that were free. -/
theorem Links.pipe {f g : FcbPtr} (hl : Links p h s) (hinv : s.Inv) (hlen : (pipes p h).length = (children h).length)
    (hends : ends p e = some (f, g)) (hnew : child e = none) (hfg : f ≠ g) (hf : f ∈ s.files.freelist)
    (hg : g ∈ s.files.freelist) (hs : ∀ q, q ≠ p → s'.fidt q = s.fidt q) : Links p (h ++ [e]) s' := by
  have hpipes : pipes p (h ++ [e]) = pipes p h ++ [(f, g)] := by
    rw [pipes_append, hends]
    rfl
  have hch : children (h ++ [e]) = children h := by
    rw [children_append, hnew]
    exact List.append_nil _
  -- Children hold the ends of the older pipes, so these are not free.
  have hold : ∀ (i : ℕ) (x : FcbPtr × FcbPtr), (pipes p h)[i]? = some x → x.1 ∉ s.files.freelist ∧ x.2 ∉ s.files.freelist := by
    intro i x hx
    have hi : i < (children h).length := hlen ▸ (List.getElem?_eq_some_iff.1 hx).1
    obtain ⟨hcp, hw, r, -, hrd⟩ := hl.linked i x _ hx (List.getElem?_eq_getElem hi)
    exact ⟨notMem_free hinv ((hrd _ hcp r).2 List.mem_cons_self),
      notMem_free hinv ((hw _ hcp stdout).2 (List.mem_singleton_self _))⟩
  have hcases : ∀ (i : ℕ) (x : FcbPtr × FcbPtr), (pipes p h ++ [(f, g)])[i]? = some x →
      (pipes p h)[i]? = some x ∧ i < (pipes p h).length ∨ i = (pipes p h).length ∧ x = (f, g) := by
    intro i x hx
    rcases Nat.lt_trichotomy i (pipes p h).length with hi | hi | hi
    · rw [List.getElem?_append_left hi] at hx
      exact .inl ⟨hx, hi⟩
    · subst hi
      rw [List.getElem?_concat_length] at hx
      exact .inr ⟨rfl, (Option.some.inj hx).symm⟩
    · rw [List.getElem?_eq_none (by rw [List.length_append, List.length_singleton]; omega)] at hx
      cases hx
  refine ⟨fun i j x y hx hy => ?_, fun i x c hx hci => ?_⟩
  · rw [hpipes] at hx hy
    rcases hcases i x hx with ⟨hx, hi⟩ | ⟨hi, rfl⟩ <;> rcases hcases j y hy with ⟨hy, hj⟩ | ⟨hj, rfl⟩
    · exact hl.distinct i j x y hx hy
    · have hx' := hold i x hx
      exact ⟨fun he => hx'.1 (he ▸ hg), fun _ => ⟨fun he => hx'.1 (he ▸ hf), fun he => hx'.2 (he ▸ hg)⟩⟩
    · have hy' := hold j y hy
      exact ⟨fun he => hy'.2 (he ▸ hf), fun _ => ⟨fun he => hy'.1 (he ▸ hf), fun he => hy'.2 (he ▸ hg)⟩⟩
    · exact ⟨hfg, fun hij => absurd (hi.trans hj.symm) hij⟩
  · rw [hpipes] at hx
    rw [hch] at hci ⊢
    rcases hcases i x hx with ⟨hx, -⟩ | ⟨hi, -⟩
    · obtain ⟨hcp, hw, r, hr, hrd⟩ := hl.linked i x c hx hci
      exact ⟨hcp, hw.same hs, r, hr, hrd.same hs⟩
    · have := (List.getElem?_eq_some_iff.1 hci).1
      omega

/-- What the shell's table says of the pipes, when it starts child number `n`: `r` is the slot of the newest read end. -/
def Slots (T : Fidt) (ps : List (FcbPtr × FcbPtr)) (n : Nat) (r : Fid) : Prop :=
  ∀ (i : ℕ) (x : FcbPtr × FcbPtr), ps[i]? = some x → (∀ g, T g = some x.2 ↔ g = stdout ∧ i = n) ∧
    ∀ g, T g = some x.1 ↔ g = stdin ∧ i + 1 = n ∨ g = r ∧ i = n

theorem Links.exec {r : Fid} (hl : Links p h s) (hinv : s.Inv) (hp : s.pstate p = .alive) (hc : 1 < c.val)
    (hs : s.sysExec p c = some s') (hpipe : ends p e = none) (hnew : child e = some c) (hr : r ≠ stdin)
    (hslots : Slots (s.fidt p) (pipes p h) (children h).length r)
    (hpend : ∀ x, (pipes p h)[(children h).length]? = some x → HeldBy p s x.1 [] ∧ HeldBy p s x.2 []) :
    Links p (h ++ [e]) s' := by
  have hpipes : pipes p (h ++ [e]) = pipes p h := by
    rw [pipes_append, hpipe]
    exact List.append_nil _
  have hch : children (h ++ [e]) = children h ++ [c] := by
    rw [children_append, hnew]
    rfl
  have hcp : c ≠ p := by
    rintro rfl
    simp only [State.sysExec, Option.ite_none_right_eq_some] at hs
    exact PidState.noConfusion (hs.1.1.symm.trans hp)
  refine ⟨by rw [hpipes]; exact hl.distinct, fun i x c₀ hx hci => ?_⟩
  rw [hpipes] at hx
  rw [hch] at hci ⊢
  obtain ⟨hsw, hsr⟩ := hslots i x hx
  rcases Nat.lt_trichotomy i (children h).length with hi | hi | hi
  · rw [List.getElem?_append_left hi] at hci
    obtain ⟨hcp₀, hw, r₀, hr₀, hrd⟩ := hl.linked i x c₀ hx hci
    refine ⟨hcp₀, ?_, r₀, hr₀, ?_⟩
    · refine hw.exec [] hinv hc hs fun g => ?_
      rw [hsw]
      exact ⟨fun hg => absurd hg.2 (Nat.ne_of_lt hi), fun hg => absurd hg List.not_mem_nil⟩
    · rcases Nat.lt_or_ge (i + 1) (children h).length with hi' | hi'
      · rw [List.getElem?_append_left hi']
        rw [← List.append_nil (_ :: _)]
        refine hrd.exec [] hinv hc hs fun g => ?_
        rw [hsr]
        refine ⟨?_, fun hg => absurd hg List.not_mem_nil⟩
        rintro (⟨-, hn⟩ | ⟨-, hn⟩) <;> omega
      · have hi' : i + 1 = (children h).length := by omega
        rw [List.getElem?_eq_none (Nat.le_of_eq hi'.symm)] at hrd
        rw [hi', List.getElem?_concat_length]
        refine hrd.exec [stdin] hinv hc hs fun g => ?_
        rw [hsr, List.mem_singleton]
        refine ⟨?_, fun hg => .inl ⟨hg, hi'⟩⟩
        rintro (⟨hg, -⟩ | ⟨-, hn⟩)
        · exact hg
        · omega
  · subst hi
    rw [List.getElem?_concat_length] at hci
    obtain rfl := Option.some.inj hci
    obtain ⟨hrd, hw⟩ := hpend x hx
    refine ⟨hcp, hw.exec [stdout] hinv hc hs fun g => ?_, r, hr, ?_⟩
    · rw [hsw, List.mem_singleton]
      exact and_iff_left rfl
    · rw [List.getElem?_eq_none (by rw [List.length_append, List.length_singleton])]
      refine hrd.exec [r] hinv hc hs fun g => ?_
      rw [hsr, List.mem_singleton]
      refine ⟨?_, fun hg => .inr ⟨hg, rfl⟩⟩
      rintro (⟨-, hn⟩ | ⟨hg, -⟩)
      · omega
      · exact hg
  · rw [List.getElem?_eq_none (by rw [List.length_append, List.length_singleton]; omega)] at hci
    cases hci

/-! ## The calls, one by one -/

variable {C : List (FcbPtr × FcbPtr) → List Pid → Prop} {pend : List FcbPtr}
  {Q : List Event → Option (Except Complaint (List (Option Pid))) → State → Prop}

/-- Between two calls of the shell, its table is `T`. In a calm world the pipes are linked up, nobody else holds the blocks
in `pend` yet, and `C` holds of the pipes and the children so far. -/
def Phase (p : Pid) (F T : Fidt) (calm : Bool) (pend : List FcbPtr) (C : List (FcbPtr × FcbPtr) → List Pid → Prop)
    (h : List Event) (s : State) : Prop :=
  Keeps p F T h s ∧ (calm = true → Links p h s ∧ (∀ f ∈ pend, HeldBy p s f []) ∧ C (pipes p h) (children h))

theorem phase_stable (hpend : ∀ f ∈ pend, ∃ i, T i = some f) : (world p calm).Stable (Phase p F T calm pend C) := by
  rintro h s s' ⟨hk, hg⟩ ⟨a, hs, ha, hc⟩
  refine ⟨keeps_stable h s s' hk ⟨a, hs, ha, hc⟩, fun hcalm => ?_⟩
  obtain ⟨hl, hf, hC⟩ := hg hcalm
  refine ⟨hl.other hk.inv hs ha (hc hcalm), fun f hm => ?_, hC⟩
  obtain ⟨i, hi⟩ := hpend f hm
  exact (hf f hm).other hk.inv (fun x hx => absurd hx List.not_mem_nil) (notMem_free hk.inv (hk.fidt ▸ hi)) hs ha (hc hcalm)

/-- A call that makes no pipe and no process. -/
theorem Phase.quiet {T' : Fidt} (hP : Phase p F T calm pend C h t) (hk : Keeps p F T' (h ++ [e]) u)
    (hpipe : ends p e = none) (hnew : child e = none) (hs : ∀ q, q ≠ p → u.fidt q = t.fidt q) :
    Phase p F T' calm pend C (h ++ [e]) u := by
  have hpipes : pipes p (h ++ [e]) = pipes p h := by
    rw [pipes_append, hpipe]
    exact List.append_nil _
  have hch : children (h ++ [e]) = children h := by
    rw [children_append, hnew]
    exact List.append_nil _
  refine ⟨hk, fun hcalm => ?_⟩
  obtain ⟨hl, hf, hC⟩ := hP.2 hcalm
  rw [hpipes, hch]
  exact ⟨hl.same hpipes hch hs, fun f hm => (hf f hm).same hs, hC⟩

theorem openNull_rule {k : Option Fid → Process} (hfids : 1 ≤ (freeFrom T 0).card)
    (hk : ∀ i f, T i = none →
      (world p calm).Triple (Enough calm) (Phase p F (Function.update T i (some f)) calm [] C) (k (some i)) Q) :
    (world p calm).Triple (Enough calm) (Phase p F T calm [] C) (.call .openNull k) Q := by
  refine .call (phase_stable fun f hm => absurd hm List.not_mem_nil)
    (fun r h s => ∃ i f, r = some i ∧ T i = none ∧ Phase p F (Function.update T i (some f)) calm [] C h s)
    (fun h t r u hP hok hd => ?_) fun r h s h' b s' hP hr => ?_
  · obtain ⟨i, f, hri, hi, hk⟩ := hP.1.openNull hfids hok hd
    obtain ⟨v, -, rfl⟩ := hd
    exact ⟨i, f, hri, hi, hP.quiet hk rfl rfl fun q hq => Function.update_of_ne hq _ _⟩
  · obtain ⟨i, f, rfl, hi, hP⟩ := hP
    exact hk i f hi h s h' b s' hP hr

theorem dup2_rule {k : Int → Process} (hpend : ∀ f ∈ pend, ∃ i, T i = some f) (hi : T i = some f)
    (hk : ∀ r, (world p calm).Triple (Enough calm) (Phase p F (Function.update T j (some f)) calm pend C) (k r) Q) :
    (world p calm).Triple (Enough calm) (Phase p F T calm pend C) (.call (.dup2 i.val j.val) k) Q := by
  refine .call (phase_stable hpend) _ (fun h t r u hP _ hd => ?_) hk
  have hk := hP.1.dup2 hi hd
  obtain ⟨-, rfl⟩ := hd
  exact hP.quiet hk rfl rfl fun q hq => Function.update_of_ne hq _ _

theorem close_rule {k : Int → Process} (hpend : ∀ f ∈ pend, ∃ i, T i = some f)
    (hk : ∀ r, (world p calm).Triple (Enough calm) (Phase p F (Function.update T i none) calm pend C) (k r) Q) :
    (world p calm).Triple (Enough calm) (Phase p F T calm pend C) (.call (.close i.val) k) Q := by
  refine .call (phase_stable hpend) _ (fun h t r u hP _ hd => ?_) hk
  have hk := hP.1.close hd
  obtain ⟨retval, -, rfl⟩ := hd
  exact hP.quiet hk rfl rfl fun q hq => Function.update_of_ne hq _ _

theorem pipe_rule {k : Option (Fid × Fid) → Process} (hF : ∀ i f, F i = some f → ∃ j, T j = some f)
    (hfids : 2 ≤ (freeFrom T 0).card) (hC : ∀ ps cs, C ps cs → ps.length = cs.length)
    (hk : ∀ i j f g, i ≠ j → T i = none → T j = none →
      (world p calm).Triple (Enough calm) (Phase p F (Function.update (Function.update T i (some f)) j (some g)) calm [f, g]
        fun ps cs => ∃ ps', ps = ps' ++ [(f, g)] ∧ C ps' cs) (k (some (i, j))) Q) :
    (world p calm).Triple (Enough calm) (Phase p F T calm [] C) (.call .pipe k) Q := by
  refine .call (phase_stable fun f hm => absurd hm List.not_mem_nil)
    (fun r h s => ∃ i j f g, r = some (i, j) ∧ (i ≠ j ∧ T i = none ∧ T j = none) ∧
      Phase p F (Function.update (Function.update T i (some f)) j (some g)) calm [f, g]
        (fun ps cs => ∃ ps', ps = ps' ++ [(f, g)] ∧ C ps' cs) h s)
    (fun h t r u hP hok hd => ?_) fun r h s h' b s' hP hr => ?_
  · obtain ⟨i, j, f, g, hrij, hij, ⟨hfg, hf, hg⟩, hends, hs, hk⟩ := hP.1.pipe hF hfids hok hd
    refine ⟨i, j, f, g, hrij, hij, hk, fun hcalm => ?_⟩
    obtain ⟨hl, -, hc⟩ := hP.2 hcalm
    have hch : children (h ++ [⟨t, .pipe, r, u⟩]) = children h := by
      rw [children_append]
      exact List.append_nil _
    refine ⟨hl.pipe hP.1.inv (hC _ _ hc) hends rfl hfg hf hg hs, fun x hx => ?_, ⟨pipes p h, ?_, hch ▸ hc⟩⟩
    · rcases List.mem_cons.1 hx with rfl | hx
      · exact (heldBy_free hP.1.inv hf).same hs
      · obtain rfl := List.mem_singleton.1 hx
        exact (heldBy_free hP.1.inv hg).same hs
    · rw [pipes_append, hends]
      rfl
  · obtain ⟨i, j, f, g, rfl, ⟨hij, hi, hj⟩, hP⟩ := hP
    exact hk i j f g hij hi hj h s h' b s' hP hr

theorem exec_rule {frag : List String} {k : Option Pid → Process} {r : Fid} (hr : r ≠ stdin)
    (hpend : ∀ f ∈ pend, ∃ i, T i = some f)
    (hslots : ∀ ps cs, C ps cs → Distinct ps → (∀ x ∈ ps, ∀ i, F i ≠ some x.1 ∧ F i ≠ some x.2) →
      Slots T ps cs.length r ∧ ∀ x, ps[cs.length]? = some x → x.1 ∈ pend ∧ x.2 ∈ pend)
    (hk : ∀ c, (world p calm).Triple (Enough calm)
      (Phase p F T calm [] fun ps cs => ∃ cs' c, cs = cs' ++ [c] ∧ C ps cs') (k c) Q) :
    (world p calm).Triple (Enough calm) (Phase p F T calm pend C) (.call (.exec frag) k) Q := by
  refine .call (phase_stable hpend) _ (fun h t c u hP hok hd => ⟨hP.1.exec hd, fun hcalm => ?_⟩) hk
  obtain ⟨hl, hf, hc⟩ := hP.2 hcalm
  cases c with
  | none =>
    obtain ⟨c, hc1, hfree⟩ := hok hcalm
    exact absurd hfree (hd.1 c hc1)
  | some c =>
    obtain ⟨hc1, he⟩ := hd
    have hpipes : pipes p (h ++ [⟨t, .exec frag, some c, u⟩]) = pipes p h := by
      rw [pipes_append]
      exact List.append_nil _
    obtain ⟨hsl, hnew⟩ := hslots _ _ hc hl.distinct hP.1.apart
    refine ⟨?_, fun f hm => absurd hm List.not_mem_nil, ⟨children h, c, children_append, hpipes ▸ hc⟩⟩
    refine hl.exec hP.1.inv hP.1.alive hc1 he rfl rfl hr (hP.1.fidt.symm ▸ hsl) fun x hx => ?_
    exact ⟨hf _ (hnew x hx).1, hf _ (hnew x hx).2⟩

/-! ## The shell's table -/

/-- `F`, with its first two streams saved in slots `a` and `b`, and others in their place. -/
def table (F : Fidt) (a b : Fid) (x y : Option FcbPtr) : Fidt :=
  Function.update (Function.update (Function.update (Function.update F a (F stdin)) b (F stdout)) stdin x) stdout y

/-- The streams of `stdin` and `stdout` can be saved in `a` and `b`. -/
structure Saved (F : Fidt) (a b : Fid) (f₀ f₁ : FcbPtr) : Prop where
  ne : a ≠ b
  savein : F a = none
  saveout : F b = none
  in_eq : F stdin = some f₀
  out_eq : F stdout = some f₁

variable {b r w : Fid} {x y z : Option FcbPtr} {f₀ f₁ g : FcbPtr}

theorem table_apply (F : Fidt) (i j : Fid) (x y : Option FcbPtr) (k : Fid) : table F i j x y k =
    if k = stdout then y else if k = stdin then x else if k = j then F stdout else if k = i then F stdin else F k := by
  simp only [table, Function.update_apply]

namespace Saved

theorem ne_std (hS : Saved F i j f₀ f₁) : (i ≠ stdin ∧ i ≠ stdout) ∧ j ≠ stdin ∧ j ≠ stdout := by
  obtain ⟨-, hi, hj, h0, h1⟩ := hS
  refine ⟨⟨?_, ?_⟩, ?_, ?_⟩ <;> rintro rfl <;> simp_all

/-- The table when both streams are saved. -/
theorem table_eq (hS : Saved F i j f₀ f₁) :
    Function.update (Function.update F i (some f₀)) j (some f₁) = table F i j (some f₀) (some f₁) := by
  have hne := hS.ne_std
  funext k
  rw [table_apply]
  simp only [Function.update_apply]
  grind [hS.in_eq, hS.out_eq]

/-- The slots of the saved streams, -/
theorem table_saveout (hS : Saved F i j f₀ f₁) : table F i j x y j = some f₁ := by
  obtain ⟨-, hj0, hj1⟩ := hS.ne_std
  rw [table_apply, if_neg hj1, if_neg hj0, if_pos rfl, hS.out_eq]

/-- also after the second one has been put back. -/
theorem table_savein (hS : Saved F i j f₀ f₁) :
    Function.update (Function.update (table F i j x y) stdout (some f₁)) j none i = some f₀ := by
  obtain ⟨⟨hi0, hi1⟩, -⟩ := hS.ne_std
  rw [Function.update_of_ne hS.ne, Function.update_of_ne hi1, table_apply, if_neg hi1, if_neg hi0, if_neg hS.ne,
    if_pos rfl, hS.in_eq]

/-- A new pipe gets free slots. -/
theorem slot_ne (hr : table F i j (some f) (some g) r = none) : r ≠ stdin ∧ r ≠ stdout := by
  rw [table_apply] at hr
  constructor
  · rintro rfl
    simp [stdin_ne_stdout] at hr
  · rintro rfl
    simp at hr

/-- The table that a child gets which is not the last one. -/
theorem handed (hrw : r ≠ w) (hw : table F i j x y w = none) (hr1 : r ≠ stdout) (hw1 : w ≠ stdout) :
    Function.update (Function.update (Function.update (Function.update (table F i j x y) r (some f)) w (some g)) stdout
      (some g)) w none = Function.update (table F i j x (some g)) r (some f) := by
  funext k
  simp only [Function.update_apply, table_apply] at hw ⊢
  grind

/-- The table after one turn of the loop. -/
theorem next (hr : table F i j x y r = none) (hr0 : r ≠ stdin) (hr1 : r ≠ stdout) :
    Function.update (Function.update (Function.update (table F i j x (some g)) r (some f)) stdin (some f)) r none =
      table F i j (some f) (some g) := by
  funext k
  have h01 := stdin_ne_stdout
  simp only [Function.update_apply, table_apply] at hr ⊢
  grind

/-- The table after the last turn. -/
theorem last (hS : Saved F i j f₀ f₁) :
    Function.update (Function.update (Function.update (Function.update (table F i j x y) stdout (some f₁)) j none) stdin
      (some f₀)) i none = F := by
  have hne := hS.ne_std
  funext k
  have h01 := stdin_ne_stdout
  simp only [Function.update_apply, table_apply]
  grind [hS.in_eq, hS.out_eq, hS.savein, hS.saveout]

/-- Streams that are in use stay somewhere in the table. -/
theorem exists_slot (hS : Saved F i j f₀ f₁) (k : Fid) (hk : F k = some f) : ∃ k', table F i j x y k' = some f := by
  have hne := hS.ne_std
  by_cases h0 : k = stdin
  · refine ⟨i, ?_⟩
    rw [table_apply]
    grind [hS.ne]
  by_cases h1 : k = stdout
  · refine ⟨j, ?_⟩
    rw [table_apply]
    grind
  · refine ⟨k, ?_⟩
    rw [table_apply]
    grind [hS.savein, hS.saveout]

theorem card_free (hS : Saved F i j f₀ f₁) (hfree : 4 ≤ (freeFrom F 0).card) :
    2 ≤ (freeFrom (table F i j (some f) (some g)) 0).card := by
  have hne := hS.ne_std
  have heq : freeFrom (table F i j (some f) (some g)) 0 = ((freeFrom F 0).erase i).erase j := by
    ext k
    have h01 := stdin_ne_stdout
    rw [Finset.mem_erase, Finset.mem_erase, mem_freeFrom, mem_freeFrom, table_apply]
    grind [hS.in_eq, hS.out_eq]
  have h1 : (freeFrom F 0).card - 1 ≤ ((freeFrom F 0).erase i).card := Finset.pred_card_le_card_erase
  have h2 : ((freeFrom F 0).erase i).card - 1 ≤ (((freeFrom F 0).erase i).erase j).card :=
    Finset.pred_card_le_card_erase
  rw [heq]
  omega

end Saved

/-! ## Fragment by fragment -/

/-- The shell's standard input after `n` fragments: its own one, or the read end of the newest pipe. -/
def inlet (F : Fidt) (ps : List (FcbPtr × FcbPtr)) : ℕ → Option FcbPtr
  | 0 => F stdin
  | n + 1 => ps[n]?.map (·.1)

/-- No pipe is a stream of `F`. -/
def Apart (F : Fidt) (ps : List (FcbPtr × FcbPtr)) : Prop := ∀ z ∈ ps, ∀ i, F i ≠ some z.1 ∧ F i ≠ some z.2

theorem inlet_iff {ps : List (FcbPtr × FcbPtr)} {n k : ℕ} {x : FcbPtr} {z : FcbPtr × FcbPtr} (hx : some x = inlet F ps n)
    (hd : Distinct ps) (ha : Apart F ps) (hz : ps[k]? = some z) : x ≠ z.2 ∧ (x = z.1 ↔ k + 1 = n) := by
  cases n with
  | zero =>
    have h := ha z (List.mem_of_getElem? hz) stdin
    refine ⟨fun he => h.2 (he ▸ hx.symm), fun he => absurd (he ▸ hx.symm) h.1, fun he => absurd he (Nat.succ_ne_zero k)⟩
  | succ n =>
    obtain ⟨y, hy, hyx⟩ := Option.map_eq_some_iff.1 hx.symm
    have hyx' : y.1 = x := hyx
    obtain ⟨h2, h1⟩ := hd n k y z hy hz
    refine ⟨hyx' ▸ h2, fun he => ?_, fun he => ?_⟩
    · by_contra hne
      exact (h1 fun h => hne (by omega)).1 (hyx'.trans he)
    · obtain rfl : k = n := Nat.succ.inj he
      obtain rfl := Option.some.inj (hy.symm.trans hz)
      exact hyx'.symm

/-- The slots that a child which is not the last one gets of the pipes. -/
theorem slots_handed {ps : List (FcbPtr × FcbPtr)} {n : ℕ} {x : FcbPtr} (hr0 : r ≠ stdin) (hr1 : r ≠ stdout)
    (hn : ps[n]? = some (f, g)) (hx : some x = inlet F ps n) (hd : Distinct ps) (ha : Apart F ps) :
    Slots (Function.update (table F i j (some x) (some g)) r (some f)) ps n r := by
  intro k z hz
  obtain ⟨hx2, hx1⟩ := inlet_iff hx hd ha hz
  have hF := ha z (List.mem_of_getElem? hz)
  have hg1 : g ≠ z.1 := fun he => (hd k n z (f, g) hz hn).1 he.symm
  have hf2 : f ≠ z.2 := (hd n k (f, g) z hn hz).1
  have hfg : k ≠ n → f ≠ z.1 ∧ g ≠ z.2 := fun hk => (hd n k (f, g) z hn hz).2 hk.symm
  have hz' : k = n → z = (f, g) := by
    rintro rfl
    exact Option.some.inj (hz.symm.trans hn)
  have h01 := stdin_ne_stdout
  refine ⟨fun q => ?_, fun q => ?_⟩
  · rw [Function.update_apply, table_apply]
    grind
  · rw [Function.update_apply, table_apply]
    grind

/-- The slots that the last child gets of the pipes. -/
theorem slots_last {ps : List (FcbPtr × FcbPtr)} {x y : FcbPtr} (hS : Saved F i j f₀ f₁)
    (hx : some x = inlet F ps ps.length) (hd : Distinct ps) (ha : Apart F ps) :
    Slots (Function.update (Function.update (table F i j (some x) (some y)) stdout (some f₁)) j none) ps ps.length r := by
  intro k z hz
  obtain ⟨hx2, hx1⟩ := inlet_iff hx hd ha hz
  have hF := ha z (List.mem_of_getElem? hz)
  have hk := (List.getElem?_eq_some_iff.1 hz).1
  have hne := hS.ne_std
  have h01 := stdin_ne_stdout
  have hf1 : f₁ ≠ z.1 ∧ f₁ ≠ z.2 :=
    ⟨fun he => (hF stdout).1 (he ▸ hS.out_eq), fun he => (hF stdout).2 (he ▸ hS.out_eq)⟩
  refine ⟨fun q => ?_, fun q => ?_⟩
  · rw [Function.update_apply, Function.update_apply, table_apply]
    grind
  · rw [Function.update_apply, Function.update_apply, table_apply]
    grind

/-- The pipeline has been built, with `n` children. -/
def Built (p : Pid) (F : Fidt) (calm : Bool) (n : ℕ) (h : List Event)
    (r : Option (Except Complaint (List (Option Pid)))) (s : State) : Prop :=
  (∃ child, r = some (.ok child)) ∧ Keeps p F F h s ∧
    (calm = true → Links p h s ∧ (pipes p h).length + 1 = (children h).length ∧ (children h).length = n)

/-- Before a turn of the loop: `x` is the shell's standard input, and there are `n` pipes and children. -/
def Turn (F : Fidt) (x : FcbPtr) (n : ℕ) (ps : List (FcbPtr × FcbPtr)) (cs : List Pid) : Prop :=
  ps.length = n ∧ cs.length = n ∧ some x = inlet F ps n

theorem inlet_append {ps : List (FcbPtr × FcbPtr)} {z : FcbPtr × FcbPtr} : inlet F (ps ++ [z]) ps.length = inlet F ps ps.length := by
  cases hn : ps.length with
  | zero => rfl
  | succ n => rw [inlet, inlet, List.getElem?_append_left (by omega)]

/-- The last fragment. -/
theorem construct_last {frag : List String} {pipe : Int × Int} {child : List (Option Pid)} {x y : FcbPtr} {n : ℕ}
    (hS : Saved F i j f₀ f₁) :
    (world p calm).Triple (Enough calm) (Phase p F (table F i j (some x) (some y)) calm [] (Turn F x n))
      (construct i.val j.val [frag] pipe child) (Built p F calm (n + 1)) := by
  have hpend : ∀ {T : Fidt}, ∀ f ∈ ([] : List FcbPtr), ∃ i, T i = some f := fun f hm => absurd hm List.not_mem_nil
  refine dup2_rule (j := stdout) hpend hS.table_saveout fun _ => close_rule hpend fun _ => ?_
  refine exec_rule (r := stdout) stdin_ne_stdout.symm hpend (fun ps cs hC hd ha => ?_) fun c => ?_
  · obtain ⟨rfl, hcs, hx⟩ := hC
    rw [hcs]
    exact ⟨slots_last hS hx hd ha, fun z hz => absurd (List.getElem?_eq_some_iff.1 hz).1 (Nat.lt_irrefl _)⟩
  refine dup2_rule (j := stdin) hpend hS.table_savein fun _ => close_rule hpend fun _ => ?_
  refine .ret (phase_stable hpend) fun h s hP => ⟨⟨_, rfl⟩, ?_, fun hcalm => ?_⟩
  · have hk := hP.1
    rwa [hS.last] at hk
  · obtain ⟨hl, -, cs, c, hcs, hps, hlen, -⟩ := hP.2 hcalm
    refine ⟨hl, ?_, ?_⟩
    · rw [hcs, hps, List.length_append, hlen, List.length_singleton]
    · rw [hcs, List.length_append, hlen, List.length_singleton]

/-- The shell builds a pipeline with the streams of `stdin` and `stdout` saved, and then puts them back. -/
theorem construct_triple (hS : Saved F i j f₀ f₁) (hfree : 4 ≤ (freeFrom F 0).card) (frag : List String)
    (frags : List (List String)) (pipe : Int × Int) (child : List (Option Pid)) (x y : FcbPtr) (n : ℕ) :
    (world p calm).Triple (Enough calm) (Phase p F (table F i j (some x) (some y)) calm [] (Turn F x n))
      (construct i.val j.val (frag :: frags) pipe child) (Built p F calm (n + (frags.length + 1))) := by
  induction frags generalizing frag pipe child x y n with
  | nil => exact construct_last hS
  | cons next frags ih =>
    have hpend : ∀ {T : Fidt}, ∀ f ∈ ([] : List FcbPtr), ∃ i, T i = some f := fun f hm => absurd hm List.not_mem_nil
    refine pipe_rule (fun k f hk => hS.exists_slot k hk) (hS.card_free hfree) (fun ps cs hC => hC.1.trans hC.2.1.symm)
      fun r w f g hrw hr hw => ?_
    obtain ⟨hr0, hr1⟩ := Saved.slot_ne hr
    obtain ⟨hw0, hw1⟩ := Saved.slot_ne hw
    have hends : ∀ T : Fidt, T r = some f → (∃ k, T k = some g) → ∀ z ∈ [f, g], ∃ k, T k = some z := by
      intro T hTr hTg z hz
      rcases List.mem_cons.1 hz with rfl | hz
      · exact ⟨r, hTr⟩
      · exact List.mem_singleton.1 hz ▸ hTg
    have h1r : Function.update (Function.update (table F i j (some x) (some y)) r (some f)) w (some g) r = some f := by
      rw [Function.update_of_ne hrw, Function.update_self]
    have h2r := Function.update_of_ne hr1 (some g)
      (Function.update (Function.update (table F i j (some x) (some y)) r (some f)) w (some g))
    refine dup2_rule (j := stdout) (hends _ h1r ⟨w, Function.update_self ..⟩) (Function.update_self ..) fun _ =>
      close_rule (hends _ (h2r.trans h1r) ⟨stdout, Function.update_self ..⟩) fun _ => ?_
    rw [Saved.handed hrw hw hr1 hw1]
    refine exec_rule hr0 (hends _ (Function.update_self ..) ⟨stdout, ?_⟩) (fun ps cs hC hd ha => ?_) fun c => ?_
    · rw [Function.update_of_ne hr1.symm, table_apply, if_pos rfl]
    · obtain ⟨ps, rfl, rfl, hcs, hx⟩ := hC
      rw [hcs]
      refine ⟨slots_handed hr0 hr1 List.getElem?_concat_length (hx.trans inlet_append.symm) hd ha, fun z hz => ?_⟩
      rw [List.getElem?_concat_length] at hz
      obtain rfl := Option.some.inj hz
      exact ⟨List.mem_cons_self, List.mem_cons_of_mem _ (List.mem_singleton_self _)⟩
    refine dup2_rule (j := stdin) hpend (Function.update_self ..) fun _ => close_rule hpend fun _ => ?_
    rw [Saved.next hr hr0 hr1, List.length_cons, show n + (frags.length + 1 + 1) = n + 1 + (frags.length + 1) by omega]
    refine (ih next _ _ f g (n + 1)).pre fun h s hP => ⟨hP.1, fun hcalm => ?_⟩
    obtain ⟨hl, -, cs, c, hcs, ps, hps, hlen, hlen', -⟩ := hP.2 hcalm
    refine ⟨hl, fun f hm => absurd hm List.not_mem_nil, ?_, ?_, ?_⟩
    · rw [hps, List.length_append, hlen, List.length_singleton]
    · rw [hcs, List.length_append, hlen', List.length_singleton]
    · rw [hps, inlet, ← hlen, List.getElem?_concat_length]
      rfl

/-! ## The whole line -/

/-- A stream stays in its slot when another slot is filled. -/
theorem update_slot (hj : T j = some f) (hi : T i = none) (x : Option FcbPtr) : Function.update T i x j = some f := by
  have hne : j ≠ i := by
    rintro rfl
    rw [hj] at hi
    cases hi
  rw [Function.update_of_ne hne, hj]

theorem card_update (hfree : 4 ≤ (freeFrom F 0).card) (hi : F i = none) :
    1 ≤ (freeFrom (Function.update F i (some f)) 0).card := by
  have heq : freeFrom (Function.update F i (some f)) 0 = (freeFrom F 0).erase i := by
    ext j
    rw [Finset.mem_erase, mem_freeFrom, mem_freeFrom, Function.update_apply]
    grind
  rw [heq, Finset.card_erase_of_mem (mem_freeFrom.2 ⟨Nat.zero_le _, hi⟩)]
  omega

theorem Saved.of_update (h0 : F stdin = some f₀) (h1 : F stdout = some f₁) (hi : F i = none)
    (hj : Function.update F i (some f₀) j = none) : Saved F i j f₀ f₁ := by
  have hne : j ≠ i := by
    rintro rfl
    rw [Function.update_self] at hj
    cases hj
  exact ⟨hne.symm, hi, by rwa [Function.update_of_ne hne] at hj, h0, h1⟩

theorem savefid_rule (src : Fid) {k : Int → Process} (hsrc : T src = some f) (hfids : 1 ≤ (freeFrom T 0).card)
    (hk : ∀ i : Fid, T i = none →
      (world p calm).Triple (Enough calm) (Phase p F (Function.update T i (some f)) calm [] C) (k i.val) Q) :
    (world p calm).Triple (Enough calm) (Phase p F T calm [] C) (savefid src.val k) Q := by
  refine openNull_rule hfids fun i g hi => ?_
  refine dup2_rule (j := i) (fun f hm => absurd hm List.not_mem_nil) (update_slot hsrc hi (some g)) fun _ => ?_
  rw [Function.update_idem]
  exact hk i hi

theorem exists_fragment (argv : List String) : ∃ frag frags, fragments argv = frag :: frags := by
  induction argv with
  | nil => exact ⟨[], [], rfl⟩
  | cons arg argv ih =>
    obtain ⟨frag, frags, hf⟩ := ih
    by_cases ha : arg = "|"
    · exact ⟨[], fragments argv, by rw [fragments, if_pos ha]⟩
    · exact ⟨arg :: frag, frags, by rw [fragments, if_neg ha, hf]; rfl⟩

theorem processLine_triple {commands argv : List String} {pipe : Int × Int} (h0 : F stdin = some f₀)
    (h1 : F stdout = some f₁) (hfree : 4 ≤ (freeFrom F 0).card) (hcheck : check commands (fragments argv) = none) :
    (world p calm).Triple (Enough calm) (Phase p F F calm [] (Turn F f₀ 0)) (processLine commands argv pipe)
      (Built p F calm (fragments argv).length) := by
  obtain ⟨frag, frags, hfrags⟩ := exists_fragment argv
  rw [processLine, hcheck]
  refine savefid_rule stdin h0 (by omega) fun a ha => ?_
  refine savefid_rule stdout (update_slot h1 ha _) (card_update hfree ha) fun b hb => ?_
  have hS := Saved.of_update h0 h1 ha hb
  rw [hS.table_eq, hfrags, ← Nat.zero_add (frag :: frags).length]
  exact construct_triple hS hfree frag frags pipe [] f₀ f₁ 0

variable {commands argv : List String} {pipe : Int × Int} {r : Option (Except Complaint (List (Option Pid)))}

theorem built_of_runs (hs : system.Reaches s) (hp : s.pstate p = .alive) (h0 : s.fidt p stdin ≠ none)
    (h1 : s.fidt p stdout ≠ none) (hfree : 4 ≤ (freeFrom (s.fidt p) 0).card)
    (hcheck : check commands (fragments argv) = none)
    (hr : (world p calm).Runs (Enough calm) [] (processLine commands argv pipe) s h r s') :
    Built p (s.fidt p) calm (fragments argv).length h r s' := by
  obtain ⟨f₀, h0⟩ := Option.ne_none_iff_exists'.1 h0
  obtain ⟨f₁, h1⟩ := Option.ne_none_iff_exists'.1 h1
  refine processLine_triple h0 h1 hfree hcheck [] s h r s' ⟨⟨State.reaches_inv hs, hp, rfl, ?_⟩, fun _ => ⟨⟨?_, ?_⟩, ?_, ?_⟩⟩ hr
  · exact fun e he => absurd he List.not_mem_nil
  · exact fun i j e e' he => nomatch he
  · exact fun i e c he => nomatch he
  · exact fun f hm => absurd hm List.not_mem_nil
  · exact ⟨rfl, rfl, h0.symm⟩

/-- `f` is open in process `c` only, through one fid. -/
def OneOwner (s : State) (f : FcbPtr) (c : Pid) : Prop := ∃ i, ∀ q j, s.fidt q j = some f ↔ q = c ∧ j = i

/-- Each pipe connects one child to the next one: each of its ends has one owner. -/
def Owned (p : Pid) (h : List Event) (s : State) : Prop :=
  ∀ (i : ℕ) (e : FcbPtr × FcbPtr) (c c' : Pid), (pipes p h)[i]? = some e → (children h)[i]? = some c →
    (children h)[i + 1]? = some c' → OneOwner s e.2 c ∧ OneOwner s e.1 c'

/-- The write end of a pipe has one owner, and its read end has not: the child that writes has inherited it. -/
theorem ends_of_built {n k : ℕ} {z : FcbPtr × FcbPtr} {c' : Pid} (hb : Built p F true n h r s) (hz : (pipes p h)[k]? = some z)
    (hc : (children h)[k]? = some c) (hc' : (children h)[k + 1]? = some c') : OneOwner s z.2 c ∧ ¬OneOwner s z.1 c' := by
  obtain ⟨-, hk, hcalm⟩ := hb
  obtain ⟨hl, -, -⟩ := hcalm rfl
  obtain ⟨hcp, hw, r, hr, hrd⟩ := hl.linked k z c hz hc
  rw [hc'] at hrd
  have hF := hk.apart z (List.mem_of_getElem? hz)
  refine ⟨⟨stdout, fun q j => ?_⟩, fun ⟨i, hi⟩ => ?_⟩
  · by_cases hq : q = p
    · subst hq
      rw [hk.fidt]
      exact ⟨fun hj => absurd hj (hF j).2, fun hj => absurd hj.1.symm hcp⟩
    · rw [hw q hq, List.mem_singleton, Prod.mk.injEq]
  · obtain ⟨hcc, hri⟩ := (hi c r).1 ((hrd c hcp r).2 List.mem_cons_self)
    have hcp' : c' ≠ p := hcc ▸ hcp
    have h0 := (hi c' stdin).1 ((hrd c' hcp' stdin).2 (List.mem_cons_of_mem _ (List.mem_singleton_self _)))
    exact hr (hri.trans h0.2.symm)

theorem not_owned_of_built {n : ℕ} (hb : Built p F true n h r s) (hn : 2 ≤ n) : ¬Owned p h s := by
  intro ho
  obtain ⟨hl, hlen, hn'⟩ := hb.2.2 rfl
  have hz := List.getElem?_eq_getElem (l := pipes p h) (i := 0) (by omega)
  have hc := List.getElem?_eq_getElem (l := children h) (i := 0) (by omega)
  have hc' := List.getElem?_eq_getElem (l := children h) (i := 0 + 1) (by omega)
  exact (ends_of_built hb hz hc hc').2 (ho 0 _ _ _ hz hc hc').2

end TinyOS.Shell
