import TinyOS.Lib.Chain
import TinyOS.Streams.Model

/-!
# The process tree

The fields of the PCBs that link processes to each other (`pstate`, `parent`, the lists of children), with
`pcb_freelist` and `process_count`, and what `kernel_proc.c` and `kernel_threads.c` do to them. The free PCBs are chained
by their `parent` fields. `children_node` and `exited_node` are one node each, so a PCB that was pushed while it is
linked would merge two lists; in a consistent table that does not happen.
-/

namespace TinyOS.Proc

open Streams

/-- `Pid_t` of a process, or `PCB*`: an index into `PT`. -/
abbrev Pid := Fin maxProc

theorem maxProc_pos : 0 < maxProc := by decide

def initPid : Pid := ⟨1, by decide⟩

inductive PidState
  | free
  | alive
  | zombie
  deriving DecidableEq, Repr

structure Tree where
  pstate : Pid → PidState
  parent : Pid → Option Pid
  childrenList : Pid → List Pid
  exitedList : Pid → List Pid
  pcbFreelist : Option Pid
  processCount : Nat

namespace Tree

/-- The table after the loops of `initialize_processes`. -/
def initial : Tree where
  pstate _ := .free
  parent p := if h : p.val + 1 < maxProc then some ⟨p.val + 1, h⟩ else none
  childrenList _ := []
  exitedList _ := []
  pcbFreelist := some ⟨0, maxProc_pos⟩
  processCount := 0

/-! ## Acquiring and releasing -/

def acquirePcb (t : Tree) : Option (Pid × Tree) :=
  match t.pcbFreelist with
  | none => none
  | some p =>
    some (p, { t with
      pstate := Function.update t.pstate p .alive
      pcbFreelist := t.parent p
      processCount := t.processCount + 1 })

def releasePcb (t : Tree) (p : Pid) : Tree :=
  { t with
    pstate := Function.update t.pstate p .free
    parent := Function.update t.parent p t.pcbFreelist
    pcbFreelist := some p
    processCount := t.processCount - 1 }

def setParent (t : Tree) (p : Pid) (q : Option Pid) : Tree := { t with parent := Function.update t.parent p q }

/-- `rlist_push_front(&q->children_list, &p->children_node)`. -/
def pushChild (t : Tree) (q p : Pid) : Tree :=
  { t with childrenList := Function.update t.childrenList q (p :: t.childrenList q) }

/-- `rlist_push_front(&q->exited_list, &p->exited_node)`. -/
def pushExited (t : Tree) (q p : Pid) : Tree :=
  { t with exitedList := Function.update t.exitedList q (p :: t.exitedList q) }

/-- `sys_Exec` by `cur`, as far as the tree goes. -/
def exec (t : Tree) (cur : Pid) : Option (Pid × Tree) :=
  match t.acquirePcb with
  | none => none
  | some (p, t) => if p.val ≤ 1 then some (p, t.setParent p none) else some (p, (t.setParent p (some cur)).pushChild cur p)

/-- `rlist_remove` of both nodes of `p`, and `release_PCB`. -/
def cleanupZombie (t : Tree) (p : Pid) : Tree :=
  { t with
    childrenList := fun q => (t.childrenList q).erase p
    exitedList := fun q => (t.exitedList q).erase p }.releasePcb p

/-! ## The exit of a process -/

/-- The loop that gives the children of `p` to init, at most `n` rounds. -/
def reparent (p : Pid) : Nat → Tree → Tree
  | 0, t => t
  | n + 1, t =>
    match t.childrenList p with
    | [] => t
    | c :: rest =>
      let t := { t with childrenList := Function.update t.childrenList p rest }
      reparent p n ((t.setParent c (some initPid)).pushChild initPid c)

/-- `rlist_append(&initpcb->exited_list, &p->exited_list)`. -/
def appendExited (t : Tree) (p : Pid) : Tree :=
  let l := t.exitedList p
  let exited := Function.update t.exitedList initPid (t.exitedList initPid ++ l)
  { t with exitedList := Function.update exited p [] }

/-- `p` gives its children to init and reports to its parent; `none` if it follows a null pointer. -/
def bequeath (t : Tree) (p : Pid) : Option Tree :=
  -- `get_pcb(1)` is `NULL` if init is gone
  if t.pstate initPid = .free ∧ (t.childrenList p ≠ [] ∨ t.exitedList p ≠ []) then none
  else
    let t := (t.reparent p (t.childrenList p).length).appendExited p
    (t.parent p).map fun q => t.pushExited q p

/-- The two assertions of `sys_ThreadExit`, and `pstate = ZOMBIE`. -/
def becomeZombie (t : Tree) (p : Pid) : Option Tree :=
  if t.childrenList p = [] ∧ t.exitedList p = [] then some { t with pstate := Function.update t.pstate p .zombie }
  else none

/-- What `sys_ThreadExit` does to the tree when the last thread of `p` exits. -/
def exit (t : Tree) (p : Pid) : Option Tree :=
  (if p ≠ initPid then t.bequeath p else some t).bind fun t => t.becomeZombie p

/-! ## Consistent tables -/

/-- Processes 0 and 1, which have no parent. -/
def Root (t : Tree) (p : Pid) : Prop := p.val ≤ 1 ∧ t.parent p = none

/-- Where a process `p` with parent `q` is listed. -/
structure Listed (t : Tree) (p q : Pid) : Prop where
  child : (t.childrenList q).count p = 1
  child_only : ∀ r, r ≠ q → p ∉ t.childrenList r
  exited : (t.exitedList q).count p = if t.pstate p = .zombie then 1 else 0
  exited_only : ∀ r, r ≠ q → p ∉ t.exitedList r
  parent_alive : t.pstate q = .alive

structure Consistent (t : Tree) : Prop where
  freelist : ∃ l, Chain t.parent t.pcbFreelist l ∧ l.Nodup ∧ ∀ p ∈ l, t.pstate p = .free
  unlisted : ∀ p, t.pstate p = .free ∨ t.parent p = none → ∀ q, p ∉ t.childrenList q ∧ p ∉ t.exitedList q
  listed : ∀ p q, t.pstate p ≠ .free → t.parent p = some q → t.Listed p q
  roots : ∀ p : Pid, p.val ≤ 1 → t.pstate p ≠ .free → t.parent p = none
  ends : ∀ p, t.pstate p ≠ .free → Ends t.parent t.Root p

variable {t t' : Tree} {p q x : Pid}

namespace Consistent

/-- The parent of a process is alive. -/
theorem parent_alive (h : t.Consistent) (hp : t.pstate p ≠ .free) (hq : t.parent p = some q) : t.pstate q = .alive :=
  (h.listed p q hp hq).parent_alive

theorem mem_children (h : t.Consistent) : p ∈ t.childrenList q ↔ t.pstate p ≠ .free ∧ t.parent p = some q := by
  constructor
  · intro hm
    have hp : t.pstate p ≠ .free := fun hf => (h.unlisted p (.inl hf) q).1 hm
    cases hr : t.parent p with
    | none => exact absurd hm (h.unlisted p (.inr hr) q).1
    | some r =>
      refine ⟨hp, congrArg some ?_⟩
      by_contra hne
      exact (h.listed p r hp hr).child_only q (Ne.symm hne) hm
  · rintro ⟨hp, hq⟩
    exact List.count_pos_iff.1 (by rw [(h.listed p q hp hq).child]; decide)

theorem mem_exited (h : t.Consistent) : p ∈ t.exitedList q ↔ t.pstate p = .zombie ∧ t.parent p = some q := by
  constructor
  · intro hm
    have hp : t.pstate p ≠ .free := fun hf => (h.unlisted p (.inl hf) q).2 hm
    cases hr : t.parent p with
    | none => exact absurd hm (h.unlisted p (.inr hr) q).2
    | some r =>
      have hl := h.listed p r hp hr
      have hrq : r = q := by
        by_contra hne
        exact hl.exited_only q (Ne.symm hne) hm
      subst hrq
      refine ⟨?_, rfl⟩
      by_contra hz
      have hc := hl.exited
      rw [if_neg hz] at hc
      exact List.count_eq_zero.1 hc hm
  · rintro ⟨hz, hq⟩
    have hl := h.listed p q (by simp [hz]) hq
    exact List.count_pos_iff.1 (by rw [hl.exited, if_pos hz]; decide)

theorem ne_parent (h : t.Consistent) (hp : t.pstate p ≠ .free) (hq : t.parent p = some q) : q ≠ p := by
  rintro rfl
  exact (h.ends q hp).ne_self (fun _ hr => hr.2) hq

/-- The first free PCB, and the others after it. -/
theorem freelist_head (h : t.Consistent) (hf : t.pcbFreelist = some p) (y : Option Pid) :
    t.pstate p = .free ∧ ∃ l, p ∉ l ∧ Chain (Function.update t.parent p y) (t.parent p) l ∧ l.Nodup ∧
      ∀ q ∈ l, t.pstate q = .free := by
  obtain ⟨l, hc, hn, hl⟩ := h.freelist
  rw [hf] at hc
  obtain ⟨rest, rfl, hr⟩ := hc.pop hn y
  obtain ⟨hnot, hn⟩ := List.nodup_cons.1 hn
  exact ⟨hl p List.mem_cons_self, rest, hnot, hr, hn, fun q hq => hl q (List.mem_cons_of_mem p hq)⟩

end Consistent

/-! ## `sys_Exec` -/

/-- The first free PCB becomes a process: a child of the live process `q` for `y = some q`, a root for `y = none`. -/
theorem Consistent.adopt (h : t.Consistent) (hf : t.pcbFreelist = some p) {y : Option Pid}
    (hy : y = none ↔ p.val ≤ 1) (halive : ∀ q, y = some q → t.pstate q = .alive) (n : Nat) :
    Consistent
      { pstate := Function.update t.pstate p .alive
        parent := Function.update t.parent p y
        childrenList := fun q => if y = some q then p :: t.childrenList q else t.childrenList q
        exitedList := t.exitedList
        pcbFreelist := t.parent p
        processCount := n } := by
  obtain ⟨hfree, l, hnot, hc, hn, hl⟩ := h.freelist_head hf y
  have hpar : ∀ {a}, a ≠ p → Function.update t.parent p y a = t.parent a := fun ha => Function.update_of_ne ha _ _
  have hst : ∀ {a}, a ≠ p → Function.update t.pstate p PidState.alive a = t.pstate a := fun ha =>
    Function.update_of_ne ha _ _
  have hne : ∀ {a}, t.pstate a ≠ .free → a ≠ p := by rintro a ha rfl; exact ha hfree
  have hp := h.unlisted p (.inl hfree)
  have hmem : ∀ {a q}, a ≠ p → (a ∈ (if y = some q then p :: t.childrenList q else t.childrenList q) ↔
      a ∈ t.childrenList q) := by
    intro a q ha
    split
    · rw [List.mem_cons]
      exact or_iff_right ha
    · rfl
  have hcount : ∀ {a q}, a ≠ p → (if y = some q then p :: t.childrenList q else t.childrenList q).count a =
      (t.childrenList q).count a := by
    intro a q ha
    split
    · exact List.count_cons_of_ne (Ne.symm ha)
    · rfl
  constructor
  case freelist =>
    refine ⟨l, hc, hn, fun q hq => ?_⟩
    exact (hst (by rintro rfl; exact hnot hq)).trans (hl q hq)
  case unlisted =>
    intro a ha q
    dsimp only at ha ⊢
    by_cases hap : a = p
    · subst hap
      have hyn : y = none := by simpa using ha
      simpa [hyn] using hp q
    · rw [hst hap, hpar hap] at ha
      rw [hmem hap]
      exact h.unlisted a ha q
  case listed =>
    intro a q ha haq
    dsimp only at ha haq
    by_cases hap : a = p
    · subst hap
      have hyq : y = some q := by simpa using haq
      refine ⟨?_, fun r hr => ?_, ?_, fun r _ => (hp r).2, ?_⟩
      · simp [hyq, List.count_eq_zero.2 (hp q).1]
      · have : y ≠ some r := by rw [hyq]; simpa using Ne.symm hr
        simpa [this] using (hp r).1
      · simp [List.count_eq_zero.2 (hp q).2]
      · have hq := halive q hyq
        exact (hst (hne (by simp [hq]))).trans hq
    · rw [hst hap] at ha
      rw [hpar hap] at haq
      have hl := h.listed a q ha haq
      refine ⟨(hcount hap).trans hl.child, fun r hr => (hmem hap).not.2 (hl.child_only r hr), ?_, hl.exited_only, ?_⟩
      · show _ = if Function.update t.pstate p PidState.alive a = .zombie then 1 else 0
        rw [hst hap]
        exact hl.exited
      · exact (hst (hne (by simp [hl.parent_alive]))).trans hl.parent_alive
  case roots =>
    intro a ha hnf
    dsimp only at hnf ⊢
    by_cases hap : a = p
    · subst hap
      rw [Function.update_self]
      exact hy.2 ha
    · rw [hst hap] at hnf
      rw [hpar hap]
      exact h.roots a ha hnf
  case ends =>
    intro a ha
    dsimp only at ha
    have hold : ∀ {b}, t.pstate b ≠ .free → Ends (Function.update t.parent p y)
        (fun r => r.val ≤ 1 ∧ Function.update t.parent p y r = none) b := by
      intro b hb
      refine (h.ends b hb).redirect (S := fun b => t.pstate b ≠ .free) hb
        (fun c d hc hcd => by simp [h.parent_alive hc hcd]) (fun c hc hroot => .root ?_) (fun c d hc hcd hd => .step ?_ hd)
      · exact ⟨hroot.1, (hpar (hne hc)).trans hroot.2⟩
      · exact (hpar (hne hc)).trans hcd
    by_cases hap : a = p
    · subst hap
      cases hyq : y with
      | none => exact .root ⟨hy.1 hyq, by simp⟩
      | some q =>
        subst hyq
        exact .step (Function.update_self _ _ _) (hold (by simp [halive q rfl]))
    · exact hold ((hst hap).symm.trans_ne ha)

/-- `sys_Exec` by a live process keeps the table consistent; for the processes 0 and 1, the caller does not matter. -/
theorem Consistent.exec (h : t.Consistent) {cur : Pid} (hcur : 1 < p.val → t.pstate cur = .alive)
    (he : t.exec cur = some (p, t')) : t'.Consistent := by
  unfold Tree.exec acquirePcb at he
  cases hf : t.pcbFreelist with
  | none => simp [hf] at he
  | some r =>
    simp only [hf] at he
    split at he
    · rename_i hle
      cases he
      simpa [setParent] using h.adopt hf (y := none) (by simpa using hle) (by simp) (t.processCount + 1)
    · rename_i hle
      cases he
      have := h.adopt hf (y := some cur) (by simpa using hle) (by simpa using hcur (Nat.lt_of_not_le hle)) (t.processCount + 1)
      have hch : Function.update t.childrenList cur (p :: t.childrenList cur) =
          fun q => if some cur = some q then p :: t.childrenList q else t.childrenList q := by
        funext q
        by_cases hq : q = cur
        · subst hq; simp
        · simp [hq, Ne.symm hq]
      simpa [setParent, pushChild, hch] using this

/-! ## `cleanup_zombie` -/

/-- A zombie that has a parent leaves the table. -/
theorem Consistent.cleanupZombie (h : t.Consistent) (hp : t.pstate p = .zombie) (hq : t.parent p = some q) :
    (t.cleanupZombie p).Consistent := by
  have hne : ∀ {a}, t.pstate a = .alive → a ≠ p := by rintro a ha rfl; rw [hp] at ha; cases ha
  have hpar : ∀ {a}, a ≠ p → (t.cleanupZombie p).parent a = t.parent a := fun ha => Function.update_of_ne ha _ _
  have hst : ∀ {a}, a ≠ p → (t.cleanupZombie p).pstate a = t.pstate a := fun ha => Function.update_of_ne ha _ _
  have hfree : (t.cleanupZombie p).pstate p = .free := Function.update_self _ _ _
  have hl := h.listed p q (by simp [hp]) hq
  obtain ⟨l, hc, hn, hlf⟩ := h.freelist
  have hnot : p ∉ l := fun hm => by have := hlf p hm; rw [hp] at this; cases this
  constructor
  case freelist =>
    refine ⟨p :: l, hc.push hnot, List.nodup_cons.2 ⟨hnot, hn⟩, fun a ha => ?_⟩
    rcases List.mem_cons.1 ha with rfl | hal
    · exact hfree
    · exact (hst (by rintro rfl; exact hnot hal)).trans (hlf a hal)
  case unlisted =>
    intro a ha r
    by_cases hap : a = p
    · subst hap
      have herase : ∀ {l : List Pid}, l.count a ≤ 1 → a ∉ l.erase a := fun hle => by
        rw [← List.count_eq_zero, List.count_erase_self]
        omega
      by_cases hr : r = q
      · subst hr
        exact ⟨herase (Nat.le_of_eq hl.child), herase (Nat.le_of_eq (hl.exited.trans (if_pos hp)))⟩
      · exact ⟨herase (Nat.le_one_iff_eq_zero_or_eq_one.2 (.inl (List.count_eq_zero.2 (hl.child_only r hr)))),
          herase (Nat.le_one_iff_eq_zero_or_eq_one.2 (.inl (List.count_eq_zero.2 (hl.exited_only r hr))))⟩
    · rw [hst hap, hpar hap] at ha
      exact ⟨fun hm => (h.unlisted a ha r).1 (List.mem_of_mem_erase hm),
        fun hm => (h.unlisted a ha r).2 (List.mem_of_mem_erase hm)⟩
  case listed =>
    intro a r ha har
    have hap : a ≠ p := by rintro rfl; exact ha hfree
    rw [hst hap] at ha
    rw [hpar hap] at har
    have hl' := h.listed a r ha har
    refine ⟨(List.count_erase_of_ne hap).trans hl'.child, fun u hu hm => hl'.child_only u hu (List.mem_of_mem_erase hm),
      ?_, fun u hu hm => hl'.exited_only u hu (List.mem_of_mem_erase hm), ?_⟩
    · rw [hst hap]
      exact (List.count_erase_of_ne hap).trans hl'.exited
    · exact (hst (hne hl'.parent_alive)).trans hl'.parent_alive
  case roots =>
    intro a ha hnf
    have hap : a ≠ p := by rintro rfl; exact hnf hfree
    rw [hst hap] at hnf
    rw [hpar hap]
    exact h.roots a ha hnf
  case ends =>
    intro a ha
    have hap : a ≠ p := by rintro rfl; exact ha hfree
    rw [hst hap] at ha
    refine (h.ends a ha).redirect (S := fun b => t.pstate b ≠ .free ∧ b ≠ p) ⟨ha, hap⟩ (fun b c hb hbc => ?_)
      (fun b hb hroot => .root ⟨hroot.1, (hpar hb.2).trans hroot.2⟩)
      (fun b c hb hbc hc => .step ((hpar hb.2).trans hbc) hc)
    have hc := h.parent_alive hb.1 hbc
    exact ⟨by simp [hc], hne hc⟩

/-! ## The exit of a process -/

/-- What the loop of `sys_ThreadExit` has done when the children of `p` are gone: init has them all. -/
theorem reparent_eq (hp : p ≠ initPid) : ∀ (n : Nat) (t : Tree), (t.childrenList p).length ≤ n →
    t.reparent p n = { t with
      parent := fun a => if a ∈ t.childrenList p then some initPid else t.parent a
      childrenList := Function.update
        (Function.update t.childrenList initPid ((t.childrenList p).reverse ++ t.childrenList initPid)) p [] } := by
  intro n
  induction n with
  | zero =>
    intro t hn
    have hnil : t.childrenList p = [] := List.length_eq_zero_iff.1 (Nat.le_zero.1 hn)
    have hupd : Function.update t.childrenList p [] = t.childrenList := by
      rw [← hnil]; exact Function.update_eq_self p _
    simp [reparent, hnil, hupd]
  | succ n ih =>
    intro t hn
    cases hc : t.childrenList p with
    | nil =>
      have hupd : Function.update t.childrenList p [] = t.childrenList := by
        rw [← hc]; exact Function.update_eq_self p _
      simp [reparent, hc, hupd]
    | cons c rest =>
      rw [hc] at hn
      simp only [reparent, hc]
      rw [ih _ (by simpa [setParent, pushChild, hp] using hn)]
      simp only [setParent, pushChild, Function.update_self, Function.update_of_ne hp, Function.update_of_ne hp.symm,
        List.reverse_cons, List.append_assoc, List.singleton_append]
      congr 1
      · funext a
        by_cases ha : a = c
        · subst ha; simp
        · simp [ha]
      · funext a
        by_cases ha : a = p
        · subst ha; simp
        · by_cases hi : a = initPid
          · subst hi; simp [ha]
          · simp [ha, hi]

theorem reparent_pstate (p : Pid) : ∀ (n : Nat) (t : Tree), (t.reparent p n).pstate = t.pstate := by
  intro n
  induction n with
  | zero => exact fun t => rfl
  | succ n ih =>
    intro t
    unfold reparent
    split
    · rfl
    · rw [ih]
      rfl

/-- The exit of a process changes the state of its own PCB only. -/
theorem exit_pstate (h : t.exit p = some t') : t'.pstate = Function.update t.pstate p .zombie := by
  obtain ⟨t₁, h₁, hz⟩ := Option.bind_eq_some_iff.1 h
  have hst : t₁.pstate = t.pstate := by
    split at h₁
    · unfold bequeath at h₁
      split at h₁
      · cases h₁
      · obtain ⟨q, -, rfl⟩ := Option.map_eq_some_iff.1 h₁
        exact reparent_pstate p _ t
    · cases h₁
      rfl
  unfold becomeZombie at hz
  split at hz
  · cases hz
    rw [← hst]
  · cases hz

/-- The table after the exit of `p`, a child of `q`. -/
def exited (t : Tree) (p q : Pid) : Tree :=
  { t with
    pstate := Function.update t.pstate p .zombie
    parent := fun a => if a ∈ t.childrenList p then some initPid else t.parent a
    childrenList := fun r =>
      if r = p then [] else if r = initPid then (t.childrenList p).reverse ++ t.childrenList initPid
      else t.childrenList r
    exitedList := fun r =>
      let l := if r = p then [] else if r = initPid then t.exitedList initPid ++ t.exitedList p else t.exitedList r
      if r = q then p :: l else l }

/-- A live process with a parent passes the assertions of `sys_ThreadExit`. -/
theorem Consistent.exit_eq (h : t.Consistent) (hinit : t.pstate initPid = .alive) (hp : t.pstate p = .alive)
    (hq : t.parent p = some q) : t.exit p = some (t.exited p q) := by
  have hpi : p ≠ initPid := by
    rintro rfl
    rw [h.roots initPid (by decide) (by simp [hinit])] at hq
    cases hq
  have hqp : q ≠ p := h.ne_parent (by simp [hp]) hq
  have hpp : p ∉ t.childrenList p := fun hm => by
    have := (h.mem_children.1 hm).2
    rw [hq] at this
    exact hqp (Option.some.inj this)
  have hb : t.bequeath p = some { t.exited p q with pstate := t.pstate } := by
    unfold bequeath
    rw [reparent_eq hpi _ t (Nat.le_refl _), if_neg (by simp [hinit])]
    simp only [appendExited, hpp, if_false, hq, Option.map_some, pushExited, exited, Option.some.injEq]
    congr 1
    · funext r
      by_cases hr : r = p
      · subst hr; simp
      · by_cases hi : r = initPid
        · subst hi; simp [hr]
        · simp [hr, hi]
    · funext r
      by_cases hrq : r = q
      · subst hrq
        by_cases hi : r = initPid
        · subst hi; simp [hqp]
        · simp [hqp, hi]
      · by_cases hr : r = p
        · subst hr; simp [hrq]
        · by_cases hi : r = initPid
          · subst hi; simp [hrq, hr]
          · simp [hrq, hr, hi]
  have hz : ({ t.exited p q with pstate := t.pstate } : Tree).becomeZombie p = some (t.exited p q) := by
    simp [becomeZombie, exited, Ne.symm hqp]
  simp only [Tree.exit, ne_eq, hpi, not_false_eq_true, if_true, hb, Option.bind_some, hz]

section Exited

variable {a r : Pid}

theorem exited_pstate_self : (t.exited p q).pstate p = .zombie := Function.update_self _ _ _

theorem exited_pstate_of_ne (ha : a ≠ p) : (t.exited p q).pstate a = t.pstate a := Function.update_of_ne ha _ _

theorem exited_pstate_eq_free (hp : t.pstate p = .alive) : (t.exited p q).pstate a = .free ↔ t.pstate a = .free := by
  by_cases ha : a = p
  · subst ha
    simp [exited_pstate_self, hp]
  · rw [exited_pstate_of_ne ha]

theorem exited_parent_child (ha : a ∈ t.childrenList p) : (t.exited p q).parent a = some initPid := if_pos ha

theorem exited_parent_of_not_child (ha : a ∉ t.childrenList p) : (t.exited p q).parent a = t.parent a := if_neg ha

theorem exited_count_children (r : Pid) : ((t.exited p q).childrenList r).count a =
    if r = p then 0 else if r = initPid then (t.childrenList p).count a + (t.childrenList initPid).count a
    else (t.childrenList r).count a := by
  simp only [Tree.exited]
  split_ifs
  · simp
  · rw [List.count_append, List.count_reverse]
  · rfl

theorem exited_count_exited (r : Pid) : ((t.exited p q).exitedList r).count a =
    (if r = p then 0 else if r = initPid then (t.exitedList initPid).count a + (t.exitedList p).count a
      else (t.exitedList r).count a) + if r = q ∧ a = p then 1 else 0 := by
  have hhead : ∀ l : List Pid, (if r = q then p :: l else l).count a = l.count a + if r = q ∧ a = p then 1 else 0 := by
    intro l
    by_cases hr : r = q
    · rw [if_pos hr, List.count_cons]
      simp [hr, eq_comm (a := a)]
    · simp [hr]
  simp only [Tree.exited, hhead]
  split_ifs <;> simp

/-- A child of `p` is now a child of init. -/
theorem Consistent.exited_child (h : t.Consistent) (hinit : t.pstate initPid = .alive) (hpi : p ≠ initPid)
    (hap : a ≠ p) (ha : a ∈ t.childrenList p) : (t.exited p q).Listed a initPid := by
  obtain ⟨hna, hparent⟩ := h.mem_children.1 ha
  have hl := h.listed a p hna hparent
  have hc0 : ∀ r, r ≠ p → (t.childrenList r).count a = 0 := fun r hr => List.count_eq_zero.2 (hl.child_only r hr)
  have he0 : ∀ r, r ≠ p → (t.exitedList r).count a = 0 := fun r hr => List.count_eq_zero.2 (hl.exited_only r hr)
  refine ⟨?_, fun r hr => ?_, ?_, fun r hr => ?_, (exited_pstate_of_ne (Ne.symm hpi)).trans hinit⟩
  · simp [exited_count_children, Ne.symm hpi, hl.child, hc0 initPid (Ne.symm hpi)]
  · rw [← List.count_eq_zero, exited_count_children, if_neg hr]
    split
    · rfl
    · rename_i hrp
      exact hc0 r hrp
  · rw [exited_pstate_of_ne hap]
    simp [exited_count_exited, Ne.symm hpi, hap, hl.exited, he0 initPid (Ne.symm hpi)]
  · rw [← List.count_eq_zero, exited_count_exited, if_neg hr]
    split
    · simp [hap]
    · rename_i hrp
      simp [hap, he0 r hrp]

/-- `p` itself has become a zombie. -/
theorem Consistent.exited_self (h : t.Consistent) (hp : t.pstate p = .alive) (hq : t.parent p = some q) (hqp : q ≠ p) :
    (t.exited p q).Listed p q := by
  have hl := h.listed p q (by simp [hp]) hq
  have hc0 : (t.childrenList p).count p = 0 := List.count_eq_zero.2 (hl.child_only p (Ne.symm hqp))
  have he0 : ∀ r, (t.exitedList r).count p = 0 := by
    intro r
    by_cases hr : r = q
    · subst hr
      rw [hl.exited, if_neg (by simp [hp])]
    · exact List.count_eq_zero.2 (hl.exited_only r hr)
  have hchildren : ∀ r, r ≠ p → ((t.exited p q).childrenList r).count p = (t.childrenList r).count p := by
    intro r hr
    rw [exited_count_children, if_neg hr, hc0, Nat.zero_add]
    split
    · rename_i hi
      rw [hi]
    · rfl
  refine ⟨(hchildren q hqp).trans hl.child, fun r hr => ?_, ?_, fun r hr => ?_,
    (exited_pstate_of_ne hqp).trans hl.parent_alive⟩
  · rw [← List.count_eq_zero]
    by_cases hrp : r = p
    · rw [exited_count_children, if_pos hrp]
    · rw [hchildren r hrp]
      exact List.count_eq_zero.2 (hl.child_only r hr)
  · simp [exited_count_exited, exited_pstate_self, he0]
  · rw [← List.count_eq_zero, exited_count_exited]
    simp [he0, hr]

/-- The others stay where they were. -/
theorem Consistent.exited_other (h : t.Consistent) (ha : t.pstate a ≠ .free) (har : t.parent a = some r)
    (hap : a ≠ p) (hac : a ∉ t.childrenList p) : (t.exited p q).Listed a r := by
  have hrp : r ≠ p := by
    rintro rfl
    exact hac (h.mem_children.2 ⟨ha, har⟩)
  have hl := h.listed a r ha har
  have hcp : (t.childrenList p).count a = 0 := List.count_eq_zero.2 hac
  have hep : (t.exitedList p).count a = 0 := List.count_eq_zero.2 (hl.exited_only p (Ne.symm hrp))
  have hchildren : ∀ u, u ≠ p → ((t.exited p q).childrenList u).count a = (t.childrenList u).count a := by
    intro u hu
    rw [exited_count_children, if_neg hu, hcp, Nat.zero_add]
    split
    · rename_i hi
      rw [hi]
    · rfl
  have hexited : ∀ u, u ≠ p → ((t.exited p q).exitedList u).count a = (t.exitedList u).count a := by
    intro u hu
    have hno : ¬(u = q ∧ a = p) := fun hx => hap hx.2
    rw [exited_count_exited, if_neg hu, if_neg hno, Nat.add_zero, hep, Nat.add_zero]
    split
    · rename_i hi
      rw [hi]
    · rfl
  refine ⟨(hchildren r hrp).trans hl.child, fun u hu => ?_, ?_, fun u hu => ?_,
    (exited_pstate_of_ne hrp).trans hl.parent_alive⟩
  · rw [← List.count_eq_zero]
    by_cases hup : u = p
    · rw [exited_count_children, if_pos hup]
    · rw [hchildren u hup]
      exact List.count_eq_zero.2 (hl.child_only u hu)
  · rw [exited_pstate_of_ne hap, hexited r hrp]
    exact hl.exited
  · rw [← List.count_eq_zero]
    by_cases hup : u = p
    · rw [exited_count_exited, if_pos hup, if_neg fun hx => hap hx.2]
    · rw [hexited u hup]
      exact List.count_eq_zero.2 (hl.exited_only u hu)

/-- The exit of a live process keeps the table consistent. -/
theorem Consistent.exited (h : t.Consistent) (hinit : t.pstate initPid = .alive) (hp : t.pstate p = .alive)
    (hq : t.parent p = some q) : (t.exited p q).Consistent := by
  have hnf : ∀ {a}, t.pstate a = .alive → t.pstate a ≠ .free := fun ha => by simp [ha]
  have hiroot : t.parent initPid = none := h.roots initPid (by decide) (hnf hinit)
  have hpi : p ≠ initPid := by
    rintro rfl
    rw [hiroot] at hq
    cases hq
  have hqp : q ≠ p := h.ne_parent (hnf hp) hq
  have hpp : p ∉ t.childrenList p := fun hm => hqp (Option.some.inj (hq.symm.trans (h.mem_children.1 hm).2))
  have hroot : ∀ {a}, t.parent a = none → a ∉ t.childrenList p := fun hnone hm => by
    rw [(h.mem_children.1 hm).2] at hnone
    cases hnone
  constructor
  case freelist =>
    obtain ⟨l, hc, hn, hl⟩ := h.freelist
    have hold : ∀ a ∈ l, (t.exited p q).parent a = t.parent a := fun a ha =>
      exited_parent_of_not_child fun hm => (h.mem_children.1 hm).1 (hl a ha)
    exact ⟨l, hc.congr hold, hn, fun a ha => (exited_pstate_eq_free hp).2 (hl a ha)⟩
  case unlisted =>
    intro a ha r
    have hap : a ≠ p := by
      rintro rfl
      rw [exited_pstate_self, exited_parent_of_not_child hpp, hq] at ha
      simp at ha
    have hac : a ∉ t.childrenList p := by
      intro hm
      rw [exited_pstate_eq_free hp, exited_parent_child hm] at ha
      simp [(h.mem_children.1 hm).1] at ha
    rw [exited_pstate_eq_free hp, exited_parent_of_not_child hac] at ha
    have hc0 : ∀ r, (t.childrenList r).count a = 0 := fun r => List.count_eq_zero.2 (h.unlisted a ha r).1
    have he0 : ∀ r, (t.exitedList r).count a = 0 := fun r => List.count_eq_zero.2 (h.unlisted a ha r).2
    rw [← List.count_eq_zero, ← List.count_eq_zero, exited_count_children, exited_count_exited]
    simp [hc0, he0, hap]
  case listed =>
    intro a r ha har
    rw [Ne, exited_pstate_eq_free hp] at ha
    by_cases hac : a ∈ t.childrenList p
    · rw [exited_parent_child hac] at har
      cases har
      exact h.exited_child hinit hpi (fun he => hpp (he ▸ hac)) hac
    · rw [exited_parent_of_not_child hac] at har
      by_cases hap : a = p
      · subst hap
        obtain rfl : q = r := Option.some.inj (hq.symm.trans har)
        exact h.exited_self hp hq hqp
      · exact h.exited_other ha har hap hac
  case roots =>
    intro a ha hna
    rw [Ne, exited_pstate_eq_free hp] at hna
    have hnone := h.roots a ha hna
    rw [exited_parent_of_not_child (hroot hnone), hnone]
  case ends =>
    intro a ha
    rw [Ne, exited_pstate_eq_free hp] at ha
    refine (h.ends a ha).redirect (S := fun b => t.pstate b ≠ .free) ha
      (fun b c hb hbc => hnf (h.parent_alive hb hbc))
      (fun b _ hr => .root ⟨hr.1, (exited_parent_of_not_child (hroot hr.2)).trans hr.2⟩) (fun b c _ hbc hc => ?_)
    by_cases hm : b ∈ t.childrenList p
    · exact .step (exited_parent_child hm) (.root ⟨by decide, (exited_parent_of_not_child (hroot hiroot)).trans hiroot⟩)
    · exact .step ((exited_parent_of_not_child hm).trans hbc) hc

end Exited

/-! ### Init -/

/-- Init passes the assertions if it has no children left. -/
theorem exit_init (h : t.exit initPid = some t') :
    t.childrenList initPid = [] ∧ t.exitedList initPid = [] ∧
      t' = { t with pstate := Function.update t.pstate initPid .zombie } := by
  simp only [Tree.exit, ne_eq, not_true_eq_false, if_false, Option.bind_some, becomeZombie] at h
  split at h
  · rename_i hl
    cases h
    exact ⟨hl.1, hl.2, rfl⟩
  · cases h

/-- A live process without parent and children may become a zombie. -/
theorem Consistent.exit_root (h : t.Consistent) (hp : t.pstate p = .alive) (hnone : t.parent p = none)
    (hch : t.childrenList p = []) (hex : t.exitedList p = []) :
    Consistent { t with pstate := Function.update t.pstate p .zombie } := by
  have hst : ∀ {a}, a ≠ p → Function.update t.pstate p PidState.zombie a = t.pstate a := fun ha =>
    Function.update_of_ne ha _ _
  have hfree : ∀ {a}, Function.update t.pstate p PidState.zombie a = .free ↔ t.pstate a = .free := by
    intro a
    by_cases ha : a = p
    · subst ha; simp [hp]
    · rw [hst ha]
  constructor
  case freelist =>
    obtain ⟨l, hc, hn, hl⟩ := h.freelist
    exact ⟨l, hc, hn, fun a ha => hfree.2 (hl a ha)⟩
  case unlisted => exact fun a ha => h.unlisted a (ha.imp_left hfree.1)
  case listed =>
    intro a q ha hq
    have hl := h.listed a q (hfree.not.1 ha) hq
    have hap : a ≠ p := by rintro rfl; rw [hnone] at hq; cases hq
    have hqp : q ≠ p := by
      rintro rfl
      have := hl.child
      rw [hch] at this
      cases this
    have hcount : (t.exitedList q).count a = if Function.update t.pstate p PidState.zombie a = .zombie then 1 else 0 := by
      rw [hst hap]
      exact hl.exited
    exact ⟨hl.child, hl.child_only, hcount, hl.exited_only, (hst hqp).trans hl.parent_alive⟩
  case roots => exact fun a ha hn => h.roots a ha (hfree.not.1 hn)
  case ends => exact fun a ha => h.ends a (hfree.not.1 ha)

end Tree

end TinyOS.Proc
