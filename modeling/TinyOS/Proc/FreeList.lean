import TinyOS.Lib.Count
import TinyOS.Proc.Tree

/-!
# The list of free PCBs

`Complete` says that the chain from `pcb_freelist` has every FREE PCB once and nothing else, and that `process_count`
counts the others. `sys_Exec`, the exit of a process and `cleanup_zombie` of a PCB that is not FREE keep it.
-/

namespace TinyOS.Proc.Tree

open Streams

/-- The PCBs that are not FREE. -/
def numProcesses (t : Tree) : Nat := countArgs t.pstate (· ≠ .free)

structure Complete (t : Tree) : Prop where
  freelist : ∃ l, Chain t.parent t.pcbFreelist l ∧ l.Nodup ∧ ∀ p, p ∈ l ↔ t.pstate p = .free
  count : t.processCount = t.numProcesses

variable {t t' : Tree} {cur p q : Pid}

/-- The PCBs from `n` on, as `initialize_processes` has chained them. -/
theorem initial_chain : ∀ m n, n + m = maxProc →
    ∃ l, Chain initial.parent (if h : n < maxProc then some ⟨n, h⟩ else none) l ∧ l.Nodup ∧ ∀ p : Pid, p ∈ l ↔ n ≤ p.val := by
  intro m
  induction m with
  | zero =>
    intro n hn
    refine ⟨[], ?_, List.nodup_nil, fun p => ?_⟩
    · rw [dif_neg (by omega)]
      exact .nil
    · have := p.isLt
      simp only [List.not_mem_nil, false_iff]
      omega
  | succ m ih =>
    intro n hn
    obtain ⟨l, hc, hnd, hl⟩ := ih (n + 1) (by omega)
    have hlt : n < maxProc := by omega
    refine ⟨⟨n, hlt⟩ :: l, ?_, List.nodup_cons.2 ⟨?_, hnd⟩, fun p => ?_⟩
    · rw [dif_pos hlt]
      exact .cons hc
    · rw [hl]
      exact Nat.not_succ_le_self n
    · rw [List.mem_cons, hl, Fin.ext_iff]
      show p.val = n ∨ _ ↔ _
      omega

theorem initial_complete : initial.Complete := by
  obtain ⟨l, hc, hn, hl⟩ := initial_chain maxProc 0 (Nat.zero_add _)
  exact ⟨⟨l, hc, hn, fun p => by simp [hl, initial]⟩, by simp [initial, numProcesses, countArgs]⟩

theorem initial_consistent : initial.Consistent := by
  obtain ⟨l, hc, hn, hl⟩ := initial_complete.freelist
  refine ⟨⟨l, hc, hn, fun p hp => (hl p).1 hp⟩, fun p _ q => ⟨List.not_mem_nil, List.not_mem_nil⟩, ?_, ?_, ?_⟩
  · exact fun p q hp => absurd rfl hp
  · exact fun p _ hp => absurd rfl hp
  · exact fun p hp => absurd rfl hp

/-- What `sys_Exec` does to the PCB that it takes. -/
theorem exec_some (h : t.exec cur = some (p, t')) :
    t.pcbFreelist = some p ∧ t'.pstate = Function.update t.pstate p .alive ∧
      t'.parent = Function.update t.parent p (if p.val ≤ 1 then none else some cur) ∧ t'.pcbFreelist = t.parent p ∧
      t'.processCount = t.processCount + 1 := by
  unfold exec acquirePcb at h
  cases hf : t.pcbFreelist with
  | none => simp [hf] at h
  | some r =>
    simp only [hf] at h
    split at h
    · rename_i hle
      cases h
      simp [setParent, hle]
    · rename_i hle
      cases h
      simp [setParent, pushChild, hle]

/-- The number of processes when `p` changes its state to `x`. -/
theorem numProcesses_update (p : Pid) (x : PidState) (h : t'.pstate = Function.update t.pstate p x) :
    t'.numProcesses + (if t.pstate p ≠ .free then 1 else 0) = t.numProcesses + (if x ≠ .free then 1 else 0) := by
  have := countArgs_update t.pstate (· ≠ .free) p x
  simp only [decide_eq_true_eq] at this
  rw [numProcesses, h]
  exact this

namespace Complete

theorem exec (h : t.Complete) (he : t.exec cur = some (p, t')) : t'.Complete := by
  obtain ⟨hf, hst, hpar, hnext, hcount⟩ := exec_some he
  obtain ⟨l, hc, hn, hl⟩ := h.freelist
  rw [hf] at hc
  obtain ⟨rest, rfl, hr⟩ := hc.pop hn (if p.val ≤ 1 then none else some cur)
  obtain ⟨hnot, hn⟩ := List.nodup_cons.1 hn
  have hpf : t.pstate p = .free := (hl p).1 List.mem_cons_self
  refine ⟨⟨rest, by rwa [hpar, hnext], hn, fun a => ?_⟩, ?_⟩
  · rw [hst]
    by_cases ha : a = p
    · subst ha
      simp [hnot]
    · rw [Function.update_of_ne ha, ← hl a, List.mem_cons, or_iff_right ha]
  · have := numProcesses_update p .alive hst
    simp only [hpf, ne_eq, not_true_eq_false, if_false, reduceCtorEq, not_false_eq_true, if_true] at this
    rw [hcount, h.count]
    omega

theorem cleanupZombie (h : t.Complete) (hp : t.pstate p ≠ .free) : (t.cleanupZombie p).Complete := by
  obtain ⟨l, hc, hn, hl⟩ := h.freelist
  have hnot : p ∉ l := fun hm => hp ((hl p).1 hm)
  refine ⟨⟨p :: l, hc.push hnot, List.nodup_cons.2 ⟨hnot, hn⟩, fun a => ?_⟩, ?_⟩
  · show a ∈ p :: l ↔ Function.update t.pstate p .free a = .free
    by_cases ha : a = p
    · subst ha
      simp
    · rw [Function.update_of_ne ha, ← hl a, List.mem_cons, or_iff_right ha]
  · have := numProcesses_update p .free (show (t.cleanupZombie p).pstate = Function.update t.pstate p .free from rfl)
    simp only [hp, ne_eq, not_true_eq_false, if_false, not_false_eq_true, if_true] at this
    show t.processCount - 1 = _
    rw [h.count]
    omega

/-- A process becomes a zombie, and links of processes may change. -/
theorem zombie (h : t.Complete) (hp : t.pstate p ≠ .free) (hst : t'.pstate = Function.update t.pstate p .zombie)
    (hpar : ∀ a, t.pstate a = .free → t'.parent a = t.parent a) (hf : t'.pcbFreelist = t.pcbFreelist)
    (hcount : t'.processCount = t.processCount) : t'.Complete := by
  obtain ⟨l, hc, hn, hl⟩ := h.freelist
  refine ⟨⟨l, ?_, hn, fun a => ?_⟩, ?_⟩
  · rw [hf]
    exact hc.congr fun a ha => hpar a ((hl a).1 ha)
  · rw [hst, hl a]
    by_cases ha : a = p
    · subst ha
      simp [hp]
    · rw [Function.update_of_ne ha]
  · have := numProcesses_update p .zombie hst
    simp only [hp, ne_eq, not_false_eq_true, if_true, reduceCtorEq] at this
    rw [hcount, h.count]
    omega

end Complete

end TinyOS.Proc.Tree
