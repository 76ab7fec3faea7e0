import TinyOS.Proc.Adoption
import TinyOS.Proc.Events
import TinyOS.Proc.Recycle

/-!
# Tables that no released PCB has been released from again

`State.Intact` holds as long as no thread goes on in `wait_for_specific_child` whose child's PCB is FREE (`Intact.step`).
Such a thread may still reap a zombie that has got another parent in the meantime: the process table stays in order, only
the reaping is not what `Reaped` asks for.
-/

namespace TinyOS.Proc

open Relation

/-! ## Without the history of reaping -/

namespace Table

variable {t t' : Table} {cur child : Pid}

def forget (t : Table) : Table := { t with reaps := [] }

theorem Inv.forget (h : t.Inv) : t.forget.Inv :=
  { h with
    zombies := fun _ hr => absurd hr List.not_mem_nil
    once := List.nodup_nil
    serial := fun _ hr => absurd hr List.not_mem_nil }

theorem Step.forget (hs : Step cur t t') : ∃ u, Step cur t.forget u ∧ u.forget = t'.forget := by
  cases hs with
  | newThread hl => exact ⟨_, .newThread hl, rfl⟩
  | exec main hl he => exact ⟨_, .exec main hl he, by cases main <;> rfl⟩
  | endThread hl hc => exact ⟨_, .endThread hl hc, rfl⟩
  | endProcess hl hc he => exact ⟨_, .endProcess hl hc he, rfl⟩
  | reap hl hz hp => exact ⟨_, .reap hl hz hp, rfl⟩

theorem Inv.forget_steps (h : t.forget.Inv) (hs : ReflTransGen (Step cur) t t') : t'.forget.Inv := by
  induction hs with
  | refl => exact h
  | tail _ hs ih =>
    obtain ⟨u, hu, he⟩ := hs.forget
    exact he ▸ (ih.step hu).forget

end Table

/-! ## The lengths of the lists -/

namespace Links

variable {t t' t₁ : Links} {e : Event} {i : ThreadId} {p : Pid} {tid : Tid} {entry : Bool}

/-- No list of PTCBs is longer than the list of threads. -/
def Short (t : Links) : Prop := ∀ p, (t.list p).length ≤ t.keys.length

theorem Inside.list (h : Inside t i p tid entry t₁) : t₁.list = t.list := by
  cases h <;> rfl

theorem Happens.short (h : Happens t e t') (hs : t.Short) : t'.Short := by
  have hkeep : t'.keys.length = t.keys.length → (∀ q, (t'.list q).length ≤ (t.list q).length) → t'.Short :=
    fun hk hl q => (hl q).trans (hk ▸ hs q)
  cases h with
  | quiet | refused | detached => exact hs
  | exited => exact hkeep (List.length_modify ..) fun _ => Nat.le_refl _
  | sleeps hin _ _ _ => exact hkeep hin.length fun q => by rw [hin.list]
  | fails hin _ _ | succeeds hin _ _ _ _ =>
    refine hkeep ((List.length_modify ..).trans hin.length) fun q => ?_
    exact Nat.le_of_eq (congrArg List.length (congrFun hin.list q))
  | @frees i p _ _ _ _ hin _ _ _ _ =>
    refine hkeep ((List.length_modify ..).trans hin.length) fun q => ?_
    rw [← hin.list]
    by_cases hq : q = p
    · subst hq
      simpa [free, leave, move, setPtcb] using List.length_erase_le
    · simp [free, leave, move, setPtcb, hq]
  | created p tid _ _ _ _ _ _ =>
    intro q
    have hq := hs q
    by_cases hqp : q = p
    · subst hqp
      simpa [start] using hq
    · simp only [start, Function.update_of_ne hqp, List.length_append, List.length_singleton]
      omega

/-! ## The PTCBs in the lists -/

/-- A PTCB that is allocated is in a list, that of a process with a thread that has or had this PTCB. -/
structure Held (t : Links) : Prop where
  listed : ∀ tid, (t.ptcb tid).isSome → ∃ p, tid ∈ t.list p
  started : ∀ p tid, tid ∈ t.list p → ∃ k ∈ t.keys, k.owner = p ∧ k.own = tid

namespace Held

theorem setPtcb (h : t.Held) (hx : (t.ptcb tid).isSome) (y : Option Ptcb) : (t.setPtcb tid y).Held := by
  refine ⟨fun a ha => h.listed a ?_, h.started⟩
  by_cases hat : a = tid
  · rwa [hat]
  · simpa [Links.setPtcb, hat] using ha

theorem move (h : t.Held) (i : ThreadId) (live : Bool) (joins : Option Tid) : (t.move i live joins).Held := by
  refine ⟨h.listed, fun p a ha => ?_⟩
  obtain ⟨k, hk, hp, hown⟩ := h.started p a ha
  obtain ⟨j, hj⟩ := List.getElem?_of_mem hk
  have hmoved : (t.move i live joins).keys[j]? = some (if i = j then { k with live := live, joins := joins } else k) := by
    rw [Links.move, List.getElem?_modify, hj]
    rfl
  refine ⟨_, List.mem_of_getElem? hmoved, ?_⟩
  split <;> exact ⟨hp, hown⟩

theorem inside (h : t.Held) (hin : Inside t i p tid entry t₁) : t₁.Held := by
  cases hin with
  | already _ => exact h
  | enters _ _ _ hx _ => exact (h.setPtcb (by rw [hx]; rfl) _).move ..

theorem leave (h : t.Held) {x : Ptcb} (hx : t.ptcb tid = some x) : (t.leave i tid x).Held :=
  (h.setPtcb (by rw [hx]; rfl) _).move ..

theorem start (h : t.Held) (q : Pid) (tid : Tid) (x : Ptcb) : (t.start q tid x).Held := by
  have hlist : ∀ {p a}, a ∈ (t.start q tid x).list p ↔ a ∈ t.list p ∨ p = q ∧ a = tid := by
    intro p a
    by_cases hp : p = q
    · subst hp
      simp [Links.start]
    · simp [Links.start, hp]
  refine ⟨fun a ha => ?_, fun p a ha => ?_⟩
  · by_cases hat : a = tid
    · exact ⟨q, hlist.2 (.inr ⟨rfl, hat⟩)⟩
    · obtain ⟨p, hp⟩ := h.listed a (by simpa [Links.start, hat] using ha)
      exact ⟨p, hlist.2 (.inl hp)⟩
  · rcases hlist.1 ha with ha | ⟨rfl, rfl⟩
    · obtain ⟨k, hk, hko⟩ := h.started p a ha
      exact ⟨k, List.mem_append_left _ hk, hko⟩
    · exact ⟨_, List.mem_append_right _ List.mem_cons_self, rfl, rfl⟩

theorem free (h : t.Held) (p : Pid) (tid : Tid) : (t.free p tid).Held := by
  refine ⟨fun a ha => ?_, fun q a ha => h.started q a ?_⟩
  · have hat : a ≠ tid := by
      rintro rfl
      simp [Links.free] at ha
    obtain ⟨q, hq⟩ := h.listed a (by simpa [Links.free, hat] using ha)
    refine ⟨q, ?_⟩
    by_cases hqp : q = p
    · subst hqp
      simpa [Links.free, List.mem_erase_of_ne hat] using hq
    · simpa [Links.free, hqp] using hq
  · by_cases hqp : q = p
    · subst hqp
      have ha : a ∈ (t.list q).erase tid := by simpa [Links.free] using ha
      exact List.mem_of_mem_erase ha
    · simpa [Links.free, hqp] using ha

end Held

theorem Happens.held (h : Happens t e t') (hs : t.Held) : t'.Held := by
  cases h with
  | quiet | refused => exact hs
  | created p tid _ _ _ _ _ _ => exact hs.start p tid _
  | exited _ _ hx => exact (hs.setPtcb (by rw [hx]; rfl) _).move ..
  | detached hx _ => exact hs.setPtcb (by rw [hx]; rfl) _
  | sleeps hin _ _ _ => exact hs.inside hin
  | fails hin hx _ | succeeds hin hx _ _ _ => exact (hs.inside hin).leave hx
  | frees hin hx _ _ _ => exact ((hs.inside hin).leave hx).free ..

theorem Happens.length_le_succ (h : Happens t e t') : t'.keys.length ≤ t.keys.length + 1 := by
  by_cases he : ∃ i tid, e = .created i tid
  · obtain ⟨i, tid, rfl⟩ := he
    cases h
    exact Nat.le_of_eq (List.length_append ..)
  · rw [h.length fun i tid hi => he ⟨i, tid, hi⟩]
    exact Nat.le_succ _

end Links

/-! ## The children that threads wait for -/

namespace State

variable {s s' : State} {cur c child : Pid} {i : ThreadId} {own : Tid} {a : Action}

theorem specificLoop_waited {q : Pid} (h : (s.specificLoop i cur child).Waits q (.specificChild c)) :
    s.Waits q (.specificChild c) ∨ c = child := by
  unfold specificLoop at h
  split at h
  · refine (waits_wait h).imp_right fun hw => ?_
    cases hw.2
    rfl
  · exact .inl (waits_ret h)

theorem waitForSpecificChild_waited {q : Pid} {cpid : Int}
    (h : (s.waitForSpecificChild i cur cpid).Waits q (.specificChild c)) :
    s.Waits q (.specificChild c) ∨ s.tree.pstate c ≠ .free ∧ s.tree.parent c ≠ none := by
  unfold waitForSpecificChild at h
  split at h
  · exact .inl (waits_ret h)
  · rename_i child hget
    split at h
    · exact .inl (waits_ret h)
    · rename_i hpar
      refine (specificLoop_waited h).imp_right ?_
      rintro rfl
      refine ⟨?_, fun hn => hpar (by simp [hn])⟩
      unfold getPcb at hget
      split at hget
      · split at hget
        · cases hget
        · cases hget
          assumption
      · cases hget

/-- Only a process with a parent is waited for. -/
theorem step_waited_parent (hs : s.step a = some s') (hc : c ∈ s'.waited) :
    c ∈ s.waited ∨ s.tree.pstate c ≠ .free ∧ s.tree.parent c ≠ none := by
  obtain ⟨q, hw⟩ := waited_iff.1 hc
  have hold : s.Waits q (.specificChild c) → c ∈ s.waited := fun h => waited_iff.2 ⟨q, h⟩
  obtain ⟨i, call, th, rfl, hi, hp, he⟩ | ⟨i, w, th, rfl, hi, hp, he⟩ := step_cases hs
  · cases call with
    | exec tid call argl args =>
      simp only [perform] at he
      split at he
      · cases he
        exact .inl (hold (sysExec_waits (waits_ret hw)))
      · cases he
    | createThread tid task argl args =>
      simp only [perform] at he
      split at he
      · cases he
        exact .inl (hold (waits_startThread task argl args (waits_ret hw)))
      · cases he
    | threadJoin tid => exact .inl (hold ((sysThreadJoin_waits he hw).resolve_right Wait.noConfusion))
    | threadDetach tid =>
      cases he
      exact .inl (hold (sysThreadDetach_waits hw))
    | threadExit exitval => exact .inl (hold (sysThreadExit_waits he hw))
    | exit exitval =>
      simp only [perform, sysExit] at he
      split at he
      · exact .inl (hold ((exitLoop_waits _ he hw).resolve_right fun hx => Wait.noConfusion hx.2))
      · exact .inl (hold (sysThreadExit_waits (s := s.setPcb _ _) he hw))
    | waitChild cpid =>
      simp only [perform, sysWaitChild] at he
      split at he
      · cases he
        exact (waitForSpecificChild_waited hw).imp_left hold
      · exact .inl (hold ((waitForAnyChild_waits he hw).resolve_right Wait.noConfusion))
    | file call =>
      obtain ⟨v, -, rfl⟩ := Option.map_eq_some_iff.1 he
      exact .inl (hold hw)
  · refine .inl ?_
    cases w with
    | specificChild child =>
      cases he
      rcases specificLoop_waited hw with hw | rfl
      · exact hold hw
      · exact waited_iff.2 ⟨th.ownerPcb, th, List.mem_of_getElem? hi, rfl, true, hp⟩
    | anyChild => exact hold ((waitForAnyChild_waits he hw).resolve_right Wait.noConfusion)
    | exitOfInit exitval => exact hold ((exitLoop_waits _ he hw).resolve_right fun hx => Wait.noConfusion hx.2)
    | join tid => exact hold ((joinLoop_waits he hw).resolve_right Wait.noConfusion)

/-! ## The invariant -/

/-- The child of the woken thread `i` has not been released. -/
def FindsChild (s : State) : Action → Prop
  | .call _ _ => True
  | .resume i => ∀ th child, s.threads[i]? = some th → th.place = .waiting (.specificChild child) true →
      s.tree.pstate child ≠ .free

structure Intact (s : State) : Prop where
  table : s.table.forget.Inv
  links : s.links.Inv
  short : s.links.Short
  held : s.links.Held
  waited : ∀ c ∈ s.waited, 1 < c.val

namespace Intact

theorem boot (tid : Tid) (initTask : Task) (argl : Int) (args : Args) : (State.boot tid initTask argl args).Intact := by
  refine ⟨(boot_inv tid initTask argl args).forget, boot_links_inv tid initTask argl args, ?_, ?_, fun c hc => ?_⟩
  · rw [boot_links]
    intro p
    by_cases hp : p = initPid
    · subst hp
      simp [Links.start]
    · simp [Links.start, hp]
  · rw [boot_links]
    have hnone : Links.Held ⟨[], fun _ => none, fun _ => []⟩ :=
      ⟨fun _ h => absurd h Bool.false_ne_true, fun _ _ h => absurd h List.not_mem_nil⟩
    exact hnone.start ..
  · obtain ⟨q, hw⟩ := waited_iff.1 hc
    exact absurd hw boot_waits

/-- A thread that goes on leaves the table in order, even if its child is the child of another process by now. -/
theorem specificLoop (h : s.Intact) (hr : s.Runs i cur) (hc : child ∈ s.waited) (hf : s.tree.pstate child ≠ .free) :
    (s.specificLoop i cur child).table.forget.Inv := by
  rw [specificLoop_table hr]
  split
  · exact h.table
  · rename_i hal
    have hz : s.tree.pstate child = .zombie := by
      cases hst : s.tree.pstate child with
      | free => exact absurd hst hf
      | alive => exact absurd hst hal
      | zombie => rfl
    obtain ⟨q, hq⟩ := Option.ne_none_iff_exists'.1 (h.table.parented child (h.waited child hc) hf)
    exact (h.table.reap hz hq).forget

theorem step (h : s.Intact) (ha : s.FindsChild a) (hs : s.step a = some s') : s'.Intact := by
  have hhap := (step_effect h.links hs).links
  refine ⟨?_, step_links_inv h.links hs, hhap.short h.short, hhap.held h.held, fun c hc => ?_⟩
  · obtain ⟨i, call, th, rfl, hi, hp, he⟩ | ⟨i, w, th, rfl, hi, hp, he⟩ := step_cases hs
    · exact h.table.forget_steps (perform_table (runs_of_place hi (by simp [hp])) he)
    · have hr : s.Runs i th.ownerPcb := runs_of_place hi (by simp [hp])
      cases w with
      | specificChild child =>
        cases he
        refine h.specificLoop hr ?_ (ha th child hi hp)
        exact waited_iff.2 ⟨th.ownerPcb, th, List.mem_of_getElem? hi, rfl, true, hp⟩
      | anyChild | exitOfInit _ | join _ => exact h.table.forget_steps (resume_table hr (by simp [Lost]) he)
  · rcases step_waited_parent hs hc with hc | ⟨hf, hp⟩
    · exact h.waited c hc
    · by_contra hle
      exact hp (h.table.consistent.roots c (Nat.not_lt.1 hle) hf)

/-- A process with a thread that has not exited is alive. -/
theorem alive {th : Thread} (h : s.Intact) (hi : s.threads[i]? = some th) (hp : th.place ≠ .exited) :
    s.tree.pstate th.ownerPcb = .alive :=
  h.table.alive _ (runs_of_place hi hp).live_pos

/-- The PCB that `sys_Exec` takes is nobody's child. -/
theorem head_unlisted (h : s.Intact) {p : Pid} (hp : s.tree.pcbFreelist = some p) (q : Pid) :
    p ∉ s.tree.childrenList q :=
  (h.table.consistent.unlisted p (.inl (h.table.consistent.freelist_head hp none).1) q).1

theorem notMem_exited (h : s.Intact) {p : Pid} (hp : s.tree.pstate p = .alive) (q : Pid) : p ∉ s.tree.exitedList q := by
  intro hm
  have hz := (h.table.consistent.mem_exited.1 hm).1
  have hz : s.tree.pstate p = .zombie := hz
  rw [hp] at hz
  cases hz

theorem length_le (h : s.Intact) (p : Pid) :
    (s.tree.childrenList p).length ≤ Streams.maxProc ∧ (s.tree.exitedList p).length ≤ Streams.maxProc := by
  obtain ⟨hc, hx⟩ := h.table.consistent.nodup p
  have hcard : Fintype.card Pid = Streams.maxProc := Fintype.card_fin _
  exact ⟨hcard ▸ hc.length_le_card, hcard ▸ hx.length_le_card⟩

end Intact

end State

end TinyOS.Proc
