import TinyOS.Sched.Lifetime
import TinyOS.Sched.OnRings
import TinyOS.Sched.Timeouts

/-!
# Runs on the rings

Every section of the scheduler does in memory what it does on the lists (`InMemory.exec`), and so does every run
(`runs_agree`), whatever was in memory before the scheduler was initialized and whatever is written to memory that is
free.
-/

namespace TinyOS.Sched.Rings

open Rlist
open Function (update)

variable {nc : Nat} {h : Nodes (Addr nc) (Option (Ptr nc))} {s s' : Sched.State nc} {t : Ptr nc} {c : Fin nc}
  {k : Cause} {st : ThreadState} {timeout remaining clock fuel : Nat}

/-! ## Threads in use -/

theorem Live.of_dirty (hi : Sched.State.Inv s) (hp : (s.tcb t).phase = .ctxDirty) (hs : (s.tcb t).state ≠ .init) :
    Live s t := by
  refine ⟨hi.allocated hs, fun hm => ?_⟩
  rw [(hi.mem_released.1 hm).2] at hp
  cases hp

theorem Live.of_state (hi : Sched.State.Inv s) (ha : s.Allocated t) (hs : (s.tcb t).state ≠ .exited) : Live s t :=
  ⟨ha, fun hm => hs (hi.mem_released.1 hm).1⟩

namespace InMemory

/-! ## The sections -/

theorem yieldSection (hm : InMemory h s) (hi : Sched.State.Inv s) (hf : s.spawned < fuel) (hpc : s.pc c = .yielding k)
    (he : s.yieldSection c k remaining clock = some s') :
    Holds ((withNodes s h).yieldSection fuel c k remaining clock) s' := by
  rw [Sched.State.yieldSection_eq] at he
  obtain ⟨s₁, hs₁, rfl⟩ := Option.map_eq_some_iff.1 he
  have hadjusted : InMemory h (s.adjusted c k) := hm.setTcb _ _
  refine Holds.bind (hadjusted.boost (hi.adjusted hpc) hf) fun h₁ hm₁ => ?_
  have hleft : InMemory h₁ (s.left c k remaining) := hm₁.setTcb _ _
  have hspawned : (s.left c k remaining).spawned = s.spawned := (Sched.State.boost_untouched _).1.spawned
  have hlen : (s.left c k remaining).timeoutList.length < fuel := by
    refine Nat.lt_of_le_of_lt (timeoutList_length_le (hi.left hpc remaining)) ?_
    rwa [hspawned]
  refine Holds.bind (hleft.wakeupExpiredLoop (hi.left hpc remaining) (Nat.le_refl _) hlen hs₁) fun h₂ hm₂ => ?_
  obtain ⟨h₃, hsel, hm₃⟩ := hm₂.schedQueueSelect c (s.current c)
  refine ⟨h₃, ?_, hm₃.rings, hm₃.keys⟩
  show ((withNodes s₁ h₂).schedQueueSelect c (s.current c)).bind _ = _
  rw [hsel]
  rfl

theorem sleepReleasing (hm : InMemory h s) (hi : Sched.State.Inv s) (hf : s.spawned < fuel) (hpc : s.pc c = .running)
    (he : s.sleepReleasing c st k timeout clock = some s') :
    Holds ((withNodes s h).sleepReleasing fuel c st k timeout clock) s' := by
  have hlive : Live s (s.current c) := .of_dirty hi (hi.cur_dirty (by simp [hpc])) hi.cur_init
  have hm₁ : InMemory h (s.setTcb (s.current c) { s.tcb (s.current c) with state := st }) := hm.setTcb _ _
  have hlen : s.timeoutList.length < fuel := Nat.lt_of_le_of_lt (timeoutList_length_le hi) hf
  unfold Sched.State.sleepReleasing at he
  unfold State.sleepReleasing
  by_cases hst : st = .stopped ∨ st = .exited
  · simp only [hst, guard_true, Option.bind_eq_bind, Option.bind_some, Option.pure_def] at he ⊢
    by_cases hex : st = .exited
    · rw [if_neg (not_not.2 hex)] at he ⊢
      obtain rfl := Option.some.inj he
      exact ⟨h, rfl, hm₁.rings, hm₁.keys⟩
    · rw [if_pos hex] at he ⊢
      obtain ⟨s₂, hs₂, he⟩ := Option.bind_eq_some_iff.1 he
      obtain rfl := Option.some.inj he
      refine Holds.bind (hm₁.schedRegisterTimeout hlive hs₂ hlen) fun h₂ hm₂ => ?_
      exact ⟨h₂, rfl, hm₂.rings, hm₂.keys⟩
  · simp [hst] at he

theorem gainCurrent (hm : InMemory h s) (c : Fin nc) : InMemory h (s.gainCurrent c) := ⟨hm.rings, hm.keys⟩

theorem gainPrevious (hm : InMemory h s) {p : Ptr nc} (hp : Live s p) (hpri : (s.tcb p).priority < maxPriorities)
    (hout : (s.tcb p).state = .exited → ∀ j, p ∉ listOf s j) (he : s.gainPrevious p = some s') :
    Holds ((withNodes s h).gainPrevious p) s' := by
  obtain ⟨s₁, hs₁⟩ : ∃ s₁, s.setTcb p { s.tcb p with phase := .ctxClean } = s₁ := ⟨_, rfl⟩
  have hm₁ : InMemory h s₁ := hs₁ ▸ hm.setTcb _ _
  have hp₁ : Live s₁ p := by rw [← hs₁]; exact hp
  have hpri₁ : (s₁.tcb p).priority < maxPriorities := by simpa [← hs₁, Sched.State.setTcb] using hpri
  have hout₁ : (s₁.tcb p).state = .exited → ∀ j, p ∉ listOf s₁ j := by
    intro hst j hmem
    rw [← hs₁] at hst hmem
    refine hout (by simpa [Sched.State.setTcb] using hst) j ?_
    cases j <;> exact hmem
  unfold Sched.State.gainPrevious at he
  unfold State.gainPrevious
  rw [withNodes_tcb, withNodes_setTcb, hs₁]
  rw [hs₁] at he
  cases hst : (s₁.tcb p).state with
  | init => simp [hst] at he
  | running => simp [hst] at he
  | stopped =>
    simp only [hst, Option.some.injEq] at he
    subst he
    exact ⟨h, by simp only [withNodes_tcb, hst], hm₁⟩
  | ready =>
    by_cases hty : (s₁.tcb p).type = .idleThread
    · simp only [hst, hty, ne_eq, not_true_eq_false, if_false, withNodes_tcb] at he ⊢
      obtain rfl := Option.some.inj he
      exact ⟨h, rfl, hm₁⟩
    · simp only [hst, hty, ne_eq, not_false_eq_true, if_true, withNodes_tcb] at he ⊢
      exact hm₁.schedQueueAdd hp₁ hpri₁ he
  | exited =>
    simp only [hst, Option.some.injEq] at he
    subst he
    have hlive : ∀ {t}, Live (s₁.releaseTcb p) t → Live s₁ t := fun ht =>
      ⟨ht.1, fun hmem => ht.2 (List.mem_cons_of_mem p hmem)⟩
    refine ⟨h, by simp only [withNodes_tcb, hst]; rfl, ?_, fun t ht => hm₁.keys t (hlive ht)⟩
    refine hm₁.rings.congr hlive (fun {j t} hmem => ?_) (fun _ => ⟨rfl, rfl⟩) fun _ _ => ⟨rfl, rfl⟩
    have ht : Live s₁ t := hm₁.rings.live hmem
    refine ⟨ht.1, fun hrel => ?_⟩
    rcases List.mem_cons.1 hrel with rfl | hrel
    · exact hout₁ hst j hmem
    · exact ht.2 hrel

theorem gain (hm : InMemory h s) (hi : Sched.State.Inv s) (hpc : s.pc c = .switching) (he : s.gain c = some s') :
    Holds ((withNodes s h).gain c) s' := by
  obtain ⟨p, hp⟩ := hi.prev_some hpc
  have hlive : Live s p := .of_dirty hi (hi.dirty_iff.2 ⟨c, .inr ⟨hpc, hp⟩⟩) (hi.prev_state ⟨hpc, hp⟩).1
  have hp' : (withNodes s h).previous c = some p := hp
  have hcur : (withNodes s h).current = s.current := rfl
  simp only [Sched.State.gain, hp] at he
  simp only [State.gain, hp', hcur]
  by_cases hcp : s.current c = p
  · rw [if_neg (not_not.2 hcp)] at he ⊢
    obtain rfl := Option.some.inj he
    exact ⟨h, rfl, hm.gainCurrent c⟩
  · rw [if_pos hcp] at he ⊢
    have htcb : (s.gainCurrent c).tcb p = s.tcb p := by
      rw [Sched.State.gainCurrent_tcb, if_neg (Ne.symm hcp)]
    refine (hm.gainCurrent c).gainPrevious (p := p) hlive (by rw [htcb]; exact hi.priority_lt) (fun hst j hmem => ?_) he
    rw [htcb] at hst
    obtain ⟨hq, htl⟩ := hi.exited_unlinked hst
    cases j with
    | sched i => exact hq i hmem
    | timeoutList => exact htl hmem

theorem wakeup (hm : InMemory h s) (hi : Sched.State.Inv s) (ht : s.Allocated t) {b : Bool}
    (he : s.wakeup t = some (b, s')) : ∃ h', (withNodes s h).wakeup t = some (b, withNodes s' h') ∧ InMemory h' s' := by
  unfold Sched.State.wakeup at he
  unfold State.wakeup
  rw [withNodes_tcb]
  by_cases hst : (s.tcb t).state = .stopped ∨ (s.tcb t).state = .init
  · rw [if_pos hst] at he ⊢
    obtain ⟨s₁, hs₁, heq⟩ := Option.map_eq_some_iff.1 he
    obtain ⟨rfl, rfl⟩ := Prod.mk.inj heq
    have hlive : Live s t := .of_state hi ht (by rcases hst with hst | hst <;> simp [hst])
    obtain ⟨h', hr, hm'⟩ := hm.schedMakeReady hlive hi.priority_lt hs₁
    exact ⟨h', by rw [hr]; rfl, hm'⟩
  · rw [if_neg hst] at he ⊢
    obtain ⟨rfl, rfl⟩ := Prod.mk.inj (Option.some.inj he)
    exact ⟨h, rfl, hm⟩

theorem spawnThread (hm : InMemory h s) (hi : Sched.State.Inv s) :
    ∃ h', (withNodes s h).spawnThread = withNodes s.spawnThread h' ∧ InMemory h' s.spawnThread := by
  have hnew : Ptr.thread s.spawned ∉ s.released := fun hm => by
    have hst := (hi.mem_released.1 hm).1
    rw [hi.fresh (Nat.le_refl _)] at hst
    cases hst
  have hrel : s.spawnThread.released = s.released := rfl
  have hsp : s.spawnThread.spawned = s.spawned + 1 := rfl
  have hlive : ∀ t, Live s.spawnThread t ↔ t = .thread s.spawned ∨ Live s t := by
    intro t
    cases t with
    | idle c => simp [Live, Sched.State.Allocated, hrel]
    | thread n =>
      simp only [Live, Sched.State.Allocated, hrel, hsp, Ptr.thread.injEq, Nat.lt_succ_iff_lt_or_eq]
      constructor
      · rintro ⟨hn | rfl, hr⟩
        · exact .inr ⟨hn, hr⟩
        · exact .inl rfl
      · rintro (rfl | ⟨hn, hr⟩)
        · exact ⟨.inr rfl, hnew⟩
        · exact ⟨.inl hn, hr⟩
  refine ⟨rlnodeInit h (schedNode (.thread s.spawned)) (some (.thread s.spawned)), rfl,
    hm.rings.init (fun hl => absurd hl.1 (Nat.lt_irrefl _)) hlive, fun t ht => ?_⟩
  rcases (hlive t).1 ht with rfl | ht
  · exact rlnodeInit_obj
  · have hne : schedNode t ≠ schedNode (.thread s.spawned) := fun he => by
      obtain rfl := Sum.inr.inj he
      exact Nat.lt_irrefl _ ht.1
    exact (rlnodeInit_frame hne).2.2.trans (hm.keys t ht)

/-- Memory that is free is no part of the rings. -/
theorem overwrite (hm : InMemory h s) (ht : ¬Live s t) (obj : Option (Ptr nc)) (prev next : Addr nc) :
    ∃ h', (withNodes s h).overwrite t obj prev next = withNodes s h' ∧ InMemory h' s := by
  have hne : ∀ {u}, Live s u → (.inr u : Addr nc) ≠ schedNode t := fun hu he => ht (Sum.inr.inj he ▸ hu)
  refine ⟨_, rfl, hm.rings.congr id hm.rings.live (fun i => ?_) fun u hu => ?_, fun u hu => ?_⟩
  · have hni : (.inl i : Addr nc) ≠ schedNode t := Sum.inl_ne_inr
    exact ⟨Function.update_of_ne hni next h.next, Function.update_of_ne hni prev h.prev⟩
  · have hnext : update h.next (schedNode t) next (.inr u) = h.next (.inr u) := Function.update_of_ne (hne hu) ..
    have hprev : update h.prev (schedNode t) prev (.inr u) = h.prev (.inr u) := Function.update_of_ne (hne hu) ..
    exact ⟨hnext, hprev⟩
  · have hobj : update h.obj (schedNode t) obj (.inr u) = h.obj (.inr u) := Function.update_of_ne (hne hu) ..
    exact hobj.trans (hm.keys u hu)

/-! ## Every step -/

theorem enabled_iff {a : Sched.Action nc} : (withNodes s h).Enabled (.sched a) ↔ s.Enabled a := by
  cases a with
  | wakeup t => cases t <;> exact Iff.rfl
  | _ => exact Iff.rfl

/-- **Step lemma.** -/
theorem exec (hm : InMemory h s) (hi : Sched.State.Inv s) (hf : s.spawned < fuel) {a : Sched.Action nc}
    (hen : s.Enabled a) (he : s.exec a = some s') : Holds ((withNodes s h).exec fuel (.sched a)) s' := by
  cases a with
  | spawn =>
    obtain rfl := Option.some.inj he
    obtain ⟨h', hr, hm'⟩ := hm.spawnThread hi
    exact ⟨h', congrArg some hr, hm'⟩
  | wakeup t =>
    obtain ⟨⟨b, s₁⟩, hs₁, rfl⟩ := Option.map_eq_some_iff.1 he
    obtain ⟨h', hr, hm'⟩ := hm.wakeup hi hen hs₁
    exact ⟨h', by simp [State.exec, hr], hm'⟩
  | sleep c st k timeout clock => exact hm.sleepReleasing hi hf hen.1 he
  | yield c k =>
    obtain rfl := Option.some.inj he
    exact ⟨h, rfl, hm.rings, hm.keys⟩
  | yieldSection c remaining clock =>
    have hpc' : (withNodes s h).pc c = s.pc c := rfl
    cases hpc : s.pc c with
    | yielding k =>
      simp only [Sched.State.exec, hpc] at he
      simp only [State.exec, hpc', hpc]
      exact hm.yieldSection hi hf hpc he
    | _ => simp [Sched.State.exec, hpc] at he
  | gain c => exact hm.gain hi hen he

end InMemory

/-! ## Boot -/

theorem initializeScheduler_ring (nodes : Nodes (Addr nc) (Option (Ptr nc))) (i : Head) :
    (State.initializeScheduler nodes).Ring [.inl i] := by
  obtain ⟨hsched, -⟩ := Lists.foldl_init (h := nodes) (f := fun i => .inl (Head.sched i)) (v := fun _ => none)
    (fun _ => rfl) (List.finRange maxPriorities)
  unfold State.initializeScheduler
  generalize (List.finRange maxPriorities).foldl (fun h i => rlnodeInit h (.inl (Head.sched i)) none) nodes = h at *
  cases i with
  | timeoutList => exact rlnodeInit_ring
  | sched i =>
    refine (hsched i (List.mem_finRange i)).1.congr fun p hp => ?_
    have hne : p ≠ timeoutList := by
      rw [List.mem_singleton.1 hp]
      simp [timeoutList]
    exact ⟨(rlnodeInit_frame hne).1, (rlnodeInit_frame hne).2.1⟩

theorem initialize_inMemory (nodes : Nodes (Addr nc) (Option (Ptr nc))) :
    InMemory (State.initializeIdle (State.initializeScheduler nodes)) (Sched.State.boot nc) := by
  have hsentinel := initializeScheduler_ring nodes
  generalize State.initializeScheduler nodes = h at *
  obtain ⟨hidle, hframe⟩ := Lists.foldl_init (h := h) (f := fun c => schedNode (.idle c)) (v := fun c => some (.idle c))
    (fun he => by simpa [schedNode] using he) (List.finRange nc)
  have hnil : ∀ i, listOf (Sched.State.boot nc) i = [] := fun i => by cases i <;> rfl
  have hkeep : ∀ i, (State.initializeIdle h).Ring [.inl i] := fun i => by
    refine (hsentinel i).congr fun p hp => ?_
    obtain ⟨hn, hpr, -⟩ := hframe p fun c _ => by
      rw [List.mem_singleton.1 hp]
      exact Sum.inr_ne_inl
    exact ⟨hn, hpr⟩
  refine ⟨⟨fun i => ?_, fun {t} ht _ => ?_, fun {i j t} hm => ?_, fun {i t} hm => ?_⟩, fun t ht => ?_⟩
  · rw [hnil]
    exact hkeep i
  · cases t with
    | idle c => exact (hidle c (List.mem_finRange c)).1
    | thread n => exact absurd ht.1 (Nat.not_lt_zero n)
  · rw [hnil] at hm
    exact absurd hm List.not_mem_nil
  · rw [hnil] at hm
    exact absurd hm List.not_mem_nil
  · cases t with
    | idle c => exact (hidle c (List.mem_finRange c)).2
    | thread n => exact absurd ht.1 (Nat.not_lt_zero n)

/-! ## Every run -/

/-- What the state in memory is for. -/
def Refines (r : State nc) (s : Sched.State nc) : Prop := r = withNodes s r.nodes ∧ InMemory r.nodes s

variable (nc) in
/-- The scheduler on lists, where it does not matter what memory that is free holds. -/
def lists : Lts (Sched.State nc) (Action nc) where
  init := (· = Sched.State.boot nc)
  step s
    | .sched a => (Sched.sys nc).step s a
    | .overwrite t .. => if Live s t then none else some s

theorem free_iff (hi : Sched.State.Inv s) : (withNodes s h).Free t ↔ ¬Live s t := by
  cases t with
  | idle c =>
    have hnot : Ptr.idle c ∉ s.released := fun hm => by
      have hst := (hi.mem_released.1 hm).1
      rcases hi.idle_state (c := c) with hr | hr <;> rw [hst] at hr <;> cases hr
    exact iff_of_false id (not_not.2 ⟨trivial, hnot⟩)
  | thread n => simp only [State.Free, Live, Sched.State.Allocated, withNodes, not_and_or, not_not, not_lt]

theorem step_spawned (hi : Sched.State.Inv s) {a : Sched.Action nc} (hs : (Sched.sys nc).step s a = some s') :
    s'.spawned ≤ s.spawned + 1 := by
  obtain ⟨hen, he⟩ := Sched.State.step_eq_some.1 hs
  cases a with
  | spawn =>
    cases he
    exact Nat.le_refl _
  | wakeup t => exact (hi.wakeup_spec he).1.spawned ▸ Nat.le_succ _
  | sleep c st k timeout clock =>
    obtain ⟨w, l, hs', -⟩ := hi.sleepReleasing hen.1 hen.2.1 k hen.2.2.1 hen.2.2.2
    cases hs'.symm.trans he
    exact Nat.le_succ _
  | yield c k =>
    cases he
    exact Nat.le_succ _
  | yieldSection c remaining clock =>
    cases hpc : s.pc c with
    | yielding k =>
      simp only [Sched.State.exec, hpc] at he
      exact (hi.yieldSection_untouched hpc he).1.spawned ▸ Nat.le_succ _
    | _ => simp [Sched.State.exec, hpc] at he
  | gain c =>
    obtain ⟨p, s₁, hs₁, -, hg⟩ := hi.gain hen
    cases hs₁.symm.trans he
    exact hg.spawned ▸ Nat.le_succ _

/-- A step on the lists is a step in memory, and there are no others. -/
theorem step_agrees (nodes : Nodes (Addr nc) (Option (Ptr nc))) (hm : InMemory h s) (hi : Sched.State.Inv s)
    (hf : s.spawned < fuel) (a : Action nc) :
    (∃ s', (lists nc).step s a = some s' ∧ Holds ((sys nc fuel nodes).step (withNodes s h) a) s' ∧
      Sched.State.Inv s' ∧ s'.spawned ≤ s.spawned + 1) ∨
    (lists nc).step s a = none ∧ (sys nc fuel nodes).step (withNodes s h) a = none := by
  cases a with
  | sched a =>
    by_cases hen : s.Enabled a
    · obtain ⟨s', he, hi'⟩ := hi.exec hen
      have hs : (Sched.sys nc).step s a = some s' := Sched.State.step_eq_some.2 ⟨hen, he⟩
      refine .inl ⟨s', hs, ?_, hi', step_spawned hi hs⟩
      have hen' : (withNodes s h).Enabled (.sched a) := InMemory.enabled_iff.2 hen
      simpa only [sys, if_pos hen'] using hm.exec hi hf hen he
    · have hen' : ¬(withNodes s h).Enabled (.sched a) := mt InMemory.enabled_iff.1 hen
      exact .inr ⟨if_neg hen, if_neg hen'⟩
  | overwrite t obj prev next =>
    by_cases ht : Live s t
    · have hfree : ¬(withNodes s h).Free t := fun hfree => (free_iff hi).1 hfree ht
      exact .inr ⟨if_pos ht, if_neg hfree⟩
    · have hfree : (withNodes s h).Enabled (.overwrite t obj prev next) := (free_iff hi).2 ht
      obtain ⟨h', hr, hm'⟩ := hm.overwrite ht obj prev next
      refine .inl ⟨s, if_neg ht, ⟨h', ?_, hm'⟩, hi, Nat.le_succ _⟩
      simpa only [sys, if_pos hfree, State.exec, Option.some.injEq] using hr

/-- What a run gives, with the facts that the next step needs. -/
theorem run_agrees (nodes : Nodes (Addr nc) (Option (Ptr nc))) {as : List (Action nc)} (hm : InMemory h s)
    (hi : Sched.State.Inv s) (hf : s.spawned + as.length < fuel) :
    Option.Rel (fun r s' => Refines r s' ∧ Sched.State.Inv s' ∧ s'.spawned < fuel)
      ((sys nc fuel nodes).run (withNodes s h) as) ((lists nc).run s as) := by
  induction as generalizing s h with
  | nil => exact .some ⟨⟨rfl, hm⟩, hi, by simpa using hf⟩
  | cons a as ih =>
    rw [List.length_cons] at hf
    have hlt : s.spawned < fuel := by omega
    rcases step_agrees nodes hm hi hlt a with ⟨s', hs, ⟨h', hr, hm'⟩, hi', hle⟩ | ⟨hs, hr⟩
    · rw [Lts.run, Lts.run, hs, hr]
      exact ih hm' hi' (by omega)
    · rw [Lts.run, Lts.run, hs, hr]
      exact .none

theorem boot_agrees (nodes : Nodes (Addr nc) (Option (Ptr nc))) {as : List (Action nc)} (hf : as.length < fuel) :
    Option.Rel (fun r s => Refines r s ∧ Sched.State.Inv s ∧ s.spawned < fuel)
      ((sys nc fuel nodes).run (State.boot nodes) as) ((lists nc).run (Sched.State.boot nc) as) := by
  refine run_agrees nodes (initialize_inMemory nodes) Sched.State.boot_inv ?_
  show 0 + as.length < fuel
  omega

/-- **The rings are the lists.** The same runs are possible in memory as on the lists, and lead to the same states. -/
theorem runs_agree (nodes : Nodes (Addr nc) (Option (Ptr nc))) {as : List (Action nc)} (hf : as.length < fuel) :
    Option.Rel Refines ((sys nc fuel nodes).run (State.boot nodes) as) ((lists nc).run (Sched.State.boot nc) as) := by
  have hrel := boot_agrees nodes hf
  generalize (sys nc fuel nodes).run (State.boot nodes) as = x at hrel ⊢
  generalize (lists nc).run (Sched.State.boot nc) as = y at hrel ⊢
  cases hrel with
  | some hr => exact .some hr.1
  | none => exact .none

/-- Memory in which every link is to `TIMEOUT_LIST`. -/
def junk : Nodes (Addr 1) (Option (Ptr 1)) := ⟨fun _ => none, fun _ => timeoutList, fun _ => timeoutList⟩

def core0 : Fin 1 := ⟨0, Nat.one_pos⟩

/-- A node that is written to before its thread is spawned; the thread then goes to sleep, and another one is ready. -/
def sleepAndReady : List (Action 1) :=
  [.overwrite (.thread 0) none timeoutList timeoutList, .sched .spawn, .sched (.wakeup (.thread 0)), .sched .spawn,
    .sched (.yield core0 .schedIdle), .sched (.yieldSection core0 0 0), .sched (.gain core0),
    .sched (.sleep core0 .stopped .schedUser 9 0), .sched (.wakeup (.thread 1))]

theorem runs_agree_sleep : ∃ r, (sys 1 10 junk).run (State.boot junk) sleepAndReady = some r ∧
    r.nodes.Ring [timeoutList, schedNode (.thread 0)] ∧ sched 999 = some (r.nodes.next (schedNode (.thread 1))) := by
  have hrel := runs_agree junk (show sleepAndReady.length < 10 by decide)
  have hrun : ((lists 1).run (Sched.State.boot 1) sleepAndReady).map (fun s => (s.timeoutList, s.queue 999)) =
      some ([.thread 0], [.thread 1]) := by decide +kernel
  obtain ⟨s, hs, hlists⟩ := Option.map_eq_some_iff.1 hrun
  obtain ⟨htimeout, hqueue⟩ := Prod.mk.inj hlists
  rw [hs] at hrel
  generalize (sys 1 10 junk).run (State.boot junk) sleepAndReady = x at hrel ⊢
  cases hrel with
  | some hr =>
    have hlt : 999 < maxPriorities := by decide
    have htl : listOf s .timeoutList = [.thread 0] := htimeout
    have hql : listOf s (.sched ⟨999, hlt⟩) = [] ++ .thread 1 :: [] := hqueue
    refine ⟨_, rfl, ?_, ?_⟩
    · have hring := hr.2.rings.ring .timeoutList
      rwa [htl] at hring
    · rw [sched_eq hlt]
      exact congrArg some (hr.2.rings.next_node hql).symm

/-! ## What the rings hold -/

/-- `t` should be in the scheduler queue. -/
def State.Runnable (r : State nc) (t : Ptr nc) : Prop :=
  (∃ n, t = .thread n) ∧ (r.tcb t).state = .ready ∧ (r.tcb t).phase = .ctxClean ∧
    ∀ c, ¬(r.pc c = .switching ∧ r.current c = t)

structure RingsConsistent (fuel : Nat) (r : State nc) : Prop where
  /-- From `&SCHED[i]`, the links lead through the nodes of the runnable threads of priority `i`. -/
  queue : ∀ i, ∃ l, r.nodes.Ring (listRing (.sched i) l) ∧ ∀ t, t ∈ l ↔ (r.tcb t).priority = i ∧ r.Runnable t
  /-- From `&TIMEOUT_LIST`, through those of the threads that wait for a timeout, the earliest first. -/
  timeouts : ∃ l, r.nodes.Ring (listRing .timeoutList l) ∧
    (l.Pairwise fun t u => (r.tcb t).wakeupTime ≤ (r.tcb u).wakeupTime) ∧
    ∀ t, t ∈ l ↔ (r.tcb t).wakeupTime ≠ noTimeout
  /-- All other nodes in use are alone. -/
  alone : ∀ t, ¬r.Free t → ¬r.Runnable t → (r.tcb t).wakeupTime = noTimeout → r.nodes.Ring [schedNode t]
  keys : ∀ t, ¬r.Free t → r.nodes.obj (schedNode t) = some t
  /-- The loops end, and no assertion fails. -/
  progress : ∀ a, r.Enabled a → ∃ r', r.exec fuel a = some r'

theorem lists_reaches {as : List (Action nc)} (hs : (Sched.sys nc).Reaches s) (hr : (lists nc).run s as = some s') :
    (Sched.sys nc).Reaches s' := by
  refine Lts.run_keeps (fun s a s' hs he => ?_) hs hr
  cases a with
  | sched a => exact hs.step he
  | overwrite t obj prev next =>
    obtain ⟨-, rfl⟩ : ¬Live s t ∧ s = s' := by simpa [lists] using he
    exact hs

theorem timeoutList_sorted (hs : (Sched.sys nc).Reaches s) :
    s.timeoutList.Pairwise fun t u => (s.tcb t).wakeupTime ≤ (s.tcb u).wakeupTime := by
  obtain ⟨x, hx⟩ : ∃ x, (stampedSys nc).Reaches (s, x) := hs.exists_record
  refine (stampedSys_reaches hx).2.ordered.imp fun {t u} htu => ?_
  rcases htu with hlt | ⟨heq, -⟩
  · exact Nat.le_of_lt hlt
  · exact Nat.le_of_eq heq

/-- **The rings are in order.** -/
theorem rings_consistent (nodes : Nodes (Addr nc) (Option (Ptr nc))) {as : List (Action nc)} (hf : as.length < fuel)
    {r : State nc} (hr : (sys nc fuel nodes).run (State.boot nodes) as = some r) : RingsConsistent fuel r := by
  have hrel := boot_agrees nodes hf
  rw [hr] at hrel
  cases hl : (lists nc).run (Sched.State.boot nc) as with
  | none =>
    rw [hl] at hrel
    cases hrel
  | some s =>
    rw [hl] at hrel
    obtain ⟨⟨hwith, hm⟩, hi, hlt⟩ : Refines r s ∧ Sched.State.Inv s ∧ s.spawned < fuel := by
      cases hrel with
      | some h => exact h
    generalize r.nodes = h at hwith hm
    subst hwith
    have hreach := lists_reaches (.init rfl) hl
    refine ⟨fun i => ⟨s.queue i, hm.rings.ring (.sched i), fun t => hi.mem_queue⟩,
      ⟨s.timeoutList, hm.rings.ring .timeoutList, timeoutList_sorted hreach, fun t => hi.mem_timeout⟩,
      fun t ht hrun hw => ?_, fun t ht => hm.keys t (not_not.1 (mt (free_iff hi).2 ht)), fun a hen => ?_⟩
    · refine hm.rings.alone (not_not.1 (mt (free_iff hi).2 ht)) fun j hmem => ?_
      cases j with
      | sched i => exact hrun (hi.mem_queue.1 hmem).2
      | timeoutList => exact hi.mem_timeout.1 hmem hw
    · rcases step_agrees nodes hm hi hlt a with ⟨s', -, ⟨h', hr', -⟩, -⟩ | ⟨hs, -⟩
      · exact ⟨_, by simpa [sys, hen] using hr'⟩
      · cases a with
        | sched a =>
          obtain ⟨s', he, -⟩ := hi.exec (InMemory.enabled_iff.1 hen)
          have hs' : (Sched.sys nc).step s a = some s' := Sched.State.step_eq_some.2 ⟨InMemory.enabled_iff.1 hen, he⟩
          cases hs.symm.trans hs'
        | overwrite t obj prev next => exact ⟨_, rfl⟩

/-- The same run leaves the rings in order. -/
theorem rings_consistent_sleep : ∃ r, (sys 1 10 junk).run (State.boot junk) sleepAndReady = some r ∧
    RingsConsistent 10 r := by
  have hlen : sleepAndReady.length < 10 := by decide
  have hrel := boot_agrees junk hlen
  have hrun : ((lists 1).run (Sched.State.boot 1) sleepAndReady).isSome = true := by decide +kernel
  obtain ⟨s, hs⟩ := Option.isSome_iff_exists.1 hrun
  cases hr : (sys 1 10 junk).run (State.boot junk) sleepAndReady with
  | none =>
    rw [hs, hr] at hrel
    cases hrel
  | some r => exact ⟨r, rfl, rings_consistent junk hlen hr⟩

end TinyOS.Sched.Rings
