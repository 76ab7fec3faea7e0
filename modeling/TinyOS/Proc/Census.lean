import TinyOS.Proc.Cleanup
import TinyOS.Proc.Recycle

/-!
# Processes and their threads

- `Table.Quiet`: what a step other than `sys_Exec` does to the numbers of threads; a process becomes a zombie with its last
  thread;
- `census_iff`: along a run, `threadCounter` is the number of threads of each process, and each process ends once and with
  its last thread, exactly if `sys_Exec` never takes a PCB whose threads are still there.
-/

namespace TinyOS.Proc

open Relation

/-! ## Moves of the table -/

namespace Table

/-- `threadCounter` is right, and threads are in live processes. -/
structure Sound (t : Table) : Prop where
  counter : ∀ p, t.counter p = t.live p
  alive : ∀ p, 0 < t.live p → t.tree.pstate p = .alive

/-- What the table `t` becomes while no PCB is acquired. -/
structure Quiet (t t' : Table) : Prop where
  sound : t'.Sound
  inhabited : ∀ main : Pid → Prop, (∀ p, main p → t.tree.pstate p = .alive → 0 < t.live p) →
    ∀ p, main p → t'.tree.pstate p = .alive → 0 < t'.live p
  empty : ∀ p, t.live p = 0 → t'.live p = 0
  ended : ∀ p, 0 < t.live p → t'.live p = 0 → t'.tree.pstate p = .zombie
  zombie : ∀ p, t.tree.pstate p = .alive → t'.tree.pstate p ≠ .alive →
    t'.tree.pstate p = .zombie ∧ 0 < t.live p ∧ t'.live p = 0

variable {t t' t₁ : Table} {cur p child : Pid} {tree : Tree}

theorem Quiet.refl (h : t.Sound) : Quiet t t where
  sound := h
  inhabited _ hmain := hmain
  empty _ h0 := h0
  ended _ hpos h0 := absurd h0 (Nat.ne_of_gt hpos)
  zombie _ hal hn := absurd hal hn

/-- A PCB that is not alive is released. -/
theorem Sound.reap (h : t.Sound) (hc : t.tree.pstate child ≠ .alive) : Quiet t (t.reap cur child) := by
  have hst : ∀ {p}, p ≠ child → (t.reap cur child).tree.pstate p = t.tree.pstate p := fun hp =>
    Function.update_of_ne hp _ _
  have hself : (t.reap cur child).tree.pstate child = .free := Function.update_self ..
  constructor
  case sound =>
    refine ⟨h.counter, fun p hp => ?_⟩
    have hal := h.alive p hp
    rw [hst (by rintro rfl; exact hc hal)]
    exact hal
  case inhabited =>
    intro main hmain p hp hal
    have hne : p ≠ child := by
      rintro rfl
      rw [hself] at hal
      cases hal
    exact hmain p hp ((hst hne).symm.trans hal)
  case empty => exact fun p h0 => h0
  case ended => exact fun p hpos h0 => absurd h0 (Nat.ne_of_gt hpos)
  case zombie => exact fun p hal hn => absurd ((hst (by rintro rfl; exact hc hal)).trans hal) hn

theorem Sound.newThread (h : t.Sound) (hl : 0 < t.live cur) :
    Quiet t (t.newThread cur) ∧ ∀ p, 0 < t.live p → 0 < (t.newThread cur).live p := by
  have hlive : ∀ {p}, t.live p ≤ (t.newThread cur).live p := by
    intro p
    by_cases hp : p = cur
    · subst hp
      simp [Table.newThread]
    · simp [Table.newThread, hp]
  have hother : ∀ {p}, p ≠ cur → (t.newThread cur).live p = t.live p := fun hp => Function.update_of_ne hp _ _
  refine ⟨?_, fun p hp => Nat.lt_of_lt_of_le hp hlive⟩
  constructor
  case sound =>
    refine ⟨fun p => ?_, fun p hp => ?_⟩
    · by_cases hpc : p = cur
      · subst hpc
        simp [Table.newThread, h.counter p]
      · simp [Table.newThread, hpc, h.counter p]
    · by_cases hpc : p = cur
      · exact hpc ▸ h.alive cur hl
      · exact h.alive p (hother hpc ▸ hp)
  case inhabited => exact fun main hmain p hp hal => Nat.lt_of_lt_of_le (hmain p hp hal) hlive
  case empty =>
    intro p h0
    rw [hother (by rintro rfl; omega)]
    exact h0
  case ended =>
    intro p hpos h0
    exact absurd h0 (Nat.ne_of_gt (Nat.lt_of_lt_of_le hpos hlive))
  case zombie => exact fun p hal hn => absurd hal hn

/-- A thread that is not the last one exits. -/
theorem Sound.endThread (h : t.Sound) (hl : 0 < t.live cur) (hc : t.counter cur ≠ 1) :
    Quiet t (t.endThread cur) ∧ ∀ p, 0 < t.live p → 0 < (t.endThread cur).live p := by
  have hself : (t.endThread cur).live cur = t.live cur - 1 := Function.update_self ..
  have hother : ∀ {p}, p ≠ cur → (t.endThread cur).live p = t.live p := fun hp => Function.update_of_ne hp _ _
  have hmore : 1 < t.live cur := by
    have := h.counter cur
    omega
  have hpos : ∀ {p}, 0 < t.live p → 0 < (t.endThread cur).live p := by
    intro p hp
    by_cases hpc : p = cur
    · subst hpc
      omega
    · rwa [hother hpc]
  refine ⟨?_, fun p hp => hpos hp⟩
  constructor
  case sound =>
    refine ⟨fun p => ?_, fun p hp => ?_⟩
    · by_cases hpc : p = cur
      · subst hpc
        have := h.counter p
        simp only [Table.endThread, Function.update_self]
        omega
      · simp [Table.endThread, hpc, h.counter p]
    · by_cases hpc : p = cur
      · exact hpc ▸ h.alive cur hl
      · exact h.alive p (hother hpc ▸ hp)
  case inhabited => exact fun main hmain p hp hal => hpos (hmain p hp hal)
  case empty =>
    intro p h0
    rw [hother (by rintro rfl; omega)]
    exact h0
  case ended => exact fun p hp h0 => absurd h0 (Nat.ne_of_gt (hpos hp))
  case zombie => exact fun p hal hn => absurd hal hn

/-- The last thread exits, and its process with it. -/
theorem Sound.endProcess (h : t.Sound) (hl : 0 < t.live cur) (hc : t.counter cur = 1)
    (hst : tree.pstate = Function.update t.tree.pstate cur .zombie) :
    Quiet t { t.endThread cur with tree := tree } ∧ (t.endThread cur).live cur = 0 := by
  have hone : t.live cur = 1 := by
    have := h.counter cur
    omega
  have hself : (t.endThread cur).live cur = 0 := by
    rw [show (t.endThread cur).live cur = t.live cur - 1 from Function.update_self .., hone]
  have hother : ∀ {p}, p ≠ cur → (t.endThread cur).live p = t.live p := fun hp => Function.update_of_ne hp _ _
  have hstate : ∀ {p}, p ≠ cur → tree.pstate p = t.tree.pstate p := fun hp => by rw [hst, Function.update_of_ne hp]
  have hzombie : tree.pstate cur = .zombie := by rw [hst, Function.update_self]
  refine ⟨?_, hself⟩
  constructor
  case sound =>
    refine ⟨fun p => ?_, fun p hp => ?_⟩
    · by_cases hpc : p = cur
      · subst hpc
        have := h.counter p
        simp only [Table.endThread, Function.update_self]
        omega
      · simp [Table.endThread, hpc, h.counter p]
    · have hp : 0 < (t.endThread cur).live p := hp
      have hpc : p ≠ cur := by
        rintro rfl
        omega
      exact (hstate hpc).trans (h.alive p (hother hpc ▸ hp))
  case inhabited =>
    intro main hmain p hp hal
    have hpc : p ≠ cur := by
      rintro rfl
      rw [show tree.pstate p = _ from hal] at hzombie
      cases hzombie
    show 0 < (t.endThread cur).live p
    rw [hother hpc]
    exact hmain p hp ((hstate hpc).symm.trans hal)
  case empty =>
    intro p h0
    exact (hother (by rintro rfl; omega)).trans h0
  case ended =>
    intro p hp h0
    have hpc : p = cur := by
      by_contra hn
      have h0 : (t.endThread cur).live p = 0 := h0
      rw [hother hn] at h0
      omega
    exact hpc ▸ hzombie
  case zombie =>
    intro p hal hn
    have hpc : p = cur := by
      by_contra hne
      exact hn ((hstate hne).trans hal)
    subst hpc
    exact ⟨hzombie, hl, hself⟩

/-- One move that leaves a thread wherever there was one, and moves after it. -/
theorem Quiet.trans (h : Quiet t t₁) (h' : Quiet t₁ t') (hpos : ∀ p, 0 < t.live p → 0 < t₁.live p) : Quiet t t' where
  sound := h'.sound
  inhabited main hmain := h'.inhabited main (h.inhabited main hmain)
  empty p h0 := h'.empty p (h.empty p h0)
  ended p hp h0 := h'.ended p (hpos p hp) h0
  zombie p hal hn := by
    have hal₁ : t₁.tree.pstate p = .alive := by
      by_contra hn₁
      obtain ⟨-, hp, h0⟩ := h.zombie p hal hn₁
      exact absurd h0 (Nat.ne_of_gt (hpos p hp))
    obtain ⟨hz, hp, h0⟩ := h'.zombie p hal₁ hn
    refine ⟨hz, Nat.pos_of_ne_zero fun h0' => ?_, h0⟩
    exact absurd (h.empty p h0') (Nat.ne_of_gt hp)

theorem Step.live_pos (hs : Step cur t t') : 0 < t.live cur := by
  cases hs with
  | newThread hl | exec _ hl _ | endThread hl _ | endProcess hl _ _ | reap hl _ _ => exact hl

/-- A process without threads makes no moves. -/
theorem steps_idle (h0 : t.live cur = 0) (hs : ReflTransGen (Step cur) t t') : t' = t := by
  rcases ReflTransGen.cases_head hs with rfl | ⟨t₁, hs₁, -⟩
  · rfl
  · exact absurd h0 (Nat.ne_of_gt hs₁.live_pos)

theorem Step.serial_le (hs : Step cur t t') (p : Pid) : t.serial p ≤ t'.serial p := by
  cases hs with
  | @exec q tree main _ _ =>
    have hle : t.serial p ≤ Function.update t.serial q (t.serial q + 1) p := by
      by_cases hp : p = q
      · subst hp
        simp
      · simp [hp]
    cases main <;> exact hle
  | _ => exact Nat.le_refl _

theorem steps_serial_le (hs : ReflTransGen (Step cur) t t') (p : Pid) : t.serial p ≤ t'.serial p := by
  induction hs with
  | refl => exact Nat.le_refl _
  | tail _ hs ih => exact Nat.le_trans ih (hs.serial_le p)

/-- Moves that acquire no PCB. -/
theorem Sound.steps (h : t.Sound) (hs : ReflTransGen (Step cur) t t') (hser : t'.serial = t.serial) : Quiet t t' := by
  induction hs using ReflTransGen.head_induction_on with
  | refl => exact .refl h
  | @head t t₁ hs hrest ih =>
    have hser₁ : t₁.serial = t.serial := by
      funext p
      exact Nat.le_antisymm (hser ▸ steps_serial_le hrest p) (hs.serial_le p)
    have hser' : t'.serial = t₁.serial := hser.trans hser₁.symm
    cases hs with
    | newThread hl =>
      obtain ⟨hq, hpos⟩ := h.newThread hl
      exact hq.trans (ih hq.sound hser') hpos
    | @exec p tree main hl he =>
      have : (t.create p tree main).serial p = t.serial p + 1 := by simp
      rw [hser₁] at this
      omega
    | endThread hl hc =>
      obtain ⟨hq, hpos⟩ := h.endThread hl hc
      exact hq.trans (ih hq.sound hser') hpos
    | @endProcess tree hl hc he =>
      obtain ⟨hq, h0⟩ := h.endProcess hl hc (Tree.exit_pstate he)
      rw [steps_idle (t := { t.endThread cur with tree := tree }) h0 hrest]
      exact hq
    | reap hl hz _ =>
      have hq : t.Quiet (t.reap cur _) := h.reap (by rw [hz]; simp)
      exact hq.trans (ih hq.sound hser') fun _ hp => hp

end Table

/-! ## Steps -/

namespace State

variable {s s' : State} {cur p q : Pid} {i : ThreadId} {tid : Tid} {a : Action}

/-- A step other than `sys_Exec`. -/
theorem step_quiet (h : s.table.Sound) (ha : ∀ i tid call argl args, a ≠ .call i (.exec tid call argl args))
    (hs : s.step a = some s') : s.table.Quiet s'.table := by
  obtain ⟨i, th, -, -, hsteps | ⟨child, -, hal, he⟩⟩ := step_table hs
  · exact h.steps hsteps (step_kept ha hs).serial
  · rw [he]
    exact h.reap hal

theorem sysExec_mainTask {tree : Tree} (he : s.tree.exec cur = some (p, tree)) (tid : Tid) (call : Option Task)
    (argl : Int) (args : Args) (q : Pid) :
    ((s.sysExec cur tid call argl args).2.pcb q).mainTask = if q = p then call else (s.pcb q).mainTask := by
  have hsetup : ((s.setupProcess cur p tree call argl args).pcb q).mainTask =
      if q = p then call else (s.pcb q).mainTask := by
    unfold setupProcess inheritFidt
    dsimp only
    by_cases hq : q = p
    · subst hq
      simp [setPcb]
    · split <;> simp [setPcb, setView, hq]
  unfold sysExec
  rw [he]
  cases call with
  | none => exact hsetup
  | some task =>
    have hstart : Kept (s.setupProcess cur p tree (some task) argl args)
        ((s.setupProcess cur p tree (some task) argl args).startMain p tid task argl args) :=
      (kept_setPcb rfl : Kept _ (State.setPcb _ p { State.pcb _ p with mainThread := some _ })).trans
        (startThread_kept _ _ _ _ _)
    exact (hstart.mainTask q).trans hsetup

/-- `sys_Exec` takes a PCB, or does nothing if there is none. -/
theorem step_exec {call : Option Task} {argl : Int} {args : Args}
    (hs : s.step (.call i (.exec tid call argl args)) = some s') :
    (s.tree.pcbFreelist = none ∧ s'.table = s.table ∧ Kept s s' ∧ s'.links = s.links) ∨
    ∃ p tree, s.tree.pcbFreelist = some p ∧ tree.pstate = Function.update s.tree.pstate p .alive ∧
      s'.table = s.table.create p tree call.isSome ∧
      (∀ q, (s'.pcb q).mainTask = if q = p then call else (s.pcb q).mainTask) ∧
      s'.links = call.elim s.links fun task => s.links.start p tid ⟨task, argl, args, 0, false, false, 0⟩ := by
  obtain ⟨j, c, th, hj, hi, hp, he⟩ | ⟨j, w, th, hj, -, -, -⟩ := step_cases hs
  · cases hj
    have ha := acts_of_place hi (by simp [hp])
    rw [hp] at ha
    simp only [perform] at he
    split at he
    · cases he
      rw [table_ret ((runs_of_place hi (by simp [hp])).sysExec tid call argl args)]
      cases ht : s.tree.exec th.ownerPcb with
      | none =>
        rw [sysExec_none ht]
        refine .inl ⟨?_, rfl, ⟨rfl, fun _ => rfl⟩, links_ret_self ha _ _⟩
        unfold Tree.exec Tree.acquirePcb at ht
        cases hf : s.tree.pcbFreelist with
        | none => rfl
        | some p =>
          rw [hf] at ht
          dsimp only at ht
          split at ht <;> cases ht
      | some r =>
        obtain ⟨hf, hst, -, -, -⟩ := Tree.exec_some ht
        have hl := sysExec_links ht tid call argl args
        refine .inr ⟨r.1, r.2, hf, hst, sysExec_table ht _ _ _ _, sysExec_mainTask ht _ _ _ _, ?_⟩
        rw [← hl]
        cases call with
        | none => exact links_ret_self (ha.same hl) _ _
        | some task => exact links_ret_self (ha.start hl) _ _
    · cases he
  · cases hj

end State

/-! ## The history of the processes -/

structure Ledger where
  /-- The incarnation of its process in which a thread was created. -/
  born : ThreadId → Nat
  /-- How often an incarnation of a process has gone through the cleanup of `sys_ThreadExit`. -/
  torn : Pid → Nat → Nat

/-- The thread that makes the step. -/
def Action.actor : Action → ThreadId
  | .call i _ => i
  | .resume i => i

namespace State

/-- The step is the exit of a thread of `p` that finds `threadCounter` at 0. -/
def endsProcess (s : State) (a : Action) (s' : State) (p : Pid) : Bool :=
  (s.threads[a.actor]?).any (fun th => th.ownerPcb = p ∧ th.place ≠ .exited) && s'.hasExited a.actor &&
    (s'.pcb p).threadCounter = 0

/-- The threads created in incarnation `n` of `p`. -/
def threadsOf (s : State) (h : Ledger) (p : Pid) (n : Nat) : Nat :=
  (List.range s.threads.length).countP fun i => (s.threads[i]?).any fun th => th.ownerPcb = p ∧ h.born i = n

/-- Those that have not exited. -/
def liveOf (s : State) (h : Ledger) (p : Pid) (n : Nat) : Nat :=
  (List.range s.threads.length).countP fun i =>
    (s.threads[i]?).any fun th => th.ownerPcb = p ∧ th.place ≠ .exited ∧ h.born i = n

end State

namespace Ledger

def start (s : State) : Ledger where
  born i := (s.threads[i]?).elim 0 fun th => s.serial th.ownerPcb
  torn _ _ := 0

def after (s : State) (a : Action) (s' : State) (h : Ledger) : Ledger where
  born i := if i < s.threads.length then h.born i else (s'.threads[i]?).elim 0 fun th => s'.serial th.ownerPcb
  torn p n := h.torn p n + if s.endsProcess a s' p ∧ n = s.serial p then 1 else 0

end Ledger

/-- Processes and threads, with the history of the processes. -/
def registered : Lts (State × Ledger) Action := system.record Ledger.start Ledger.after

/-- The processes of the state `s`, after the run that `h` tells of. -/
structure Census (s : State) (h : Ledger) : Prop where
  counter : ∀ p, (s.pcb p).threadCounter = s.liveOf h p (s.serial p)
  alive : ∀ p, (s.pcb p).mainTask ≠ none → (s.tree.pstate p = .alive ↔ 0 < s.liveOf h p (s.serial p))
  once : ∀ p n, h.torn p n = if 0 < s.threadsOf h p n ∧ s.liveOf h p n = 0 then 1 else 0
  cleanedUp : ∀ a s' p, s.step a = some s' → s.endsProcess a s' p = true → s.CleanedUp s' p
  zombie : ∀ a s' p, s.step a = some s' → s.tree.pstate p = .alive → s'.tree.pstate p = .zombie →
    s.endsProcess a s' p = true

/-- `sys_Exec` does not take a PCB that still has threads. -/
def State.Vacant (s : State) : Action → Prop
  | .call _ (.exec _ _ _ _) => ∀ p ∈ s.tree.pcbFreelist, s.live p = 0
  | _ => True

instance (s : State) : ∀ a, Decidable (s.Vacant a)
  | .call _ (.exec _ _ _ _) => Option.decidableForallMem s.tree.pcbFreelist
  | .call _ (.createThread _ _ _ _) | .call _ (.threadJoin _) | .call _ (.threadDetach _) | .call _ (.threadExit _)
  | .call _ (.exit _) | .call _ (.waitChild _) | .call _ (.file _) | .resume _ => inferInstanceAs (Decidable True)

/-! ## What a run keeps -/

namespace State

variable {s s' : State} {h : Ledger} {p : Pid} {n : Nat} {i : ThreadId} {a : Action} {th th' : Thread}

/-- Some thread was created in incarnation `n` of `p`. -/
def Had (s : State) (h : Ledger) (p : Pid) (n : Nat) : Prop :=
  ∃ i : ThreadId, ∃ th, s.threads[i]? = some th ∧ th.ownerPcb = p ∧ h.born i = n

/-- All of them have exited. -/
def Ended (s : State) (h : Ledger) (p : Pid) (n : Nat) : Prop := s.Had h p n ∧ (n = s.serial p → s.live p = 0)

theorem key_of_thread (hi : s.threads[i]? = some th) : s.links.keys[i]? = some th.key := by simp [links, hi]

theorem thread_of_key {k : Key} (hk : s.links.keys[i]? = some k) : ∃ th, s.threads[i]? = some th ∧ th.key = k :=
  Option.map_eq_some_iff.1 ((List.getElem?_map ..).symm.trans hk)

theorem key_live : th.key.live = true ↔ th.place ≠ .exited := by simp [Thread.key]

theorem length_keys (s : State) : s.links.keys.length = s.threads.length := List.length_map _

/-- A thread after a step was there before it, or is new. -/
theorem thread_back (hinv : s.links.Inv) (hs : s.step a = some s') (hi : s'.threads[i]? = some th') :
    (∃ th, s.threads[i]? = some th ∧ th.ownerPcb = th'.ownerPcb ∧ (th'.place ≠ .exited → th.place ≠ .exited)) ∨
      i = s.threads.length ∧ th'.place ≠ .exited := by
  have hhap := (step_effect hinv hs).links
  rcases hhap.back (key_of_thread hi) with ⟨k, hk, howner, hl⟩ | ⟨hlen, he⟩
  · obtain ⟨th, hth, rfl⟩ := thread_of_key hk
    exact .inl ⟨th, hth, howner, fun hp => key_live.1 (hl (key_live.2 hp))⟩
  · refine .inr ⟨hlen.trans s.length_keys, ?_⟩
    rw [he] at hhap
    obtain ⟨-, p, hk⟩ := hhap.created_key
    exact key_live.1 (congrArg Key.live (Option.some.inj ((key_of_thread hi).symm.trans hk)))

theorem thread_forth (hinv : s.links.Inv) (hs : s.step a = some s') (hi : s.threads[i]? = some th) :
    ∃ th', s'.threads[i]? = some th' ∧ th'.ownerPcb = th.ownerPcb := by
  have hhap := (step_effect hinv hs).links
  have hlen : s.threads.length ≤ s'.threads.length := by simpa only [length_keys] using hhap.length_le
  have hlt : i < s'.threads.length := Nat.lt_of_lt_of_le (List.getElem?_eq_some_iff.1 hi).1 hlen
  have hi' : s'.threads[i]? = some s'.threads[i] := List.getElem?_eq_getElem hlt
  refine ⟨_, hi', ?_⟩
  rcases thread_back hinv hs hi' with ⟨th₀, h₀, howner, -⟩ | ⟨hlen, -⟩
  · cases hi.symm.trans h₀
    exact howner.symm
  · exact absurd (List.getElem?_eq_some_iff.1 hi).1 (hlen ▸ Nat.lt_irrefl _)

theorem live_pos_iff : 0 < s.live p ↔
    ∃ i : ThreadId, ∃ th, s.threads[i]? = some th ∧ th.ownerPcb = p ∧ th.place ≠ .exited := by
  constructor
  · intro hp
    obtain ⟨th, hth, hl⟩ := List.countP_pos_iff.1 hp
    obtain ⟨i, hi⟩ := List.mem_iff_getElem?.1 hth
    exact ⟨i, th, hi, by simpa using hl⟩
  · rintro ⟨i, th, hi, hp⟩
    exact Runs.live_pos (i := i) ⟨th, hi, hp⟩

/-- A thread that has not exited stays, or the step is its exit. -/
theorem live_forth (hinv : s.links.Inv) (hs : s.step a = some s') (hi : s.threads[i]? = some th) (hp : th.place ≠ .exited) :
    (∃ th', s'.threads[i]? = some th' ∧ th'.ownerPcb = th.ownerPcb ∧ th'.place ≠ .exited) ∨
      a.actor = i ∧ s'.hasExited i = true ∧ ∃ exitval, s.event a s' = .exited i exitval := by
  have hhap := (step_effect hinv hs).links
  rcases hhap.forth (key_of_thread hi) (key_live.2 hp) with ⟨k', hk', howner, hl⟩ | ⟨v, he⟩
  · obtain ⟨th', hi', rfl⟩ := thread_of_key hk'
    exact .inl ⟨th', hi', howner, key_live.1 hl⟩
  · have hactor : a.actor = i := by
      rcases event_exited he with rfl | rfl | ⟨rfl, -⟩ <;> rfl
    exact .inr ⟨hactor, hasExited_of_event hinv hs he, v, he⟩

/-- A step is the end of `p` if there are no threads of `p` after it. -/
theorem endsProcess_iff (hinv : s.links.Inv) (hsound : s'.table.Sound) (hs : s.step a = some s') :
    s.endsProcess a s' p = true ↔ 0 < s.live p ∧ s'.live p = 0 := by
  have hcounter : (s'.pcb p).threadCounter = s'.live p := hsound.counter p
  unfold endsProcess
  simp only [Bool.and_eq_true, decide_eq_true_eq, hcounter]
  constructor
  · rintro ⟨⟨hth, -⟩, h0⟩
    refine ⟨?_, by omega⟩
    cases hi : s.threads[a.actor]? with
    | none => simp [hi] at hth
    | some th => exact live_pos_iff.2 ⟨_, th, hi, by simpa [hi] using hth⟩
  · rintro ⟨hpos, h0⟩
    obtain ⟨i, th, hi, rfl, hp⟩ := live_pos_iff.1 hpos
    rcases live_forth hinv hs hi hp with ⟨th', hi', hlive⟩ | ⟨hactor, hex, -⟩
    · exact absurd h0 (Nat.ne_of_gt (live_pos_iff.2 ⟨i, th', hi', hlive⟩))
    · rw [hactor, hi, hex]
      simp [hp, h0]

/-- The thread whose exit ends `p` cleans up after it. -/
theorem endsProcess_cleanedUp (hinv : s.links.Inv) (hroot : ∀ q v, s.Waits q (.exitOfInit v) → q = initPid)
    (hs : s.step a = some s') (he : s.endsProcess a s' p = true) : s.CleanedUp s' p := by
  unfold endsProcess at he
  simp only [Bool.and_eq_true, decide_eq_true_eq] at he
  obtain ⟨⟨hth, hex⟩, h0⟩ := he
  cases hi : s.threads[a.actor]? with
  | none => simp [hi] at hth
  | some th =>
    obtain ⟨rfl, hp⟩ : th.ownerPcb = p ∧ th.place ≠ .exited := by simpa [hi] using hth
    rcases live_forth hinv hs hi hp with ⟨th', hi', -, hlive⟩ | ⟨-, -, v, he⟩
    · simp [hasExited, hi', hlive] at hex
    · exact step_cleanedUp hinv hroot hs he hi h0

end State

/-- What the numbers of threads, the incarnations and the main tasks go through in a step. -/
structure Turn (s s' : State) : Prop where
  sound : s'.table.Sound
  main : ∀ p, (s'.pcb p).mainTask ≠ none → s'.tree.pstate p = .alive → 0 < s'.live p
  serial_le : ∀ p, s.serial p ≤ s'.serial p
  serial : ∀ p, 0 < s.live p → s'.serial p = s.serial p
  empty : ∀ p, s'.serial p = s.serial p → s.live p = 0 → s'.live p = 0

/-- What holds all along a run on which `sys_Exec` takes PCBs without threads. -/
structure Roll (s : State) (h : Ledger) : Prop where
  links : s.links.Inv
  sound : s.table.Sound
  main : ∀ p, (s.pcb p).mainTask ≠ none → s.tree.pstate p = .alive → 0 < s.live p
  root : ∀ q v, s.Waits q (.exitOfInit v) → q = initPid
  current : ∀ (i : ThreadId) th, s.threads[i]? = some th → th.place ≠ .exited → h.born i = s.serial th.ownerPcb
  born : ∀ (i : ThreadId) th, s.threads[i]? = some th → h.born i ≤ s.serial th.ownerPcb
  torn : ∀ p n, s.Ended h p n ∧ h.torn p n = 1 ∨ ¬s.Ended h p n ∧ h.torn p n = 0

namespace Roll

variable {s s' : State} {h : Ledger} {p : Pid} {n : Nat} {i : ThreadId} {a : Action}

theorem turn_of_quiet (hr : Roll s h) (hk : State.Kept s s') (hq : s.table.Quiet s'.table) : Turn s s' where
  sound := hq.sound
  main p hp := by
    rw [hk.mainTask] at hp
    exact hq.inhabited (fun p => (s.pcb p).mainTask ≠ none) hr.main p hp
  serial_le p := Nat.le_of_eq (congrFun hk.serial p).symm
  serial p _ := congrFun hk.serial p
  empty p _ := hq.empty p

/-- `sys_Exec` takes a PCB without threads. -/
theorem turn_of_create {tree : Tree} {call : Option Task} (hr : Roll s h) (h0 : s.live p = 0)
    (hst : tree.pstate = Function.update s.tree.pstate p .alive) (htable : s'.table = s.table.create p tree call.isSome)
    (hmain : ∀ q, (s'.pcb q).mainTask = if q = p then call else (s.pcb q).mainTask) : Turn s s' := by
  have hstate : s'.tree.pstate = Function.update s.tree.pstate p .alive := by
    rw [← hst, show s'.tree = _ from congrArg Table.tree htable, Table.create_tree]
  have hserial : s'.serial = Function.update s.serial p (s.serial p + 1) :=
    (congrArg Table.serial htable).trans (Table.create_serial ..)
  have hlive : ∀ q, s'.live q = s.live q + if q = p ∧ call.isSome then 1 else 0 := fun q =>
    (congrFun (congrArg Table.live htable) q).trans (Table.create_live ..)
  have hcounter : ∀ q, (s'.pcb q).threadCounter = (s.pcb q).threadCounter + if q = p ∧ call.isSome then 1 else 0 :=
    fun q => (congrFun (congrArg Table.counter htable) q).trans (Table.create_counter ..)
  constructor
  case sound =>
    constructor
    case counter =>
      intro q
      show (s'.pcb q).threadCounter = s'.live q
      have hc : (s.pcb q).threadCounter = s.live q := hr.sound.counter q
      rw [hcounter, hlive, hc]
      split <;> rfl
    case alive =>
      intro q hq
      show s'.tree.pstate q = .alive
      have hq : 0 < s'.live q := hq
      rw [hstate]
      by_cases hqp : q = p
      · subst hqp
        simp
      · rw [hlive, if_neg fun hn => hqp hn.1] at hq
        rw [Function.update_of_ne hqp]
        exact hr.sound.alive q hq
  case main =>
    intro q hq hal
    rw [hmain] at hq
    rw [hlive]
    by_cases hqp : q = p
    · subst hqp
      rw [if_pos rfl] at hq
      simp [Option.isSome_iff_ne_none.2 hq]
    · rw [if_neg hqp] at hq
      rw [hstate, Function.update_of_ne hqp] at hal
      exact Nat.lt_add_right _ (hr.main q hq hal)
  case serial_le =>
    intro q
    rw [hserial]
    by_cases hqp : q = p
    · subst hqp
      simp
    · simp [hqp]
  case serial =>
    intro q hq
    have hqp : q ≠ p := by
      rintro rfl
      omega
    rw [hserial, Function.update_of_ne hqp]
  case empty =>
    intro q hq h0
    have hqp : q ≠ p := by
      rintro rfl
      simp [hserial] at hq
    rw [hlive, if_neg fun hn => hqp hn.1, h0]

/-- A step of a run on which `sys_Exec` takes PCBs without threads. -/
theorem turn (hr : Roll s h) (hv : s.Vacant a) (hs : s.step a = some s') : Turn s s' := by
  by_cases ha : ∃ i tid call argl args, a = .call i (.exec tid call argl args)
  · obtain ⟨i, tid, call, argl, args, rfl⟩ := ha
    rcases State.step_exec hs with ⟨-, htable, hk, -⟩ | ⟨p, tree, hf, hst, htable, hmain, -⟩
    · exact hr.turn_of_quiet hk (by rw [htable]; exact .refl hr.sound)
    · exact hr.turn_of_create (hv p hf) hst htable hmain
  · have ha : ∀ i tid call argl args, a ≠ .call i (.exec tid call argl args) := fun i tid call argl args hn =>
      ha ⟨i, tid, call, argl, args, hn⟩
    exact hr.turn_of_quiet (State.step_kept ha hs) (State.step_quiet hr.sound ha hs)

/-- The ends of the incarnations, after a step. -/
theorem ended_iff (hr : Roll s h) (ht : Turn s s') (hs : s.step a = some s') :
    s'.Ended (h.after s a s') p n ↔ s.Ended h p n ∨ (0 < s.live p ∧ s'.live p = 0) ∧ n = s.serial p := by
  have hborn : ∀ {i : ThreadId} {th : Thread}, s.threads[i]? = some th → (h.after s a s').born i = h.born i := fun hi =>
    if_pos (List.getElem?_eq_some_iff.1 hi).1
  have hhad : s.Had h p n → s'.Had (h.after s a s') p n := by
    rintro ⟨i, th, hi, hp, hb⟩
    obtain ⟨th', hi', howner⟩ := State.thread_forth hr.links hs hi
    exact ⟨i, th', hi', howner.trans hp, (hborn hi).trans hb⟩
  constructor
  · rintro ⟨⟨i, th', hi', hp, hb⟩, hend⟩
    by_cases hE : (0 < s.live p ∧ s'.live p = 0) ∧ n = s.serial p
    · exact .inr hE
    · refine .inl ⟨?_, fun hn => ?_⟩
      · rcases State.thread_back hr.links hs hi' with ⟨th, hi, howner, -⟩ | ⟨hlen, hlive⟩
        · exact ⟨i, th, hi, howner.trans hp, (hborn hi).symm.trans hb⟩
        · -- a new thread has not exited
          have hn : n = s'.serial p := by
            subst hlen
            rw [← hb, ← hp]
            show (if s.threads.length < s.threads.length then _ else _) = _
            rw [if_neg (Nat.lt_irrefl _), hi']
            rfl
          exact absurd (hend hn) (Nat.ne_of_gt (State.live_pos_iff.2 ⟨i, th', hi', hp, hlive⟩))
      · by_contra hpos
        have hpos := Nat.pos_of_ne_zero hpos
        exact hE ⟨⟨hpos, hend (hn.trans (ht.serial p hpos).symm)⟩, hn⟩
  · rintro (⟨hhad₀, hend⟩ | ⟨⟨hpos, h0⟩, rfl⟩)
    · refine ⟨hhad hhad₀, fun hn => ?_⟩
      obtain ⟨i, th, hi, rfl, hb⟩ := hhad₀
      -- the incarnation is still the same
      have hle := hr.born i th hi
      have hle' := ht.serial_le th.ownerPcb
      exact ht.empty _ (by omega) (hend (by omega))
    · obtain ⟨i, th, hi, rfl, hp⟩ := State.live_pos_iff.1 hpos
      exact ⟨hhad ⟨i, th, hi, rfl, hr.current i th hi hp⟩, fun _ => h0⟩

theorem step (hr : Roll s h) (hv : s.Vacant a) (hs : s.step a = some s') : Roll s' (h.after s a s') := by
  have ht := hr.turn hv hs
  have hnew : ∀ th', s'.threads[s.threads.length]? = some th' →
      (h.after s a s').born s.threads.length = s'.serial th'.ownerPcb := by
    intro th' hi
    show (if s.threads.length < s.threads.length then _ else _) = _
    rw [if_neg (Nat.lt_irrefl _), hi]
    rfl
  have hold : ∀ {i : ThreadId} {th : Thread}, s.threads[i]? = some th → (h.after s a s').born i = h.born i := fun hi =>
    if_pos (List.getElem?_eq_some_iff.1 hi).1
  constructor
  case links => exact State.step_links_inv hr.links hs
  case sound => exact ht.sound
  case main => exact ht.main
  case root => exact fun q v hw => (State.step_waits hs hw).elim (hr.root q v) id
  case current =>
    intro i th' hi' hp'
    rcases State.thread_back hr.links hs hi' with ⟨th, hi, howner, hlive⟩ | ⟨rfl, -⟩
    · have hp := hlive hp'
      rw [hold hi, hr.current i th hi hp, ← howner]
      exact (ht.serial _ (State.live_pos_iff.2 ⟨i, th, hi, rfl, hp⟩)).symm
    · exact hnew th' hi'
  case born =>
    intro i th' hi'
    rcases State.thread_back hr.links hs hi' with ⟨th, hi, howner, -⟩ | ⟨rfl, -⟩
    · rw [hold hi, ← howner]
      exact Nat.le_trans (hr.born i th hi) (ht.serial_le _)
    · exact Nat.le_of_eq (hnew th' hi')
  case torn =>
    intro p n
    have hends := State.endsProcess_iff (p := p) hr.links ht.sound hs
    rw [hr.ended_iff ht hs, ← hends]
    show _ ∧ h.torn p n + (if s.endsProcess a s' p ∧ n = s.serial p then 1 else 0) = 1 ∨
      _ ∧ h.torn p n + (if s.endsProcess a s' p ∧ n = s.serial p then 1 else 0) = 0
    rcases hr.torn p n with ⟨hend, h1⟩ | ⟨hend, h0⟩
    · have hno : ¬(s.endsProcess a s' p = true ∧ n = s.serial p) := by
        rintro ⟨he, hn⟩
        have := hend.2 hn
        have := (hends.1 he).1
        omega
      exact .inl ⟨.inl hend, by rw [if_neg hno, h1]⟩
    · by_cases hE : s.endsProcess a s' p = true ∧ n = s.serial p
      · exact .inl ⟨.inr hE, by rw [if_pos hE, h0]⟩
      · exact .inr ⟨not_or.2 ⟨hend, hE⟩, by rw [if_neg hE, h0]⟩

/-! ## Counting the threads of an incarnation -/

theorem live_eq (s : State) (p : Pid) : s.live p = (List.range s.threads.length).countP fun i =>
    (s.threads[i]?).any fun th => th.ownerPcb = p ∧ th.place ≠ .exited :=
  (List.countP_range_getElem? _ _).symm

theorem liveOf_serial (hr : Roll s h) (p : Pid) : s.liveOf h p (s.serial p) = s.live p := by
  rw [live_eq]
  refine List.countP_congr fun i _ => ?_
  cases hi : s.threads[i]? with
  | none => simp
  | some th =>
    simp only [Option.any_some, decide_eq_true_eq]
    constructor
    · exact fun ⟨hp, hl, _⟩ => ⟨hp, hl⟩
    · rintro ⟨rfl, hl⟩
      exact ⟨rfl, hl, hr.current i th hi hl⟩

/-- All threads of the earlier incarnations have exited. -/
theorem liveOf_eq_zero (hr : Roll s h) (hn : n ≠ s.serial p) : s.liveOf h p n = 0 := by
  refine List.countP_eq_zero.2 fun i _ hi => ?_
  cases hth : s.threads[i]? with
  | none => simp [hth] at hi
  | some th =>
    obtain ⟨rfl, hl, hb⟩ : th.ownerPcb = p ∧ th.place ≠ .exited ∧ h.born i = n := by simpa [hth] using hi
    exact hn (hb.symm.trans (hr.current i th hth hl))

/-- A thread of another incarnation is not counted. -/
theorem liveOf_lt {th : Thread} (hi : s.threads[i]? = some th) (hp : th.place ≠ .exited) (hb : h.born i ≠ n) :
    s.liveOf h th.ownerPcb n < s.live th.ownerPcb := by
  have hsplit : s.live th.ownerPcb = s.liveOf h th.ownerPcb n + (List.range s.threads.length).countP fun j =>
      (s.threads[j]?).any fun t => t.ownerPcb = th.ownerPcb ∧ t.place ≠ .exited ∧ h.born j ≠ n := by
    rw [live_eq]
    refine List.countP_eq_add (fun j => ?_) _
    cases s.threads[j]? with
    | none => rfl
    | some t =>
      simp only [Option.any_some]
      by_cases hbj : h.born j = n <;> simp [hbj]
  have hrest : 0 < (List.range s.threads.length).countP fun j =>
      (s.threads[j]?).any fun t => t.ownerPcb = th.ownerPcb ∧ t.place ≠ .exited ∧ h.born j ≠ n :=
    List.countP_pos_iff.2 ⟨i, List.mem_range.2 (List.getElem?_eq_some_iff.1 hi).1, by simp [hi, hp, hb]⟩
  omega

theorem threadsOf_pos : 0 < s.threadsOf h p n ↔ s.Had h p n := by
  unfold State.threadsOf
  rw [List.countP_pos_iff]
  constructor
  · rintro ⟨i, -, hi⟩
    cases hth : s.threads[i]? with
    | none => simp [hth] at hi
    | some th => exact ⟨i, th, hth, by simpa [hth] using hi⟩
  · rintro ⟨i, th, hi, hp, hb⟩
    exact ⟨i, List.mem_range.2 (List.getElem?_eq_some_iff.1 hi).1, by simp [hi, hp, hb]⟩

theorem ended_iff_counts (hr : Roll s h) : s.Ended h p n ↔ 0 < s.threadsOf h p n ∧ s.liveOf h p n = 0 := by
  rw [threadsOf_pos]
  refine and_congr_right fun _ => ?_
  by_cases hn : n = s.serial p
  · rw [hn, hr.liveOf_serial]
    simp
  · simp [hn, hr.liveOf_eq_zero hn]

/-! ## The census -/

theorem endsProcess_of_zombie (hr : Roll s h) (hs : s.step a = some s') (hal : s.tree.pstate p = .alive)
    (hz : s'.tree.pstate p = .zombie) : s.endsProcess a s' p = true := by
  by_cases ha : ∃ i tid call argl args, a = .call i (.exec tid call argl args)
  · obtain ⟨i, tid, call, argl, args, rfl⟩ := ha
    have hstay : s'.tree.pstate p = .alive := by
      rcases State.step_exec hs with ⟨-, htable, -⟩ | ⟨q, tree, -, hst, htable, -⟩
      · rw [show s'.tree = _ from congrArg Table.tree htable]
        exact hal
      · have htree : s'.tree = tree := (congrArg Table.tree htable).trans (Table.create_tree ..)
        rw [htree, hst]
        by_cases hpq : p = q
        · subst hpq
          simp
        · rw [Function.update_of_ne hpq, hal]
    rw [hstay] at hz
    cases hz
  · have hq := State.step_quiet hr.sound (fun i tid call argl args hn => ha ⟨i, tid, call, argl, args, hn⟩) hs
    exact (State.endsProcess_iff hr.links hq.sound hs).2
      (hq.zombie p hal (by rw [show s'.table.tree.pstate p = _ from hz]; simp)).2

theorem census (hr : Roll s h) : Census s h where
  counter p := by
    rw [hr.liveOf_serial]
    exact hr.sound.counter p
  alive p hp := by
    rw [hr.liveOf_serial]
    exact ⟨hr.main p hp, hr.sound.alive p⟩
  once p n := by
    rcases hr.torn p n with ⟨hend, h1⟩ | ⟨hend, h0⟩
    · rw [if_pos (hr.ended_iff_counts.1 hend), h1]
    · rw [if_neg fun hn => hend (hr.ended_iff_counts.2 hn), h0]
  cleanedUp _ _ _ hs he := State.endsProcess_cleanedUp hr.links hr.root hs he
  zombie _ _ _ hs hal hz := hr.endsProcess_of_zombie hs hal hz

/-- The threads that were there when the PCB was taken still count in `threadCounter`. -/
theorem not_census (hr : Roll s h) (hv : ¬s.Vacant a) (hs : s.step a = some s') : ¬Census s' (h.after s a s') := by
  intro hc
  obtain ⟨i, tid, call, argl, args, rfl⟩ : ∃ i tid call argl args, a = .call i (.exec tid call argl args) := by
    by_contra hn
    refine hv ?_
    unfold State.Vacant
    split
    · exact absurd ⟨_, _, _, _, _, rfl⟩ hn
    · trivial
  obtain ⟨p, hf, hpos⟩ : ∃ p, s.tree.pcbFreelist = some p ∧ s.live p ≠ 0 := by
    by_contra hn
    exact hv fun p hf => by_contra fun hne => hn ⟨p, hf, hne⟩
  rcases State.step_exec hs with ⟨hnone, -⟩ | ⟨q, tree, hf', -, htable, -⟩
  · rw [hf] at hnone
    cases hnone
  obtain rfl : p = q := Option.some.inj (hf.symm.trans hf')
  have hserial : s'.serial p = s.serial p + 1 := by
    rw [show s'.serial p = _ from congrFun (congrArg Table.serial htable) p, Table.create_serial]
    exact Function.update_self ..
  have hcounter : (s'.pcb p).threadCounter = s'.live p := by
    rw [show (s'.pcb p).threadCounter = _ from congrFun (congrArg Table.counter htable) p,
      show s'.live p = _ from congrFun (congrArg Table.live htable) p, Table.create_counter, Table.create_live,
      hr.sound.counter p]
    split <;> rfl
  -- an old thread is live after the step, and of an earlier incarnation
  obtain ⟨j, th, hj, rfl, hlive⟩ := State.live_pos_iff.1 (Nat.pos_of_ne_zero hpos)
  obtain ⟨th', hj', howner, hlive'⟩ := (State.live_forth hr.links hs hj hlive).resolve_right fun ⟨_, _, v, he⟩ => by
    rcases State.event_exited he with h | h | ⟨h, -⟩ <;> cases h
  have hborn : (h.after s (.call i (.exec tid call argl args)) s').born j ≠ s'.serial th.ownerPcb := by
    have hold : (h.after s (.call i (.exec tid call argl args)) s').born j = h.born j :=
      if_pos (List.getElem?_eq_some_iff.1 hj).1
    have := hr.born j th hj
    omega
  have hlt := liveOf_lt hj' hlive' hborn
  rw [howner] at hlt
  have hc := hcounter.symm.trans (hc.counter th.ownerPcb)
  omega

/-- At the start there is one thread, of init. -/
theorem boot (tid : Tid) (initTask : Task) (argl : Int) (args : Args) :
    Roll (.boot tid initTask argl args) (.start (.boot tid initTask argl args)) := by
  have hl := State.boot_links tid initTask argl args
  have hinv := State.boot_inv tid initTask argl args
  have hkey : ∀ {i : ThreadId} {th : Thread}, (State.boot tid initTask argl args).threads[i]? = some th →
      th.ownerPcb = initPid := by
    intro i th hi
    have hk := State.key_of_thread hi
    rw [hl] at hk
    rcases Links.keys_start hk with hk | ⟨-, hk'⟩
    · cases hk
    · exact congrArg Key.owner hk'
  have hborn : ∀ {i : ThreadId} {th : Thread}, (State.boot tid initTask argl args).threads[i]? = some th →
      (Ledger.start (State.boot tid initTask argl args)).born i =
        (State.boot tid initTask argl args).serial th.ownerPcb := by
    intro i th hi
    show ((State.boot tid initTask argl args).threads[i]?).elim 0 _ = _
    rw [hi]
    rfl
  have hinit : 0 < (State.boot tid initTask argl args).live initPid := by
    obtain ⟨th, hi, hk⟩ := State.thread_of_key (s := .boot tid initTask argl args) (i := 0)
      (k := ⟨initPid, tid, true, none⟩) (by rw [hl]; rfl)
    exact State.live_pos_iff.2 ⟨0, th, hi, congrArg Key.owner hk, State.key_live.1 (by rw [hk])⟩
  constructor
  case links => exact State.boot_links_inv tid initTask argl args
  case sound => exact ⟨hinv.counter, hinv.alive⟩
  case main =>
    intro p hp _
    by_cases hpi : p = initPid
    · exact hpi ▸ hinit
    · obtain ⟨t, t', h₁, h₂⟩ : ∃ t t', Tree.initial.exec idlePid = some (idlePid, t) ∧
          t.exec idlePid = some (initPid, t') := ⟨_, _, rfl, rfl⟩
      have htree : (State.initial.sysExec idlePid tid none 0 none).2.tree = t :=
        congrArg Table.tree (State.sysExec_table (s := .initial) h₁ tid none 0 none)
      refine absurd ?_ hp
      refine (State.sysExec_mainTask (htree ▸ h₂) tid (some initTask) argl args p).trans ?_
      rw [if_neg hpi]
      refine (State.sysExec_mainTask (s := .initial) h₁ tid none 0 none p).trans ?_
      split <;> rfl
  case root => exact fun _ _ hw => absurd hw State.boot_waits
  case current => exact fun i th hi _ => hborn hi
  case born => exact fun i th hi => Nat.le_of_eq (hborn hi)
  case torn =>
    refine fun p n => .inr ⟨?_, rfl⟩
    rintro ⟨⟨i, th, hi, rfl, rfl⟩, hend⟩
    have h0 := hend (hborn hi)
    rw [hkey hi] at h0
    omega

end Roll

/-- **The end of a process.** In the whole of a run `threadCounter` is the number of the threads of the process, and each
process is cleaned up after once, by its last thread, exactly if no `sys_Exec` of the run takes a PCB that still has
threads. -/
theorem census_iff {tid : Tid} {initTask : Task} {argl : Int} {args : Args} {as : List Action} {x : State × Ledger}
    (hr : registered.run (.boot tid initTask argl args, .start (.boot tid initTask argl args)) as = some x) :
    registered.AllStates (fun x => Census x.1 x.2) (.boot tid initTask argl args, .start (.boot tid initTask argl args))
        as ↔
      registered.AllSteps (fun x a => x.1.Vacant a) (.boot tid initTask argl args, .start (.boot tid initTask argl args))
        as := by
  refine Lts.allStates_iff_allSteps (I := fun x => Roll x.1 x.2) (fun _ h => h.census) ?_ ?_
    (Roll.boot tid initTask argl args) hr
  · intro x a y h hv hs
    obtain ⟨hs, hy⟩ := Lts.record_step.1 hs
    exact hy ▸ h.step hv hs
  · intro x a y h hv hs
    obtain ⟨hs, hy⟩ := Lts.record_step.1 hs
    exact hy ▸ h.not_census hv hs

/-- Process 2 has two threads, and the main thread exits first. Init reaps it and makes another process 2. -/
theorem census_iff_recycled :
    registered.AllStates (fun x => Census x.1 x.2) (.boot 1 0 0 none, .start (.boot 1 0 0 none))
      [.call 0 (.exec 2 (some 0) 0 none), .call 1 (.createThread 3 0 0 none), .call 1 (.exit 7), .call 0 (.waitChild 2),
        .call 2 (.threadExit 8), .resume 0, .call 0 (.exec 4 (some 0) 0 none)] := by
  have hrun : (registered.run (.boot 1 0 0 none, .start (.boot 1 0 0 none))
      [.call 0 (.exec 2 (some 0) 0 none), .call 1 (.createThread 3 0 0 none), .call 1 (.exit 7), .call 0 (.waitChild 2),
        .call 2 (.threadExit 8), .resume 0, .call 0 (.exec 4 (some 0) 0 none)]).isSome := by decide +kernel
  obtain ⟨x, hx⟩ := Option.isSome_iff_exists.1 hrun
  exact (census_iff hx).2 (by decide +kernel)

/-- Two threads of init wait for process 2, and the second one ties the knot in the list of free PCBs. Init executes two
processes: both get the PCB 2, and its `threadCounter` is 2 with one thread of the second process. -/
theorem second_process_counts_first :
    ∃ s h, registered.Reaches (s, h) ∧ (s.pcb ⟨2, by decide⟩).threadCounter = 2 ∧
      s.liveOf h ⟨2, by decide⟩ (s.serial ⟨2, by decide⟩) = 1 := by
  let s₀ := State.boot 1 0 0 none
  obtain ⟨⟨s, h⟩, hr, hx⟩ := Option.map_eq_some_iff.1 (show
    (registered.run (s₀, .start s₀)
      [.call 0 (.createThread 2 0 0 none), .call 0 (.exec 3 (some 0) 0 none), .call 0 (.waitChild 2),
        .call 1 (.waitChild 2), .call 2 (.exit 7), .resume 0, .resume 1, .call 0 (.exec 4 (some 0) 0 none),
        .call 0 (.exec 5 (some 0) 0 none)]).map (fun x => ((x.1.pcb ⟨2, by decide⟩).threadCounter,
        x.1.liveOf x.2 ⟨2, by decide⟩ (x.1.serial ⟨2, by decide⟩))) = some (2, 1) by decide +kernel)
  obtain ⟨hc, hl⟩ : _ ∧ _ := by simpa only [Prod.mk.injEq] using hx
  exact ⟨s, h, Lts.reaches_of_run (.init ⟨⟨1, 0, 0, none, by decide, rfl⟩, rfl⟩) hr, hc, hl⟩

end TinyOS.Proc
