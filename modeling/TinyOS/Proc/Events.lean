import TinyOS.Proc.Links

/-!
# Events

What a step shows of the threads: a new thread, the exit of one, a `sys_ThreadDetach` that succeeds, a piece of a
`sys_ThreadJoin`. `State.event` reads it off the action and the states before and after it; `Links.Happens` says what
each event does to the PTCBs.

- `step_effect`: every step has the effect of its event, and leaves no thread asleep in a join that should go on.
-/

namespace TinyOS.Proc

inductive Event
  | quiet
  | created (i : ThreadId) (tid : Tid)
  | exited (i : ThreadId) (exitval : Int)
  | detached (tid : Tid)
  /-- A piece of `sys_ThreadJoin`, the first one if `entry`; `ret` is what the call returns, and what it stores. -/
  | join (i : ThreadId) (tid : Tid) (entry : Bool) (ret : Option (Int × Option Int))
  deriving DecidableEq

namespace State

/-- What the last call of thread `i` returned, if the thread is out of it. -/
def returned (s : State) (i : ThreadId) : Option (Int × Option Int) :=
  (s.threads[i]?).bind fun th => if th.place = .user then some (th.ret, th.out) else none

def hasExited (s : State) (i : ThreadId) : Bool := (s.threads[i]?).any fun th => th.place = .exited

/-- The event of a step that makes no thread. -/
def observed (s : State) (s' : State) : Action → Event
  | .call i (.threadExit exitval) | .call i (.exit exitval) => if s'.hasExited i then .exited i exitval else .quiet
  | .call i (.threadDetach tid) => if s'.returned i = some (0, none) then .detached tid else .quiet
  | .call i (.threadJoin tid) => .join i tid true (s'.returned i)
  | .call _ _ => .quiet
  | .resume i =>
    match (s.threads[i]?).map Thread.place with
    | some (.waiting (.exitOfInit exitval) _) => if s'.hasExited i then .exited i exitval else .quiet
    | some (.waiting (.join tid) _) => .join i tid false (s'.returned i)
    | _ => .quiet

theorem observed_ne (s s' : State) (a : Action) (i : ThreadId) (tid : Tid) : s.observed s' a ≠ .created i tid := by
  unfold observed
  split <;> try split
  all_goals simp
  all_goals split <;> simp

/-- The event of the step `a` from `s` to `s'`. -/
def event (s : State) (a : Action) (s' : State) : Event :=
  match s'.threads[s.threads.length]? with
  | some th => .created s.threads.length th.ownerPtcb
  | none => s.observed s' a

end State

/-! ## The PTCBs -/

namespace Links

/-- Thread `i` of `p` is in `sys_ThreadJoin(tid)` in `t'`: it was there already, or it has passed the check. -/
inductive Inside (t : Links) (i : ThreadId) (p : Pid) (tid : Tid) : Bool → Links → Prop
  | already {own : Tid} : t.keys[i]? = some ⟨p, own, true, some tid⟩ → Inside t i p tid false t
  | enters {own : Tid} {x : Ptcb} : t.keys[i]? = some ⟨p, own, true, none⟩ → tid ∈ t.list p → tid ≠ own →
      t.ptcb tid = some x → x.detached = false →
      Inside t i p tid true ((t.setPtcb tid (some { x with refcount := x.refcount + 1 })).move i true (some tid))

/-- Thread `i` leaves `sys_ThreadJoin(tid)`. -/
def leave (t : Links) (i : ThreadId) (tid : Tid) (x : Ptcb) : Links :=
  (t.setPtcb tid (some { x with refcount := x.refcount - 1 })).move i true none

/-- What an event does to the PTCBs. -/
inductive Happens (t : Links) : Event → Links → Prop
  | quiet : Happens t .quiet t
  | created {i : ThreadId} {x : Ptcb} (p : Pid) (tid : Tid) : i = t.keys.length → tid ≠ nothread → t.ptcb tid = none →
      x.exited = false → x.detached = false → x.refcount = 0 → Happens t (.created i tid) (t.start p tid x)
  | exited {i : ThreadId} {p : Pid} {own : Tid} {x : Ptcb} (exitval : Int) : t.keys[i]? = some ⟨p, own, true, none⟩ →
      t.ptcb own = some x →
      Happens t (.exited i exitval)
        ((t.setPtcb own (some { x with exitval := exitval, exited := true })).move i false none)
  | detached {tid : Tid} {x : Ptcb} : t.ptcb tid = some x → x.exited = false →
      Happens t (.detached tid) (t.setPtcb tid (some { x with detached := true }))
  | refused {i : ThreadId} {p : Pid} {own : Tid} (tid : Tid) : t.keys[i]? = some ⟨p, own, true, none⟩ →
      Happens t (.join i tid true (some (-1, none))) t
  | sleeps {i : ThreadId} {p : Pid} {tid : Tid} {entry : Bool} {t₁ : Links} {x : Ptcb} : Inside t i p tid entry t₁ →
      t₁.ptcb tid = some x → x.detached = false → x.exited = false → Happens t (.join i tid entry none) t₁
  | fails {i : ThreadId} {p : Pid} {tid : Tid} {entry : Bool} {t₁ : Links} {x : Ptcb} : Inside t i p tid entry t₁ →
      t₁.ptcb tid = some x → x.detached = true → Happens t (.join i tid entry (some (-1, none))) (t₁.leave i tid x)
  | succeeds {i : ThreadId} {p : Pid} {tid : Tid} {entry : Bool} {t₁ : Links} {x : Ptcb} : Inside t i p tid entry t₁ →
      t₁.ptcb tid = some x → x.detached = false → x.exited = true → x.refcount - 1 ≠ 0 →
      Happens t (.join i tid entry (some (0, some x.exitval))) (t₁.leave i tid x)
  | frees {i : ThreadId} {p : Pid} {tid : Tid} {entry : Bool} {t₁ : Links} {x : Ptcb} : Inside t i p tid entry t₁ →
      t₁.ptcb tid = some x → x.detached = false → x.exited = true → x.refcount - 1 = 0 →
      Happens t (.join i tid entry (some (0, some x.exitval))) ((t₁.leave i tid x).free p tid)

variable {t t' t₁ : Links} {e : Event} {i : ThreadId} {p : Pid} {tid : Tid} {entry : Bool}

theorem Inside.length (h : Inside t i p tid entry t₁) : t₁.keys.length = t.keys.length := by
  cases h with
  | already _ => rfl
  | enters _ _ _ _ _ => exact List.length_modify ..

theorem Inside.key (h : Inside t i p tid entry t₁) : ∃ own, t₁.keys[i]? = some ⟨p, own, true, some tid⟩ := by
  cases h with
  | already hi => exact ⟨_, hi⟩
  | enters hi _ _ _ _ => exact ⟨_, keys_move (t := t.setPtcb _ _) hi⟩

theorem Inside.other (h : Inside t i p tid entry t₁) {j : ThreadId} (hj : j ≠ i) : t₁.keys[j]? = t.keys[j]? := by
  cases h with
  | already _ => rfl
  | enters _ _ _ _ _ => exact List.getElem?_modify_ne _ _ (Ne.symm hj)

theorem isSome_setPtcb {a : Tid} {x : Ptcb} (h : (t.ptcb a).isSome) : ((t.setPtcb tid (some x)).ptcb a).isSome := by
  by_cases ha : a = tid
  · subst ha
    simp [setPtcb]
  · simpa [setPtcb, ha] using h

theorem Inside.isSome (h : Inside t i p tid entry t₁) {a : Tid} (ha : (t.ptcb a).isSome) : (t₁.ptcb a).isSome := by
  cases h with
  | already _ => exact ha
  | enters _ _ _ _ _ => exact isSome_setPtcb ha

/-- Only a new thread makes the list of threads longer. -/
theorem Happens.length (h : Happens t e t') (he : ∀ i tid, e ≠ .created i tid) : t'.keys.length = t.keys.length := by
  cases h with
  | quiet | refused | detached => rfl
  | created p tid _ _ _ _ _ _ => exact absurd rfl (he _ tid)
  | exited => exact List.length_modify ..
  | sleeps hin _ _ _ => exact hin.length
  | fails hin _ _ | succeeds hin _ _ _ _ | frees hin _ _ _ _ => exact (List.length_modify ..).trans hin.length

theorem Happens.created_key (h : Happens t (.created i tid) t') :
    i = t.keys.length ∧ ∃ p, t'.keys[i]? = some ⟨p, tid, true, none⟩ := by
  cases h with
  | created p tid hi _ _ _ _ _ =>
    subst hi
    exact ⟨rfl, p, List.getElem?_concat_length ..⟩

theorem Happens.exited_key {exitval : Int} (h : Happens t (.exited i exitval) t') :
    ∃ k, t'.keys[i]? = some k ∧ k.live = false := by
  cases h with
  | exited _ hi hx => exact ⟨_, keys_move (t := t.setPtcb _ _) hi, rfl⟩

theorem Happens.length_le (h : Happens t e t') : t.keys.length ≤ t'.keys.length := by
  by_cases he : ∃ i tid, e = .created i tid
  · obtain ⟨i, tid, rfl⟩ := he
    obtain ⟨rfl, p, hi⟩ := h.created_key
    exact Nat.le_of_lt (List.getElem?_eq_some_iff.1 hi).1
  · exact Nat.le_of_eq (h.length fun i tid hn => he ⟨i, tid, hn⟩).symm

/-- Only its exit ends a thread. -/
theorem Happens.forth (h : Happens t e t') {j : ThreadId} {k : Key} (hj : t.keys[j]? = some k) (hk : k.live = true) :
    (∃ k', t'.keys[j]? = some k' ∧ k'.owner = k.owner ∧ k'.live = true) ∨ ∃ exitval, e = .exited j exitval := by
  have hmove : ∀ {u : Links} {i : ThreadId} {p : Pid} {own : Tid} {l : Bool} {a b : Option Tid},
      u.keys[i]? = some ⟨p, own, l, a⟩ → (∃ k', u.keys[j]? = some k' ∧ k'.owner = k.owner ∧ k'.live = true) →
      ∃ k', (u.move i true b).keys[j]? = some k' ∧ k'.owner = k.owner ∧ k'.live = true := by
    rintro u i p own l a b hi ⟨k', hk', howner, hl⟩
    by_cases hji : j = i
    · subst hji
      cases hi.symm.trans hk'
      exact ⟨_, keys_move hi, howner, rfl⟩
    · exact ⟨k', (List.getElem?_modify_ne _ _ (Ne.symm hji)).trans hk', howner, hl⟩
  have hinside : ∀ {i : ThreadId} {p : Pid} {tid : Tid} {entry : Bool} {t₁ : Links}, t.Inside i p tid entry t₁ →
      ∃ k', t₁.keys[j]? = some k' ∧ k'.owner = k.owner ∧ k'.live = true := by
    intro i p tid entry t₁ hin
    cases hin with
    | already _ => exact ⟨k, hj, rfl, hk⟩
    | enters hi _ _ _ _ => exact hmove (u := t.setPtcb _ _) hi ⟨k, hj, rfl, hk⟩
  cases h with
  | quiet | detached | refused => exact .inl ⟨k, hj, rfl, hk⟩
  | created p tid _ _ _ _ _ _ =>
    exact .inl ⟨k, (List.getElem?_append_left (List.getElem?_eq_some_iff.1 hj).1).trans hj, rfl, hk⟩
  | @exited i _ _ _ exitval hi _ =>
    by_cases hji : j = i
    · exact .inr ⟨exitval, hji ▸ rfl⟩
    · exact .inl ⟨k, (List.getElem?_modify_ne _ _ (Ne.symm hji)).trans hj, rfl, hk⟩
  | sleeps hin _ _ _ => exact .inl (hinside hin)
  | fails hin _ _ | succeeds hin _ _ _ _ | frees hin _ _ _ _ =>
    obtain ⟨own, hi⟩ := hin.key
    obtain ⟨k', hk', howner, hl⟩ := hinside hin
    exact .inl (hmove (u := Links.setPtcb _ _ _) hi ⟨k', hk', howner, hl⟩)

/-- The threads after an event are those before it, and the new one. -/
theorem Happens.back (h : Happens t e t') {j : ThreadId} {k' : Key} (hj : t'.keys[j]? = some k') :
    (∃ k, t.keys[j]? = some k ∧ k.owner = k'.owner ∧ (k'.live = true → k.live = true)) ∨
      j = t.keys.length ∧ e = .created j k'.own := by
  have hmove : ∀ {u : Links} {i : ThreadId} {p : Pid} {own : Tid} {a b : Option Tid} {live : Bool} {k' : Key},
      u.keys[i]? = some ⟨p, own, true, a⟩ → (u.move i live b).keys[j]? = some k' →
      ∃ k, u.keys[j]? = some k ∧ k.owner = k'.owner ∧ (k'.live = true → k.live = true) := by
    intro u i p own a b live k' hi hj
    rcases move_cases hi hj with ⟨rfl, rfl⟩ | ⟨-, hj⟩
    · exact ⟨_, hi, rfl, fun _ => rfl⟩
    · exact ⟨k', hj, rfl, id⟩
  have hinside : ∀ {i : ThreadId} {p : Pid} {tid : Tid} {entry : Bool} {t₁ : Links} {k₁ : Key}, t.Inside i p tid entry t₁ →
      t₁.keys[j]? = some k₁ → ∃ k, t.keys[j]? = some k ∧ k.owner = k₁.owner ∧ (k₁.live = true → k.live = true) := by
    intro i p tid entry t₁ k₁ hin hj
    cases hin with
    | already _ => exact ⟨k₁, hj, rfl, id⟩
    | enters hi _ _ _ _ => exact hmove (u := t.setPtcb _ _) hi hj
  cases h with
  | quiet | detached | refused => exact .inl ⟨k', hj, rfl, id⟩
  | created p tid hi _ _ _ _ _ =>
    rcases keys_start hj with hj | ⟨rfl, rfl⟩
    · exact .inl ⟨k', hj, rfl, id⟩
    · exact .inr ⟨rfl, hi ▸ rfl⟩
  | exited exitval hi _ => exact .inl (hmove (u := t.setPtcb _ _) hi hj)
  | sleeps hin _ _ _ => exact .inl (hinside hin hj)
  | fails hin _ _ | succeeds hin _ _ _ _ | frees hin _ _ _ _ =>
    obtain ⟨own, hi⟩ := hin.key
    obtain ⟨k₁, hk₁, howner, hl⟩ := hmove (u := Links.setPtcb _ _ _) hi hj
    obtain ⟨k, hk, howner', hl'⟩ := hinside hin hk₁
    exact .inl ⟨k, hk, howner'.trans howner, fun h => hl' (hl h)⟩

end Links

namespace State

variable {s s' s₁ : State} {cur p : Pid} {i j : ThreadId} {own tid a : Tid} {x : Pcb}

/-! ## Sleeping in a join -/

/-- Thread `j` sleeps in `sys_ThreadJoin(tid)`. -/
def Asleep (s : State) (j : ThreadId) (tid : Tid) : Prop :=
  ∃ th, s.threads[j]? = some th ∧ th.place = .waiting (.join tid) false

theorem asleep_modify {f : Thread → Thread} (pl : Place) (hf : ∀ th, (f th).place = pl)
    (h : ∃ th, (s.threads.modify i f)[j]? = some th ∧ th.place = .waiting (.join a) false) :
    j = i ∧ pl = .waiting (.join a) false ∨ s.Asleep j a := by
  obtain ⟨th, hj, hp⟩ := h
  by_cases hij : i = j
  · subst hij
    rw [List.getElem?_modify_eq] at hj
    obtain ⟨th₀, -, rfl⟩ := Option.map_eq_some_iff.1 hj
    exact .inl ⟨rfl, (hf th₀).symm.trans hp⟩
  · rw [List.getElem?_modify_ne _ _ hij] at hj
    exact .inr ⟨th, hj, hp⟩

theorem asleep_ret {v : Int} {out : Option Int} (h : (s.ret i v out).Asleep j a) : s.Asleep j a :=
  (asleep_modify .user (fun _ => rfl) h).resolve_left fun h => by cases h.2

theorem asleep_setPlace {pl : Place} (h : (s.setPlace i pl).Asleep j a) :
    j = i ∧ pl = .waiting (.join a) false ∨ s.Asleep j a :=
  asleep_modify pl (fun _ => rfl) h

theorem asleep_exited (h : (s.setPlace i .exited).Asleep j a) : s.Asleep j a :=
  (asleep_setPlace h).resolve_left fun h => by cases h.2

/-- A thread that waits for a child does not sleep in a join. -/
theorem asleep_wait {w : Wait} (hw : (Place.waiting w false).joins = none) (h : (s.wait i w).Asleep j a) :
    s.Asleep j a := by
  refine (asleep_setPlace h).resolve_left fun h => ?_
  cases h.2
  cases hw

/-- Only threads that a broadcast does not meet sleep after it. -/
theorem asleep_wake {on : Thread → Wait → Bool} (h : (s.wake on).Asleep j a) :
    s.Asleep j a ∧ ∃ th, on th (.join a) = false := by
  obtain ⟨th, hj, hp⟩ := h
  rw [wake, List.getElem?_map] at hj
  obtain ⟨th₀, h₀, rfl⟩ := Option.map_eq_some_iff.1 hj
  unfold Thread.wake at hp
  split at hp
  · split at hp
    · cases hp
    · rename_i hon
      rename_i hp₀
      cases hp₀.symm.trans hp
      exact ⟨⟨th₀, h₀, hp⟩, th₀, by simpa using hon⟩
  · rename_i hn
    exact absurd hp (hn _ _)

theorem asleep_broadcastExit (h : (s.broadcastExit tid).Asleep j a) : s.Asleep j a ∧ a ≠ tid := by
  obtain ⟨h, -, hon⟩ := asleep_wake h
  refine ⟨h, ?_⟩
  rintro rfl
  simp at hon

theorem asleep_startThread (task : Task) (argl : Int) (args : Args) (h : (s.startThread p tid task argl args).Asleep j a) :
    s.Asleep j a := by
  obtain ⟨th, hj, hp⟩ := h
  have hj : (s.threads ++ [⟨p, tid, .user, 0, none⟩])[j]? = some th := hj
  rw [List.getElem?_append] at hj
  split at hj
  · exact ⟨th, hj, hp⟩
  · obtain rfl := List.mem_singleton.1 (List.mem_of_getElem? hj)
    cases hp

theorem Asleep.joins (h : s.Asleep j a) : ∃ k, s.links.keys[j]? = some k ∧ k.joins = some a := by
  obtain ⟨th, hj, hp⟩ := h
  exact ⟨th.key, by simp [links, hj], by simp [Thread.key, hp, Place.joins]⟩

/-! ## Effects -/

theorem returned_ret {j : Option Tid} (hi : s.Acts i cur own j) (v : Int) (out : Option Int) :
    (s.ret i v out).returned i = some (v, out) := by
  obtain ⟨th, hi, -⟩ := Option.map_eq_some_iff.1 ((List.getElem?_map ..).symm.trans hi)
  simp [returned, ret, hi]

theorem returned_wait (i : ThreadId) (w : Wait) : (s.wait i w).returned i = none := by
  cases hi : s.threads[i]? <;> simp [returned, wait, setPlace, hi]

theorem hasExited_eq (s : State) (i : ThreadId) : s.hasExited i = (s.links.keys[i]?).any fun k => !k.live := by
  cases hi : s.threads[i]? <;> simp [hasExited, links, hi, Thread.key]

end State

/-- The PTCB at `tid` is of a thread that has exited or has been detached. -/
def Links.Ended (t : Links) (tid : Tid) : Prop := ∃ x, t.ptcb tid = some x ∧ (x.exited = true ∨ x.detached = true)

namespace Links

variable {t : Links} {tid a : Tid} {x : Ptcb}

/-- `refcount` does not end a thread. -/
theorem Ended.of_setPtcb {n : Nat} (hx : t.ptcb tid = some x)
    (h : (t.setPtcb tid (some { x with refcount := n })).Ended a) : t.Ended a := by
  obtain ⟨y, hy, he⟩ := h
  by_cases ha : a = tid
  · subst ha
    obtain rfl : { x with refcount := n } = y := by simpa [setPtcb] using hy
    exact ⟨x, hx, he⟩
  · exact ⟨y, by simpa [setPtcb, ha] using hy, he⟩

theorem Ended.of_free {p : Pid} (h : (t.free p tid).Ended a) : t.Ended a := by
  obtain ⟨y, hy, he⟩ := h
  have ha : a ≠ tid := by
    rintro rfl
    simp [free] at hy
  exact ⟨y, by simpa [free, ha] using hy, he⟩

end Links

/-- What a step with the event `e` does. -/
structure Effect (s : State) (e : Event) (s' : State) : Prop where
  links : s.links.Happens e s'.links
  sleeps : ∀ j tid, s'.Asleep j tid → s'.links.Ended tid → s.Asleep j tid ∧ s.links.Ended tid

namespace Effect

variable {s s' : State} {e : Event} {cur p : Pid} {i : ThreadId} {own tid : Tid}

theorem quiet (hl : s'.links = s.links) (ha : ∀ j a, s'.Asleep j a → s.Asleep j a) : Effect s .quiet s' :=
  ⟨hl ▸ .quiet, fun j a hs he => ⟨ha j a hs, hl ▸ he⟩⟩

/-- The events before and after a change that the PTCBs do not show. -/
theorem of_same {s₁ : State} (h : Effect s₁ e s') (hl : s₁.links = s.links) (ha : ∀ j a, s₁.Asleep j a → s.Asleep j a) :
    Effect s e s' :=
  ⟨hl ▸ h.links, fun j a hs he => (h.sleeps j a hs he).imp (ha j a) fun he => hl ▸ he⟩

/-- The event can be read off the step. -/
theorem event_eq (h : Effect s e s') {a : Action} (he : e = s.observed s' a ∨ ∃ i tid, e = .created i tid) :
    s.event a s' = e := by
  have hlen : ∀ s : State, s.links.keys.length = s.threads.length := fun s => List.length_map _
  rcases he with rfl | ⟨i, tid, rfl⟩
  · have hsame := h.links.length fun i tid => s.observed_ne s' a i tid
    rw [hlen, hlen] at hsame
    rw [State.event, List.getElem?_eq_none (Nat.le_of_eq hsame)]
  · obtain ⟨rfl, p, hkey⟩ := h.links.created_key
    rw [hlen] at hkey
    obtain ⟨th, hth, hk⟩ := Option.map_eq_some_iff.1 ((List.getElem?_map ..).symm.trans hkey)
    rw [State.event, hth, hlen]
    exact congrArg (Event.created _) (congrArg Key.own hk)

end Effect

/-! ## The system calls -/

namespace State

variable {s s' : State} {cur p : Pid} {i j : ThreadId} {own tid a : Tid}

theorem exitProcess_asleep (he : s.exitProcess p = some s') (h : s'.Asleep j a) : s.Asleep j a := by
  unfold exitProcess at he
  obtain ⟨t, -, rfl⟩ := Option.map_eq_some_iff.1 he
  have hreport : ∀ h : (s.reportExit p t).Asleep j a, s.Asleep j a := by
    unfold reportExit broadcastChildExit
    intro h
    dsimp only at h
    split at h <;> split at h
    all_goals first | exact (asleep_wake (asleep_wake h).1).1 | exact (asleep_wake h).1 | exact h
  dsimp only at h
  split at h
  · exact hreport h
  · exact h

/-- The joiners of a thread that exits are woken: there are some if `refcount` is not 0. -/
theorem sysThreadExit_effect {exitval : Int} (hinv : s.links.Inv) (hi : s.Acts i cur own none)
    (he : s.sysThreadExit i cur own exitval = some s') : Effect s (.exited i exitval) s' := by
  unfold sysThreadExit at he
  obtain ⟨x, hx, he⟩ := Option.bind_eq_some_iff.1 he
  obtain ⟨s₂, h₂, rfl⟩ := Option.map_eq_some_iff.1 he
  obtain ⟨s₁, h₁, hl, hs⟩ : ∃ s₁ : State,
      (if (s₁.pcb cur).threadCounter = 0 then s₁.exitProcess cur else some s₁) = some s₂ ∧
      s₁.links = s.links.setPtcb own (some { x with exitval := exitval, exited := true }) ∧
      (∀ j a, s₁.Asleep j a → s.Asleep j a ∧ a ≠ own) := by
    refine ⟨_, h₂, ?_, fun j a h => ?_⟩
    · split
      · exact (links_wake _).trans (links_setPcb rfl)
      · exact links_setPcb rfl
    · split at h
      · exact asleep_broadcastExit h
      · rename_i hzero
        refine ⟨h, ?_⟩
        rintro rfl
        obtain ⟨k, hk, hj⟩ := Asleep.joins (s := s) h
        have hpos : 0 < s.links.keys.countP (·.joins = some a) :=
          List.countP_pos_iff.2 ⟨k, List.mem_of_getElem? hk, by simpa using hj⟩
        rw [← hinv.refcount a x hx] at hpos
        omega
  have hlinks : s₂.links = s₁.links := by
    split at h₁
    · exact exitProcess_links h₁
    · cases h₁
      rfl
  have hsleep : ∀ j a, s₂.Asleep j a → s.Asleep j a ∧ a ≠ own := fun j a h => by
    refine hs j a ?_
    split at h₁
    · exact exitProcess_asleep h₁ h
    · cases h₁
      exact h
  have hl' : (s₂.setPlace i .exited).links =
      (s.links.setPtcb own (some { x with exitval := exitval, exited := true })).move i false none := by
    rw [links_setPlace, hlinks, hl]
    rfl
  refine ⟨hl' ▸ .exited exitval hi hx, fun j a h hend => ?_⟩
  obtain ⟨h, ha⟩ := hsleep j a (asleep_exited h)
  refine ⟨h, ?_⟩
  rw [hl'] at hend
  obtain ⟨y, hy, hend⟩ := hend
  exact ⟨y, by simpa [Links.move, Links.setPtcb, ha] using hy, hend⟩

theorem sysThreadDetach_effect (hi : s.Acts i cur own none) :
    Effect s (if (s.sysThreadDetach i cur tid).returned i = some (0, none) then .detached tid else .quiet)
      (s.sysThreadDetach i cur tid) := by
  have hrefuse : Effect s (if (s.ret i (-1) none).returned i = some (0, none) then .detached tid else .quiet)
      (s.ret i (-1) none) := by
    rw [returned_ret hi, if_neg (by simp)]
    exact .quiet (links_ret_self hi _ _) fun j a h => asleep_ret h
  unfold sysThreadDetach
  split
  · exact hrefuse
  · rename_i x hx
    split
    · exact hrefuse
    · rename_i hcheck
      simp only [not_or, Bool.not_eq_true] at hcheck
      have hl : ((s.setPtcb tid (some { x with detached := true })).broadcastExit tid).links =
          s.links.setPtcb tid (some { x with detached := true }) := links_wake _
      have hi' : State.Acts ((s.setPtcb tid (some { x with detached := true })).broadcastExit tid) i cur own none := by
        unfold Acts
        rw [hl]
        exact hi
      rw [returned_ret hi', if_pos rfl]
      have hl' := (links_ret_self hi' 0 none).trans hl
      refine ⟨hl' ▸ .detached hx hcheck.2.2, fun j a h hend => ?_⟩
      obtain ⟨h, ha⟩ := asleep_broadcastExit (asleep_ret h)
      refine ⟨h, ?_⟩
      rw [hl'] at hend
      obtain ⟨y, hy, hend⟩ := hend
      exact ⟨y, by simpa [Links.setPtcb, ha] using hy, hend⟩

/-- The loop of `sys_ThreadJoin` and what follows it, from a state in which thread `i` is in the call. -/
theorem joinLoop_effect {t : Links} {j₀ : Option Tid} {entry : Bool}
    (hin : t.Inside i cur tid entry (s.links.move i true (some tid))) (hi : s.Acts i cur own j₀)
    (he : s.joinLoop i cur tid = some s') :
    t.Happens (.join i tid entry (s'.returned i)) s'.links ∧
      ∀ j a, s'.Asleep j a → s'.links.Ended a → s.Asleep j a ∧ s.links.Ended a := by
  unfold joinLoop at he
  obtain ⟨x, hx, rfl⟩ := Option.map_eq_some_iff.1 he
  have hleave : (s.links.move i true (some tid)).leave i tid x =
      (s.links.setPtcb tid (some { x with refcount := x.refcount - 1 })).move i true none :=
    Links.move_move (s.links.setPtcb tid _) i true true (some tid) none
  dsimp only
  split
  · rename_i hloop
    rw [links_wait, returned_wait]
    refine ⟨.sleeps hin hx hloop.1 hloop.2, fun j a h hend => ⟨?_, hend⟩⟩
    rcases asleep_setPlace h with ⟨-, hj⟩ | h
    · cases hj
      obtain ⟨y, hy, hend⟩ := hend
      obtain rfl : x = y := Option.some.inj (hx.symm.trans hy)
      simp [hloop] at hend
    · exact h
  · rename_i hloop
    have hi' : ∀ {y : Ptcb}, State.Acts (s.setPtcb tid (some y)) i cur own j₀ := hi
    have hptcb : s.links.ptcb tid = some x := hx
    split
    · rename_i hdet
      rw [returned_ret hi', links_ret]
      refine ⟨hleave ▸ .fails hin hx hdet, fun j a h hend => ⟨asleep_ret h, ?_⟩⟩
      exact Links.Ended.of_setPtcb (n := x.refcount - 1) hptcb hend
    · rename_i hdet
      have hnot : x.detached = false := by simpa using hdet
      have hex : x.exited = true := by simpa [hnot] using hloop
      split
      · rename_i hzero
        have hi'' : State.Acts ((s.setPtcb tid (some { x with refcount := x.refcount - 1 })).freePtcb cur tid) i cur own
            j₀ := by
          unfold Acts
          rw [links_freePtcb]
          exact hi
        rw [returned_ret hi'', links_ret, links_freePtcb]
        refine ⟨?_, fun j a h hend => ⟨asleep_ret h, ?_⟩⟩
        · have := Links.Happens.frees hin hx hnot hex hzero
          rwa [hleave] at this
        · exact Links.Ended.of_setPtcb (n := x.refcount - 1) hptcb (Links.Ended.of_free (p := cur) hend)
      · rename_i hpos
        rw [returned_ret hi', links_ret]
        refine ⟨hleave ▸ .succeeds hin hx hnot hex hpos, fun j a h hend => ⟨asleep_ret h, ?_⟩⟩
        exact Links.Ended.of_setPtcb (n := x.refcount - 1) hptcb hend

theorem sysThreadJoin_effect (hi : s.Acts i cur own none) (he : s.sysThreadJoin i cur own tid = some s') :
    Effect s (.join i tid true (s'.returned i)) s' := by
  have hrefuse : Effect s (.join i tid true ((s.ret i (-1) none).returned i)) (s.ret i (-1) none) := by
    rw [returned_ret hi]
    exact ⟨(links_ret_self hi (-1) none).symm ▸ .refused tid hi, fun j a h hend => ⟨asleep_ret h,
      links_ret_self hi (-1) none ▸ hend⟩⟩
  unfold sysThreadJoin at he
  split at he
  · cases he
    exact hrefuse
  · rename_i x hx
    split at he
    · cases he
      exact hrefuse
    · rename_i hcheck
      simp only [not_or, not_not, Bool.not_eq_true] at hcheck
      have hin := Links.Inside.enters hi hcheck.1 (Ne.symm hcheck.2.2.2) hx hcheck.2.2.1
      obtain ⟨hl, hs⟩ := joinLoop_effect (s := s.setPtcb tid _) hin hi he
      refine ⟨hl, fun j a h hend => (hs j a h hend).imp_right fun hend => ?_⟩
      exact Links.Ended.of_setPtcb (n := x.refcount + 1) hx hend

theorem reap_effect (hi : s.Acts i cur own none) (child : Pid) : Effect s .quiet (s.reap i cur child) :=
  .quiet (reap_links hi child) fun _ _ h => asleep_ret h

theorem ret_effect (hi : s.Acts i cur own none) (v : Int) (out : Option Int) : Effect s .quiet (s.ret i v out) :=
  .quiet (links_ret_self hi v out) fun _ _ h => asleep_ret h

theorem wait_effect (hi : s.Acts i cur own none) {w : Wait} (hw : (Place.waiting w false).joins = none) :
    Effect s .quiet (s.wait i w) :=
  .quiet (links_wait_self hi hw) fun _ _ h => asleep_wait hw h

theorem specificLoop_effect (hi : s.Acts i cur own none) (child : Pid) :
    Effect s .quiet (s.specificLoop i cur child) := by
  unfold specificLoop
  split
  · exact wait_effect hi rfl
  · exact reap_effect hi child

theorem waitForSpecificChild_effect (hi : s.Acts i cur own none) (cpid : Int) :
    Effect s .quiet (s.waitForSpecificChild i cur cpid) := by
  unfold waitForSpecificChild
  split
  · exact ret_effect hi _ _
  · split
    · exact ret_effect hi _ _
    · exact specificLoop_effect hi _

theorem waitForAnyChild_effect (hi : s.Acts i cur own none) (he : s.waitForAnyChild i cur = some s') :
    Effect s .quiet s' := by
  unfold waitForAnyChild at he
  split at he
  · cases he
    exact ret_effect hi _ _
  · split at he
    · cases he
      exact reap_effect hi _
    · cases he
  · cases he
    exact wait_effect hi rfl

/-- A thread that exits is seen to have exited. -/
theorem exit_effect {exitval : Int} (hinv : s.links.Inv) (hi : s.Acts i cur own none)
    (he : s.sysThreadExit i cur own exitval = some s') :
    Effect s (if s'.hasExited i then .exited i exitval else .quiet) s' := by
  have h := sysThreadExit_effect hinv hi he
  obtain ⟨k, hk, hl⟩ := h.links.exited_key
  rw [if_pos (by rw [hasExited_eq, hk]; simp [hl])]
  exact h

theorem exitLoop_effect {exitval : Int} : ∀ (n : Nat) {s : State}, s.links.Inv → s.Acts i cur own none →
    s.exitLoop i cur own exitval n = some s' →
    Effect s (if s'.hasExited i then .exited i exitval else .quiet) s' := by
  intro n
  induction n with
  | zero => intro s _ _ he; cases he
  | succ n ih =>
    intro s hinv hi he
    unfold exitLoop at he
    split at he
    · exact exit_effect hinv hi he
    · split at he
      · exact (ih (s := s.cleanupZombie cur _) hinv hi he).of_same rfl fun _ _ h => h
      · cases he
    · cases he
      have h := wait_effect hi (w := .exitOfInit exitval) rfl
      rw [if_neg]
      · exact h
      · rw [hasExited_eq, links_wait_self hi rfl, hi]
        simp

theorem sysExit_effect {exitval : Int} (hinv : s.links.Inv) (hi : s.Acts i cur own none)
    (he : s.sysExit i cur own exitval = some s') :
    Effect s (if s'.hasExited i then .exited i exitval else .quiet) s' := by
  unfold sysExit at he
  have hl : (s.setPcb cur { s.pcb cur with exitval := exitval }).links = s.links := links_setPcb rfl
  have h : Effect (s.setPcb cur { s.pcb cur with exitval := exitval })
      (if s'.hasExited i then .exited i exitval else .quiet) s' := by
    dsimp only at he
    split at he
    · exact exitLoop_effect _ (hl ▸ hinv) (hi.same hl) he
    · exact exit_effect (hl ▸ hinv) (hi.same hl) he
  exact h.of_same hl fun _ _ h => h

/-- `sys_CreateThread`, and `sys_Exec` with a main thread. -/
theorem start_effect {s₁ : State} {v : Int} (hi : s.Acts i cur own none) (hfresh : s.Fresh tid) {task : Task} {argl : Int}
    {args : Args} (hl : s₁.links = s.links.start p tid ⟨task, argl, args, 0, false, false, 0⟩)
    (hs : ∀ j a, s₁.Asleep j a → s.Asleep j a) :
    Effect s (.created s.threads.length tid) (s₁.ret i v none) := by
  have hl' := (links_ret_self (hi.start hl) v none).trans hl
  have hfree : s.ptcb tid = none := by simpa using hfresh.2
  refine ⟨hl' ▸ .created p tid (List.length_map _).symm hfresh.1 hfree rfl rfl rfl, fun j a h hend => ?_⟩
  refine ⟨hs j a (asleep_ret h), ?_⟩
  rw [hl'] at hend
  obtain ⟨y, hy, hend⟩ := hend
  have ha : a ≠ tid := by
    rintro rfl
    obtain rfl : _ = y := by simpa [Links.start] using hy
    simp at hend
  exact ⟨y, by simpa [Links.start, ha] using hy, hend⟩

theorem sysExec_asleep {call : Option Task} {argl : Int} {args : Args}
    (h : (s.sysExec cur tid call argl args).2.Asleep j a) : s.Asleep j a := by
  unfold sysExec at h
  cases ht : s.tree.exec cur with
  | none =>
    rw [ht] at h
    exact h
  | some r =>
    rw [ht] at h
    have hsetup : ∀ h : (s.setupProcess cur r.1 r.2 call argl args).Asleep j a, s.Asleep j a := by
      unfold setupProcess
      dsimp only
      split <;> exact fun h => h
    cases call with
    | none => exact hsetup h
    | some task => exact hsetup (asleep_startThread task argl args h)

theorem perform_effect {c : Call} (hinv : s.links.Inv) (hi : s.Acts i cur own none)
    (he : s.perform i cur own c = some s') :
    ∃ e, Effect s e s' ∧ (e = s.observed s' (.call i c) ∨ ∃ i tid, e = .created i tid) := by
  cases c with
  | exec tid call argl args =>
    simp only [perform] at he
    split at he
    · rename_i hfresh
      cases he
      have hs : ∀ j a, (s.sysExec cur tid call argl args).2.Asleep j a → s.Asleep j a := fun _ _ => sysExec_asleep
      cases ht : s.tree.exec cur with
      | none =>
        rw [sysExec_none ht]
        exact ⟨_, ret_effect hi _ _, .inl rfl⟩
      | some r =>
        have hl := sysExec_links ht tid call argl args
        cases call with
        | none =>
          exact ⟨_, .quiet ((links_ret_self (hi.same hl) _ _).trans hl) fun j a h => hs j a (asleep_ret h), .inl rfl⟩
        | some task => exact ⟨_, start_effect hi hfresh hl hs, .inr ⟨_, _, rfl⟩⟩
    · cases he
  | createThread tid task argl args =>
    simp only [perform] at he
    split at he
    · rename_i hfresh
      cases he
      exact ⟨_, start_effect hi hfresh (links_startThread s cur tid task argl args) fun _ _ =>
        asleep_startThread task argl args,
        .inr ⟨_, _, rfl⟩⟩
    · cases he
  | threadJoin tid => exact ⟨_, sysThreadJoin_effect hi he, .inl rfl⟩
  | threadDetach tid =>
    cases he
    exact ⟨_, sysThreadDetach_effect hi, .inl rfl⟩
  | threadExit exitval => exact ⟨_, exit_effect hinv hi he, .inl rfl⟩
  | exit exitval => exact ⟨_, sysExit_effect hinv hi he, .inl rfl⟩
  | waitChild cpid =>
    simp only [perform, sysWaitChild] at he
    split at he
    · cases he
      exact ⟨_, waitForSpecificChild_effect hi cpid, .inl rfl⟩
    · exact ⟨_, waitForAnyChild_effect hi he, .inl rfl⟩
  | file c =>
    obtain ⟨v, -, rfl⟩ := Option.map_eq_some_iff.1 he
    exact ⟨_, .quiet (links_setView v) fun _ _ h => h, .inl rfl⟩

theorem resume_effect {w : Wait} (hinv : s.links.Inv) (hi : s.Acts i cur own (Place.waiting w true).joins)
    (hp : (s.threads[i]?).map Thread.place = some (.waiting w true)) (he : s.resume i cur own w = some s') :
    Effect s (s.observed s' (.resume i)) s' := by
  simp only [observed, hp]
  cases w with
  | specificChild child =>
    cases he
    exact specificLoop_effect hi child
  | anyChild => exact waitForAnyChild_effect hi he
  | exitOfInit exitval => exact exitLoop_effect _ hinv hi he
  | join tid =>
    have hself : s.links.move i true (some tid) = s.links := Links.move_self hi
    have hin : s.links.Inside i cur tid false (s.links.move i true (some tid)) := hself.symm ▸ .already hi
    obtain ⟨hl, hs⟩ := joinLoop_effect hin hi he
    exact ⟨hl, hs⟩

/-- The ways a thread exits. -/
theorem event_exited {a : Action} {exitval : Int} (h : s.event a s' = .exited i exitval) :
    a = .call i (.threadExit exitval) ∨ a = .call i (.exit exitval) ∨
      a = .resume i ∧ ∃ woken, (s.threads[i]?).map Thread.place = some (.waiting (.exitOfInit exitval) woken) := by
  unfold event observed at h
  repeat' split at h
  all_goals cases h
  · exact .inl rfl
  · exact .inr (.inl rfl)
  · exact .inr (.inr ⟨rfl, _, ‹_›⟩)

/-- Every step has the effect of its event. -/
theorem step_effect {a : Action} (hinv : s.links.Inv) (hs : s.step a = some s') : Effect s (s.event a s') s' := by
  obtain ⟨i, c, th, rfl, hi, hp, he⟩ | ⟨i, w, th, rfl, hi, hp, he⟩ := step_cases hs
  · have ha := acts_of_place hi (by simp [hp])
    rw [hp] at ha
    obtain ⟨e, h, heq⟩ := perform_effect hinv ha he
    rwa [h.event_eq heq]
  · have ha := acts_of_place hi (by simp [hp])
    rw [hp] at ha
    have h := resume_effect hinv ha (by rw [hi, Option.map_some, hp]) he
    rwa [h.event_eq (.inl rfl)]

theorem hasExited_of_event {a : Action} {exitval : Int} (hinv : s.links.Inv) (hs : s.step a = some s')
    (he : s.event a s' = .exited i exitval) : s'.hasExited i = true := by
  have h := (step_effect hinv hs).links
  rw [he] at h
  obtain ⟨k, hk, hl⟩ := h.exited_key
  rw [hasExited_eq, hk]
  simp [hl]

end State

end TinyOS.Proc
