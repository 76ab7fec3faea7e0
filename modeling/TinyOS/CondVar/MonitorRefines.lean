import TinyOS.CondVar.MonitorSteps

/-!
# Monitors on condition variables are monitors

Each section counts when its thread leaves, or enters the ring of the condition that it waits on. Until then the
waitsets of the abstract monitor are those before the section; the rings are ahead of them by the calls that the section
has made so far. A call under way has passed some waiters, and may have one in hand.

- `Refines.step`: a step on condition variables is at most one step of the monitor;
- `monitors_refine`: so every state is that of a monitor, once the section that is under way counts.
-/

namespace TinyOS.Monitors

open Sched CondVar Monitor
open Function (update)

variable {T K D P : Type}

/-- This call and then `r` are still to do. -/
def Rest.before (w : Wake K) (r : Rest K P) : Rest K P := { r with wakes := w :: r.wakes }

namespace Pc

/-- Where a thread is that is not in a section. -/
def place : Pc T K P → Option P
  | .outside p | .enqueued _ p | .releasing _ p | .asleep _ p | .tidied _ p => some p
  | _ => none

/-- What the section of a thread has still to do. -/
def todo : Pc T K P → Option (Rest K P)
  | .inside r | .sigUnlock _ r => some r
  | .sigTest w r | .sigWakeup w _ r | .sigMark w _ r => some (r.before w)
  | _ => none

/-- The call that looks for a waiter, the waiter that it has in hand, and whether it has woken this one up. -/
def call : Pc T K P → Option (Wake K × Option (T × Bool))
  | .sigTest w _ => some (w, none)
  | .sigWakeup w x _ => some (w, some (x, false))
  | .sigMark w x _ => some (w, some (x, true))
  | _ => none

end Pc

namespace State

/-- The thread does not wait, or has been woken up. -/
def woken (s : State T K D P) (t : T) : Bool :=
  match s.pc t with
  | .enqueued .. | .releasing .. => false
  | .asleep .. => (s.sched t).state ≠ .stopped
  | _ => true

/-- The ring, as the waitset of a monitor. -/
def entries (s : State T K D P) (k : K) : List (T × Bool) := (s.waitset k).map fun t => (t, s.woken t)

/-- The call of the thread that has the mutex. -/
def call (s : State T K D P) : Option (Wake K × Option (T × Bool)) := s.mutex.bind fun t => (s.pc t).call

/-- The waiter in hand, as it is in the waitset still. -/
def hand (s : State T K D P) : Option (T × Bool) → List (T × Bool)
  | none => []
  | some (x, false) => [(x, s.woken x)]
  | some (x, true) => [(x, false)]

end State

/-- The rings are the waitsets `ws`, but for the call under way. -/
structure Ahead (s : State T K D P) (ws : K → List (T × Bool)) : Prop where
  other : ∀ k, (∀ c, s.call = some c → c.1.cond ≠ k) → ws k = s.entries k
  here : ∀ w h, s.call = some (w, h) →
    ∃ l, ws w.cond = l ++ s.hand h ++ s.entries w.cond ∧ (w.isBroadcast = false → ∀ x ∈ l, x.2 = true)

variable [DecidableEq T] [DecidableEq K]

/-- `s` is the state `a` of the monitor, where the section under way has woken up `done`. -/
structure Refines (M : Program T K D P) (s : State T K D P) (a : Monitor.State T K D P) (done : List (Wake K)) :
    Prop where
  place : ∀ t p, (s.pc t).place = some p → a.pc t = p
  ahead : Ahead s (wakeAll a.waitset done)
  idle : (∀ t, (s.pc t).todo = none) → done = [] ∧ a.data = s.data
  busy : ∀ t r, (s.pc t).todo = some r →
    a.CanRun M t ∧ M.sect t (a.pc t) a.data = some ⟨s.data, done ++ r.wakes, r.next, r.wait⟩

variable {M : Program T K D P} {timeout : P → Nat} {s s' : State T K D P} {a : Monitor.State T K D P} {t u x : T}
  {k : K} {p : P} {r : Rest K P} {w : Wake K} {ws ws' : K → List (T × Bool)} {done : List (Wake K)}

/-! ## Who is in a section -/

section

omit [DecidableEq T] [DecidableEq K]

theorem Inv.todo_mutex (h : Inv s) (ht : (s.pc t).todo = some r) : s.mutex = some t := by
  rw [h.mutex]
  cases hp : s.pc t <;> simp_all [Pc.todo, Pc.hasMutex]

/-- Only one thread is in a section. -/
theorem Inv.todo_other (h : Inv s) (ht : (s.pc t).hasMutex = true) (hu : u ≠ t) : (s.pc u).todo = none := by
  cases hp : (s.pc u).todo with
  | none => rfl
  | some r' => exact absurd (Option.some.inj ((h.todo_mutex hp).symm.trans ((h.mutex t).2 ht))) hu

theorem Inv.todo_free (h : Inv s) (hm : s.mutex = none) (t : T) : (s.pc t).todo = none := by
  cases hp : (s.pc t).todo with
  | none => rfl
  | some r => cases hm.symm.trans (h.todo_mutex hp)

theorem Inv.call_eq (h : Inv s) (ht : (s.pc t).hasMutex = true) : s.call = (s.pc t).call := by
  rw [State.call, (h.mutex t).2 ht]
  rfl

/-- A call under way has the lock of its condition variable. -/
theorem Inv.lock_of_call {c : Wake K × Option (T × Bool)} (h : Inv s) (hc : s.call = some c) :
    ∃ t, s.waitsetLock c.1.cond = some t ∧ (s.pc t).call = some c := by
  obtain ⟨t, -, ht⟩ := Option.bind_eq_some_iff.1 hc
  refine ⟨t, ?_, ht⟩
  rw [h.lock]
  cases hp : s.pc t <;> simp_all [Pc.call, Pc.lock] <;> rw [← ht]

/-- The thread whose waiter is in hand is asleep, and its waiter is in no ring. -/
theorem Inv.inHand {b : Bool} (h : Inv s) (hc : s.call = some (w, some (x, b))) :
    (∃ p, s.pc x = .asleep w.cond p) ∧ ∀ k, x ∉ s.waitset k := by
  obtain ⟨t, -, ht⟩ := h.lock_of_call hc
  have htarget : (s.pc t).target = some (w.cond, x) := by
    cases hp : s.pc t <;> simp_all [Pc.call, Pc.target]
  obtain ⟨hasleep, hr⟩ := h.target t w.cond x htarget
  refine ⟨hasleep, fun k hm => ?_⟩
  rw [((h.ring x k).1 hm).2] at hr
  cases hr

theorem Inv.notMem (h : Inv s) (ht : (s.pc t).queue = none) (k : K) : t ∉ s.waitset k := fun hm => by
  rw [((h.ring t k).1 hm).1] at ht
  cases ht

/-! ## Steps that are not seen in the waitsets -/

theorem Ahead.congr (h : Ahead s ws) (hset : s'.waitset = s.waitset) (hwoken : s'.woken = s.woken)
    (hcall : s'.call = s.call) : Ahead s' ws := by
  have hentries : ∀ k, s'.entries k = s.entries k := fun k => by rw [State.entries, hset, hwoken]; rfl
  have hhand : ∀ c, s'.hand c = s.hand c := fun c => by
    unfold State.hand
    rw [hwoken]
  refine ⟨fun k hk => ?_, fun w c hc => ?_⟩
  · rw [hentries]
    exact h.other k (hcall ▸ hk)
  · rw [hentries, hhand]
    exact h.here w c (hcall ▸ hc)

theorem woken_of_eq (hpc : s'.pc u = s.pc u) (hsched : s'.sched u = s.sched u) : s'.woken u = s.woken u := by
  unfold State.woken
  rw [hpc, hsched]

theorem woken_congr (hpc : ∀ u, u ≠ t → s'.pc u = s.pc u) (hsched : s'.sched = s.sched)
    (ht : s'.woken t = s.woken t) : s'.woken = s.woken := by
  funext u
  by_cases hu : u = t
  · rw [hu, ht]
  · exact woken_of_eq (hpc u hu) (congrFun hsched u)

theorem map_fst_entries (s : State T K D P) (k : K) : (s.entries k).map Prod.fst = s.waitset k := by
  rw [State.entries, List.map_map]
  exact List.map_id _

theorem place_of_todo {q : Pc T K P} (h : q.todo = some r) : q.place = none := by
  cases q <;> simp_all [Pc.todo, Pc.place]

end

/-- A step of the thread that is in a section. -/
theorem Refines.inside {done' : List (Wake K)} (h : Refines M s a done) (hi : Inv s) (r r' : Rest K P)
    (ht : (s.pc t).todo = some r) (ht' : (s'.pc t).todo = some r') (hpc : ∀ u, u ≠ t → s'.pc u = s.pc u)
    (hdata : s'.data = s.data) (hwakes : done ++ r.wakes = done' ++ r'.wakes) (hnext : r'.next = r.next)
    (hwait : r'.wait = r.wait) (hahead : Ahead s' (wakeAll a.waitset done')) : Refines M s' a done' := by
  refine ⟨fun u q hu => ?_, hahead, fun hnone => ?_, fun u q hu => ?_⟩
  · by_cases hut : u = t
    · rw [hut, place_of_todo ht'] at hu
      cases hu
    · exact h.place u q (hpc u hut ▸ hu)
  · rw [hnone t] at ht'
    cases ht'
  · by_cases hut : u = t
    · subst hut
      obtain rfl := Option.some.inj (ht'.symm.trans hu)
      rw [hdata, ← hwakes, hnext, hwait]
      exact h.busy u r ht
    · rw [hpc u hut, hi.todo_other ((hi.mutex t).1 (hi.todo_mutex ht)) hut] at hu
      cases hu

omit [DecidableEq T] in
/-- A step of another thread. -/
theorem Refines.aside {a' : Monitor.State T K D P} (h : Refines M s a done)
    (hplace : ∀ u, (s'.pc u).place = (s.pc u).place) (htodo : ∀ u, (s'.pc u).todo = (s.pc u).todo)
    (hdata : s'.data = s.data) (hpc : a'.pc = a.pc) (hdata' : a'.data = a.data)
    (hwaits : ∀ u k, a'.Waits u k → a.Waits u k) (hahead : Ahead s' (wakeAll a'.waitset done)) :
    Refines M s' a' done := by
  refine ⟨fun u q hu => ?_, hahead, fun hnone => ?_, fun u q hu => ?_⟩
  · rw [hpc]
    exact h.place u q (hplace u ▸ hu)
  · rw [hdata', hdata]
    exact h.idle fun u => htodo u ▸ hnone u
  · obtain ⟨hcan, hsect⟩ := h.busy u q (htodo u ▸ hu)
    rw [hpc, hdata, hdata']
    exact ⟨⟨hpc ▸ hcan.1, fun k hk => hcan.2 k (hwaits u k hk)⟩, hsect⟩

/-- The section of the thread counts. -/
theorem Refines.commit {wait : Option K} (h : Refines M s a done) (hi : Inv s)
    (hp : s.pc t = .inside ⟨[], p, wait⟩) (hplace : (s'.pc t).place = some p)
    (hpc : ∀ u, u ≠ t → s'.pc u = s.pc u) (hdata : s'.data = s.data) (hcall : s'.call = none)
    (hentries : ∀ k, s'.entries k = s.entries k ++ if wait = some k then [(t, false)] else []) :
    ∃ o, a.CanRun M t ∧ M.sect t (a.pc t) a.data = some o ∧ Refines M s' (a.after t o) [] := by
  have hmutex : (s.pc t).hasMutex = true := by rw [hp]; rfl
  obtain ⟨hcan, hsect⟩ := h.busy t ⟨[], p, wait⟩ (by rw [hp]; rfl)
  rw [List.append_nil] at hsect
  have htodo : ∀ u, (s'.pc u).todo = none := by
    intro u
    by_cases hut : u = t
    · cases hq : (s'.pc u).todo with
      | none => rfl
      | some q =>
        rw [hut] at hq
        rw [place_of_todo hq] at hplace
        cases hplace
    · rw [hpc u hut, hi.todo_other hmutex hut]
  refine ⟨_, hcan, hsect, fun u q hu => ?_, ⟨fun k _ => ?_, fun w c hc => ?_⟩, fun _ => ⟨rfl, hdata.symm⟩,
    fun u q hu => ?_⟩
  · by_cases hut : u = t
    · subst hut
      rw [hplace] at hu
      simpa [Monitor.State.after] using hu
    · rw [hpc u hut] at hu
      simpa [Monitor.State.after, hut] using h.place u q hu
  · have hother := h.ahead.other k fun c hc => by
      rw [hi.call_eq hmutex, hp] at hc
      cases hc
    rw [hentries, ← hother]
    rfl
  · rw [hcall] at hc
    cases hc
  · rw [htodo u] at hu
    cases hu

/-! ## The steps of a section -/

omit [DecidableEq K] in
/-- The call of a thread that has the mutex, after its step. -/
theorem call_setPc {q : Pc T K P} (hm : s.mutex = some t) : (s.setPc t q).call = q.call := by
  rw [State.call, State.setPc, hm]
  simp

omit [DecidableEq K] in
theorem woken_setPc {q : Pc T K P} (ht : s.woken t = true) (hq : (s.setPc t q).woken t = true) :
    (s.setPc t q).woken = s.woken :=
  woken_congr (t := t) (fun u hu => by simp [State.setPc, hu]) rfl (hq.trans ht.symm)

theorem Refines.begin {o : Outcome K D P} (h : Refines M s a done) (hi : Inv s) (hp : s.pc t = .outside p)
    (hready : M.ready p = true) (hm : s.mutex = none) (ho : M.sect t p s.data = some o) :
    Refines M ({ s with data := o.data, mutex := some t }.setPc t (.inside ⟨o.wakes, o.next, o.wait⟩)) a [] := by
  obtain ⟨rfl, hdata⟩ := h.idle (hi.todo_free hm)
  have hcall : s.call = none := by rw [State.call, hm]; rfl
  have hpc : a.pc t = p := h.place t p (by rw [hp]; rfl)
  have hwoken : ({ s with data := o.data, mutex := some t }.setPc t (.inside ⟨o.wakes, o.next, o.wait⟩)).woken =
      s.woken := woken_setPc (by simp [State.woken, hp]) (by simp [State.woken, State.setPc])
  refine ⟨fun u q hu => ?_, h.ahead.congr rfl hwoken ((call_setPc rfl).trans hcall.symm), fun hnone => ?_,
    fun u q hu => ?_⟩
  · by_cases hut : u = t
    · subst hut
      simp [State.setPc, Pc.place] at hu
    · exact h.place u q (by simpa [State.setPc, hut] using hu)
  · have ht := hnone t
    simp [State.setPc, Pc.todo] at ht
  · by_cases hut : u = t
    · subst hut
      obtain rfl : _ = q := by simpa [State.setPc, Pc.todo] using hu
      refine ⟨⟨hpc ▸ hready, fun k hk => ?_⟩, by rw [hpc, hdata]; exact ho⟩
      have hother := h.ahead.other k fun c hc => by rw [hcall] at hc; cases hc
      rw [wakeAll, List.foldl_nil] at hother
      rw [Monitor.State.Waits, hother, map_fst_entries] at hk
      exact hi.notMem (by rw [hp]; rfl) k hk
    · have hu' : (s.pc u).todo = some q := by simpa [State.setPc, hut] using hu
      rw [hi.todo_free hm u] at hu'
      cases hu'

theorem Refines.call (h : Refines M s a done) (hi : Inv s) (hp : s.pc t = .inside (r.before w)) :
    Refines M ((s.lock w.cond t).setPc t (.sigTest w r)) a done := by
  have hm : s.mutex = some t := (hi.mutex t).2 (by rw [hp]; rfl)
  have hwoken : ((s.lock w.cond t).setPc t (.sigTest w r)).woken = s.woken :=
    woken_setPc (by simp [State.woken, State.lock, hp]) (by simp [State.woken, State.setPc])
  have hentries : ∀ k, ((s.lock w.cond t).setPc t (.sigTest w r)).entries k = s.entries k := fun k => by
    rw [State.entries, hwoken]
    rfl
  have hother : ∀ k, wakeAll a.waitset done k = s.entries k := fun k =>
    h.ahead.other k fun c hc => by
      rw [hi.call_eq (by rw [hp]; rfl), hp] at hc
      cases hc
  have hcall : ((s.lock w.cond t).setPc t (.sigTest w r)).call = some (w, none) := call_setPc hm
  refine h.inside hi (r.before w) (r.before w) (by rw [hp]; rfl) ?_ ?_ rfl rfl rfl rfl
    ⟨fun k _ => ?_, fun w' c hc => ?_⟩
  · simp [State.setPc, Pc.todo]
  · intro u hu
    simp [State.setPc, State.lock, hu]
  · rw [hentries, hother]
  · rw [hcall] at hc
    obtain ⟨rfl, rfl⟩ := Prod.mk.inj (Option.some.inj hc)
    refine ⟨[], ?_, fun _ x hx => absurd hx List.not_mem_nil⟩
    rw [hentries, hother]
    rfl

omit [DecidableEq T] [DecidableEq K] in
theorem entries_congr (hset : s'.waitset k = s.waitset k) (hwoken : s'.woken = s.woken) :
    s'.entries k = s.entries k := by
  rw [State.entries, hset, hwoken]
  rfl

omit [DecidableEq T] [DecidableEq K] in
theorem hand_congr (hwoken : s'.woken = s.woken) (c : Option (T × Bool)) : s'.hand c = s.hand c := by
  unfold State.hand
  rw [hwoken]

omit [DecidableEq T] [DecidableEq K] in
/-- The call has another waiter in hand, or none. -/
theorem Ahead.next {c c' : Option (T × Bool)} (h : Ahead s ws) (hc : s.call = some (w, c))
    (hc' : s'.call = some (w, c'))
    (hother : ∀ k, k ≠ w.cond → s'.entries k = s.entries k)
    (hhere : ∀ l, (w.isBroadcast = false → ∀ x ∈ l, x.2 = true) →
      ∃ l', l ++ s.hand c ++ s.entries w.cond = l' ++ s'.hand c' ++ s'.entries w.cond ∧
        (w.isBroadcast = false → ∀ x ∈ l', x.2 = true)) : Ahead s' ws := by
  refine ⟨fun k hk => ?_, fun w' d hd => ?_⟩
  · have hne : k ≠ w.cond := fun he => hk _ hc' he.symm
    rw [hother k hne]
    refine h.other k fun d hd => ?_
    rw [hc] at hd
    rw [← Option.some.inj hd]
    exact Ne.symm hne
  · rw [hc'] at hd
    obtain ⟨rfl, rfl⟩ := Prod.mk.inj (Option.some.inj hd)
    obtain ⟨l, hl, hall⟩ := h.here w c hc
    obtain ⟨l', hl', hall'⟩ := hhere l hall
    exact ⟨l', hl.trans hl', hall'⟩

omit [DecidableEq T] in
/-- The call returns. -/
theorem Ahead.finish {c : Option (T × Bool)} (h : Ahead s ws) (hc : s.call = some (w, c)) (hc' : s'.call = none)
    (hentries : ∀ k, s'.entries k = s.entries k)
    (hleft : ∀ l, (w.isBroadcast = false → ∀ x ∈ l, x.2 = true) →
      w.left (l ++ s.hand c ++ s.entries w.cond) = s.entries w.cond) : Ahead s' (w.apply ws) := by
  refine ⟨fun k _ => ?_, fun w' d hd => ?_⟩
  · rw [w.apply_eq, hentries]
    by_cases hk : k = w.cond
    · subst hk
      obtain ⟨l, hl, hall⟩ := h.here w c hc
      rw [Function.update_self, hl, hleft l hall]
    · rw [Function.update_of_ne hk]
      refine h.other k fun d hd => ?_
      rw [hc] at hd
      rw [← Option.some.inj hd]
      exact Ne.symm hk
  · rw [hc'] at hd
    cases hd

theorem Refines.nobody (h : Refines M s a done) (hi : Inv s) (hp : s.pc t = .sigTest w r)
    (hw : s.waitset w.cond = []) : Refines M (s.setPc t (.sigUnlock w r)) a (done ++ [w]) := by
  have hmutex : (s.pc t).hasMutex = true := by rw [hp]; rfl
  have hm : s.mutex = some t := (hi.mutex t).2 hmutex
  have hwoken : (s.setPc t (.sigUnlock w r)).woken = s.woken :=
    woken_setPc (by simp [State.woken, hp]) (by simp [State.woken, State.setPc])
  have hcall : s.call = some (w, none) := by rw [hi.call_eq hmutex, hp]; rfl
  refine h.inside hi (r.before w) r (by rw [hp]; rfl) (by simp [State.setPc, Pc.todo])
    (fun u hu => by simp [State.setPc, hu]) rfl (by simp [Rest.before]) rfl rfl ?_
  rw [wakeAll_concat]
  refine h.ahead.finish hcall (call_setPc hm) (fun k => entries_congr rfl hwoken) fun l hl => ?_
  have hnil : s.entries w.cond = [] := by rw [State.entries, hw]; rfl
  rw [hnil]
  cases w with
  | signal k => exact signal_of_awake (by simpa [State.hand] using hl rfl) []
  | broadcast k => rfl

theorem Refines.pop {l : List T} (h : Refines M s a done) (hi : Inv s) (hp : s.pc t = .sigTest w r)
    (hw : s.waitset w.cond = x :: l) : Refines M ((s.pop w.cond x).setPc t (.sigWakeup w x r)) a done := by
  have hmutex : (s.pc t).hasMutex = true := by rw [hp]; rfl
  have hm : s.mutex = some t := (hi.mutex t).2 hmutex
  have hwoken : ((s.pop w.cond x).setPc t (.sigWakeup w x r)).woken = s.woken :=
    woken_setPc (by simp [State.woken, State.pop, hp]) (by simp [State.woken, State.setPc])
  have hcall : s.call = some (w, none) := by rw [hi.call_eq hmutex, hp]; rfl
  refine h.inside hi (r.before w) (r.before w) (by rw [hp]; rfl) (by simp [State.setPc, Pc.todo])
    (fun u hu => by simp [State.setPc, State.pop, hu]) rfl rfl rfl rfl ?_
  refine h.ahead.next hcall (call_setPc hm) (fun k hk => entries_congr ?_ hwoken) fun m hall => ⟨m, ?_, hall⟩
  · simp [State.setPc, State.pop, hk]
  · rw [State.entries, hw, State.entries, hwoken, hand_congr hwoken]
    simp [State.setPc, State.pop, State.hand, hw]

theorem Refines.pass (h : Refines M s a done) (hi : Inv s) (hp : s.pc t = .sigWakeup w x r)
    (hx : (s.sched x).state ≠ .stopped) : Refines M (s.setPc t (.sigTest w r)) a done := by
  have hmutex : (s.pc t).hasMutex = true := by rw [hp]; rfl
  have hm : s.mutex = some t := (hi.mutex t).2 hmutex
  have hwoken : (s.setPc t (.sigTest w r)).woken = s.woken :=
    woken_setPc (by simp [State.woken, hp]) (by simp [State.woken, State.setPc])
  have hcall : s.call = some (w, some (x, false)) := by rw [hi.call_eq hmutex, hp]; rfl
  obtain ⟨⟨p, hasleep⟩, -⟩ := hi.inHand hcall
  have hawake : s.woken x = true := by simpa [State.woken, hasleep] using hx
  refine h.inside hi (r.before w) (r.before w) (by rw [hp]; rfl) (by simp [State.setPc, Pc.todo])
    (fun u hu => by simp [State.setPc, hu]) rfl rfl rfl rfl ?_
  refine h.ahead.next hcall (call_setPc hm) (fun k _ => entries_congr rfl hwoken) fun l hall =>
    ⟨l ++ [(x, true)], ?_, fun hb y hy => ?_⟩
  · have hentries : (s.setPc t (.sigTest w r)).entries w.cond = s.entries w.cond := entries_congr rfl hwoken
    rw [hentries]
    simp [State.hand, hawake]
  · rcases List.mem_append.1 hy with hy | hy
    · exact hall hb y hy
    · rw [List.mem_singleton.1 hy]

theorem Refines.wake (h : Refines M s a done) (hi : Inv s) (hp : s.pc t = .sigWakeup w x r)
    (hx : (s.sched x).state = .stopped) :
    Refines M ((s.setSched x (s.sched x).makeReady).setPc t (.sigMark w x r)) a done := by
  have hmutex : (s.pc t).hasMutex = true := by rw [hp]; rfl
  have hm : s.mutex = some t := (hi.mutex t).2 hmutex
  have hcall : s.call = some (w, some (x, false)) := by rw [hi.call_eq hmutex, hp]; rfl
  obtain ⟨⟨p, hasleep⟩, hout⟩ := hi.inHand hcall
  have hstopped : s.woken x = false := by simp [State.woken, hasleep, hx]
  have hwoken : ∀ u, u ≠ x →
      ((s.setSched x (s.sched x).makeReady).setPc t (.sigMark w x r)).woken u = s.woken u := fun u hu => by
    by_cases hut : u = t
    · simp [State.woken, State.setPc, hut, hp]
    · exact woken_of_eq (by simp [State.setPc, State.setSched, hut]) (by simp [State.setPc, State.setSched, hu])
  have hentries : ∀ k,
      ((s.setSched x (s.sched x).makeReady).setPc t (.sigMark w x r)).entries k = s.entries k := fun k =>
    List.map_congr_left fun u hu => by rw [hwoken u fun he => hout k (he ▸ hu)]
  refine h.inside hi (r.before w) (r.before w) (by rw [hp]; rfl) (by simp [State.setPc, Pc.todo])
    (fun u hu => by simp [State.setPc, State.setSched, hu]) rfl rfl rfl rfl ?_
  refine h.ahead.next hcall (call_setPc hm) (fun k _ => hentries k) fun l hall => ⟨l, ?_, hall⟩
  rw [hentries]
  simp [State.hand, hstopped]

theorem Refines.markLast (h : Refines M s a done) (hi : Inv s) (hp : s.pc t = .sigMark w x r)
    (hw : w.isBroadcast = false) : Refines M ((s.mark x).setPc t (.sigUnlock w r)) a (done ++ [w]) := by
  have hmutex : (s.pc t).hasMutex = true := by rw [hp]; rfl
  have hm : s.mutex = some t := (hi.mutex t).2 hmutex
  have hwoken : ((s.mark x).setPc t (.sigUnlock w r)).woken = s.woken :=
    woken_setPc (by simp [State.woken, State.mark, hp]) (by simp [State.woken, State.setPc])
  have hcall : s.call = some (w, some (x, true)) := by rw [hi.call_eq hmutex, hp]; rfl
  refine h.inside hi (r.before w) r (by rw [hp]; rfl) (by simp [State.setPc, Pc.todo])
    (fun u hu => by simp [State.setPc, State.mark, hu]) rfl (by simp [Rest.before]) rfl rfl ?_
  rw [wakeAll_concat]
  refine h.ahead.finish hcall (call_setPc hm) (fun k => entries_congr rfl hwoken) fun l hl => ?_
  cases w with
  | signal k =>
    show signal (l ++ [(x, false)] ++ s.entries k) = s.entries k
    rw [List.append_assoc, signal_of_awake (hl rfl)]
    rfl
  | broadcast k => cases hw

theorem Refines.mark (h : Refines M s a done) (hi : Inv s) (hp : s.pc t = .sigMark w x r)
    (hw : w.isBroadcast = true) : Refines M ((s.mark x).setPc t (.sigTest w r)) a done := by
  have hmutex : (s.pc t).hasMutex = true := by rw [hp]; rfl
  have hm : s.mutex = some t := (hi.mutex t).2 hmutex
  have hwoken : ((s.mark x).setPc t (.sigTest w r)).woken = s.woken :=
    woken_setPc (by simp [State.woken, State.mark, hp]) (by simp [State.woken, State.setPc])
  have hcall : s.call = some (w, some (x, true)) := by rw [hi.call_eq hmutex, hp]; rfl
  refine h.inside hi (r.before w) (r.before w) (by rw [hp]; rfl) (by simp [State.setPc, Pc.todo])
    (fun u hu => by simp [State.setPc, State.mark, hu]) rfl rfl rfl rfl ?_
  refine h.ahead.next hcall (call_setPc hm) (fun k _ => entries_congr rfl hwoken) fun l _ =>
    ⟨l ++ [(x, false)], ?_, fun hb => ?_⟩
  · have hentries : ((s.mark x).setPc t (.sigTest w r)).entries w.cond = s.entries w.cond := entries_congr rfl hwoken
    rw [hentries]
    simp [State.hand]
  · rw [hw] at hb
    cases hb

theorem Refines.unlock (h : Refines M s a done) (hi : Inv s) (hp : s.pc t = .sigUnlock w r) :
    Refines M ((s.unlock w.cond).setPc t (.inside r)) a done := by
  have hmutex : (s.pc t).hasMutex = true := by rw [hp]; rfl
  have hwoken : ((s.unlock w.cond).setPc t (.inside r)).woken = s.woken :=
    woken_setPc (by simp [State.woken, State.unlock, hp]) (by simp [State.woken, State.setPc])
  have hcall : s.call = none := by rw [hi.call_eq hmutex, hp]; rfl
  refine h.inside hi r r (by rw [hp]; rfl) (by simp [State.setPc, Pc.todo])
    (fun u hu => by simp [State.setPc, State.unlock, hu]) rfl rfl rfl rfl (h.ahead.congr rfl hwoken ?_)
  exact (call_setPc ((hi.mutex t).2 hmutex)).trans hcall.symm

theorem Refines.leave (h : Refines M s a done) (hi : Inv s) (hp : s.pc t = .inside ⟨[], p, none⟩) :
    ∃ o, a.CanRun M t ∧ M.sect t (a.pc t) a.data = some o ∧
      Refines M ({ s with mutex := none }.setPc t (.outside p)) (a.after t o) [] := by
  have hwoken : ({ s with mutex := none }.setPc t (.outside p)).woken = s.woken :=
    woken_setPc (by simp [State.woken, hp]) (by simp [State.woken, State.setPc])
  refine h.commit hi hp (by simp [State.setPc, Pc.place]) (fun u hu => by simp [State.setPc, hu]) rfl rfl fun k => ?_
  have hentries : ({ s with mutex := none }.setPc t (.outside p)).entries k = s.entries k := entries_congr rfl hwoken
  simp [hentries]

theorem Refines.enqueue (h : Refines M s a done) (hi : Inv s) (hp : s.pc t = .inside ⟨[], p, some k⟩) :
    ∃ o, a.CanRun M t ∧ M.sect t (a.pc t) a.data = some o ∧
      Refines M (((s.lock k t).enqueue t k).setPc t (.enqueued k p)) (a.after t o) [] := by
  have hm : s.mutex = some t := (hi.mutex t).2 (by rw [hp]; rfl)
  refine h.commit hi hp (by simp [State.setPc, Pc.place])
    (fun u hu => by simp [State.setPc, State.enqueue, State.lock, hu]) rfl (call_setPc hm) fun k' => ?_
  have hold : ((s.waitset k').map fun u => (u, (((s.lock k t).enqueue t k).setPc t (.enqueued k p)).woken u)) =
      s.entries k' := by
    refine List.map_congr_left fun u hu => ?_
    have hut : u ≠ t := fun he => hi.notMem (by rw [hp]; rfl) k' (he ▸ hu)
    exact congrArg (Prod.mk u) (woken_of_eq (by simp [State.setPc, State.enqueue, State.lock, hut]) rfl)
  rw [State.entries]
  by_cases hk : k' = k
  · subst hk
    rw [if_pos rfl, ← hold]
    simp [State.setPc, State.enqueue, State.lock, State.woken]
  · rw [if_neg (fun he => hk (Option.some.inj he).symm), List.append_nil, ← hold]
    simp [State.setPc, State.enqueue, State.lock, hk]

/-! ## The steps of a wait -/

/-- A step of a thread that is not in a section, which nobody sees in the waitsets. -/
theorem Refines.silent (h : Refines M s a done) (hset : s'.waitset = s.waitset) (hdata : s'.data = s.data)
    (hpc : ∀ u, u ≠ t → s'.pc u = s.pc u) (hsched : ∀ u, u ≠ t → s'.sched u = s.sched u)
    (hplace : (s'.pc t).place = (s.pc t).place) (htodo : (s'.pc t).todo = (s.pc t).todo)
    (hwoken : s'.woken t = s.woken t) (hcall : s'.call = s.call) : Refines M s' a done := by
  refine h.aside (fun u => ?_) (fun u => ?_) hdata rfl rfl (fun u k hk => hk)
    (h.ahead.congr hset (funext fun u => ?_) hcall)
  all_goals by_cases hu : u = t
  · rw [hu, hplace]
  · rw [hpc u hu]
  · rw [hu, htodo]
  · rw [hpc u hu]
  · rw [hu, hwoken]
  · exact woken_of_eq (hpc u hu) (hsched u hu)

omit [DecidableEq T] [DecidableEq K] in
/-- A step of a thread that has not the mutex. -/
theorem call_of_other (hi : Inv s) (hp : (s.pc t).hasMutex = false) (hm : s'.mutex = s.mutex)
    (hpc : ∀ u, u ≠ t → s'.pc u = s.pc u) : s'.call = s.call := by
  unfold State.call
  rw [hm]
  refine Option.bind_congr fun u hu => ?_
  have hut : u ≠ t := fun he => by
    rw [he, hi.mutex, hp] at hu
    cases hu
  rw [hpc u hut]

theorem Refines.release (h : Refines M s a done) (hi : Inv s) (hp : s.pc t = .enqueued k p) :
    Refines M ({ s with mutex := none }.setPc t (.releasing k p)) a done := by
  have hcall : s.call = none := by rw [hi.call_eq (by rw [hp]; rfl), hp]; rfl
  refine h.silent (t := t) rfl rfl (fun u hu => by simp [State.setPc, hu]) (fun _ _ => rfl) ?_ ?_ ?_ hcall.symm
  all_goals simp [State.setPc, hp, Pc.place, Pc.todo, State.woken]

theorem Refines.sleep (h : Refines M s a done) (hi : Inv s) (hp : s.pc t = .releasing k p) :
    Refines M (((s.setSched t ((s.sched t).sleep (timeout p))).unlock k).setPc t (.asleep k p)) a done := by
  have hpc : ∀ u, u ≠ t →
      (((s.setSched t ((s.sched t).sleep (timeout p))).unlock k).setPc t (.asleep k p)).pc u = s.pc u := fun u hu => by
    simp [State.setPc, State.unlock, State.setSched, hu]
  refine h.silent (t := t) rfl rfl hpc (fun u hu => ?_) ?_ ?_ ?_ (call_of_other hi (by rw [hp]; rfl) rfl hpc)
  all_goals simp_all [State.setPc, State.unlock, State.setSched, Sleeper.sleep, Pc.place, Pc.todo, State.woken]

theorem Refines.removed (h : Refines M s a done) (hi : Inv s) (hrun : (s.sched t).state = .running)
    (hp : s.pc t = .asleep k p) : Refines M ((s.lock k t).setPc t (.tidied k p)) a done := by
  have hpc : ∀ u, u ≠ t → ((s.lock k t).setPc t (.tidied k p)).pc u = s.pc u := fun u hu => by
    simp [State.setPc, State.lock, hu]
  refine h.silent (t := t) rfl rfl hpc (fun _ _ => rfl) ?_ ?_ ?_ (call_of_other hi (by rw [hp]; rfl) rfl hpc)
  all_goals simp [State.setPc, hp, hrun, Pc.place, Pc.todo, State.woken]

theorem Refines.tidied (h : Refines M s a done) (hi : Inv s) (hp : s.pc t = .tidied k p) :
    Refines M ((s.unlock k).setPc t (.outside p)) a done := by
  have hpc : ∀ u, u ≠ t → ((s.unlock k).setPc t (.outside p)).pc u = s.pc u := fun u hu => by
    simp [State.setPc, State.unlock, hu]
  refine h.silent (t := t) rfl rfl hpc (fun _ _ => rfl) ?_ ?_ ?_ (call_of_other hi (by rw [hp]; rfl) rfl hpc)
  all_goals simp [State.setPc, hp, Pc.place, Pc.todo, State.woken]

/-- The scheduler moves a thread that is awake. -/
theorem Refines.setSched {y : Sleeper} (h : Refines M s a done) (hy : Sleeper.Awake y)
    (ht : Sleeper.Awake (s.sched t)) : Refines M (s.setSched t y) a done := by
  refine h.silent (t := t) rfl rfl (fun _ _ => rfl) (fun u hu => by simp [State.setSched, hu]) rfl rfl ?_ rfl
  unfold State.woken
  show (match s.pc t with | .enqueued .. | .releasing .. => _ | .asleep .. => _ | _ => _) = _
  have hstate : ∀ z : Sleeper, Sleeper.Awake z → z.state ≠ .stopped := fun z hz => by
    rcases hz with hz | hz <;> simp [hz]
  split
  · rfl
  · rfl
  · simp [State.setSched, hstate y hy, hstate _ ht]
  · rfl

/-! ## The steps that are seen -/

omit [DecidableEq T] [DecidableEq K] in
theorem mem_entries : (t, s.woken t) ∈ s.entries k ↔ t ∈ s.waitset k := by
  constructor
  · intro hm
    rw [← map_fst_entries s k]
    exact List.mem_map_of_mem (f := Prod.fst) hm
  · intro hm
    exact List.mem_map_of_mem (f := fun t => (t, s.woken t)) hm

omit [DecidableEq T] in
/-- A waiter of a ring is in the waitset. -/
theorem Refines.mem_waitset (h : Refines M s a done) (ht : t ∈ s.waitset k) :
    (t, s.woken t) ∈ wakeAll a.waitset done k := by
  by_cases hk : ∀ c, s.call = some c → c.1.cond ≠ k
  · rw [h.ahead.other k hk]
    exact mem_entries.2 ht
  · obtain ⟨⟨w, c⟩, hc, rfl⟩ : ∃ c, s.call = some c ∧ c.1.cond = k := by simpa using hk
    obtain ⟨l, hl, -⟩ := h.ahead.here w c hc
    rw [hl]
    exact List.mem_append_right _ (mem_entries.2 ht)

theorem Refines.tidy [Fintype K] (h : Refines M s a done) (hi : Inv s) (hw : Wf a)
    (hrun : (s.sched t).state = .running) (hp : s.pc t = .asleep k p) (hl : s.waitsetLock k = none)
    (hr : (s.waiter t).removed = false) :
    ∃ a', a.step M (.tidy t k) = some a' ∧
      Refines M (((s.lock k t).setPc t (.tidied k p)).removeFromRing t k) a' done := by
  have hmem : t ∈ s.waitset k := (hi.ring t k).2 ⟨by rw [hp]; rfl, hr⟩
  have hawake : s.woken t = true := by simp [State.woken, hp, hrun]
  have hin : (t, true) ∈ wakeAll a.waitset done k := hawake ▸ h.mem_waitset hmem
  have hin' : (t, true) ∈ a.waitset k := (wakeAll_suffix a.waitset done k).subset hin
  have hstep : a.step M (.tidy t k) = some _ := if_pos hin'
  refine ⟨_, hstep, ?_⟩
  obtain ⟨-, -, hsub⟩ := kept_of_step hstep fun _ => by simp
  have hpc : ∀ u, u ≠ t →
      (((s.lock k t).setPc t (.tidied k p)).removeFromRing t k).pc u = s.pc u := fun u hu => by
    simp [State.removeFromRing, State.setPc, State.lock, hu]
  have hcall : (((s.lock k t).setPc t (.tidied k p)).removeFromRing t k).call = s.call :=
    call_of_other hi (by rw [hp]; rfl) rfl hpc
  have hwoken : (((s.lock k t).setPc t (.tidied k p)).removeFromRing t k).woken = s.woken :=
    woken_congr (t := t) hpc rfl (by rw [hawake]; simp [State.removeFromRing, State.setPc, State.woken])
  -- no call on `k` is under way, as nobody has its lock
  have hfree : ∀ c, s.call = some c → c.1.cond ≠ k := fun c hc he => by
    obtain ⟨u, hu, -⟩ := hi.lock_of_call hc
    rw [he, hl] at hu
    cases hu
  refine h.aside (fun u => ?_) (fun u => ?_) rfl rfl rfl (fun u k' hk => (hsub k').subset hk) ?_
  · by_cases hu : u = t
    · simp [hu, State.removeFromRing, State.setPc, hp, Pc.place]
    · rw [hpc u hu]
  · by_cases hu : u = t
    · simp [hu, State.removeFromRing, State.setPc, hp, Pc.todo]
    · rw [hpc u hu]
  · have hn : (a.waitset k).Nodup := (hw.nodup k).of_map
    rw [wakeAll_erase hn hin]
    refine ⟨fun k' hk' => ?_, fun w c hc => ?_⟩
    · by_cases hkk : k' = k
      · subst hkk
        have hinj : Function.Injective fun t => (t, s.woken t) := fun u v huv => congrArg Prod.fst huv
        rw [Function.update_self, h.ahead.other k' hfree, State.entries, State.entries, hwoken, ← hawake]
        simp only [State.removeFromRing, Function.update_self]
        exact (List.map_erase hinj (s.waitset k')).symm
      · rw [Function.update_of_ne hkk, h.ahead.other k' (hcall ▸ hk'), entries_congr _ hwoken]
        simp [State.removeFromRing, State.setPc, State.lock, hkk]
    · rw [hcall] at hc
      have hne := hfree _ hc
      obtain ⟨l, hl', hall⟩ := h.ahead.here w c hc
      refine ⟨l, ?_, hall⟩
      rw [Function.update_of_ne hne, hl', hand_congr hwoken, entries_congr _ hwoken]
      simp [State.removeFromRing, State.setPc, State.lock, hne]

/-! ## Timeouts -/

omit [DecidableEq T] [DecidableEq K] in
/-- A waiter that has been woken up by the call that has it in hand is awake. -/
theorem Inv.marked_awake (h : Inv s) (hc : s.call = some (w, some (x, true))) : (s.sched x).state ≠ .stopped := by
  intro hx
  obtain ⟨⟨p, hp⟩, hout⟩ := h.inHand hc
  obtain ⟨t, ht, hcall⟩ := h.lock_of_call hc
  rcases h.asleep x w.cond p hp with ha | ⟨-, hr⟩
  · rcases ha with ha | ha <;> rw [hx] at ha <;> cases ha
  · cases hrem : (s.waiter x).removed with
    | false => exact hout w.cond ((h.ring x w.cond).2 ⟨by rw [hp]; rfl, hrem⟩)
    | true =>
      obtain ⟨u, w', r, hu⟩ := hr hrem
      -- the call that has it in hand is the one that has the lock
      have htarget : (s.pc u).target = some (w'.cond, x) := by rw [hu]; rfl
      obtain ⟨q, hq⟩ := (h.target u w'.cond x htarget).1
      rw [hp] at hq
      have hlock := h.lock_of_target htarget
      rw [← (Pc.asleep.inj hq).1, ht] at hlock
      obtain rfl := Option.some.inj hlock
      rw [hu] at hcall
      cases hcall

omit [DecidableEq K] in
/-- The threads that have been woken up after a timeout. -/
theorem woken_expire (hp : s.pc t = .asleep k p) (u : T) :
    (s.setSched t (s.sched t).makeReady).woken u = if u = t then true else s.woken u := by
  split
  · rename_i hu
    subst hu
    simp [State.woken, State.setSched, hp, Sleeper.makeReady]
  · rename_i hu
    exact woken_of_eq rfl (by simp [State.setSched, hu])

omit [DecidableEq K] in
theorem entries_expire (hp : s.pc t = .asleep k p) (k' : K) :
    (s.setSched t (s.sched t).makeReady).entries k' = rouse t (s.entries k') := by
  rw [State.entries, State.entries, rouse, List.map_map]
  refine List.map_congr_left fun u _ => ?_
  rw [woken_expire hp, Function.comp_apply]
  by_cases hu : u = t
  · rw [if_pos hu, if_pos hu, hu]
  · rw [if_neg hu, if_neg hu]

omit [DecidableEq K] in
theorem hand_expire {c : Option (T × Bool)} (hi : Inv s) (hc : s.call = some (w, c)) (hp : s.pc t = .asleep k p)
    (ht : (s.sched t).state = .stopped) : (s.setSched t (s.sched t).makeReady).hand c = rouse t (s.hand c) := by
  match c with
  | none => rfl
  | some (x, false) =>
    simp only [State.hand, woken_expire hp, rouse, List.map_cons, List.map_nil]
    by_cases hx : x = t
    · rw [if_pos hx, if_pos hx, hx]
    · rw [if_neg hx, if_neg hx]
  | some (x, true) =>
    have hx : x ≠ t := fun he => hi.marked_awake hc (he ▸ ht)
    simp [State.hand, rouse, hx]

omit [DecidableEq K] in
theorem rouse_of_notMem {l : List (T × Bool)} (h : t ∉ l.map Prod.fst) : rouse t l = l := by
  refine (List.map_congr_left fun x hx => if_neg fun he => ?_).trans (List.map_id' l)
  exact h (he ▸ List.mem_map_of_mem hx)

/-- A timeout of a thread in the waitset of `k`. -/
theorem Refines.rouse [Fintype K] (h : Refines M s a done) (hi : Inv s) (hw : Wf a) (hp : s.pc t = .asleep k p)
    (ht : (s.sched t).state = .stopped) (hin : (t, false) ∈ wakeAll a.waitset done k) :
    ∃ a', a.step M (.rouse t k) = some a' ∧ Refines M (s.setSched t (s.sched t).makeReady) a' done := by
  have hstep : a.step M (.rouse t k) = some _ := if_pos ((wakeAll_suffix a.waitset done k).subset hin)
  refine ⟨_, hstep, ?_⟩
  obtain ⟨-, -, hsub⟩ := kept_of_step hstep fun _ => by simp
  refine h.aside (fun u => rfl) (fun u => rfl) rfl rfl rfl (fun u k' hk => (hsub k').subset hk) ?_
  rw [wakeAll_rouse (hw.nodup k) (List.mem_map_of_mem (f := Prod.fst) hin)]
  -- the thread waits on `k` only
  have hout : ∀ k', k' ≠ k → Monitor.rouse t (s.entries k') = s.entries k' := fun k' hk => by
    refine rouse_of_notMem fun hm => ?_
    rw [map_fst_entries, hi.ring, hp] at hm
    exact hk (Option.some.inj hm.1).symm
  refine ⟨fun k' hk' => ?_, fun w c hc => ?_⟩
  · rw [entries_expire hp]
    by_cases hkk : k' = k
    · subst hkk
      rw [Function.update_self, h.ahead.other k' hk']
    · rw [Function.update_of_ne hkk, hout k' hkk, h.ahead.other k' hk']
  · have hc' : s.call = some (w, c) := hc
    obtain ⟨l, hl, hall⟩ := h.ahead.here w c hc'
    rw [entries_expire hp, hand_expire hi hc' hp ht]
    by_cases hk : w.cond = k
    · subst hk
      refine ⟨Monitor.rouse t l, ?_, fun hb x hx => ?_⟩
      · rw [Function.update_self, hl, Monitor.rouse, List.map_append, List.map_append]
        rfl
      · obtain ⟨y, hy, rfl⟩ := List.mem_map.1 hx
        split
        · rfl
        · exact hall hb y hy
    · refine ⟨l, ?_, hall⟩
      have hhand : Monitor.rouse t (s.hand c) = s.hand c := by
        refine rouse_of_notMem fun hm => hk ?_
        cases c with
        | none => cases hm
        | some c =>
          obtain ⟨⟨q, hq⟩, -⟩ := hi.inHand hc'
          have hx : t = c.1 := by
            rcases c with ⟨x, _ | _⟩
            · simpa [State.hand] using hm
            · simpa [State.hand] using hm
          rw [← hx, hp] at hq
          exact (Pc.asleep.inj hq).1.symm
      rw [Function.update_of_ne hk, hl, hout _ hk, hhand]

/-- `s` is a state that the monitor comes to from `a` by one step at most. -/
def Follows [Fintype K] (M : Program T K D P) (a : Monitor.State T K D P) (s : State T K D P) : Prop :=
  ∃ a' done, (a' = a ∨ ∃ b, a.step M b = some a') ∧ Refines M s a' done

theorem Refines.follows [Fintype K] (h : Refines M s a done) : Follows M a s := ⟨a, done, .inl rfl, h⟩

theorem Refines.expire [Fintype K] (h : Refines M s a done) (hi : Inv s) (hw : Wf a)
    (ht : (s.sched t).state = .stopped) : Follows M a (s.setSched t (s.sched t).makeReady) := by
  by_cases hp : ∃ k p, s.pc t = .asleep k p
  · obtain ⟨k, p, hp⟩ := hp
    have hstopped : s.woken t = false := by simp [State.woken, hp, ht]
    have hin : (t, false) ∈ wakeAll a.waitset done k := by
      rcases hi.asleep t k p hp with ha | ⟨-, hr⟩
      · rcases ha with ha | ha <;> rw [ht] at ha <;> cases ha
      · cases hrem : (s.waiter t).removed with
        | false => exact hstopped ▸ h.mem_waitset ((hi.ring t k).2 ⟨by rw [hp]; rfl, hrem⟩)
        | true =>
          obtain ⟨u, w, r, hu⟩ := hr hrem
          have hcall : s.call = some (w, some (t, false)) := by rw [hi.call_eq (by rw [hu]; rfl), hu]; rfl
          obtain ⟨⟨q, hq⟩, -⟩ := hi.inHand hcall
          rw [hp] at hq
          obtain ⟨l, hl, -⟩ := h.ahead.here w _ hcall
          rw [(Pc.asleep.inj hq).1, hl]
          simp [State.hand, hstopped]
    obtain ⟨a', hstep, hr⟩ := h.rouse hi hw hp ht hin
    exact ⟨a', done, .inr ⟨_, hstep⟩, hr⟩
  · have hr : Refines M (s.setSched t (s.sched t).makeReady) a done := by
      refine h.silent (t := t) rfl rfl (fun _ _ => rfl) (fun u hu => by simp [State.setSched, hu]) rfl rfl ?_ rfl
      unfold State.woken
      show (match s.pc t with | .enqueued .. | .releasing .. => _ | .asleep .. => _ | _ => _) = _
      split
      · rfl
      · rfl
      · exact absurd ⟨_, _, ‹_›⟩ hp
      · rfl
    exact hr.follows

/-- A section that counts is a step of the monitor. -/
theorem follows_of_commit [Fintype K]
    (h : ∃ o, a.CanRun M t ∧ M.sect t (a.pc t) a.data = some o ∧ Refines M s (a.after t o) []) : Follows M a s := by
  obtain ⟨o, hcan, hsect, hr⟩ := h
  exact ⟨_, [], .inr ⟨.run t, run_eq_some.2 ⟨hcan, o, hsect, rfl⟩⟩, hr⟩

theorem Refines.run [Fintype K] (h : Refines M s a done) (hi : Inv s) (hw : Wf a)
    (hrun : (s.sched t).state = .running) (he : Step M timeout s t s') : Follows M a s' := by
  cases he with
  | begin hp hready hm ho => exact (h.begin hi hp hready hm ho).follows
  | call hp hl => exact (h.call hi hp).follows
  | enqueue hp hl => exact follows_of_commit (h.enqueue hi hp)
  | leave hp => exact follows_of_commit (h.leave hi hp)
  | nobody hp hw => exact (h.nobody hi hp hw).follows
  | pop hp hw => exact (h.pop hi hp hw).follows
  | @wake w x r hp hx =>
    -- a thread in `cv_wait` has been started long ago
    have hcall : s.call = some (w, some (x, false)) := by rw [hi.call_eq (by rw [hp]; rfl), hp]; rfl
    obtain ⟨⟨p, hasleep⟩, -⟩ := hi.inHand hcall
    have hstopped : (s.sched x).state = .stopped := by
      rcases hi.asleep x _ p hasleep with (ha | ha) | ⟨hs, -⟩ <;> simp_all
    exact (h.wake hi hp hstopped).follows
  | pass hp hx => exact (h.pass hi hp fun hs => hx (.inl hs)).follows
  | markLast hp hw => exact (h.markLast hi hp hw).follows
  | mark hp hw => exact (h.mark hi hp hw).follows
  | unlock hp => exact (h.unlock hi hp).follows
  | release hp => exact (h.release hi hp).follows
  | sleep hp => exact (h.sleep hi hp).follows
  | removed hp hl hr => exact (h.removed hi hrun hp).follows
  | tidy hp hl hr hs =>
    obtain ⟨a', hstep, hr'⟩ := h.tidy hi hw hrun hp hl hr
    exact ⟨a', done, .inr ⟨_, hstep⟩, hr'⟩
  | tidied hp => exact (h.tidied hi hp).follows

theorem Refines.step [Fintype K] {b : Action T} (h : Refines M s a done) (hi : Inv s) (hw : Wf a)
    (he : s.step M timeout b = some s') : Follows M a s' := by
  rcases step_cases he with ⟨t, y, rfl, hy, ht⟩ | ⟨t, -, ht, rfl⟩ | ⟨t, -, hrun, ht⟩
  · exact (h.setSched hy ht).follows
  · exact h.expire hi hw ht
  · exact h.run hi hw hrun ht

omit [DecidableEq T] in
theorem State.Initial.refines {data : D} {place : T → P} (h : s.Initial data place) :
    Refines M s ⟨data, place, fun _ => []⟩ [] := by
  refine ⟨fun t p hp => ?_, ⟨fun k _ => ?_, fun w c hc => ?_⟩, fun _ => ⟨rfl, h.data.symm⟩, fun t r hr => ?_⟩
  · rw [h.pc] at hp
    exact Option.some.inj hp
  · rw [State.entries, h.waitset]
    rfl
  · rw [State.call, h.mutex] at hc
    cases hc
  · rw [h.pc] at hr
    cases hr

theorem exists_refines [Fintype K] {data : D} {place : T → P} (h : (sys M timeout data place).Reaches s) :
    ∃ a done, (Monitor.sys M data place).Reaches a ∧ Refines M s a done := by
  refine (Lts.Reaches.invariant
    (I := fun s => Inv s ∧ ∃ a done, (Monitor.sys M data place).Reaches a ∧ Refines M s a done)
    (fun s hs => ⟨State.Initial.inv hs, _, [], .init rfl, State.Initial.refines hs⟩) (fun s b s' hs he => ?_) h).2
  obtain ⟨hi, a, done, ha, hr⟩ := hs
  have hw : Wf a := Lts.Reaches.invariant (fun _ hs => hs ▸ Wf.init data place) (fun _ _ _ => Wf.step) ha
  obtain ⟨a', done', hstep, hr'⟩ := hr.step hi hw he
  refine ⟨hi.step he, a', done', ?_, hr'⟩
  rcases hstep with rfl | ⟨b, hb⟩
  · exact ha
  · exact ha.step hb

/-! ## The monitor that it is -/

/-- Where a thread is in the program, its section being over. -/
def Pc.next : Pc T K P → P
  | .outside p | .enqueued _ p | .releasing _ p | .asleep _ p | .tidied _ p => p
  | .inside r | .sigTest _ r | .sigWakeup _ _ r | .sigMark _ _ r | .sigUnlock _ r => r.next

/-- `s` is the state `a` of the monitor, where the section that is under way counts already. -/
structure Represents (M : Program T K D P) (s : State T K D P) (a : Monitor.State T K D P) : Prop where
  data : a.data = s.data
  place : ∀ t, a.pc t = (s.pc t).next
  /-- Nobody waits that is not in the ring, but for the thread that is about to. -/
  waits : ∀ t k, a.Waits t k → t ∈ s.waitset k ∨ ∃ r, (s.pc t).todo = some r ∧ r.wait = some k
  idle : (∀ t, (s.pc t).todo = none) → a.waitset = s.entries
  canRun : ∀ t p, s.pc t = .outside p → M.ready p = true → s.mutex = none → a.CanRun M t

omit [DecidableEq T] [DecidableEq K] in
/-- What a call leaves is in the ring. -/
theorem left_subset {l : List (T × Bool)} {c : Option (T × Bool)}
    (hl : w.isBroadcast = false → ∀ x ∈ l, x.2 = true) : w.left (l ++ s.hand c ++ s.entries k) ⊆ s.entries k := by
  cases w with
  | broadcast _ => exact List.nil_subset _
  | signal _ =>
    show signal (l ++ s.hand c ++ s.entries k) ⊆ _
    rw [List.append_assoc, signal_of_awake (hl rfl)]
    have hsuffix := signal_suffix (s.entries k)
    match c with
    | none => exact hsuffix.subset
    | some (x, true) => exact fun y hy => hy
    | some (x, false) =>
      show signal ((x, s.woken x) :: s.entries k) ⊆ _
      cases s.woken x with
      | true => exact hsuffix.subset
      | false => exact fun y hy => hy

omit [DecidableEq T] in
/-- The waitsets after the section are in the rings. -/
theorem Refines.waitset_subset (h : Refines M s a done) (hi : Inv s) (ht : (s.pc t).todo = some r) (k : K) :
    wakeAll a.waitset (done ++ r.wakes) k ⊆ s.entries k := by
  have hmutex : (s.pc t).hasMutex = true := (hi.mutex t).1 (hi.todo_mutex ht)
  have happend : wakeAll a.waitset (done ++ r.wakes) = wakeAll (wakeAll a.waitset done) r.wakes := List.foldl_append
  rw [happend]
  by_cases hk : ∀ c, s.call = some c → c.1.cond ≠ k
  · have hsuffix := wakeAll_suffix (wakeAll a.waitset done) r.wakes k
    rw [h.ahead.other k hk] at hsuffix
    exact hsuffix.subset
  · obtain ⟨⟨w, c⟩, hc, rfl⟩ : ∃ c, s.call = some c ∧ c.1.cond = k := by simpa using hk
    obtain ⟨l, hl, hall⟩ := h.ahead.here w c hc
    obtain ⟨r', rfl⟩ : ∃ r', r = Rest.before w r' := by
      rw [hi.call_eq hmutex] at hc
      cases hp : s.pc t <;> simp_all [Pc.call, Pc.todo] <;> exact ⟨_, ht.symm⟩
    have happly : w.apply (wakeAll a.waitset done) w.cond = w.left (l ++ s.hand c ++ s.entries w.cond) := by
      rw [w.apply_eq, Function.update_self, hl]
    have hsuffix := wakeAll_suffix (w.apply (wakeAll a.waitset done)) r'.wakes w.cond
    rw [happly] at hsuffix
    exact fun x hx => left_subset hall (hsuffix.subset hx)

omit [DecidableEq T] [DecidableEq K] in
theorem next_of_place {q : Pc T K P} (h : q.todo = none) : q.place = some q.next := by
  cases q <;> simp_all [Pc.todo, Pc.place, Pc.next]

omit [DecidableEq T] [DecidableEq K] in
theorem next_of_todo {q : Pc T K P} (h : q.todo = some r) : q.next = r.next := by
  cases q <;> simp_all [Pc.todo, Pc.next] <;> subst h <;> rfl

/-- **Condition variables make monitors.** -/
theorem monitors_refine {T K D P : Type} [DecidableEq T] [DecidableEq K] [Fintype K] (M : Program T K D P)
    (timeout : P → Nat) (data : D) (place : T → P) {s : State T K D P} (h : (sys M timeout data place).Reaches s) :
    ∃ a, (Monitor.sys M data place).Reaches a ∧ Represents M s a := by
  have hi := reaches_inv h
  obtain ⟨a, done, ha, hr⟩ := exists_refines h
  by_cases hidle : ∀ t, (s.pc t).todo = none
  · obtain ⟨rfl, hdata⟩ := hr.idle hidle
    have hset : a.waitset = s.entries := by
      funext k
      refine hr.ahead.other k fun c hc => ?_
      obtain ⟨t, -, ht⟩ := Option.bind_eq_some_iff.1 hc
      have hnone := hidle t
      cases hp : s.pc t <;> simp_all [Pc.call, Pc.todo]
    have hwaits : ∀ t k, a.Waits t k ↔ t ∈ s.waitset k := fun t k => by
      rw [Monitor.State.Waits, hset, map_fst_entries]
    refine ⟨a, ha, hdata, fun t => hr.place t _ (next_of_place (hidle t)), fun t k hk => .inl ((hwaits t k).1 hk),
      fun _ => hset, fun t p hp hready _ => ⟨?_, fun k hk => ?_⟩⟩
    · rw [hr.place t p (by rw [hp]; rfl)]
      exact hready
    · exact hi.notMem (by rw [hp]; rfl) k ((hwaits t k).1 hk)
  · obtain ⟨t, ht⟩ := not_forall.1 hidle
    obtain ⟨r, ht⟩ := Option.ne_none_iff_exists'.1 ht
    obtain ⟨hcan, hsect⟩ := hr.busy t r ht
    have hstep : (Monitor.sys M data place).step a (.run t) = some (a.after t _) := run_eq_some.2 ⟨hcan, _, hsect, rfl⟩
    refine ⟨_, ha.step hstep, rfl, fun u => ?_, fun u k hk => ?_, fun hnone => ?_,
      fun u p _ _ hm => ?_⟩
    · by_cases hu : u = t
      · subst hu
        simp [Monitor.State.after, next_of_todo ht]
      · have hnone := hi.todo_other ((hi.mutex t).1 (hi.todo_mutex ht)) hu
        simpa [Monitor.State.after, hu] using hr.place u _ (next_of_place hnone)
    · rcases waits_after.1 hk with hin | ⟨hu, hwait⟩
      · have hmem := List.map_subset Prod.fst (hr.waitset_subset hi ht k) hin
        rw [map_fst_entries] at hmem
        exact .inl hmem
      · exact .inr ⟨r, hu ▸ ht, hwait⟩
    · cases (hnone t).symm.trans ht
    · cases hm.symm.trans (hi.todo_mutex ht)

/-- Thread 1 has set the flag, and is about to wake up thread 0. -/
theorem monitors_refine_flag : ∃ s, (sys flag (fun _ => noTimeout) false fun _ => false).Reaches s ∧
    (s.mutex = some 1 ∧ s.data = true ∧ (s.sched 0).state = .stopped) ∧
    ∃ a, (Monitor.sys flag false fun _ => false).Reaches a ∧ Represents flag s a := by
  have hrun : ∃ s, (sys flag (fun _ => noTimeout) false fun _ => false).run flagDown
      ([0, 0, 0, 0, 1, 1, 1].map .run) = some s ∧ s.mutex = some 1 ∧ s.data = true ∧
      (s.sched 0).state = .stopped := ⟨_, rfl, by decide⟩
  obtain ⟨s, hs, hfacts⟩ := hrun
  have h := Lts.reaches_of_run (.init flagDown_initial) hs
  exact ⟨s, h, hfacts, monitors_refine flag _ false _ h⟩

end TinyOS.Monitors
