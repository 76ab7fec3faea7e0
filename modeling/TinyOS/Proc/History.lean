import TinyOS.Proc.Events

/-!
# The history of the threads

`History` is kept beside a run: which thread each PTCB was given to, what the threads passed to `sys_ThreadExit`, which
were detached, and what their joins have returned.

- `History.Tracks`, kept by every event (`History.Tracks.next`): the PTCBs agree with the history.
-/

namespace TinyOS.Proc

structure History where
  /-- The thread that the PTCB was last given to. -/
  thread : Tid → Option ThreadId
  /-- What the thread passed to `sys_ThreadExit`. -/
  exitval : ThreadId → Option Int
  /-- A `sys_ThreadDetach` of the thread returned 0 before it exited. -/
  detached : ThreadId → Bool
  /-- How often its PTCB was freed. -/
  freed : ThreadId → Nat
  /-- The thread that this one has called `sys_ThreadJoin` on last. -/
  target : ThreadId → Option ThreadId
  /-- A `sys_ThreadJoin` of the thread has returned 0. -/
  joined : ThreadId → Bool
  /-- When this thread last called `sys_ThreadJoin`, another join of the same thread had returned 0. -/
  late : ThreadId → Bool
  /-- A late join has returned 0. -/
  again : Bool

/-- The PTCB of thread `i` is allocated in `t` and not in `t'`. -/
def Links.frees (t t' : Links) (thread : Tid → Option ThreadId) (i : ThreadId) : Bool :=
  (t.keys[i]?).any fun k => thread k.own = some i ∧ (t.ptcb k.own).isSome ∧ (t'.ptcb k.own).isNone

namespace History

def empty : History where
  thread _ := none
  exitval _ := none
  detached _ := false
  freed _ := 0
  target _ := none
  joined _ := false
  late _ := false
  again := false

def start (s : State) : History := { empty with thread := fun tid => s.threads.findIdx? fun th => th.ownerPtcb = tid }

/-- A call of `sys_ThreadJoin(tid)` by thread `i` begins. -/
def enter (h : History) (i : ThreadId) (tid : Tid) : Bool → History
  | true =>
    { h with
      target := Function.update h.target i (h.thread tid)
      late := Function.update h.late i ((h.thread tid).any h.joined) }
  | false => h

/-- The call returns. -/
def leave (h : History) (i : ThreadId) : Option (Int × Option Int) → History
  | some (0, _) => { h with joined := fun t => h.joined t || h.target i = some t, again := h.again || h.late i }
  | _ => h

def onEvent (h : History) : Event → History
  | .quiet => h
  | .created i tid => { h with thread := Function.update h.thread tid (some i) }
  | .exited i exitval => { h with exitval := Function.update h.exitval i (some exitval) }
  | .detached tid => { h with detached := fun t => h.detached t || (h.thread tid = some t ∧ h.exitval t = none) }
  | .join i tid entry ret => (h.enter i tid entry).leave i ret

/-- The history after the event `e`, which makes `t'` of the PTCBs `t`. -/
def next (h : History) (e : Event) (t t' : Links) : History :=
  { h.onEvent e with freed := fun i => h.freed i + (t.frees t' h.thread i).toNat }

def after (s : State) (a : Action) (s' : State) (h : History) : History := h.next (s.event a s') s.links s'.links

section Fields

variable (h : History) (i : ThreadId) (tid : Tid) (entry : Bool) (ret : Option (Int × Option Int))

@[simp] theorem enter_thread : (h.enter i tid entry).thread = h.thread := by cases entry <;> rfl
@[simp] theorem enter_exitval : (h.enter i tid entry).exitval = h.exitval := by cases entry <;> rfl
@[simp] theorem enter_detached : (h.enter i tid entry).detached = h.detached := by cases entry <;> rfl
@[simp] theorem enter_freed : (h.enter i tid entry).freed = h.freed := by cases entry <;> rfl
@[simp] theorem enter_joined : (h.enter i tid entry).joined = h.joined := by cases entry <;> rfl
@[simp] theorem enter_again : (h.enter i tid entry).again = h.again := by cases entry <;> rfl
@[simp] theorem leave_freed : (h.leave i ret).freed = h.freed := by unfold leave; split <;> rfl
@[simp] theorem leave_late : (h.leave i ret).late = h.late := by unfold leave; split <;> rfl

@[simp] theorem onEvent_freed (e : Event) : (h.onEvent e).freed = h.freed := by
  cases e with
  | join i tid entry ret => exact (leave_freed ..).trans (enter_freed ..)
  | _ => rfl

end Fields

/-- The PTCB at `tid` is allocated, and is that of thread `i`. -/
def Holds (h : History) (t : Links) (tid : Tid) (i : ThreadId) : Prop :=
  h.thread tid = some i ∧ (t.ptcb tid).isSome ∧ h.freed i = 0

/-! ## The PTCBs agree with the history -/

/-- The fields of the PTCB of thread `i`. -/
structure Matches (h : History) (i : ThreadId) (x : Ptcb) : Prop where
  exitval : h.exitval i = if x.exited then some x.exitval else none
  detached : h.detached i = x.detached
  freed : h.freed i = 0
  joined : h.joined i = true → x.refcount ≠ 0

/-- `thread` names the owners of the PTCBs. -/
structure Owned (thread : Tid → Option ThreadId) (keys : List Key) : Prop where
  owner : ∀ tid i, thread tid = some i → ∃ k, keys[i]? = some k ∧ k.own = tid
  live : ∀ (i : ThreadId) k, keys[i]? = some k → k.live = true → thread k.own = some i

structure Tracks (h : History) (t : Links) : Prop where
  inv : t.Inv
  null : h.thread nothread = none
  owned : Owned h.thread t.keys
  ptcb : ∀ tid x, t.ptcb tid = some x → ∃ i, h.thread tid = some i ∧ h.Matches i x
  freed : ∀ i, h.freed i ≤ 1
  undetached : ∀ i, h.freed i ≠ 0 ∨ h.joined i = true → (h.exitval i).isSome ∧ h.detached i = false
  fresh : ∀ i, t.keys.length ≤ i → h.exitval i = none ∧ h.detached i = false ∧ h.freed i = 0 ∧ h.joined i = false
  target : ∀ (i : ThreadId) k tid, t.keys[i]? = some k → k.joins = some tid → h.target i = h.thread tid

/-- No two PTCBs are of one thread. -/
theorem Owned.inj {thread : Tid → Option ThreadId} {keys : List Key} {i : ThreadId} (h : Owned thread keys) {a b : Tid}
    (ha : thread a = some i) (hb : thread b = some i) : a = b := by
  obtain ⟨k, hk, rfl⟩ := h.owner a i ha
  obtain ⟨k', hk', rfl⟩ := h.owner b i hb
  cases hk.symm.trans hk'
  rfl

/-- It does as well after a thread has moved. -/
theorem Owned.move {thread : Tid → Option ThreadId} {t : Links} {i : ThreadId} {p : Pid} {own : Tid} {live : Bool}
    {j joins : Option Tid} (h : Owned thread t.keys) (hi : t.keys[i]? = some ⟨p, own, true, j⟩) :
    Owned thread (t.move i live joins).keys := by
  constructor
  case owner =>
    intro tid a ha
    obtain ⟨k, hk, rfl⟩ := h.owner tid a ha
    by_cases hai : a = i
    · subst hai
      cases hi.symm.trans hk
      exact ⟨_, Links.keys_move hi, rfl⟩
    · exact ⟨k, (List.getElem?_modify_ne _ _ (Ne.symm hai)).trans hk, rfl⟩
  case live =>
    intro a k ha hl
    rcases Links.move_cases hi ha with ⟨rfl, rfl⟩ | ⟨-, ha⟩
    · exact h.live a ⟨p, own, true, j⟩ hi rfl
    · exact h.live a k ha hl

namespace Tracks

variable {h : History} {t t' t₁ : Links} {e : Event} {i j : ThreadId} {p : Pid} {own tid : Tid} {x : Ptcb}

theorem holds (hT : h.Tracks t) (hx : t.ptcb tid = some x) : ∃ i, h.Holds t tid i := by
  obtain ⟨i, hi, hm⟩ := hT.ptcb tid x hx
  exact ⟨i, hi, by rw [hx]; rfl, hm.freed⟩

/-- Nothing is freed while the PTCBs stay allocated. -/
theorem of_onEvent (hkeep : ∀ tid, (t.ptcb tid).isSome → (t'.ptcb tid).isSome) (hT : (h.onEvent e).Tracks t') :
    (h.next e t t').Tracks t' := by
  have hnot : ∀ i, t.frees t' h.thread i = false := by
    intro i
    unfold Links.frees
    cases hk : t.keys[i]? with
    | none => rfl
    | some k =>
      have := hkeep k.own
      cases hx : t.ptcb k.own <;> cases hy : t'.ptcb k.own <;> simp_all
  have heq : h.next e t t' = h.onEvent e := by
    unfold History.next
    simp only [hnot, Bool.toNat_false, Nat.add_zero]
    rw [← onEvent_freed h e]
  rwa [heq]

theorem created (hT : h.Tracks t) (q : Pid) (hnull : tid ≠ nothread) (hfree : t.ptcb tid = none)
    (he : x.exited = false) (hd : x.detached = false) (hr : x.refcount = 0) :
    (h.onEvent (.created t.keys.length tid)).Tracks (t.start q tid x) := by
  have hkeys : ∀ {a : ThreadId} {k}, t.keys[a]? = some k → (t.start q tid x).keys[a]? = some k := fun hk =>
    (List.getElem?_append_left (List.getElem?_eq_some_iff.1 hk).1).trans hk
  have hthread : ∀ {a : Tid}, a ≠ tid → (h.onEvent (.created t.keys.length tid)).thread a = h.thread a := fun ha =>
    Function.update_of_ne ha _ _
  have hself : (h.onEvent (.created t.keys.length tid)).thread tid = some t.keys.length := Function.update_self _ _ _
  obtain ⟨hex, hdet, hfr, hjo⟩ := hT.fresh t.keys.length (Nat.le_refl _)
  constructor
  case inv => exact hT.inv.start q hfree he hr
  case null => exact (hthread (Ne.symm hnull)).trans hT.null
  case owned =>
    constructor
    case owner =>
      intro a i hi
      by_cases ha : a = tid
      · subst ha
        obtain rfl := Option.some.inj (hself.symm.trans hi)
        exact ⟨_, List.getElem?_concat_length .., rfl⟩
      · obtain ⟨k, hk, hka⟩ := hT.owned.owner a i ((hthread ha).symm.trans hi)
        exact ⟨k, hkeys hk, hka⟩
    case live =>
      intro i k hi hl
      rcases Links.keys_start hi with hi | ⟨rfl, rfl⟩
      · exact (hthread (hT.inv.own_ne hfree hi hl)).trans (hT.owned.live i k hi hl)
      · exact hself
  case ptcb =>
    intro a y hy
    by_cases ha : a = tid
    · subst ha
      obtain rfl : x = y := by simpa [Links.start] using hy
      refine ⟨_, hself, ?_, hdet.trans hd.symm, hfr, fun hj => absurd hj ?_⟩
      · rw [he]
        exact hex
      · rw [show (h.onEvent (.created t.keys.length a)).joined = h.joined from rfl, hjo]
        simp
    · obtain ⟨i, hi, hm⟩ := hT.ptcb a y (by simpa [Links.start, ha] using hy)
      exact ⟨i, (hthread ha).trans hi, hm.1, hm.2, hm.3, hm.4⟩
  case freed => exact hT.freed
  case undetached => exact hT.undetached
  case fresh =>
    intro i hi
    have hlen : (t.start q tid x).keys.length = t.keys.length + 1 := List.length_append
    exact hT.fresh i (by omega)
  case target =>
    intro i k a hi hk
    rcases Links.keys_start hi with hi' | ⟨rfl, rfl⟩
    · have ha : a ≠ tid := by
        rintro rfl
        exact hT.inv.not_listed hfree _ (hT.inv.joins i k a hi' hk).2.1
      exact (hT.target i k a hi' hk).trans (hthread ha).symm
    · cases hk

/-- The PTCB of a thread that has not exited, and what the history says of the thread. -/
theorem own_matches (hT : h.Tracks t) {k : Key} (hi : t.keys[i]? = some k) (hk : k.live = true)
    (hx : t.ptcb k.own = some x) : h.Matches i x ∧ h.exitval i = none ∧ h.joined i = false := by
  obtain ⟨i', hi', hm⟩ := hT.ptcb k.own x hx
  obtain rfl := Option.some.inj (hi'.symm.trans (hT.owned.live i k hi hk))
  obtain ⟨y, hy, he⟩ := (hT.inv.own _ k hi hk).2
  obtain rfl := Option.some.inj (hx.symm.trans hy)
  have hex : h.exitval i' = none := by simpa [he] using hm.exitval
  refine ⟨hm, hex, ?_⟩
  by_contra hj
  have := (hT.undetached i' (.inr (by simpa using hj))).1
  rw [hex] at this
  cases this

theorem exited (hT : h.Tracks t) (exitval : Int) (hi : t.keys[i]? = some ⟨p, own, true, none⟩) (hx : t.ptcb own = some x) :
    (h.onEvent (.exited i exitval)).Tracks
      ((t.setPtcb own (some { x with exitval := exitval, exited := true })).move i false none) := by
  obtain ⟨hm, hex, hjo⟩ := hT.own_matches hi rfl hx
  have hself : (h.onEvent (.exited i exitval)).exitval i = some exitval := Function.update_self _ _ _
  have hother : ∀ {j}, j ≠ i → (h.onEvent (.exited i exitval)).exitval j = h.exitval j := fun hj =>
    Function.update_of_ne hj _ _
  constructor
  case inv => exact hT.inv.step (.exit exitval hi hx)
  case null => exact hT.null
  case owned => exact hT.owned.move (t := t.setPtcb own _) hi
  case ptcb =>
    intro a y hy
    by_cases ha : a = own
    · subst ha
      obtain rfl : { x with exitval := exitval, exited := true } = y := by simpa [Links.move, Links.setPtcb] using hy
      exact ⟨i, hT.owned.live i _ hi rfl, hself, hm.detached, hm.freed, hm.joined⟩
    · obtain ⟨j, hj, hmj⟩ := hT.ptcb a y (by simpa [Links.move, Links.setPtcb, ha] using hy)
      have hji : j ≠ i := by
        rintro rfl
        exact ha (hT.owned.inj hj (hT.owned.live j _ hi rfl))
      exact ⟨j, hj, (hother hji).trans hmj.exitval, hmj.detached, hmj.freed, hmj.joined⟩
  case freed => exact hT.freed
  case undetached =>
    intro j hj
    by_cases hji : j = i
    · subst hji
      rcases hj with hf | hj
      · exact absurd hm.freed hf
      · exact absurd hj (by simp [onEvent, hjo])
    · rw [hother hji]
      exact hT.undetached j hj
  case fresh =>
    intro j hj
    have hlen : t.keys.length ≤ j := by simpa [Links.move, Links.setPtcb] using hj
    have hji : j ≠ i := by
      rintro rfl
      exact absurd (List.getElem?_eq_some_iff.1 hi).1 (Nat.not_lt.2 hlen)
    rw [hother hji]
    exact hT.fresh j hlen
  case target =>
    intro j k a hj hk
    rcases Links.move_cases (t := t.setPtcb own _) hi hj with ⟨rfl, rfl⟩ | ⟨-, hj⟩
    · cases hk
    · exact hT.target j k a hj hk

theorem detached (hT : h.Tracks t) (hx : t.ptcb tid = some x) (he : x.exited = false) :
    (h.onEvent (.detached tid)).Tracks (t.setPtcb tid (some { x with detached := true })) := by
  obtain ⟨i, hi, hm⟩ := hT.ptcb tid x hx
  have hex : h.exitval i = none := by simpa [he] using hm.exitval
  have hself : (h.onEvent (.detached tid)).detached i = true := by simp [onEvent, hi, hex]
  have hother : ∀ {j}, j ≠ i → (h.onEvent (.detached tid)).detached j = h.detached j := fun {j} hj => by
    simp [onEvent, hi, Ne.symm hj]
  constructor
  case inv => exact hT.inv.setPtcb hx rfl rfl
  case null => exact hT.null
  case owned => exact hT.owned
  case ptcb =>
    intro a y hy
    by_cases ha : a = tid
    · subst ha
      obtain rfl : { x with detached := true } = y := by simpa [Links.setPtcb] using hy
      exact ⟨i, hi, hm.exitval, hself, hm.freed, hm.joined⟩
    · obtain ⟨j, hj, hmj⟩ := hT.ptcb a y (by simpa [Links.setPtcb, ha] using hy)
      have hji : j ≠ i := by
        rintro rfl
        exact ha (hT.owned.inj hj hi)
      exact ⟨j, hj, hmj.exitval, (hother hji).trans hmj.detached, hmj.freed, hmj.joined⟩
  case freed => exact hT.freed
  case undetached =>
    intro j hj
    have hold := hT.undetached j hj
    have hji : j ≠ i := by
      rintro rfl
      rw [hex] at hold
      cases hold.1
    exact ⟨hold.1, (hother hji).trans hold.2⟩
  case fresh =>
    intro j hj
    have hji : j ≠ i := by
      rintro rfl
      obtain ⟨k, hk, -⟩ := hT.owned.owner tid j hi
      exact absurd (List.getElem?_eq_some_iff.1 hk).1 (Nat.not_lt.2 hj)
    rw [hother hji]
    exact hT.fresh j hj
  case target => exact hT.target

/-- A thread is in `sys_ThreadJoin`; if it has just entered, `target` is the thread that it joins. -/
theorem enter (hT : h.Tracks t) {entry : Bool} (hin : t.Inside i p tid entry t₁) : (h.enter i tid entry).Tracks t₁ := by
  cases hin with
  | already _ => exact hT
  | @enters own x hi hm hne hx hd =>
    constructor
    case inv => exact hT.inv.step (.enter tid hi hm hne hx)
    case null => exact hT.null
    case owned => exact hT.owned.move (t := t.setPtcb tid _) hi
    case ptcb =>
      intro a y hy
      by_cases ha : a = tid
      · subst ha
        obtain rfl : { x with refcount := x.refcount + 1 } = y := by simpa [Links.move, Links.setPtcb] using hy
        obtain ⟨j, hj, hmj⟩ := hT.ptcb a x hx
        exact ⟨j, hj, hmj.exitval, hmj.detached, hmj.freed, fun _ => Nat.succ_ne_zero _⟩
      · obtain ⟨j, hj, hmj⟩ := hT.ptcb a y (by simpa [Links.move, Links.setPtcb, ha] using hy)
        exact ⟨j, hj, hmj.exitval, hmj.detached, hmj.freed, hmj.joined⟩
    case freed => exact hT.freed
    case undetached => exact hT.undetached
    case fresh =>
      intro j hj
      exact hT.fresh j (by simpa [Links.move, Links.setPtcb] using hj)
    case target =>
      intro j k a hj hk
      rcases Links.move_cases (t := t.setPtcb tid _) hi hj with ⟨rfl, rfl⟩ | ⟨hji, hj⟩
      · cases hk
        exact Function.update_self _ _ _
      · exact (Function.update_of_ne hji _ _).trans (hT.target j k a hj hk)

/-- A refused join, as in the code before its check. -/
theorem refused (hT : h.Tracks t) (hi : t.keys[i]? = some ⟨p, own, true, none⟩) : (h.enter i tid true).Tracks t := by
  refine ⟨hT.inv, hT.null, hT.owned, fun a x hx => ?_, hT.freed, hT.undetached, hT.fresh, fun j k a hj hk => ?_⟩
  · obtain ⟨j, hj, hmj⟩ := hT.ptcb a x hx
    exact ⟨j, hj, hmj.exitval, hmj.detached, hmj.freed, hmj.joined⟩
  · have hji : j ≠ i := by
      rintro rfl
      cases hi.symm.trans hj
      cases hk
    exact (Function.update_of_ne hji _ _).trans (hT.target j k a hj hk)

/-- Thread `i` leaves `sys_ThreadJoin(tid)`, and only the PTCB `tid` and its thread change. -/
theorem left (hT : h.Tracks t) {h' : History} {j : ThreadId} (hi : t.keys[i]? = some ⟨p, own, true, some tid⟩)
    (hinv : t'.Inv) (hkeys : t'.keys = (t.move i true none).keys) (hptcb : ∀ a, a ≠ tid → t'.ptcb a = t.ptcb a)
    (hthread : h'.thread = h.thread) (hexitval : h'.exitval = h.exitval) (hdetached : h'.detached = h.detached)
    (htarget : h'.target = h.target) (hj : h.thread tid = some j) (hself : ∀ y, t'.ptcb tid = some y → h'.Matches j y)
    (hother : ∀ b, b ≠ j → h'.freed b = h.freed b ∧ h'.joined b = h.joined b) (hfreed : h'.freed j ≤ 1)
    (hund : h'.freed j ≠ 0 ∨ h'.joined j = true → (h.exitval j).isSome ∧ h.detached j = false) : h'.Tracks t' := by
  constructor
  case inv => exact hinv
  case null => exact (congrFun hthread nothread).trans hT.null
  case owned =>
    rw [hthread, hkeys]
    exact hT.owned.move hi
  case ptcb =>
    intro a y hy
    rw [hthread]
    by_cases ha : a = tid
    · subst ha
      exact ⟨j, hj, hself y hy⟩
    · obtain ⟨b, hb, hm⟩ := hT.ptcb a y ((hptcb a ha).symm.trans hy)
      have hbj : b ≠ j := by
        rintro rfl
        exact ha (hT.owned.inj hb hj)
      refine ⟨b, hb, ?_, ?_, ?_, ?_⟩
      · rw [hexitval, hm.exitval]
      · rw [hdetached, hm.detached]
      · rw [(hother b hbj).1, hm.freed]
      · rw [(hother b hbj).2]
        exact hm.joined
  case freed =>
    intro b
    by_cases hbj : b = j
    · exact hbj ▸ hfreed
    · rw [(hother b hbj).1]
      exact hT.freed b
  case undetached =>
    intro b hb
    rw [hexitval, hdetached]
    by_cases hbj : b = j
    · subst hbj
      exact hund hb
    · rw [(hother b hbj).1, (hother b hbj).2] at hb
      exact hT.undetached b hb
  case fresh =>
    intro b hb
    have hlen : t.keys.length ≤ b := by simpa [hkeys, Links.move] using hb
    have hbj : b ≠ j := by
      rintro rfl
      obtain ⟨k, hk, -⟩ := hT.owned.owner tid b hj
      exact absurd (List.getElem?_eq_some_iff.1 hk).1 (Nat.not_lt.2 hlen)
    rw [hexitval, hdetached, (hother b hbj).1, (hother b hbj).2]
    exact hT.fresh b hlen
  case target =>
    intro b k a hb hk
    rw [hkeys] at hb
    rw [htarget, hthread]
    rcases Links.move_cases hi hb with ⟨rfl, rfl⟩ | ⟨-, hb⟩
    · cases hk
    · exact hT.target b k a hb hk

/-- A join fails because the thread was detached. -/
theorem fails (hT : h.Tracks t) (hi : t.keys[i]? = some ⟨p, own, true, some tid⟩) (hx : t.ptcb tid = some x)
    (hd : x.detached = true) : h.Tracks (t.leave i tid x) := by
  obtain ⟨j, hj, hm⟩ := hT.ptcb tid x hx
  refine hT.left hi (hT.inv.step (.leave tid hi hx)) rfl (fun a ha => Function.update_of_ne ha _ _) rfl rfl rfl rfl hj
    (fun y hy => ?_) (fun _ _ => ⟨rfl, rfl⟩) (hT.freed j) (hT.undetached j)
  obtain rfl : { x with refcount := x.refcount - 1 } = y := by simpa [Links.leave, Links.move, Links.setPtcb] using hy
  refine ⟨hm.exitval, hm.detached, hm.freed, fun hjo => ?_⟩
  have := (hT.undetached j (.inr hjo)).2
  rw [hm.detached, hd] at this
  cases this

/-- A join succeeds while another one is still in the call. -/
theorem succeeds (hT : h.Tracks t) (hi : t.keys[i]? = some ⟨p, own, true, some tid⟩) (hx : t.ptcb tid = some x)
    (hd : x.detached = false) (he : x.exited = true) (hr : x.refcount - 1 ≠ 0) (out : Option Int) :
    (h.leave i (some (0, out))).Tracks (t.leave i tid x) := by
  obtain ⟨j, hj, hm⟩ := hT.ptcb tid x hx
  have htarget : h.target i = some j := (hT.target i _ tid hi rfl).trans hj
  refine hT.left hi (hT.inv.step (.leave tid hi hx)) rfl (fun a ha => Function.update_of_ne ha _ _) rfl rfl rfl rfl hj
    (fun y hy => ?_) (fun b hb => ⟨rfl, ?_⟩) (hT.freed j) (fun _ => ?_)
  · obtain rfl : { x with refcount := x.refcount - 1 } = y := by simpa [Links.leave, Links.move, Links.setPtcb] using hy
    exact ⟨hm.exitval, hm.detached, hm.freed, fun _ => hr⟩
  · simp [leave, htarget, Ne.symm hb]
  · exact ⟨by simp [hm.exitval, he], hm.detached.trans hd⟩

/-- The last joiner frees the PTCB. -/
theorem frees (hT : h.Tracks t) (hi : t.keys[i]? = some ⟨p, own, true, some tid⟩) (hx : t.ptcb tid = some x)
    (hd : x.detached = false) (he : x.exited = true) (hr : x.refcount - 1 = 0) (out : Option Int) {h' : History}
    (hh : h' = { h.leave i (some (0, out)) with
      freed := fun b => h.freed b + (decide (h.thread tid = some b)).toNat }) :
    h'.Tracks ((t.leave i tid x).free p tid) := by
  subst hh
  obtain ⟨j, hj, hm⟩ := hT.ptcb tid x hx
  have htarget : h.target i = some j := (hT.target i _ tid hi rfl).trans hj
  have hleft : (t.leave i tid x).keys[i]? = some ⟨p, own, true, none⟩ := Links.keys_move (t := t.setPtcb tid _) hi
  have hinv : (t.leave i tid x).Inv := hT.inv.step (.leave tid hi hx)
  refine hT.left hi (hinv.step (.free tid hleft (Function.update_self ..) (hT.inv.joins i _ tid hi rfl).2.1 hr he)) rfl
    (fun a ha => ?_) rfl rfl rfl rfl hj (fun y hy => ?_) (fun b hb => ⟨?_, ?_⟩) ?_ (fun _ => ?_)
  · exact (Function.update_of_ne ha _ _).trans (Function.update_of_ne ha _ _)
  · simp [Links.free] at hy
  · simp [hj, Ne.symm hb]
  · simp [leave, htarget, Ne.symm hb]
  · simp [hm.freed, hj]
  · exact ⟨by simp [hm.exitval, he], hm.detached.trans hd⟩

/-- What the last joiner frees is the PTCB of the thread that it joined. -/
theorem frees_eq (hT : h.Tracks t) (hx : (t.ptcb tid).isSome) (hfree : t'.ptcb tid = none)
    (hother : ∀ a, a ≠ tid → (t.ptcb a).isSome → (t'.ptcb a).isSome) (b : ThreadId) :
    t.frees t' h.thread b = decide (h.thread tid = some b) := by
  unfold Links.frees
  by_cases hb : h.thread tid = some b
  · obtain ⟨k, hk, rfl⟩ := hT.owned.owner tid b hb
    simp [hk, hb, hx, hfree]
  · cases hk : t.keys[b]? with
    | none => simp [hb]
    | some k =>
      suffices hn : ¬(h.thread k.own = some b ∧ (t.ptcb k.own).isSome ∧ (t'.ptcb k.own).isNone) by simpa [hb] using hn
      rintro ⟨hown, hsome, hnone⟩
      have hne : k.own ≠ tid := by
        rintro rfl
        exact hb hown
      have := hother _ hne hsome
      cases hy : t'.ptcb k.own <;> simp_all

/-- Every event keeps the agreement. -/
theorem next (hT : h.Tracks t) (hs : t.Happens e t') : (h.next e t t').Tracks t' := by
  cases hs with
  | quiet => exact of_onEvent (fun _ ha => ha) hT
  | created q tid hi hnull hfree he hd hr =>
    subst hi
    exact of_onEvent (fun _ ha => Links.isSome_setPtcb (t := t) ha) (hT.created q hnull hfree he hd hr)
  | exited exitval hi hx => exact of_onEvent (fun _ ha => Links.isSome_setPtcb (t := t) ha) (hT.exited exitval hi hx)
  | detached hx he => exact of_onEvent (fun _ ha => Links.isSome_setPtcb ha) (hT.detached hx he)
  | refused tid hi => exact of_onEvent (fun _ ha => ha) (hT.refused hi)
  | sleeps hin hx hd he => exact of_onEvent (fun _ ha => hin.isSome ha) (hT.enter hin)
  | @fails i p tid entry t₁ x hin hx hd =>
    obtain ⟨own, hi⟩ := hin.key
    exact of_onEvent (fun _ ha => Links.isSome_setPtcb (t := t₁) (hin.isSome ha)) ((hT.enter hin).fails hi hx hd)
  | @succeeds i p tid entry t₁ x hin hx hd he hr =>
    obtain ⟨own, hi⟩ := hin.key
    exact of_onEvent (fun _ ha => Links.isSome_setPtcb (t := t₁) (hin.isSome ha))
      ((hT.enter hin).succeeds hi hx hd he hr (some x.exitval))
  | @frees i p tid entry t₁ x hin hx hd he hr =>
    obtain ⟨own, hi⟩ := hin.key
    refine (hT.enter hin).frees hi hx hd he hr (some x.exitval) ?_
    have hsome : (t.ptcb tid).isSome := by
      cases hin with
      | already _ => rw [hx]; rfl
      | enters _ _ _ hx₀ _ => rw [hx₀]; rfl
    have hfrees : ∀ b, t.frees ((t₁.leave i tid x).free p tid) h.thread b = decide (h.thread tid = some b) := by
      refine hT.frees_eq hsome (Function.update_self ..) fun a ha hs => ?_
      have hsame : ((t₁.leave i tid x).free p tid).ptcb a = t₁.ptcb a :=
        (Function.update_of_ne ha _ _).trans (Function.update_of_ne ha _ _)
      rw [hsame]
      exact hin.isSome hs
    unfold History.next
    simp only [hfrees, enter_freed, enter_thread]
    rfl

end Tracks

/-- The history at the start names the main thread of init. -/
theorem start_tracks {s : State} {p : Pid} {tid : Tid} {x : Ptcb} (hnull : tid ≠ nothread) (he : x.exited = false)
    (hd : x.detached = false) (hr : x.refcount = 0) (hl : s.links = Links.start ⟨[], fun _ => none, fun _ => []⟩ p tid x) :
    (start s).Tracks s.links := by
  have hkeys : s.threads.map Thread.key = [⟨p, tid, true, none⟩] := congrArg Links.keys hl
  obtain ⟨th, hth, hk⟩ := List.map_eq_singleton_iff.1 hkeys
  have hown : th.ownerPtcb = tid := congrArg Key.own hk
  have hthread : (fun a => s.threads.findIdx? fun th => th.ownerPtcb = a) = Function.update empty.thread tid (some 0) := by
    funext a
    by_cases ha : a = tid
    · subst ha
      simp [hth, hown, List.findIdx?_cons]
    · simp [hth, hown, ha, Ne.symm ha, List.findIdx?_cons, empty]
  have hstart : start s = empty.onEvent (.created 0 tid) := congrArg (fun f => { empty with thread := f }) hthread
  have hempty : empty.Tracks ⟨[], fun _ => none, fun _ => []⟩ := by
    refine ⟨?_, rfl, ⟨?_, ?_⟩, ?_, ?_, ?_, ?_, ?_⟩
    · constructor <;> simp
    all_goals simp [empty]
  rw [hl, hstart]
  exact hempty.created p hnull rfl he hd hr

end History

end TinyOS.Proc
