import TinyOS.Lib.Count
import TinyOS.Sockets.Steps

/-!
# The reference counts of sockets

- `Balanced`: `refcount` is the number of the calls of `sys_Accept` and `sys_Connect` that are in progress on the socket or
  have failed on it after they incremented it, less one if the socket is closed;
- `refcount_iff_no_failure`: it is the number of the calls in progress as long as no call fails on an open socket.
-/

namespace TinyOS.Sockets

open Streams (Fid)

/-- A call of `sys_Accept` or `sys_Connect` that is in progress on the socket. -/
def Place.inside (a : ScbPtr) : Place → Bool
  | .accepting l _ | .signalling l _ _ _ => l = a
  | .connecting a' _ _ => a' = a
  | _ => false

/-- A call that has incremented `refcount` and returned an error. -/
def Place.failed (a : ScbPtr) : Place → Bool
  | .refused l _ => l = some a
  | .connected a' value => a' = some a ∧ value ≠ 0
  | _ => false

/-- A call that has incremented `refcount` and not decremented it again. -/
def Place.holds (a : ScbPtr) (pl : Place) : Bool := pl.inside a || pl.failed a

/-- What the calls account for. -/
def Scb.credit (x : Scb) : Int := x.refcount + if 0 < x.slots then 0 else 1

namespace State

variable {s s' t : State} {a b l : ScbPtr} {c r : CallId} {x y : Scb} {pl pl' : Place} {fid : Option Fid} {act : Action}

/-- The calls that have incremented `refcount` of `a` and not decremented it again. -/
def load (s : State) (a : ScbPtr) : Nat := s.calls.countP (·.holds a)

theorem countP_start (p : Place → Bool) (s : State) (pl : Place) :
    (s.start pl).calls.countP p = s.calls.countP p + if p pl then 1 else 0 := by
  simp only [start, List.countP_append, List.countP_singleton]

theorem countP_setPlace (p : Place → Bool) (h : s.calls[c]? = some pl) (pl' : Place) :
    (s.setPlace c pl').calls.countP p + (if p pl then 1 else 0) = s.calls.countP p + if p pl' then 1 else 0 := by
  have := List.countP_modify_add (p := p) (fun _ => pl') h
  rwa [← List.set_eq_modify] at this

theorem countP_setPlace_of_eq {p : Place → Bool} (h : s.calls[c]? = some pl) (hp : p pl' = p pl) :
    (s.setPlace c pl').calls.countP p = s.calls.countP p := by
  have := countP_setPlace p h pl'
  rw [hp] at this
  omega

theorem countP_signal {p : Place → Bool} (hp : ∀ l, p (.accepting l true) = p (.accepting l false)) (w : List CallId) :
    (s.signal w).2.calls.countP p = s.calls.countP p := by
  obtain ⟨w', h⟩ | ⟨c, l, w', -, hc, h⟩ := signal_cases s w
  · rw [h]
  · rw [h]
    exact countP_setPlace_of_eq hc (hp l)

theorem countP_signalConnected {p : Place → Bool}
    (hp : ∀ a timeout, p (.connecting a timeout .signalled) = p (.connecting a timeout .asleep)) (r : CallId) :
    (s.signalConnected r).calls.countP p = s.calls.countP p := by
  unfold signalConnected
  split
  · rename_i hr
    exact countP_setPlace_of_eq hr (hp _ _)
  · rfl

/-- The accounts of all sockets. -/
structure Balanced (s : State) : Prop where
  credit : ∀ a x, s.scb.get a = some x → x.credit = s.load a
  fresh : ∀ a, s.scb.next ≤ a → s.load a = 0

/-- Changes that leave the accounts as they are. -/
theorem Balanced.of_keeps (h : s.Balanced) (hk : s.scb.Keeps Scb.credit t.scb) (hl : ∀ a, t.load a = s.load a) :
    t.Balanced := by
  refine ⟨fun a y hy => ?_, fun a ha => ?_⟩
  · obtain ⟨x, hx, hyx⟩ := hk.kept a y hy
    rw [hyx, hl, h.credit a x hx]
  · rw [hl]
    exact h.fresh a (hk.next ▸ ha)

theorem Balanced.start (h : s.Balanced) (hpl : ∀ a, pl.holds a = false) : (s.start pl).Balanced :=
  h.of_keeps (.refl _ _) fun a => by simp [load, countP_start, hpl]

theorem Balanced.setPlace (h : s.Balanced) (hc : s.calls[c]? = some pl) (hpl : ∀ a, pl'.holds a = pl.holds a) :
    (s.setPlace c pl').Balanced :=
  h.of_keeps (.refl _ _) fun a => countP_setPlace_of_eq hc (hpl a)

theorem Balanced.newSocket (h : s.Balanced) (port : Nat) : (s.newSocket port).Balanced := by
  refine ⟨fun a y hy => ?_, fun a ha => ?_⟩
  · obtain ⟨rfl, rfl⟩ | hy := Heap.get_alloc_eq_some.1 hy
    · exact (congrArg Int.ofNat (h.fresh s.scb.next (Nat.le_refl _))).symm
    · exact h.credit a y hy
  · exact h.fresh a (Nat.le_of_succ_le ha)

/-- A call increments `refcount`. -/
theorem Balanced.gain (h : s.Balanced) (hx : s.scb.get a = some x) (hk : (s.modifyScb a Scb.ref).scb.Keeps Scb.credit t.scb)
    (hl : ∀ b, t.load b = s.load b + if b = a then 1 else 0) : t.Balanced := by
  refine ⟨fun b y hy => ?_, fun b hb => ?_⟩
  · obtain ⟨z, hz, hyz⟩ := hk.kept b y hy
    obtain ⟨x, hx, rfl⟩ := Heap.get_modify_eq_some.1 hz
    have := h.credit b x hx
    rw [hl, hyz]
    split
    · simp only [Scb.credit, Scb.ref] at this ⊢
      push_cast
      omega
    · exact this
  · have hlt := Heap.lt_next hx
    have hnext : t.scb.next = s.scb.next := hk.next
    have hle : s.scb.next ≤ b := hnext ▸ hb
    have hab : a < b := Nat.lt_of_lt_of_le hlt hle
    rw [hl, h.fresh b hle, if_neg (Nat.ne_of_gt hab)]

/-- A call decrements `refcount`. -/
theorem Balanced.lose (h : s.Balanced) (hu : s.unref a = some t) (hc : s.calls[c]? = some pl)
    (hpl : ∀ b, pl.holds b = decide (b = a)) (hpl' : ∀ b, pl'.holds b = false) : (t.setPlace c pl').Balanced := by
  have hcalls := unref_calls hu
  unfold unref at hu
  obtain ⟨x, hx, ht⟩ := Option.map_eq_some_iff.1 hu
  have hnext : t.scb.next = s.scb.next := by
    rw [← ht]
    split <;> rfl
  have hload : ∀ b, (t.setPlace c pl').load b + (if b = a then 1 else 0) = s.load b := by
    intro b
    have := countP_setPlace (·.holds b) (s := t) (hcalls ▸ hc) pl'
    simp only [hpl, hpl', decide_eq_true_eq, Bool.false_eq_true, if_false, hcalls] at this
    exact this
  refine ⟨fun b y hy => ?_, fun b hb => ?_⟩
  · have hb := hload b
    have hget : t.scb.get b = some y := hy
    rw [← ht] at hget
    split at hget
    · obtain ⟨hba, hy₀⟩ := Heap.get_free_eq_some.1 hget
      have := h.credit b y hy₀
      rw [if_neg hba] at hb
      omega
    · obtain ⟨y₀, hy₀, rfl⟩ := Heap.get_modify_eq_some.1 hget
      have := h.credit b y₀ hy₀
      split
      · rename_i hba
        rw [if_pos hba] at hb
        simp only [Scb.credit, Scb.unref] at this ⊢
        omega
      · rename_i hba
        rw [if_neg hba] at hb
        omega
  · have := hload b
    have hb' : s.scb.next ≤ b := hnext ▸ hb
    have := h.fresh b hb'
    omega

/-! ## Steps -/

theorem load_signal (w : List CallId) (a : ScbPtr) : (s.signal w).2.load a = s.load a := countP_signal (fun _ => rfl) w

theorem Balanced.signalConnected (h : s.Balanced) (r : CallId) : (s.signalConnected r).Balanced :=
  h.of_keeps (by rw [signalConnected_scb]; exact .refl _ _) fun _ => countP_signalConnected (fun _ _ => rfl) r

theorem Balanced.loop (h : s.Balanced) (hc : s.calls[c]? = some (.accepting l true)) (hl : Loop s c l fid t) :
    t.Balanced := by
  cases hl with
  | closed => exact h.setPlace hc fun a => by simp [Place.holds, Place.inside, Place.failed]
  | @wait x w =>
    have hq : (s.setQueue l [] (w ++ [c])).Balanced :=
      h.of_keeps (setQueue_alike (fun _ _ => rfl) s l _ _).keeps fun _ => rfl
    exact hq.setPlace hc fun a => rfl
  | @refuse x r q w p cr y =>
    have hg : ((s.setQueue l q w).grant r cr).Balanced :=
      h.of_keeps ((setQueue_alike (fun _ _ => rfl) s l q w).trans (grant_alike (fun _ => rfl) _ r cr)).keeps fun _ => rfl
    exact hg.setPlace hc fun a => by simp [Place.holds, Place.inside, Place.failed]
  | @honor x r q w p cr y fid =>
    have hg : ((s.setQueue l q w).grant r cr).Balanced :=
      h.of_keeps ((setQueue_alike (fun _ _ => rfl) s l q w).trans (grant_alike (fun _ => rfl) _ r cr)).keeps fun _ => rfl
    have hw := (hg.newSocket x.port).of_keeps
      (connect_alike (fun _ => rfl) (fun _ _ _ _ => rfl) _ cr.peer s.scb.next).keeps fun _ => rfl
    have hs : (State.setPlace _ c (.signalling l r s.scb.next fid)).Balanced :=
      hw.setPlace hc fun a => by simp [Place.holds, Place.inside, Place.failed]
    exact ⟨hs.credit, hs.fresh⟩

theorem load_ends (he : Ends s x a t) (b : ScbPtr) : t.load b = s.load b := by
  cases he with
  | nothing => rfl
  | peer => rfl
  | listener => exact load_signal _ b

/-- The last reference to a socket goes. -/
theorem Balanced.close (h : s.Balanced) (hx : s.scb.get a = some x) (hslots : x.slots = 1)
    (he : Ends (s.dropSlot a) { x with slots := 0 } a t) : (t.release a x.refcount).Balanced := by
  have hnext : (t.release a x.refcount).scb.next = s.scb.next := by
    have := (he.alike (g := fun _ => ()) fun _ _ => rfl).next
    unfold release
    split <;> exact this
  have hload : ∀ b, (t.release a x.refcount).load b = s.load b := by
    intro b
    unfold release
    split <;> exact load_ends he b
  refine h.of_keeps ⟨hnext, fun b y hy => ?_⟩ hload
  obtain ⟨z, hz, href, hsl, -⟩ := release_get hx he hslots hy
  refine ⟨z, hz, ?_⟩
  unfold Scb.credit
  rw [href, hsl]
  split
  · rename_i hba
    subst hba
    cases hx.symm.trans hz
    simp [hslots]
  · rfl

theorem Balanced.step (h : s.Balanced) (hs : Step s act s') : s'.Balanced := by
  cases hs with
  | socketFail | listenFail | shutDownFail => exact h
  | socket => exact h.newSocket _
  | listen => exact h.of_keeps (listen_alike (fun _ => rfl) s _ _).keeps fun _ => rfl
  | acceptFail => exact h.start fun _ => by simp [Place.holds, Place.inside, Place.failed]
  | @accept l x fid s' hx _ _ hl =>
    have he : (s.enter l).Balanced := by
      refine h.gain hx (.refl _ _) fun b => (countP_start _ _ _).trans (congrArg₂ _ rfl ?_)
      simp [Place.holds, Place.inside, Place.failed, eq_comm]
    exact he.loop List.getElem?_concat_length hl
  | acceptResume hc hl => exact h.loop hc hl
  | connectFail => exact h.start fun _ => by simp [Place.holds, Place.inside, Place.failed]
  | @connect a l x y port timeout q w hx =>
    refine h.gain hx (request_alike (fun _ _ => rfl) s a l q w timeout).keeps fun b => ?_
    refine (countP_start _ _ _).trans (congrArg₂ _ (load_signal _ b) ?_)
    simp [Place.holds, Place.inside, Place.failed, eq_comm]
  | timedOut fid hc => exact h.setPlace hc fun a => by simp [Place.holds, Place.inside, Place.failed, eq_comm]
  | @missed c a timeout cr fid hc =>
    have hm : (s.setPlace c (.connected (some a) (-1))).Balanced :=
      h.setPlace hc fun a => by simp [Place.holds, Place.inside, Place.failed, eq_comm]
    exact ⟨hm.credit, hm.fresh⟩
  | connected fid hc _ _ hu =>
    exact h.lose hu hc (fun b => by simp [Place.holds, Place.inside, Place.failed, eq_comm])
      fun b => by simp [Place.holds, Place.inside, Place.failed]
  | shutRead => exact h.of_keeps (.refl _ _) fun _ => rfl
  | shutWrite => exact h.of_keeps (setVariant_alike (fun _ _ => rfl) s _ _).keeps fun _ => rfl
  | dup hx hslots =>
    refine h.of_keeps (modifyScb_alike _ fun y hy => ?_).keeps fun _ => rfl
    cases hx.symm.trans hy
    simp [Scb.credit, hslots]
  | drop hx hslots =>
    refine h.of_keeps (modifyScb_alike _ fun y hy => ?_).keeps fun _ => rfl
    cases hx.symm.trans hy
    simp [Scb.credit, Nat.zero_lt_of_lt hslots, Nat.sub_pos_of_lt hslots]
  | close hx hslots he => exact h.close hx hslots he
  | @signal c r l b fid cr t hc _ _ hu =>
    have hsig := h.signalConnected r
    have hs : (t.setPlace c (.accepted l r b fid (s.linked cr.peer b))).Balanced :=
      hsig.lose hu (signalConnected_getElem hc (by simp) r)
        (fun b => by simp [Place.holds, Place.inside, Place.failed, eq_comm])
        fun b => by simp [Place.holds, Place.inside, Place.failed]
    exact ⟨hs.credit, hs.fresh⟩
  | expire hc => exact h.setPlace hc fun a => rfl

/-! ## Calls that fail -/

/-- The calls that have failed after they incremented `refcount` of `a`. -/
def failures (s : State) (a : ScbPtr) : Nat := s.calls.countP (·.failed a)

/-- The calls of `sys_Accept` and `sys_Connect` in progress on `a`. -/
def inProgress (s : State) (a : ScbPtr) : Nat := s.calls.countP (·.inside a)

theorem load_eq (s : State) (a : ScbPtr) : s.load a = s.inProgress a + s.failures a := by
  refine List.countP_eq_add (fun pl => ?_) s.calls
  cases pl with
  | accepting | signalling | accepted | connecting => simp [Place.holds, Place.failed, Place.inside]
  | refused | connected => simp [Place.holds, Place.inside]

/-- The loop of `sys_Accept` on `l` finds that the port has no listener any more, or has no fid for a request. -/
def loopFails (s : State) (l : ScbPtr) (fid : Option Fid) : Bool :=
  match s.scb.get l with
  | some x => s.portMap x.port = none ∨ (x.queue ≠ [] ∧ fid = none)
  | none => false

/-- The socket on which the step makes a call fail: `sys_Accept` in its loop, `sys_Connect` when its wait ends and it was not
admitted, or not signalled. -/
def failsOn (s : State) : Action → Option ScbPtr
  | .accept (some l) fid => if ((s.scb.get l).any fun x => x.type = .listener) ∧ s.loopFails l fid then some l else none
  | .resume c fid =>
    match s.calls[c]? with
    | some (.accepting l true) => if s.loopFails l fid then some l else none
    | some (.connecting a _ wake) => if (s.cr c).any (·.admitted) ∧ wake = .signalled then none else some a
    | _ => none
  | _ => none

theorem failures_setPlace (hc : s.calls[c]? = some pl) (hpl : ∀ a, pl.failed a = false) (a : ScbPtr) :
    (s.setPlace c pl').failures a = s.failures a + if pl'.failed a then 1 else 0 := by
  have := countP_setPlace (·.failed a) hc pl'
  rw [hpl] at this
  exact this

theorem failures_start (hpl : ∀ a, pl.failed a = false) (a : ScbPtr) : (s.start pl).failures a = s.failures a := by
  simp [failures, countP_start, hpl]

theorem failures_signal (w : List CallId) (a : ScbPtr) : (s.signal w).2.failures a = s.failures a :=
  countP_signal (fun _ => rfl) w

theorem failures_ends (he : Ends s x a t) (b : ScbPtr) : t.failures b = s.failures b := by
  cases he with
  | nothing => rfl
  | peer => rfl
  | listener => exact failures_signal _ b

theorem failures_loop (hc : s.calls[c]? = some (.accepting l true)) (hl : Loop s c l fid t) (a : ScbPtr) :
    t.failures a = s.failures a + if s.loopFails l fid ∧ l = a then 1 else 0 := by
  have hpl : ∀ a, (Place.accepting l true).failed a = false := fun _ => rfl
  cases hl with
  | closed hx hv hp =>
    refine (failures_setPlace hc hpl a).trans ?_
    simp [loopFails, hx, hp, Place.failed]
  | @wait x w p fid hx hv hp =>
    have hq : (s.setQueue l [] (w ++ [c])).calls[c]? = some (.accepting l true) := hc
    refine (failures_setPlace hq hpl a).trans (congrArg₂ _ rfl ?_)
    simp [loopFails, hx, hp, hv, Scb.queue, Place.failed]
  | @refuse x r q w p cr y hx hv hp =>
    have hg : ((s.setQueue l q w).grant r cr).calls[c]? = some (.accepting l true) := hc
    refine (failures_setPlace hg hpl a).trans (congrArg₂ _ rfl ?_)
    simp [loopFails, hx, hv, Scb.queue, Place.failed]
  | @honor x r q w p cr y fid hx hv hp =>
    have hg : ((((s.setQueue l q w).grant r cr).newSocket x.port).connect cr.peer s.scb.next).calls[c]? =
        some (.accepting l true) := hc
    refine (failures_setPlace hg hpl a).trans (congrArg₂ _ rfl ?_)
    simp [loopFails, hx, hp, Place.failed]

/-- A step adds a failure on the socket that `failsOn` gives, and no other. -/
theorem failures_step (hs : Step s act s') (a : ScbPtr) :
    s'.failures a = s.failures a + if s.failsOn act = some a then 1 else 0 := by
  cases hs with
  | socketFail | listenFail | shutDownFail | socket | listen | shutRead | shutWrite | dup | drop => rfl
  | @acceptFail sock fid hno =>
    refine (failures_start (fun _ => by simp [Place.failed]) a).trans ?_
    cases sock with
    | none => rfl
    | some l =>
      cases hx : s.scb.get l with
      | none => simp [failsOn, hx]
      | some x => simp [failsOn, hx, hno l x rfl hx]
  | @accept l x fid s' hx _ ht hl =>
    have hfails : (s.enter l).loopFails l fid = s.loopFails l fid := by
      simp only [loopFails, enter, State.start, modifyScb, Heap.get_modify_self, hx, Option.map_some, Scb.ref_queue]
      rfl
    refine (failures_loop List.getElem?_concat_length hl a).trans (congrArg₂ _ ?_ ?_)
    · exact failures_start (fun _ => rfl) a
    · simp [failsOn, hx, ht, hfails]
  | @acceptResume c l fid s' hc hl =>
    refine (failures_loop hc hl a).trans (congrArg₂ _ rfl ?_)
    simp [failsOn, hc]
  | connectFail => exact failures_start (fun _ => by simp [Place.failed]) a
  | connect => exact (failures_start (fun _ => by simp [Place.failed]) a).trans (failures_signal _ a)
  | timedOut fid hc hw hcr hadm =>
    refine (failures_setPlace hc (fun _ => rfl) a).trans ?_
    simp [failsOn, hc, hcr, hadm, Place.failed]
  | missed fid hc hcr hadm =>
    refine (failures_setPlace hc (fun _ => rfl) a).trans ?_
    simp [failsOn, hc, hcr, Place.failed]
  | @connected c a' timeout cr t fid hc hcr hadm hu =>
    have hcalls := unref_calls hu
    refine (failures_setPlace (hcalls ▸ hc) (fun _ => rfl) a).trans (congrArg₂ _ ?_ ?_)
    · simp [failures, hcalls]
    · simp [failsOn, hc, hcr, hadm, Place.failed]
  | close hx hslots he =>
    unfold failures
    rw [release_calls]
    exact failures_ends he a
  | @signal c r l b fid cr t hc _ _ hu =>
    have hcalls := unref_calls hu
    have hc' : t.calls[c]? = some (.signalling l r b fid) := hcalls ▸ signalConnected_getElem hc (by simp) r
    refine (failures_setPlace hc' (fun _ => rfl) a).trans (congrArg₂ _ ?_ ?_)
    · unfold failures
      rw [hcalls]
      exact countP_signalConnected (fun _ _ => rfl) r
    · simp [failsOn, Place.failed]
  | expire hc => exact failures_setPlace hc (fun _ => rfl) a

/-! ## The counters -/

/-- `refcount` of each open socket is the number of the calls in progress on it, and if there are none its `socket_close`, if
it comes to its end, frees the SCB and returns 0. -/
def Counts (s : State) : Prop :=
  ∀ a x, s.scb.get a = some x → 0 < x.slots → x.refcount = s.inProgress a ∧
    (s.inProgress a = 0 → ∀ ret t, s.socketClose a = some (ret, t) → ret = 0 ∧ t.scb.get a = none)

/-- No call has failed on an open socket. -/
structure Faultless (s : State) : Prop where
  balanced : s.Balanced
  none : ∀ a x, s.scb.get a = some x → 0 < x.slots → s.failures a = 0

theorem Balanced.refcount (h : s.Balanced) (hx : s.scb.get a = some x) (ho : 0 < x.slots) :
    x.refcount = s.inProgress a + s.failures a := by
  have := h.credit a x hx
  rw [load_eq] at this
  simp only [Scb.credit, ho, if_true] at this
  push_cast at this
  omega

theorem load_pos (hc : s.calls[c]? = some pl) (hpl : pl.holds a = true) : 0 < s.load a :=
  List.countP_pos_iff.2 ⟨pl, List.mem_of_getElem? hc, hpl⟩

/-- Calls are on sockets that have been made. -/
theorem Balanced.lt_next (h : s.Balanced) (hc : s.calls[c]? = some pl) (hpl : pl.holds a = true) : a < s.scb.next := by
  have := load_pos hc hpl
  by_contra hn
  have := h.fresh a (Nat.le_of_not_lt hn)
  omega

/-- A call that decrements `refcount` frees the SCB only if the socket is closed, and it is the last to hold it. -/
theorem Balanced.unref_cases (h : s.Balanced) (hc : s.calls[c]? = some pl) (hpl : pl.holds a = true)
    (hu : s.unref a = some t) : ∃ x, s.scb.get a = some x ∧
      (t = s.modifyScb a Scb.unref ∨ x.slots = 0 ∧ s.load a = 1 ∧ t = { s with scb := s.scb.free a }) := by
  unfold unref at hu
  obtain ⟨x, hx, rfl⟩ := Option.map_eq_some_iff.1 hu
  refine ⟨x, hx, ?_⟩
  have hcredit := h.credit a x hx
  have hload := load_pos hc hpl
  unfold Scb.credit at hcredit
  split
  · rename_i hlt
    split at hcredit
    · omega
    · exact .inr ⟨by omega, by omega, rfl⟩
  · exact .inl rfl

theorem Balanced.failsOn_lt (h : s.Balanced) (hf : s.failsOn act = some a) : a < s.scb.next := by
  unfold failsOn at hf
  split at hf
  · split at hf
    · rename_i hl
      cases hf
      obtain ⟨x, hx, -⟩ := (Option.any_eq_true _ _).1 hl.1
      exact Heap.lt_next hx
    · cases hf
  · split at hf
    · rename_i hc
      split at hf
      · cases hf
        exact h.lt_next hc (by simp [Place.holds, Place.inside])
      · cases hf
    · rename_i hc
      split at hf
      · cases hf
      · cases hf
        exact h.lt_next hc (by simp [Place.holds, Place.inside])
    · cases hf
  · cases hf

theorem Faultless.counts (h : s.Faultless) : s.Counts := by
  intro a x hx ho
  have href := h.balanced.refcount hx ho
  rw [h.none a x hx ho] at href
  refine ⟨by omega, fun hidle ret t hclose => ?_⟩
  obtain ⟨t', hends, rfl, rfl⟩ := socketClose_cases hx hclose
  have hle : x.refcount - 1 ≤ 0 := by omega
  unfold release
  simp [hle]

theorem Faultless.step (h : s.Faultless) (hok : ∀ a ∈ s.failsOn act, ¬s.IsOpen a) (hs : s.step act = some s') :
    s'.Faultless := by
  have hstep := step_cases hs
  refine ⟨h.balanced.step hstep, fun a y hy ho => ?_⟩
  rw [failures_step hstep a]
  obtain rfl | ⟨x, hx, hxo⟩ := hstep.open hy ho
  · have hload := h.balanced.fresh s.scb.next (Nat.le_refl _)
    rw [load_eq] at hload
    rw [if_neg fun hf => Nat.lt_irrefl _ (h.balanced.failsOn_lt hf)]
    omega
  · have hnot : s.failsOn act ≠ some a := fun hf => hok a hf ⟨x, hx, hxo⟩
    rw [h.none a x hx hxo, if_neg hnot]

/-- A step on which a call fails leaves the socket as open as it was. -/
theorem Step.failing (hs : Step s act s') (hf : s.failsOn act = some a) (hx : s.scb.get a = some x) :
    ∃ y, s'.scb.get a = some y ∧ y.slots = x.slots := by
  cases hs with
  | @accept l _ fid s' _ _ _ hl =>
    have henter : s.scb.Alike (fun x => x.slots) (s.enter l).scb := modifyScb_alike l fun _ _ => rfl
    obtain ⟨z, hz, hzx⟩ := henter.get hx
    obtain ⟨y, hy, hyz⟩ := hl.get_some (g := fun x => x.slots) (fun _ _ => rfl) (fun _ => rfl) (fun _ _ _ _ => rfl) hz
    exact ⟨y, hy, hyz.trans hzx⟩
  | acceptResume _ hl =>
    exact hl.get_some (g := fun x => x.slots) (fun _ _ => rfl) (fun _ => rfl) (fun _ _ _ _ => rfl) hx
  | timedOut | missed => exact ⟨x, hx, rfl⟩
  | connected fid hc hcr hadm => simp [failsOn, hc, hcr, hadm] at hf
  | @acceptFail sock fid hno =>
    cases sock with
    | none => simp [failsOn] at hf
    | some l =>
      cases hl : s.scb.get l with
      | none => simp [failsOn, hl] at hf
      | some z => simp [failsOn, hl, hno l z rfl hl] at hf
  | _ => simp [failsOn] at hf

theorem Faultless.not_counts (h : s.Faultless) (hbad : ¬∀ a ∈ s.failsOn act, ¬s.IsOpen a) (hs : s.step act = some s') :
    ¬s'.Counts := by
  have hstep := step_cases hs
  simp only [not_forall, not_not] at hbad
  obtain ⟨a, hf, x, hx, ho⟩ := hbad
  obtain ⟨y, hy, hsl⟩ := hstep.failing hf hx
  have hfail := failures_step hstep a
  rw [if_pos (show s.failsOn act = some a from hf)] at hfail
  intro hcounts
  have hyo : 0 < y.slots := hsl ▸ ho
  have href := (hcounts a y hy hyo).1
  have := (h.balanced.step hstep).refcount hy hyo
  omega

theorem boot_faultless : boot.Faultless :=
  ⟨⟨fun a x hx => (by cases hx), fun _ _ => rfl⟩, fun a x hx => (by cases hx)⟩

end State

/-- **Reference counts of sockets.** Along a run `refcount` of every open socket is the number of the calls in progress on
it exactly when no call of the run fails on an open socket once it has incremented the count. -/
theorem refcount_iff_no_failure {s' : State} {as : List Action} (hr : system.run State.boot as = some s') :
    system.AllStates State.Counts State.boot as ↔
      system.AllSteps (fun s act => ∀ a ∈ s.failsOn act, ¬s.IsOpen a) State.boot as :=
  Lts.allStates_iff_allSteps (I := State.Faultless) (fun _ h => h.counts) (fun _ _ _ h ha hs => h.step ha hs)
    (fun _ _ _ h ha hs => h.not_counts ha hs) State.boot_faultless hr

/-- A client that is accepted. -/
theorem refcount_iff_no_failure_accepted :
    let fid : Option Fid := some ⟨0, by decide⟩
    let as := [.socket 5 fid, .listen (some 0), .socket 0 fid, .connect (some 1) 5 100, .accept (some 0) fid, .signal 1,
      .resume 0 none]
    system.AllStates State.Counts State.boot as := by
  intro fid as
  obtain ⟨s', hr⟩ : ∃ s', system.run State.boot as = some s' := Option.isSome_iff_exists.1 (by decide +kernel)
  exact (refcount_iff_no_failure hr).2 (by decide +kernel)

/-- Two calls of `sys_Connect` time out on one socket; its `socket_close` then returns -1 and keeps the SCB. -/
theorem two_timeouts_leak :
    ∃ s x, system.Reaches s ∧ s.scb.get 1 = some x ∧ 0 < x.slots ∧ s.inProgress 1 = 0 ∧ x.refcount = 2 ∧
      (s.socketClose 1).map (fun r => (r.1, (r.2.scb.get 1).isSome)) = some (-1, true) ∧ ¬s.Counts := by
  let fid : Option Fid := some ⟨0, by decide⟩
  obtain ⟨s, hr, hs⟩ := Option.map_eq_some_iff.1 (show
    (system.run State.boot
      [.socket 5 fid, .listen (some 0), .socket 0 fid, .connect (some 1) 5 100, .expire 0, .resume 0 none,
        .connect (some 1) 5 100, .expire 1, .resume 1 none]).map
      (fun s => (s.scb.get 1, s.inProgress 1, (s.socketClose 1).map fun r => (r.1, (r.2.scb.get 1).isSome))) =
      some (some ⟨2, .unbound, 0, .unbound, 1, 0⟩, 0, some (-1, true)) by decide +kernel)
  obtain ⟨hx, hidle, hclose⟩ : _ ∧ _ ∧ _ := by simpa only [Prod.mk.injEq] using hs
  refine ⟨s, _, Lts.reaches_of_run (.init rfl) hr, hx, by decide, hidle, rfl, hclose, fun h => ?_⟩
  have := (h 1 _ hx (by decide)).1
  rw [hidle] at this
  cases this

end TinyOS.Sockets
