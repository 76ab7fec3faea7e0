import TinyOS.Sockets.Lifetime
import TinyOS.Sockets.Waitsets

/-!
# Closing a listener

- `Refuses`: the state of a closed listener that makes every call of `sys_Accept` on it return `NOFILE`;
- `released_iff_releases_all`: closing a listener releases the calls on it as long as at most one of them waits, it is not
  freed, it is still a listener, and its port is not taken again before they have returned.
-/

namespace TinyOS.Sockets

open Streams (Fid)
open Streams.View (maxPort)

/-- The listener that a call of `sys_Accept` waits on, or is about to look at again. -/
def Place.acceptingOn : Place → Option ScbPtr
  | .accepting l _ => some l
  | _ => none

namespace State

variable {s s' t : State} {a b l : ScbPtr} {c : CallId} {x y : Scb} {pl pl' : Place} {q w : List CallId} {woken : Bool}
  {fid : Option Fid} {act : Action}

/-- The calls of `sys_Accept` in progress on closed sockets do not wait, and return `NOFILE` if they go on. -/
def Released (s : State) : Prop :=
  ∀ (c : CallId) l woken, s.calls[c]? = some (.accepting l woken) → ¬s.IsOpen l →
    woken = true ∧ ∀ fid, ∃ t r, s.acceptLoop c l fid = some t ∧ t.calls[c]? = some (.refused (some l) r)

/-- The listeners that calls of `sys_Accept` wait on, or are about to look at again. -/
def acceptors (s : State) : List ScbPtr := s.calls.filterMap Place.acceptingOn

/-- What a step may not do to the sockets that calls of `sys_Accept` are on. -/
def ReleasesAll (s : State) : Action → Prop
  | .drop a => ∀ x ∈ s.scb.get a, x.slots = 1 → a ∈ s.acceptors →
      x.type = .listener ∧ 2 ≤ x.refcount ∧ ∀ w ∈ x.waitset, w.length ≤ 1
  | .listen (some a) => ∀ x ∈ s.scb.get a, s.CanListen x → ∀ l ∈ s.acceptors, ∀ y ∈ s.scb.get l, y.slots = 0 → y.port ≠ x.port
  | act => act.fid ≠ none → ∀ a ∈ s.client act, a ∈ s.acceptors → s.IsOpen a

instance (s : State) : ∀ act, Decidable (s.ReleasesAll act)
  | .drop _ => inferInstanceAs (Decidable (∀ x ∈ _, _ → _ → _ ∧ _ ∧ ∀ w ∈ _, _))
  | .listen (some _) => inferInstanceAs (Decidable (∀ x ∈ _, _ → ∀ l ∈ _, ∀ y ∈ _, _ → _))
  | .listen none | .socket .. | .accept .. | .connect .. | .shutDown .. | .dup _ | .resume .. | .signal _ | .expire _ =>
    inferInstanceAs (Decidable (_ → ∀ a ∈ _, _ → _))

theorem mem_acceptors : l ∈ s.acceptors ↔ ∃ (c : CallId) (woken : Bool), s.calls[c]? = some (.accepting l woken) := by
  rw [acceptors, List.mem_filterMap]
  constructor
  · rintro ⟨pl, hmem, hpl⟩
    obtain ⟨c, hc⟩ := List.mem_iff_getElem?.1 hmem
    cases pl with
    | accepting l' woken =>
      cases hpl
      exact ⟨c, woken, hc⟩
    | _ => cases hpl
  · rintro ⟨c, woken, hc⟩
    exact ⟨_, List.mem_of_getElem? hc, rfl⟩

/-- The port of the listener is not in `Port_Map` any more. -/
def Refuses (s : State) (l : ScbPtr) : Prop :=
  ∃ x q w, s.scb.get l = some x ∧ x.variant = .listener q w ∧ x.port < maxPort ∧ s.portMap x.port = none

theorem refuses_iff (hc : s.calls[c]? = some (.accepting l woken)) : s.Refuses l ↔
    ∀ fid, ∃ t r, s.acceptLoop c l fid = some t ∧ t.calls[c]? = some (.refused (some l) r) := by
  constructor
  · rintro ⟨x, q, w, hx, hv, hlt, hp⟩ fid
    refine ⟨s.setPlace c (.refused (some l) none), none, ?_, setPlace_self hc⟩
    simp [acceptLoop, hx, hv, portSlot, hlt, hp]
  · intro h
    obtain ⟨t, r, ht, hr⟩ := h (some ⟨0, by decide⟩)
    have hlt : ∀ x, s.scb.get l = some x → x.port < maxPort := by
      intro x hx
      by_contra hn
      simp only [acceptLoop, hx, Option.bind_some, portSlot, if_neg hn, Option.bind_none] at ht
      split at ht <;> cases ht
    cases acceptLoop_cases ht with
    | closed hx hv hp => exact ⟨_, _, _, hx, hv, hlt _ hx, hp⟩
    | @wait x w =>
      have hself : ((s.setQueue l [] (w ++ [c])).setPlace c (.accepting l false)).calls[c]? = some (.accepting l false) :=
        setPlace_self hc
      cases hr.symm.trans hself
    | @honor x r' q w p cr =>
      have hself : (((((s.setQueue l q w).grant r' cr).newSocket x.port).connect cr.peer s.scb.next).setPlace c
          (.signalling l r' s.scb.next ⟨0, by decide⟩)).calls[c]? = some (.signalling l r' s.scb.next ⟨0, by decide⟩) :=
        setPlace_self hc
      cases hr.symm.trans hself

/-- What every run keeps of the calls on closed sockets, if its steps let it. -/
structure Releasing (s : State) : Prop where
  balanced : s.Balanced
  waiting : s.Waiting
  released : ∀ (c : CallId) l woken, s.calls[c]? = some (.accepting l woken) → ¬s.IsOpen l → woken = true ∧ s.Refuses l

theorem released_iff : s.Released ↔
    ∀ (c : CallId) l woken, s.calls[c]? = some (.accepting l woken) → ¬s.IsOpen l → woken = true ∧ s.Refuses l := by
  constructor
  · intro h c l woken hc ho
    exact ⟨(h c l woken hc ho).1, (refuses_iff hc).2 (h c l woken hc ho).2⟩
  · intro h c l woken hc ho
    exact ⟨(h c l woken hc ho).1, (refuses_iff hc).1 (h c l woken hc ho).2⟩

theorem slots_eq_zero (hx : s.scb.get l = some x) (h : ¬s.IsOpen l) : x.slots = 0 := by
  by_contra hn
  exact h ⟨x, hx, Nat.pos_of_ne_zero hn⟩

/-- `kernel_signal` takes one call out of the waitset. -/
theorem Waitsets.signal_fst (h : s.Waitsets) (hw : s.waitsetOf l = some w) : (s.signal w).1 = w.tail := by
  cases w with
  | nil => rfl
  | cons c rest =>
    have hc := ((h l _ hw).2 c).1 List.mem_cons_self
    unfold signal
    rw [hc]
    rfl

/-- `socket_close` of a listener that it does not free. -/
theorem Step.close_listener (hs : Step s (.drop l) s') (hw : s.Waitsets) (hx : s.scb.get l = some x) (hslots : x.slots = 1)
    (ht : x.type = .listener) (href : 2 ≤ x.refcount) : ∃ y q w, s'.scb.get l = some y ∧ y.variant = .listener q w.tail ∧
      x.waitset = some w ∧ y.port = x.port ∧ s'.portMap x.port = none := by
  cases hs with
  | drop hx' hlt =>
    cases hx.symm.trans hx'
    omega
  | @close _ z t hz _ he =>
    cases hx.symm.trans hz
    cases he with
    | nothing hne => exact absurd ht (hne.elim)
    | peer htp => cases ht.symm.trans htp
    | @listener q w _ hv =>
      have hdrop : (s.dropSlot l).scb.get l = some { x with slots := 0 } := by simp [dropSlot, modifyScb, hx, hslots]
      have hd : (s.dropSlot l).Waitsets := hw.modifyScb l fun _ _ _ h => h
      have hu : State.Waitsets { s.dropSlot l with portMap := Function.update s.portMap x.port none } :=
        hd.kept (fun _ _ h => h) rfl
      have htail := hu.signal_fst (waitsetOf_eq_some.2 ⟨_, q, hdrop, hv⟩)
      refine ⟨(Scb.unref { x with slots := 0 }).setVariant (.listener q w.tail), q, w, ?_, rfl, ?_, rfl, ?_⟩
      · unfold release
        rw [if_neg (by omega), ← htail]
        simp only [signalAvailable, modifyScb, Heap.get_modify_self, signal_scb]
        rw [hdrop]
        rfl
      · exact Scb.waitset_eq_some.2 ⟨q, hv⟩
      · rw [release_portMap]
        exact (congrFun (signal_portMap _) _).trans (Function.update_self _ _ _)

/-- The SCB of a call of `sys_Accept` in progress is not freed by a step, unless it closes the socket. -/
theorem Step.accepting_get (hs : Step s act s') (hb : s.Balanced) (hx : s.scb.get l = some x)
    (hc : s'.calls[c]? = some (.accepting l woken)) :
    (∃ y, s'.scb.get l = some y) ∨ (act = .drop l ∧ x.slots = 1 ∧ x.refcount ≤ 1) := by
  obtain hkeep | hload | hclose := hs.freed hb hx
  · exact .inl (Option.ne_none_iff_exists'.1 hkeep)
  · have := not_holds_of_load hload hc
    simp [Place.holds, Place.inside] at this
  · exact .inr hclose

/-- A step after which an open socket is closed is its `socket_close`. -/
theorem Change.closes (h : s.Change act l x y) (hx : 0 < x.slots) (hy : y.slots = 0) : act = .drop l ∧ x.slots = 1 := by
  have hslots := h.slots
  split at hslots
  · omega
  · split at hslots
    · exact ⟨‹_›, by omega⟩
    · omega

/-- The loop of `sys_Accept` on a closed listener returns. -/
theorem Refuses.loop_calls (h : s.Refuses l) (hc : s.calls[c]? = some pl) (hl : Loop s c l fid t) :
    t.calls[c]? = some (.refused (some l) none) := by
  obtain ⟨x, q, w, hx, hv, -, hp⟩ := h
  cases hl with
  | closed => exact setPlace_self hc
  | wait hz _ hpz | refuse hz _ hpz | honor hz _ hpz =>
    cases hx.symm.trans hz
    cases hp.symm.trans hpz

/-- A closed listener that refuses goes on to refuse. -/
theorem Refuses.step (h : s.Refuses l) (ho : ¬s.IsOpen l) (hb : s.Balanced) (hok : s.ReleasesAll act) (hs : Step s act s')
    (hmem : l ∈ s.acceptors) (hc : s'.calls[c]? = some (.accepting l woken)) : s'.Refuses l := by
  obtain ⟨x, q, w, hx, hv, hlt, hp⟩ := h
  have hslots := slots_eq_zero hx ho
  obtain ⟨y, hy⟩ | ⟨-, hone, -⟩ := hs.accepting_get hb hx hc
  · have hchange := hs.change hx hy
    obtain ⟨q', w', hyv⟩ : ∃ q' w', y.variant = .listener q' w' := by
      have hvar := hchange.variant
      split at hvar
      · rename_i hw
        have hopen : s.IsOpen l := by
          cases act with
          | accept sock f => exact hok hw.2 l hw.1 hmem
          | resume d f => exact hok hw.2 l hw.1 hmem
          | _ => exact absurd rfl hw.2
        exact absurd hopen ho
      · rw [hv] at hvar
        generalize hyv : y.variant = v at hvar
        cases hvar with
        | same => exact ⟨q, w, rfl⟩
        | queue _ _ q' w' => exact ⟨q', w', rfl⟩
        | listen => exact ⟨[], [], rfl⟩
    refine ⟨y, q', w', hy, hyv, hchange.port ▸ hlt, ?_⟩
    rw [hchange.port]
    cases hs.portMap with
    | same hm => rw [hm, hp]
    | @listen a z he hz _ hcan hm =>
      subst he
      have hne : x.port ≠ z.port := hok z hz hcan l hmem x hx hslots
      rw [hm, Function.update_of_ne hne, hp]
    | @close a z q w _ _ _ _ _ hm =>
      rw [hm, Function.update_apply]
      split
      · rfl
      · exact hp
  · omega

theorem Releasing.step (h : s.Releasing) (hok : s.ReleasesAll act) (hs : Step s act s') : s'.Releasing := by
  refine ⟨h.balanced.step hs, h.waiting.step h.balanced hs, fun c l woken hc ho => ?_⟩
  obtain ⟨x, hx, hslots, -, fid, rfl⟩ | ⟨woken', hc', hm⟩ := hs.accepting hc
  · -- the call has just begun, and its listener is open
    obtain ⟨y, hy⟩ | ⟨he, -⟩ := hs.accepting_get h.balanced hx hc
    · obtain ⟨he, -⟩ := (hs.change hx hy).closes hslots (slots_eq_zero hy ho)
      cases he
    · cases he
  · have hmem : l ∈ s.acceptors := mem_acceptors.2 ⟨c, woken', hc'⟩
    by_cases hopen : s.IsOpen l
    · -- the step closes the listener
      obtain ⟨x, hx, hslots⟩ := hopen
      obtain ⟨rfl, hone⟩ : act = .drop l ∧ x.slots = 1 := by
        obtain ⟨y, hy⟩ | ⟨he, hone, -⟩ := hs.accepting_get h.balanced hx hc
        · exact (hs.change hx hy).closes hslots (slots_eq_zero hy ho)
        · exact ⟨he, hone⟩
      obtain ⟨ht, href, hlen⟩ := hok x hx hone hmem
      obtain ⟨y, q, w, hy, hyv, hxw, hport, hp⟩ := hs.close_listener h.waiting.waitsets hx hone ht href
      refine ⟨?_, y, q, w.tail, hy, hyv, hport ▸ h.waiting.port l x w hx hxw, hport ▸ hp⟩
      have htail : w.tail = [] := List.eq_nil_of_length_eq_zero (by
        have := hlen w hxw
        rw [List.length_tail]
        omega)
      have hwaits := ((h.waiting.step h.balanced hs).waitsets l w.tail (waitsetOf_eq_some.2 ⟨y, q, hy, hyv⟩)).2 c
      rw [htail] at hwaits
      cases woken with
      | true => rfl
      | false => cases hwaits.2 hc
    · obtain ⟨rfl, hrefuses⟩ := h.released c l woken' hc' hopen
      refine ⟨?_, hrefuses.step hopen h.balanced hok hs hmem hc⟩
      cases woken with
      | true => rfl
      | false =>
        cases hm with
        | loop he =>
          subst he
          cases hs with
          | acceptResume hc'' hl =>
            cases hc'.symm.trans hc''
            cases hc.symm.trans (hrefuses.loop_calls hc' hl)
          | timedOut _ hc'' | missed _ hc'' | connected _ hc'' => cases hc'.symm.trans hc''

/-- `sys_Listen` on an open socket that passes its checks. -/
theorem listen_step (hs : s.step (.listen (some a)) = some s') (hx : s.scb.get a = some x) (hcan : s.CanListen x) :
    s.IsOpen a ∧ s' = s.listen a x.port := by
  obtain ⟨ht, hge, hlt, hp⟩ := hcan
  simp only [State.step, perform] at hs
  split at hs
  · split at hs
    · rename_i hopen
      have hrange : ¬(x.port < 1 ∨ x.port > maxPort) := by omega
      simp only [sysListen, hx, Option.bind_some, ne_eq, ht, not_true_eq_false, if_false, if_neg hrange, portSlot, if_pos hlt,
        hp, Option.map_some, Option.some.injEq] at hs
      exact ⟨hopen a rfl, hs.symm⟩
    · cases hs
  · cases hs

theorem Released.refuses (h : s.Released) (hc : s.calls[c]? = some (.accepting l woken)) (ho : ¬s.IsOpen l) :
    woken = true ∧ s.Refuses l := released_iff.1 h c l woken hc ho

/-- What has to hold when a listener is closed under its calls. -/
theorem Releasing.of_drop (h : s.Releasing) (hs : Step s (.drop a) s') (hrel : s'.Released) (hx : s.scb.get a = some x)
    (hslots : x.slots = 1) (hmem : a ∈ s.acceptors) :
    x.type = .listener ∧ 2 ≤ x.refcount ∧ ∀ w ∈ x.waitset, w.length ≤ 1 := by
  have hclosed : ¬s'.IsOpen a := by
    rintro ⟨y, hy, hyo⟩
    have hys := (hs.change hx hy).slots
    rw [if_neg (by simp), if_pos rfl] at hys
    omega
  obtain ⟨c, woken, hc⟩ := mem_acceptors.1 hmem
  obtain ⟨woken', hc'⟩ : ∃ woken', s'.calls[c]? = some (.accepting a woken') := by
    obtain ⟨pl, hpl, hm⟩ := hs.moves hc
    cases hm with
    | stay => exact ⟨woken, hpl⟩
    | woken => exact ⟨true, hpl⟩
    | loop he => cases he
  obtain ⟨-, y, q, w, hy, hyv, -, hp⟩ := hrel.refuses hc' hclosed
  have hchange := hs.change hx hy
  have href : 2 ≤ x.refcount := by
    by_contra hn
    cases hy.symm.trans (hs.drop_get hx hslots (by omega))
  have ht : x.type = .listener := by
    obtain ⟨w₀, hw₀⟩ | ⟨he, -⟩ := hchange.waitset hx (Scb.waitset_eq_some.2 ⟨q, hyv⟩)
    · have hown := h.waiting.owns a x w₀ hx (by omega) hw₀
      rw [hchange.port] at hp
      cases hs.portMap with
      | same hm =>
        rw [hm, hown] at hp
        cases hp
      | listen he => cases he
      | close he hz _ ht =>
        cases he
        cases hx.symm.trans hz
        exact ht
    · cases he
  refine ⟨ht, href, fun w₀ hw₀ => ?_⟩
  obtain ⟨z, q', w', hz, hzv, hxw, -⟩ := hs.close_listener h.waiting.waitsets hx hslots ht href
  cases hxw.symm.trans hw₀
  have hwaits := ((h.waiting.step h.balanced hs).waitsets a w₀.tail (waitsetOf_eq_some.2 ⟨z, q', hz, hzv⟩)).2
  cases htail : w₀.tail with
  | nil =>
    have := congrArg List.length htail
    rw [List.length_tail, List.length_nil] at this
    omega
  | cons d rest =>
    rw [htail] at hwaits
    cases (hrel.refuses ((hwaits d).1 List.mem_cons_self) hclosed).1

/-- What has to hold when a socket becomes a listener. -/
theorem Releasing.of_listen (hs : s.step (.listen (some a)) = some s') (hrel : s'.Released)
    (hx : s.scb.get a = some x) (hcan : s.CanListen x) (hmem : l ∈ s.acceptors) (hy : s.scb.get l = some y)
    (hslots : y.slots = 0) : y.port ≠ x.port := by
  obtain ⟨⟨x', hx', ho⟩, rfl⟩ := listen_step hs hx hcan
  intro hport
  obtain ⟨c, woken, hc⟩ := mem_acceptors.1 hmem
  have hla : l ≠ a := by
    rintro rfl
    cases hy.symm.trans hx'
    omega
  have hget : (s.listen a x.port).scb.get l = some y := (Heap.get_modify_of_ne hla).trans hy
  have hclosed : ¬(s.listen a x.port).IsOpen l := by
    rintro ⟨z, hz, hzo⟩
    cases hget.symm.trans hz
    omega
  obtain ⟨-, z, q, w, hz, -, -, hp⟩ := hrel.refuses (s := s.listen a x.port) hc hclosed
  cases hget.symm.trans hz
  rw [hport] at hp
  have hself : (s.listen a x.port).portMap x.port = some a := Function.update_self _ _ _
  cases hself.symm.trans hp

/-- What has to hold when a socket becomes an end of a connection. -/
theorem Releasing.of_honor (h : s.Releasing) (hs : Step s act s') (hrel : s'.Released) (hfid : act.fid ≠ none)
    (ha : s.client act = some a) (hmem : a ∈ s.acceptors) : s.IsOpen a := by
  by_contra hclosed
  obtain ⟨x, y, hx, hy⟩ := hs.client_get ha
  have hchange := hs.change hx hy
  have hclosed' : ¬s'.IsOpen a := by
    rintro ⟨z, hz, hzo⟩
    cases hy.symm.trans hz
    have hslots := hchange.slots
    have hd : act ≠ .dup a := by
      rintro rfl
      cases ha
    have hd' : act ≠ .drop a := by
      rintro rfl
      cases ha
    rw [if_neg hd, if_neg hd', slots_eq_zero hx hclosed] at hslots
    omega
  obtain ⟨c, woken, hc⟩ := mem_acceptors.1 hmem
  obtain ⟨woken', hc'⟩ : ∃ woken', s'.calls[c]? = some (.accepting a woken') := by
    obtain ⟨pl, hpl, hm⟩ := hs.moves hc
    cases hm with
    | stay => exact ⟨woken, hpl⟩
    | woken => exact ⟨true, hpl⟩
    | loop he =>
      -- a call on the closed listener finds that the port is gone, and admits nothing
      subst he
      obtain ⟨-, z, q, w, hz, -, -, hp⟩ := h.released c a true hc hclosed
      simp [client, loopOn, hc, clientOf, hz, hp] at ha
  obtain ⟨-, z, q, w, hz, hzv, -, -⟩ := hrel.refuses hc' hclosed'
  cases hy.symm.trans hz
  have hvar := hchange.variant
  rw [if_pos ⟨ha, hfid⟩, hzv] at hvar
  cases hvar

theorem Releasing.not_released (h : s.Releasing) (hbad : ¬s.ReleasesAll act) (hs : s.step act = some s') :
    ¬s'.Released := by
  have hstep := step_cases hs
  refine fun hrel => hbad ?_
  cases act with
  | drop a => exact fun x hx hslots hmem => h.of_drop hstep hrel hx hslots hmem
  | listen sock =>
    cases sock with
    | none => exact fun hfid => absurd rfl hfid
    | some a => exact fun x hx hcan l hmem y hy hslots => Releasing.of_listen hs hrel hx hcan hmem hy hslots
  | _ => exact fun hfid a ha hmem => h.of_honor hstep hrel hfid ha hmem

theorem boot_releasing : boot.Releasing :=
  ⟨boot_faultless.balanced, boot_waiting, fun _ _ _ hc => (by cases hc)⟩

theorem Releasing.releases (h : s.Releasing) : s.Released := released_iff.2 h.released

end State

/-- **Closing a listener releases the calls on it.** Along a run every call of `sys_Accept` on a closed listener has been woken
and returns `NOFILE` when it goes on, exactly when each listener that is closed under such calls is still a listener, has at
most one of them waiting and is not freed, and none of its successors on the port comes before they have returned, nor does
another call make the closed socket an end of a connection. -/
theorem released_iff_releases_all {s' : State} {as : List Action} (hr : system.run State.boot as = some s') :
    system.AllStates State.Released State.boot as ↔ system.AllSteps State.ReleasesAll State.boot as :=
  Lts.allStates_iff_allSteps (I := State.Releasing) (fun _ h => h.releases)
    (fun _ _ _ h ha hs => h.step ha (State.step_cases hs)) (fun _ _ _ h ha hs => h.not_released ha hs)
    State.boot_releasing hr

/-- A listener is closed while one call of `sys_Accept` waits on it; another has failed for want of a fid. -/
theorem released_iff_releases_all_one :
    let fid : Option Fid := some ⟨0, by decide⟩
    let as := [.socket 5 fid, .listen (some 0), .socket 0 fid, .connect (some 1) 5 100, .accept (some 0) none,
      .accept (some 0) fid, .drop 0, .resume 2 fid]
    system.AllStates State.Released State.boot as := by
  intro fid as
  obtain ⟨s', hr⟩ : ∃ s', system.run State.boot as = some s' := Option.isSome_iff_exists.1 (by decide +kernel)
  exact (released_iff_releases_all hr).2 (by decide +kernel)

/-- Two calls of `sys_Accept` wait when their listener is closed: only the first is woken. -/
theorem second_acceptor_left :
    let fid : Option Fid := some ⟨0, by decide⟩
    ∃ s, system.run State.boot [.socket 5 fid, .listen (some 0), .accept (some 0) fid, .accept (some 0) fid, .drop 0] =
        some s ∧
      s.calls = [.accepting 0 true, .accepting 0 false] ∧ ¬s.IsOpen 0 ∧ ¬s.Released := by
  intro fid
  refine ⟨_, rfl, rfl, by decide, fun h => ?_⟩
  cases (h 1 0 false rfl (by decide)).1

end TinyOS.Sockets
