import TinyOS.Sockets.Refcount

/-!
# The port table

- `listens a`: the port on which the open socket `a` listens;
- `Step.ports`: what a step does to `Port_Map` and to the sockets that listen;
- `ports_iff_no_listener_admitted`: the table is right as long as `sys_Accept` admits no request of a listening socket.
-/

namespace TinyOS.Sockets

open Streams (Fid)
open Streams.View (maxPort)

/-- The port of an open listener. -/
def Scb.listensOn (x : Scb) : Option Nat := if 0 < x.slots ∧ x.type = .listener then some x.port else none

namespace State

variable {s s' t : State} {a b l : ScbPtr} {c : CallId} {x : Scb} {p : Nat} {fid : Option Fid} {act : Action}

def listens (s : State) (a : ScbPtr) : Option Nat := (s.scb.get a).bind Scb.listensOn

theorem listens_eq_some : s.listens a = some p ↔
    ∃ x, s.scb.get a = some x ∧ 0 < x.slots ∧ x.type = .listener ∧ x.port = p := by
  simp only [listens, Option.bind_eq_some_iff, Scb.listensOn, Option.ite_none_right_eq_some, Option.some.injEq, and_assoc]

theorem listens_alike (h : s.scb.Alike Scb.listensOn t.scb) : t.listens = s.listens := by
  funext a
  have := h.same a
  unfold listens
  cases hs : s.scb.get a <;> cases ht : t.scb.get a <;> simp_all

/-- `sys_Accept` turns the socket of the request into a peer. -/
theorem listens_grant {r : CallId} {cr : Cr} (hx : s.scb.get cr.peer = some x) :
    (s.grant r cr).listens = Function.update s.listens cr.peer none := by
  funext a
  by_cases ha : a = cr.peer
  · subst ha
    simp [listens, grant, modifyScb, hx, Scb.listensOn, Scb.toPeer]
  · simp [listens, grant, modifyScb, ha]

theorem listens_newSocket (port : Nat) : (s.newSocket port).listens = s.listens := by
  funext a
  by_cases ha : a = s.scb.next
  · subst ha
    simp [listens, newSocket, Scb.listensOn]
  · simp [listens, newSocket, Heap.get_alloc, ha]

theorem listens_connect (a : ScbPtr) (hb : ∀ x, s.scb.get b = some x → x.type ≠ .listener) :
    (s.connect a b).listens = s.listens := by
  have ha : s.scb.Alike Scb.listensOn (s.modifyScb a (·.wire b s.pipe.next (s.pipe.next + 1))).scb :=
    modifyScb_alike a fun _ _ => rfl
  have hab : s.scb.Alike Scb.listensOn (s.connect a b).scb := by
    refine ha.modify b fun x hx => ?_
    obtain ⟨y, hy, rfl⟩ := Heap.get_modify_eq_some.1 hx
    have hy := hb y hy
    split <;> simp [Scb.listensOn, Scb.toPeer, Scb.wire, hy]
  exact listens_alike hab

theorem listens_free (ha : s.listens a = none) : State.listens { s with scb := s.scb.free a } = s.listens := by
  funext b
  by_cases hab : b = a
  · subst hab
    simpa [listens] using ha.symm
  · simp [listens, hab]

theorem listens_setQueue (l : ScbPtr) (q w : List CallId) : (s.setQueue l q w).listens = s.listens :=
  listens_alike (setQueue_alike (fun _ _ => rfl) s l q w)

/-- What the loop of `sys_Accept` does to the sockets that listen. -/
theorem Loop.ports (hl : Loop s c l fid t) : t.portMap = s.portMap ∧
    ((s.clientOf l = none ∧ t.listens = s.listens) ∨
      ∃ a, s.clientOf l = some a ∧ t.listens = Function.update s.listens a none) := by
  cases hl with
  | closed hx hv hp => exact ⟨rfl, .inl ⟨by simp [clientOf, hx, hp], rfl⟩⟩
  | wait hx hv hp => exact ⟨rfl, .inl ⟨by simp [clientOf, hx, hp, Scb.queue, hv], listens_setQueue l _ _⟩⟩
  | @refuse x r q w a cr y hx hv hp hcr hy =>
    refine ⟨rfl, .inr ⟨cr.peer, by simp [clientOf, hx, hp, Scb.queue, hv, hcr], ?_⟩⟩
    obtain ⟨z, hz, -⟩ := (setQueue_alike (g := fun _ => ()) (fun _ _ => rfl) s l q w).get hy
    exact (listens_grant (r := r) hz).trans (by rw [listens_setQueue])
  | @honor x r q w a cr y fid hx hv hp hcr hy =>
    refine ⟨rfl, .inr ⟨cr.peer, by simp [clientOf, hx, hp, Scb.queue, hv, hcr], ?_⟩⟩
    obtain ⟨z, hz, -⟩ := (setQueue_alike (g := fun _ => ()) (fun _ _ => rfl) s l q w).get hy
    have hnew : ∀ z, (((s.setQueue l q w).grant r cr).newSocket x.port).scb.get s.scb.next = some z →
        z.type ≠ .listener := by
      intro z hz
      cases (Heap.get_alloc_self (h := ((s.setQueue l q w).grant r cr).scb)).symm.trans hz
      simp
    refine (listens_connect cr.peer hnew).trans ((listens_newSocket _).trans ?_)
    exact (listens_grant (r := r) hz).trans (by rw [listens_setQueue])

theorem Loop.admits_ports (hl : Loop s c l fid t) (ha : s.clientOf l = some a) :
    t.portMap = s.portMap ∧ t.listens = Function.update s.listens a none := by
  obtain ⟨hp, ⟨hnone, -⟩ | ⟨b, hb, h⟩⟩ := hl.ports
  · cases ha.symm.trans hnone
  · cases ha.symm.trans hb
    exact ⟨hp, h⟩

theorem Balanced.unref_ports {pl : Place} (h : s.Balanced) (hc : s.calls[c]? = some pl) (hpl : pl.holds a = true)
    (hu : s.unref a = some t) : t.portMap = s.portMap ∧ t.listens = s.listens := by
  obtain ⟨x, hx, rfl | ⟨hslots, -, rfl⟩⟩ := h.unref_cases hc hpl hu
  · exact ⟨rfl, listens_alike (modifyScb_alike a fun _ _ => rfl)⟩
  · exact ⟨rfl, listens_free (by simp [listens, hx, Scb.listensOn, hslots])⟩

/-- What `socket_close` of `a` does to the sockets that listen. -/
theorem listens_close (hx : s.scb.get a = some x) (hslots : x.slots = 1)
    (he : Ends (s.dropSlot a) { x with slots := 0 } a t) :
    (t.release a x.refcount).listens = Function.update s.listens a none := by
  have hends := listens_alike (he.alike (g := Scb.listensOn) fun _ _ => rfl)
  have hdrop : (s.dropSlot a).listens = Function.update s.listens a none := by
    funext b
    by_cases hba : b = a
    · subst hba
      simp [listens, dropSlot, modifyScb, hx, hslots, Scb.listensOn]
    · simp [listens, dropSlot, modifyScb, hba]
  have ht : t.listens a = none := by
    rw [hends, hdrop, Function.update_self]
  unfold release
  split
  · rw [listens_free ht, hends, hdrop]
  · rw [← hdrop, ← hends]
    exact listens_alike (modifyScb_alike a fun _ _ => rfl)

@[simp] theorem signalAvailable_portMap (s : State) (l : ScbPtr) (q w : List CallId) :
    (s.signalAvailable l q w).portMap = s.portMap := signal_portMap w

theorem Ends.portMap (he : Ends s x a t) :
    t.portMap = if x.type = .listener then Function.update s.portMap x.port none else s.portMap := by
  cases he with
  | nothing ht => rw [if_neg ht]
  | peer ht => simp [ht, modifyScb]
  | @listener q w ht =>
    rw [if_pos ht]
    exact signalAvailable_portMap _ a q w

/-- What a step does to `Port_Map` and to the sockets that listen. -/
theorem Step.ports (hb : s.Balanced) (hs : Step s act s') :
    (s'.portMap = s.portMap ∧ s'.listens = s.listens) ∨
    (∃ a p, s.portMap p = none ∧ s.listens a = none ∧ p < maxPort ∧ s'.portMap = Function.update s.portMap p (some a) ∧
      s'.listens = Function.update s.listens a (some p)) ∨
    (∃ a p, s.listens a = some p ∧ ¬s'.IsOpen a ∧ s'.portMap = Function.update s.portMap p none ∧
      s'.listens = Function.update s.listens a none) ∨
    ∃ a, s.client act = some a ∧ s'.portMap = s.portMap ∧ s'.listens = Function.update s.listens a none := by
  cases hs with
  | socketFail | listenFail | shutDownFail | acceptFail | connectFail => exact .inl ⟨rfl, rfl⟩
  | shutRead | timedOut | missed | expire => exact .inl ⟨rfl, rfl⟩
  | socket => exact .inl ⟨rfl, listens_newSocket _⟩
  | @listen a x hx hslots ht _ hlt hp =>
    refine .inr (.inl ⟨a, x.port, hp, by simp [listens, hx, Scb.listensOn, ht], hlt, rfl, ?_⟩)
    funext b
    by_cases hba : b = a
    · subst hba
      simp [listens, State.listen, modifyScb, hx, Scb.listensOn, hslots]
    · simp [listens, State.listen, modifyScb, hba]
  | @accept l x fid _ hx _ ht hl =>
    have henter : (s.enter l).listens = s.listens := listens_alike (modifyScb_alike l fun _ _ => rfl)
    have hon : s.client (.accept (some l) fid) = s.clientOf l := by simp [client, loopOn, hx, ht]
    obtain ⟨hp, ⟨-, h⟩ | ⟨a, ha, h⟩⟩ := hl.ports
    · exact .inl ⟨hp, h.trans henter⟩
    · exact .inr (.inr (.inr ⟨a, hon.trans ((clientOf_enter s l).symm.trans ha), hp, h.trans (by rw [henter])⟩))
  | @acceptResume c l fid _ hc hl =>
    have hon : s.client (.resume c fid) = s.clientOf l := by simp [client, loopOn, hc]
    obtain ⟨hp, ⟨-, h⟩ | ⟨a, ha, h⟩⟩ := hl.ports
    · exact .inl ⟨hp, h⟩
    · exact .inr (.inr (.inr ⟨a, hon.trans ha, hp, h⟩))
  | @connect a l _ _ _ n q w =>
    have href : (s.modifyScb a Scb.ref).listens = s.listens := listens_alike (modifyScb_alike a fun _ _ => rfl)
    exact .inl ⟨request_portMap s a l q w n, (listens_alike (request_alike (fun _ _ => rfl) s a l q w n)).trans href⟩
  | @connected c a _ _ _ _ hc _ _ hu =>
    have hports := hb.unref_ports hc (show Place.holds a _ = true by simp [Place.holds, Place.inside]) hu
    exact .inl hports
  | shutWrite => exact .inl ⟨rfl, listens_alike (setVariant_alike (fun _ _ => rfl) s _ _)⟩
  | dup hx hslots =>
    refine .inl ⟨rfl, listens_alike (modifyScb_alike _ fun y hy => ?_)⟩
    cases hx.symm.trans hy
    simp [Scb.listensOn, hslots]
  | drop hx hslots =>
    refine .inl ⟨rfl, listens_alike (modifyScb_alike _ fun y hy => ?_)⟩
    cases hx.symm.trans hy
    simp [Scb.listensOn, Nat.zero_lt_of_lt hslots, Nat.sub_pos_of_lt hslots]
  | @close a x t hx hslots he =>
    have hmap : (t.release a x.refcount).portMap = t.portMap := release_portMap _
    have hlis := listens_close hx hslots he
    rw [he.portMap] at hmap
    by_cases ht : x.type = .listener
    · refine .inr (.inr (.inl ⟨a, x.port, by simp [listens, hx, Scb.listensOn, ht, hslots], ?_, ?_, hlis⟩))
      · rintro ⟨y, hy, ho⟩
        obtain ⟨z, -, -, hsl, -⟩ := release_get hx he hslots hy
        rw [if_pos rfl] at hsl
        omega
      · rw [hmap, if_pos ht]
        rfl
    · have hnone : s.listens a = none := by simp [listens, hx, Scb.listensOn, ht]
      refine .inl ⟨hmap.trans (if_neg ht), hlis.trans ?_⟩
      rw [← hnone, Function.update_eq_self]
  | @signal c r l b fid cr t hc _ _ hu =>
    have hc' : (s.signalConnected r).calls[c]? = some (.signalling l r b fid) := signalConnected_getElem hc (by simp) r
    have hports := (hb.signalConnected r).unref_ports hc' (by simp [Place.holds, Place.inside]) hu
    refine .inl ⟨hports.1.trans (signalConnected_portMap r), hports.2.trans (funext fun a => ?_)⟩
    rw [listens, signalConnected_scb, listens]

theorem Step.admits_ports (hs : Step s act s') (ha : s.client act = some a) :
    s'.portMap = s.portMap ∧ s'.listens = Function.update s.listens a none := by
  obtain ⟨t, c, l, fid, rfl | rfl, hc, hl⟩ := hs.loop_of_client ha
  · exact hl.admits_ports hc
  · have henter : (s.enter l).listens = s.listens := listens_alike (modifyScb_alike l fun _ _ => rfl)
    rw [← henter]
    exact hl.admits_ports hc

/-! ## The table -/

/-- `Port_Map[p]` is the open socket that listens on `p`. -/
def PortsRight (s : State) : Prop :=
  ∀ p < maxPort, ∀ a, s.portMap p = some a ↔
    ∃ x, s.scb.get a = some x ∧ 0 < x.slots ∧ x.type = .listener ∧ x.port = p

/-- Listeners stay listeners in the step, unless they are closed. -/
def KeepsListeners (s : State) (act : Action) : Prop :=
  ∀ s', s.step act = some s' → ∀ a x, s.scb.get a = some x → 0 < x.slots → x.type = .listener →
    ∀ y, s'.scb.get a = some y → 0 < y.slots → y.type = .listener

/-- The step admits no request of an open socket that listens. -/
def AdmitsNoListener (s : State) (act : Action) : Prop :=
  ∀ a ∈ s.client act, ∀ x ∈ s.scb.get a, 0 < x.slots → x.type ≠ .listener

instance (s : State) (act : Action) : Decidable (s.AdmitsNoListener act) := by
  unfold AdmitsNoListener
  infer_instance

theorem portsRight_iff : s.PortsRight ↔ ∀ p < maxPort, ∀ a, s.portMap p = some a ↔ s.listens a = some p := by
  simp only [PortsRight, listens_eq_some]

theorem admitsNoListener_iff : s.AdmitsNoListener act ↔ ∀ a ∈ s.client act, s.listens a = none := by
  refine forall₂_congr fun a _ => ?_
  cases hx : s.scb.get a with
  | none => simp [listens, hx]
  | some x => simp [listens, hx, Scb.listensOn]

/-- What the table rests on. -/
structure PortsInv (s : State) : Prop where
  balanced : s.Balanced
  right : ∀ p < maxPort, ∀ a, s.portMap p = some a ↔ s.listens a = some p
  bound : ∀ a p, s.listens a = some p → p < maxPort

theorem boot_portsInv : boot.PortsInv :=
  ⟨boot_faultless.balanced, fun _ _ _ => (by simp [boot, listens]), fun a p h => (by simp [boot, listens] at h)⟩

/-- A step that admits no listener keeps the table right. -/
theorem PortsInv.step (h : s.PortsInv) (hok : s.AdmitsNoListener act) (hs : s.step act = some s') : s'.PortsInv := by
  have hstep := step_cases hs
  refine ⟨h.balanced.step hstep, ?_, ?_⟩
  · intro q hq b
    have hright := h.right q hq b
    obtain ⟨hp, hl⟩ | ⟨a, p, hfree, hnone, -, hp, hl⟩ | ⟨a, p, hon, -, hp, hl⟩ | ⟨a, ha, hp, hl⟩ := hstep.ports h.balanced
    · rw [hp, hl, hright]
    · rw [hp, hl]
      by_cases hqp : q = p
      · subst hqp
        rw [Function.update_self, Function.update_apply]
        rw [hfree] at hright
        by_cases hba : b = a
        · simp [hba]
        · simpa [hba, eq_comm] using hright
      · rw [Function.update_of_ne hqp, hright, Function.update_apply]
        by_cases hba : b = a
        · simp [hba, hnone, Ne.symm hqp]
        · simp [hba]
    · have howner := (h.right p (h.bound a p hon) a).2 hon
      rw [hp, hl]
      by_cases hqp : q = p
      · subst hqp
        rw [howner] at hright
        rw [Function.update_self, Function.update_apply]
        by_cases hba : b = a
        · simp [hba]
        · have : s.listens b ≠ some q := fun hb => hba (Option.some.inj (hright.2 hb)).symm
          simp [hba, this]
      · rw [Function.update_of_ne hqp, hright, Function.update_apply]
        by_cases hba : b = a
        · subst hba
          simp [hon, Ne.symm hqp]
        · simp [hba]
    · have hnone := admitsNoListener_iff.1 hok a ha
      rw [hp, hl, ← hnone, Function.update_eq_self, hright]
  · intro b q hb
    obtain ⟨-, hl⟩ | ⟨a, p, -, -, hlt, -, hl⟩ | ⟨a, p, -, -, -, hl⟩ | ⟨a, -, -, hl⟩ := hstep.ports h.balanced
    all_goals rw [hl] at hb
    · exact h.bound b q hb
    · rw [Function.update_apply] at hb
      split at hb
      · cases hb
        exact hlt
      · exact h.bound b q hb
    all_goals
      rw [Function.update_apply] at hb
      split at hb
      · cases hb
      · exact h.bound b q hb

theorem PortsInv.keepsListeners (h : s.PortsInv) (hok : s.AdmitsNoListener act) : s.KeepsListeners act := by
  intro s' hs a x hx hslots ht y hy ho
  have hon : s.listens a = some x.port := listens_eq_some.2 ⟨x, hx, hslots, ht, rfl⟩
  have hstays : s'.listens a = some x.port → y.type = .listener := by
    intro hl
    obtain ⟨y', hy', -, hty, -⟩ := listens_eq_some.1 hl
    cases hy.symm.trans hy'
    exact hty
  obtain ⟨-, hl⟩ | ⟨b, p, -, hnone, -, -, hl⟩ | ⟨b, p, -, hclosed, -, hl⟩ | ⟨b, hb, -, hl⟩ :=
    (step_cases hs).ports h.balanced
  · exact hstays (by rw [hl, hon])
  · have hab : a ≠ b := by
      rintro rfl
      cases hon.symm.trans hnone
    exact hstays (by rw [hl, Function.update_of_ne hab, hon])
  · have hab : a ≠ b := by
      rintro rfl
      exact hclosed ⟨y, hy, ho⟩
    exact hstays (by rw [hl, Function.update_of_ne hab, hon])
  · have hab : a ≠ b := by
      rintro rfl
      cases hon.symm.trans (admitsNoListener_iff.1 hok a hb)
    exact hstays (by rw [hl, Function.update_of_ne hab, hon])

/-- A step that admits a listener leaves its entry in the table dangling. -/
theorem PortsInv.not_right (h : s.PortsInv) (hbad : ¬s.AdmitsNoListener act) (hs : s.step act = some s') :
    ¬s'.PortsRight := by
  simp only [admitsNoListener_iff, not_forall] at hbad
  obtain ⟨a, ha, hon⟩ := hbad
  obtain ⟨p, hp⟩ := Option.ne_none_iff_exists'.1 hon
  have howner := (h.right p (h.bound a p hp) a).2 hp
  obtain ⟨hmap, hl⟩ := (step_cases hs).admits_ports ha
  intro hright
  have hstill := (portsRight_iff.1 hright p (h.bound a p hp) a).1 (by rw [hmap, howner])
  rw [hl, Function.update_self] at hstill
  cases hstill

end State

/-- **The port table.** Along a run `Port_Map` has exactly the open listeners, and these stay listeners until they are
closed, exactly when no step of the run admits a request of a socket that listens. -/
theorem ports_iff_no_listener_admitted {s' : State} {as : List Action} (hr : system.run State.boot as = some s') :
    system.AllStates State.PortsRight State.boot as ∧ system.AllSteps State.KeepsListeners State.boot as ↔
      system.AllSteps State.AdmitsNoListener State.boot as := by
  have hiff : system.AllStates State.PortsRight State.boot as ↔ system.AllSteps State.AdmitsNoListener State.boot as :=
    Lts.allStates_iff_allSteps (I := State.PortsInv) (fun _ h => State.portsRight_iff.2 h.right)
      (fun _ _ _ h ha hs => h.step ha hs) (fun _ _ _ h ha hs => h.not_right ha hs) State.boot_portsInv hr
  refine ⟨fun h => hiff.1 h.1, fun hok => ⟨hiff.2 hok, ?_⟩⟩
  exact Lts.allSteps_of_allSteps (I := State.PortsInv) (fun _ _ _ h ha hs => h.step ha hs)
    (fun _ _ h ha => h.keepsListeners ha) State.boot_portsInv hok

/-- A server and a client, and the listener is closed. -/
theorem ports_iff_no_listener_admitted_served :
    let fid : Option Fid := some ⟨0, by decide⟩
    let as := [.socket 5 fid, .listen (some 0), .socket 0 fid, .connect (some 1) 5 100, .accept (some 0) fid, .signal 1,
      .resume 0 none, .drop 0]
    system.AllStates State.PortsRight State.boot as ∧ system.AllSteps State.KeepsListeners State.boot as := by
  intro fid as
  obtain ⟨s', hr⟩ : ∃ s', system.run State.boot as = some s' := Option.isSome_iff_exists.1 (by decide +kernel)
  exact (ports_iff_no_listener_admitted hr).2 (by decide +kernel)

/-- While `sys_Connect` waits on socket 1, another thread calls `sys_Listen` on it; then `sys_Accept` turns it into a peer,
and the entry for port 6 is left behind even when the socket is closed. -/
theorem listener_admitted :
    let fid : Option Fid := some ⟨0, by decide⟩
    ∃ s s', system.run State.boot
        [.socket 5 fid, .listen (some 0), .socket 6 fid, .connect (some 1) 5 100, .listen (some 1)] = some s ∧
      s.listens 1 = some 6 ∧ ¬s.KeepsListeners (.accept (some 0) fid) ∧
      system.run s [.accept (some 0) fid, .signal 1, .resume 0 none, .drop 1] = some s' ∧ ¬s'.PortsRight ∧
      s'.portMap 6 = some 1 ∧ s'.scb.get 1 = none := by
  intro fid
  refine ⟨_, _, rfl, rfl, fun h => ?_, rfl, fun h => ?_, rfl, rfl⟩
  · have := h _ rfl 1 _ rfl (by decide) rfl _ rfl (by decide)
    cases this
  · obtain ⟨x, hx, -⟩ := (h 6 (by decide) 1).1 rfl
    cases hx

end TinyOS.Sockets
