import TinyOS.Sockets.Refcount
import TinyOS.Sockets.Requests

/-!
# When sockets are freed

- `Step.freed`: only `socket_close` frees an SCB that a call still refers to;
- `alive_iff_closes_unused`: no call and no request loses its SCB as long as `socket_close` does not free one in use.
-/

namespace TinyOS.Sockets

open Streams (Fid)

theorem Place.holds_of_unanswered {a : ScbPtr} {pl : Place} (h : pl.unanswered a = true) : pl.holds a = true := by
  cases pl with
  | connecting a' n wake =>
    obtain ⟨rfl, -⟩ : a' = a ∧ wake ≠ .signalled := by simpa [Place.unanswered] using h
    simp [Place.holds, Place.inside]
  | connected a' v =>
    obtain ⟨rfl, rfl⟩ : a' = some a ∧ v = -1 := by simpa [Place.unanswered] using h
    simp [Place.holds, Place.failed]
  | _ => cases h

namespace State

variable {s s' t : State} {a b l : ScbPtr} {c r : CallId} {x : Scb} {pl pl' : Place} {act : Action}

/-- The SCBs that the calls are on, and those of the requests that wait. -/
structure Alive (s : State) : Prop where
  inside : ∀ (c : CallId) pl a, s.calls[c]? = some pl → pl.inside a = true → s.scb.get a ≠ none
  queued : ∀ l r, r ∈ s.queueOf l → ∃ cr, s.cr r = some cr ∧ s.scb.get cr.peer ≠ none

/-- If the step closes a socket and its `refcount` lets it be freed, no call is on it, and no request of it waits at another
socket. -/
def ClosesUnused (s : State) : Action → Prop
  | .drop a => ∀ x ∈ s.scb.get a, x.slots = 1 → 2 ≤ x.refcount ∨
      s.inProgress a = 0 ∧ ∀ l < s.scb.next, l ≠ a → ∀ r ∈ s.queueOf l, ∀ cr ∈ s.cr r, cr.peer ≠ a
  | _ => True

instance (s : State) : ∀ act, Decidable (s.ClosesUnused act)
  | .drop _ => inferInstanceAs (Decidable (∀ x ∈ _, _ → _ ∨ _))
  | .socket .. | .listen _ | .accept .. | .connect .. | .shutDown .. | .dup _ | .resume .. | .signal _ | .expire _ =>
    inferInstanceAs (Decidable True)

/-! ## What is freed -/

/-- A call that decrements `refcount` frees the SCB only if nothing refers to it any more. -/
theorem Balanced.unref_freed {q : Place} (h : s.Balanced) (hc : s.calls[c]? = some pl)
    (hpl : ∀ b, pl.holds b = decide (b = a))
    (hq : ∀ b, q.holds b = false) (hu : s.unref a = some t) (hx : s.scb.get b = some x) :
    t.scb.get b ≠ none ∨ (t.setPlace c q).load b = 0 := by
  obtain ⟨y, hy, rfl | ⟨-, hload, rfl⟩⟩ := h.unref_cases hc (by simp [hpl]) hu
  · obtain ⟨z, hz, -⟩ := (modifyScb_alike (f := Scb.unref) (g := fun _ => ()) a fun _ _ => rfl).get hx
    exact .inl (by simp [hz])
  · by_cases hba : b = a
    · subst hba
      have hcount := countP_setPlace (·.holds b) hc q
      rw [hpl, hq] at hcount
      simp only [decide_true, if_true, Bool.false_eq_true, if_false] at hcount
      exact .inr (Nat.succ.inj (hcount.trans hload))
    · exact .inl (by simp [hba, hx])

/-- What a step frees: the socket that it closes, or one that no call has to do with any more. -/
theorem Step.freed (h : s.Balanced) (hs : Step s act s') (hx : s.scb.get a = some x) :
    s'.scb.get a ≠ none ∨ s'.load a = 0 ∨ (act = .drop a ∧ x.slots = 1 ∧ x.refcount ≤ 1) := by
  have halike : s.scb.Alike (fun _ => ()) s'.scb → s'.scb.get a ≠ none ∨ s'.load a = 0 ∨
      (act = .drop a ∧ x.slots = 1 ∧ x.refcount ≤ 1) := by
    intro hk
    obtain ⟨y, hy, -⟩ := hk.get hx
    exact .inl (by simp [hy])
  have hloop : ∀ {t c l fid z}, Loop t c l fid s' → t.scb.get a = some z → s'.scb.get a ≠ none := by
    intro t c l fid z hl hz
    obtain ⟨y, hy, -⟩ := hl.get_some (g := fun _ => ()) (fun _ _ => rfl) (fun _ => rfl) (fun _ _ _ _ => rfl) hz
    simp [hy]
  cases hs with
  | socketFail | listenFail | shutDownFail | acceptFail | connectFail => exact halike (.refl _ _)
  | shutRead | timedOut | missed | expire => exact halike (.refl _ _)
  | @socket port =>
    have hget : (s.newSocket port.toNat).scb.get a = some x := Heap.get_alloc_of_some hx
    exact .inl (by simp [hget])
  | listen => exact halike (modifyScb_alike _ fun _ _ => rfl)
  | @accept l _ fid _ _ _ _ hl =>
    obtain ⟨z, hz, -⟩ := (modifyScb_alike (f := Scb.ref) (g := fun _ => ()) l fun _ _ => rfl).get hx
    exact .inl (hloop hl hz)
  | acceptResume _ hl => exact .inl (hloop hl hx)
  | @connect b l _ _ _ n q w =>
    have hk : s.scb.Alike (fun _ => ()) (s.modifyScb b Scb.ref).scb := modifyScb_alike b fun _ _ => rfl
    exact halike (hk.trans (request_alike (fun _ _ => rfl) s b l q w n))
  | @connected c b n cr t fid hc _ _ hu =>
    obtain hkeep | hload := h.unref_freed (q := .connected (some b) 0) hc
      (fun b => by simp [Place.holds, Place.inside, Place.failed, eq_comm])
      (fun b => by simp [Place.holds, Place.inside, Place.failed]) hu hx
    · exact .inl hkeep
    · exact .inr (.inl hload)
  | shutWrite => exact halike (setVariant_alike (fun _ _ => rfl) s _ _)
  | dup | drop => exact halike (modifyScb_alike _ fun _ _ => rfl)
  | @close b y t hy hslots he =>
    have hdrop : s.scb.Alike (fun _ => ()) (s.dropSlot b).scb := modifyScb_alike b fun _ _ => rfl
    obtain ⟨z, hz, -⟩ := (hdrop.trans (he.alike fun _ _ => rfl)).get hx
    unfold release
    split
    · rename_i hle
      by_cases hab : a = b
      · subst hab
        cases hx.symm.trans hy
        exact .inr (.inr ⟨rfl, hslots, by omega⟩)
      · exact .inl (by simp [hab, hz])
    · obtain ⟨z', hz', -⟩ := (modifyScb_alike (f := Scb.unref) (g := fun _ => ()) b fun _ _ => rfl).get hz
      exact .inl (by simp [hz'])
  | @signal c r l b fid cr t hc _ _ hu =>
    have hc' : (s.signalConnected r).calls[c]? = some (.signalling l r b fid) := signalConnected_getElem hc (by simp) r
    have hx' : (s.signalConnected r).scb.get a = some x := by rw [signalConnected_scb, hx]
    obtain hkeep | hload := (h.signalConnected r).unref_freed (q := .accepted l r b fid (s.linked cr.peer b)) hc'
      (fun b => by simp [Place.holds, Place.inside, Place.failed, eq_comm])
      (fun b => by simp [Place.holds, Place.inside, Place.failed]) hu hx'
    · exact .inl hkeep
    · exact .inr (.inl hload)

/-! ## The calls and the requests -/

theorem Moves.inside (hm : s.Moves act c pl pl') (h : pl'.inside a = true) : pl.inside a = true := by
  cases hm with
  | stay | woken | signalled | expired => exact h
  | loop _ hend =>
    rcases hend with ⟨_, rfl⟩ | rfl | ⟨_, _, _, rfl⟩
    · cases h
    · exact h
    · exact h
  | accepted | failed | connected => cases h

/-- The SCBs of the calls in progress after a step have been there before. -/
theorem Step.inside (hs : Step s act s') (ha : s.Alive) (hc : s'.calls[c]? = some pl') (hin : pl'.inside a = true) :
    ∃ x, s.scb.get a = some x := by
  cases hold : s.calls[c]? with
  | none =>
    obtain ⟨-, hb⟩ := hs.begins hold hc
    cases hb with
    | refused | failed => cases hin
    | @accept l x _ fid hx _ _ hend =>
      have : l = a := by
        rcases hend with ⟨_, rfl⟩ | rfl | ⟨_, _, _, rfl⟩
        · cases hin
        · simpa [Place.inside] using hin
        · simpa [Place.inside] using hin
      exact ⟨x, this ▸ hx⟩
    | @connect a' x port n hx =>
      obtain rfl : a' = a := by simpa [Place.inside] using hin
      exact ⟨x, hx⟩
  | some pl =>
    obtain ⟨pl'', hpl'', hm⟩ := hs.moves hold
    cases hc.symm.trans hpl''
    exact Option.ne_none_iff_exists'.1 (ha.inside c pl a hold (hm.inside hin))

/-- The sockets of the requests that wait after a step have been there before. -/
theorem Step.requester {cr : Cr} (hs : Step s act s') (h : s.Requests) (h' : s'.Requests) (ha : s.Alive)
    (hr : r ∈ s'.queueOf l) (hcr : s'.cr r = some cr) : ∃ x, s.scb.get cr.peer = some x := by
  obtain ⟨a, ha', hua⟩ := h'.queued l r hr
  cases hcr.symm.trans ha'
  obtain ⟨pl', hr', hpl'⟩ := (Option.any_eq_true _ _).1 hua
  by_cases hin : pl'.inside a = true
  · exact hs.inside ha hr' hin
  · obtain rfl : pl' = .connected (some a) (-1) := by
      cases pl' with
      | connecting a' n wake =>
        obtain ⟨rfl, -⟩ : a' = a ∧ wake ≠ .signalled := by simpa [Place.unanswered] using hpl'
        simp [Place.inside] at hin
      | connected a' v =>
        obtain ⟨rfl, rfl⟩ : a' = some a ∧ v = -1 := by simpa [Place.unanswered] using hpl'
        rfl
      | _ => cases hpl'
    cases hold : s.calls[r]? with
    | none =>
      obtain ⟨-, hb⟩ := hs.begins hold hr'
      cases hb with
      | accept _ _ _ _ hend => rcases hend with ⟨_, he⟩ | he | ⟨_, _, _, he⟩ <;> cases he
    | some pl =>
      obtain ⟨pl'', hpl'', hm⟩ := hs.moves hold
      cases hr'.symm.trans hpl''
      cases hm with
      | stay =>
        obtain hq | he := hs.queued hr
        · obtain ⟨a', hcr', hua'⟩ := h.queued l r hq
          obtain ⟨cr, hcr, hget⟩ := ha.queued l r hq
          cases hcr.symm.trans hcr'
          rw [Unanswered, hold] at hua'
          obtain rfl : a = a' := by simpa [Place.unanswered] using hua'
          exact Option.ne_none_iff_exists'.1 hget
        · have hlt := (List.getElem?_eq_some_iff.1 hold).1
          exact absurd he (Nat.ne_of_lt hlt)
      | failed => exact Option.ne_none_iff_exists'.1 (ha.inside r _ a hold (by simp [Place.inside]))
      | loop _ hend => rcases hend with ⟨_, he⟩ | he | ⟨_, _, _, he⟩ <;> cases he

/-- What keeps the SCBs. -/
structure Living (s : State) : Prop where
  balanced : s.Balanced
  requests : s.Requests
  alive : s.Alive

theorem not_holds_of_load (h : s.load a = 0) (hc : s.calls[c]? = some pl) : pl.holds a = false := by
  by_contra hn
  have := load_pos hc (by simpa using hn)
  omega

theorem inProgress_pos (hc : s.calls[c]? = some pl) (hpl : pl.inside a = true) : 0 < s.inProgress a :=
  List.countP_pos_iff.2 ⟨pl, List.mem_of_getElem? hc, hpl⟩

theorem Step.drop_cr (hs : Step s (.drop a) s') : s'.cr = s.cr := by
  cases hs with
  | drop => rfl
  | close _ _ he =>
    rw [release_cr]
    cases he with
    | nothing => rfl
    | peer => rfl
    | listener => exact signal_cr _

/-- `socket_close` frees its SCB. -/
theorem Step.drop_get (hs : Step s (.drop a) s') (hx : s.scb.get a = some x) (hslots : x.slots = 1)
    (hle : x.refcount ≤ 1) : s'.scb.get a = none := by
  cases hs with
  | drop hy hlt =>
    cases hx.symm.trans hy
    omega
  | close hy _ he =>
    cases hx.symm.trans hy
    unfold release
    rw [if_pos (by omega)]
    exact Heap.get_free_self

/-- `socket_close` leaves the calls on the socket where they are; it wakes at most one. -/
theorem Step.drop_calls (hs : Step s (.drop a) s') (hc : s.calls[c]? = some pl) (hin : pl.inside b = true) :
    ∃ pl', s'.calls[c]? = some pl' ∧ pl'.inside b = true := by
  obtain ⟨pl', hc', hm⟩ := hs.moves hc
  refine ⟨pl', hc', ?_⟩
  cases hm with
  | stay | woken | signalled | expired => exact hin
  | loop he | failed _ _ he | connected _ _ he | accepted _ _ _ _ _ he => cases he

theorem Step.drop_getElem (hs : Step s (.drop a) s') (hc : s'.calls[c]? = some pl) : ∃ pl', s.calls[c]? = some pl' := by
  cases hold : s.calls[c]? with
  | none => cases (hs.begins hold hc).2
  | some pl' => exact ⟨pl', rfl⟩

/-- The queues of the other sockets. -/
theorem Step.drop_queueOf (hs : Step s (.drop a) s') (hla : l ≠ a) : s'.queueOf l = s.queueOf l := by
  have hmodify : ∀ (t : State) f, (t.modifyScb a f).queueOf l = t.queueOf l := by
    intro t f
    simp [queueOf, modifyScb, hla]
  cases hs with
  | drop => exact hmodify s _
  | @close _ x t _ _ he =>
    have hrelease : (t.release a x.refcount).queueOf l = t.queueOf l := by
      unfold release
      split
      · simp [queueOf, hla]
      · exact hmodify t _
    rw [hrelease]
    cases he with
    | nothing => exact hmodify s _
    | @peer b w r w' r' p' y k _ _ _ hy hv =>
      by_cases hlb : l = b
      · subst hlb
        have hget : s.scb.get l = some y := by simpa [dropSlot, modifyScb, hla] using hy
        rw [queueOf_eq hget, Scb.queue, hv, queueOf_eq (x := y.setVariant (.peer none w' r'))]
        · rfl
        · simp [modifyScb, hy]
      · simp [queueOf, modifyScb, dropSlot, hlb, hla]
    | @listener q w =>
      simp [queueOf, signalAvailable, modifyScb, dropSlot, hla]

theorem Living.step (h : s.Living) (hok : s.ClosesUnused act) (hs : s.step act = some s') : s'.Living := by
  have hstep := step_cases hs
  have hrequests := h.requests.step hs
  refine ⟨h.balanced.step hstep, hrequests, fun c pl a hc hin => ?_, fun l r hr => ?_⟩
  · obtain ⟨x, hx⟩ := hstep.inside h.alive hc hin
    obtain hkeep | hload | ⟨rfl, hslots, hle⟩ := hstep.freed h.balanced hx
    · exact hkeep
    · have := not_holds_of_load hload hc
      simp [Place.holds, hin] at this
    · obtain hge | ⟨hidle, -⟩ := hok x hx hslots
      · omega
      · obtain ⟨pl₀, hpl₀⟩ := hstep.drop_getElem hc
        obtain ⟨pl₁, hpl₁, hm⟩ := hstep.moves hpl₀
        cases hc.symm.trans hpl₁
        have := inProgress_pos hpl₀ (hm.inside hin)
        omega
  · obtain ⟨a, ha, hua⟩ := hrequests.queued l r hr
    obtain ⟨x, hx⟩ := hstep.requester h.requests hrequests h.alive hr ha
    refine ⟨_, ha, ?_⟩
    obtain ⟨pl, hpl, hun⟩ := (Option.any_eq_true _ _).1 hua
    obtain hkeep | hload | ⟨rfl, hslots, hle⟩ := hstep.freed h.balanced hx
    · exact hkeep
    · have := not_holds_of_load hload hpl
      rw [Place.holds_of_unanswered hun] at this
      cases this
    · obtain hge | ⟨-, hnone⟩ := hok x hx hslots
      · omega
      · have hla : l ≠ a := by
          rintro rfl
          rw [queueOf_none (hstep.drop_get hx hslots hle)] at hr
          cases hr
        rw [hstep.drop_queueOf hla] at hr
        rw [hstep.drop_cr] at ha
        have hlt : l < s.scb.next := by
          by_contra hn
          rw [queueOf_none (s.scb.fresh l (Nat.le_of_not_lt hn))] at hr
          cases hr
        exact absurd rfl (hnone l hlt hla r hr _ ha)

theorem not_alive (hbad : ¬s.ClosesUnused act) (hs : s.step act = some s') : ¬s'.Alive := by
  cases act with
  | drop a =>
    have hstep := step_cases hs
    simp only [ClosesUnused, not_forall, not_or, not_and] at hbad
    obtain ⟨x, hx, hslots, hlt, hused⟩ := hbad
    have hfreed := hstep.drop_get hx hslots (by omega)
    intro halive
    by_cases hidle : s.inProgress a = 0
    · obtain ⟨l, hl, hla, r, hr, cr, hcr, hpeer⟩ := hused hidle
      rw [← hstep.drop_queueOf hla] at hr
      obtain ⟨cr', hcr', hget⟩ := halive.queued l r hr
      rw [hstep.drop_cr, hcr] at hcr'
      cases hcr'
      exact hget ((not_not.1 hpeer).symm ▸ hfreed)
    · obtain ⟨pl, hmem, hin⟩ := List.countP_pos_iff.1 (Nat.pos_of_ne_zero hidle)
      obtain ⟨c, hc⟩ := List.mem_iff_getElem?.1 hmem
      obtain ⟨pl', hc', hin'⟩ := hstep.drop_calls hc hin
      exact halive.inside c pl' a hc' hin' hfreed
  | _ => exact absurd trivial hbad

theorem boot_living : boot.Living :=
  ⟨boot_faultless.balanced, boot_requests, fun _ _ _ hc => (by cases hc), fun _ _ hr => (by cases hr)⟩

end State

/-- **No socket is freed in use.** Along a run every call of `sys_Accept` and `sys_Connect` finds its SCB, and so do the
requests in the queues, exactly when no `socket_close` frees an SCB that a call or a request refers to. -/
theorem alive_iff_closes_unused {s' : State} {as : List Action} (hr : system.run State.boot as = some s') :
    system.AllStates State.Alive State.boot as ↔ system.AllSteps State.ClosesUnused State.boot as :=
  Lts.allStates_iff_allSteps (I := State.Living) (fun _ h => h.alive) (fun _ _ _ h ha hs => h.step ha hs)
    (fun _ _ _ _ ha hs => State.not_alive ha hs) State.boot_living hr

/-- A listener is closed after its only client was accepted. -/
theorem alive_iff_closes_unused_served :
    let fid : Option Fid := some ⟨0, by decide⟩
    let as := [.socket 5 fid, .listen (some 0), .socket 0 fid, .connect (some 1) 5 100, .accept (some 0) fid, .signal 1,
      .resume 0 none, .drop 0]
    system.AllStates State.Alive State.boot as := by
  intro fid as
  obtain ⟨s', hr⟩ : ∃ s', system.run State.boot as = some s' := Option.isSome_iff_exists.1 (by decide +kernel)
  exact (alive_iff_closes_unused hr).2 (by decide +kernel)

/-- One call of `sys_Accept` waits when its listener is closed: the SCB is freed, and the call that was woken uses it. -/
theorem freed_under_accept :
    let fid : Option Fid := some ⟨0, by decide⟩
    ∃ s, system.run State.boot [.socket 5 fid, .listen (some 0), .accept (some 0) fid, .drop 0] = some s ∧
      s.calls = [.accepting 0 true] ∧ s.scb.get 0 = none ∧ ¬s.Alive ∧ s.step (.resume 0 fid) = none := by
  intro fid
  refine ⟨_, rfl, rfl, rfl, fun h => ?_, rfl⟩
  exact h.inside 0 _ 0 rfl rfl rfl

end TinyOS.Sockets
