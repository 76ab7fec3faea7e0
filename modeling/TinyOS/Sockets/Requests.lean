import TinyOS.Sockets.Calls

/-!
# The requests of `sys_Connect`

- `Shrinks`: what a step other than `sys_Connect` does to the queues;
- `Requests`: a request is in one queue at most, and while it is there nobody has admitted or signalled it; a call of
  `sys_Connect` returns 0 only if a call of `sys_Accept` has made a connection for it (`Requests.step`).
-/

namespace TinyOS.Sockets

open Streams (Fid)

/-- A call of `sys_Connect` on `a` that waits and was not signalled, or has returned -1. -/
def Place.unanswered (a : ScbPtr) : Place → Bool
  | .connecting a' _ wake => a' = a ∧ wake ≠ .signalled
  | .connected a' value => a' = some a ∧ value = -1
  | _ => false

/-- A call of `sys_Accept` that has returned a fid connected to the socket of the request of call `r`. -/
def Place.serves (r : CallId) : Place → Bool
  | .accepted _ r' _ _ linked => r' = r ∧ linked
  | _ => false

namespace State

variable {s s' t : State} {a b l l' : ScbPtr} {c d r : CallId} {x y : Scb} {pl pl' : Place} {q w : List CallId}
  {fid : Option Fid} {act : Action} {f : Scb → Scb}

/-! ## Queues -/

/-- The requests in the queue of `l`; none if it is not a listener. -/
def queueOf (s : State) (l : ScbPtr) : List CallId := ((s.scb.get l).map Scb.queue).getD []

theorem queueOf_eq (hx : s.scb.get l = some x) : s.queueOf l = x.queue := by simp [queueOf, hx]

theorem queueOf_none (hx : s.scb.get l = none) : s.queueOf l = [] := by simp [queueOf, hx]

/-- No queue has got a request, or another order. -/
def Shrinks (s t : State) : Prop := ∀ l, (t.queueOf l).Sublist (s.queueOf l)

theorem Shrinks.refl (s : State) : s.Shrinks s := fun _ => List.Sublist.refl _

theorem Shrinks.trans (h : s.Shrinks t) (h' : t.Shrinks s') : s.Shrinks s' := fun l => (h' l).trans (h l)

theorem Shrinks.mem (h : s.Shrinks t) (hr : r ∈ t.queueOf l) : r ∈ s.queueOf l := (h l).mem hr

theorem shrinks_of_keeps (h : s.scb.Keeps Scb.queue t.scb) : s.Shrinks t := by
  intro l
  cases hy : t.scb.get l with
  | none =>
    rw [queueOf_none hy]
    exact List.nil_sublist _
  | some y =>
    obtain ⟨x, hx, hyx⟩ := h.kept l y hy
    rw [queueOf_eq hy, queueOf_eq hx, hyx]

theorem shrinks_modifyScb (a : ScbPtr) (hf : ∀ x, s.scb.get a = some x → (f x).queue.Sublist x.queue) :
    s.Shrinks (s.modifyScb a f) := by
  intro l
  cases hx : s.scb.get l with
  | none =>
    rw [queueOf_none]
    · exact List.nil_sublist _
    · simp [modifyScb, Heap.get_modify, hx]
  | some x =>
    rw [queueOf_eq hx]
    by_cases hl : l = a
    · subst hl
      rw [queueOf_eq (x := f x) (by simp [modifyScb, hx])]
      exact hf x hx
    · rw [queueOf_eq (x := x) (by simp [modifyScb, hl, hx])]

theorem shrinks_newSocket (port : Nat) : s.Shrinks (s.newSocket port) := by
  intro l
  by_cases hl : l = s.scb.next
  · subst hl
    rw [queueOf_eq (x := ⟨0, .unbound, port, .unbound, 1, 0⟩) (by simp [newSocket])]
    exact List.nil_sublist _
  · have hget : (s.newSocket port).scb.get l = s.scb.get l := by simp [newSocket, Heap.get_alloc, hl]
    rw [queueOf, hget, queueOf]

theorem shrinks_connect (a b : ScbPtr) : s.Shrinks (s.connect a b) := by
  have ha : s.Shrinks (s.modifyScb a (·.wire b s.pipe.next (s.pipe.next + 1))) :=
    shrinks_modifyScb a fun x _ => List.nil_sublist _
  exact ha.trans (shrinks_modifyScb b fun x _ => List.nil_sublist _)

theorem shrinks_setQueue (hx : s.scb.get l = some x) (hq : q.Sublist x.queue) : s.Shrinks (s.setQueue l q w) := by
  refine shrinks_modifyScb l fun y hy => ?_
  cases hx.symm.trans hy
  exact hq

theorem shrinks_signalAvailable (hx : s.scb.get l = some x) (hq : q.Sublist x.queue) :
    s.Shrinks (s.signalAvailable l q w) := by
  have hs : s.Shrinks (s.signal w).2 := by
    intro l
    rw [queueOf, signal_scb, queueOf]
  refine hs.trans (shrinks_modifyScb l fun y hy => ?_)
  rw [signal_scb, hx] at hy
  cases hy
  exact hq

theorem Ends.shrinks (hx : s.scb.get a = some x) (h : Ends s x a t) : s.Shrinks t := by
  cases h with
  | nothing => exact .refl s
  | @peer b => exact shrinks_modifyScb b fun _ _ => List.nil_sublist _
  | @listener q w ht hv =>
    exact shrinks_signalAvailable (s := { s with portMap := Function.update s.portMap x.port none }) hx
      (by simp [Scb.queue, hv])

theorem release_shrinks (n : Int) : t.Shrinks (t.release a n) := by
  unfold release
  split
  · exact shrinks_of_keeps ((Heap.Keeps.refl _ _).free a)
  · exact shrinks_modifyScb a fun x _ => List.Sublist.refl _

/-! ## The state of a request -/

/-- Call `r` is one of `sys_Connect` on `a` that waits and was not signalled, or has returned -1. -/
def Unanswered (s : State) (r : CallId) (a : ScbPtr) : Prop := s.calls[r]?.any (·.unanswered a) = true

/-- A call of `sys_Accept` has returned a fid connected to the socket of the request of call `r`. -/
def Served (s : State) (r : CallId) : Prop := ∃ c : CallId, s.calls[c]?.any (·.serves r) = true

/-- What holds of a call at its place. -/
def Right (s : State) (c : CallId) : Place → Prop
  | .connecting a _ wake => ∃ admitted, s.cr c = some ⟨admitted, a⟩ ∧ (wake = .signalled → admitted = true ∧ s.Served c)
  | .connected _ value => value = -1 ∨ value = 0 ∧ s.Served c
  | .signalling _ r b _ => s.kernel = some c ∧ ∃ a, s.cr r = some ⟨true, a⟩ ∧ s.Unanswered r a ∧ s.linked a b = true
  | _ => True

/-- The requests in the queues, and those of the calls. -/
structure Requests (s : State) : Prop where
  nodup : ∀ l, (s.queueOf l).Nodup
  once : ∀ l l' r, r ∈ s.queueOf l → r ∈ s.queueOf l' → l = l'
  queued : ∀ l r, r ∈ s.queueOf l → ∃ a, s.cr r = some ⟨false, a⟩ ∧ s.Unanswered r a
  right : ∀ c pl, s.calls[c]? = some pl → s.Right c pl

theorem Unanswered.start (h : s.Unanswered r a) (pl : Place) : (s.start pl).Unanswered r a := start_any h

theorem Unanswered.lt (h : s.Unanswered r a) : r < s.calls.length := by
  obtain ⟨pl, hr, -⟩ := (Option.any_eq_true _ _).1 h
  exact (List.getElem?_eq_some_iff.1 hr).1

theorem Served.start (h : s.Served r) (pl : Place) : (s.start pl).Served r := h.imp fun _ hc => start_any hc

theorem Served.setPlace (h : s.Served r) (hc : s.calls[c]? = some pl) (hs : ∀ r, pl.serves r = false) :
    (s.setPlace c pl').Served r :=
  h.imp fun _ hd => setPlace_any hc (fun hp => by rw [hs] at hp; cases hp) hd

theorem Right.of_other (h : s.Right c pl) (hk : s.kernel ≠ some c) (hcr : t.cr c = s.cr c)
    (hs : ∀ r, s.Served r → t.Served r) : t.Right c pl := by
  cases pl with
  | connecting a n wake =>
    obtain ⟨adm, hadm, hsig⟩ := h
    exact ⟨adm, hcr.trans hadm, fun hw => ⟨(hsig hw).1, hs c (hsig hw).2⟩⟩
  | connected a v => exact h.imp id fun hv => ⟨hv.1, hs c hv.2⟩
  | signalling l r b f => exact absurd h.1 hk
  | _ => trivial

theorem Right.of_idle (h : s.Right c pl) (hk : s.kernel = none) (hcr : t.cr c = s.cr c)
    (hs : ∀ r, s.Served r → t.Served r) : t.Right c pl := h.of_other (by simp [hk]) hcr hs

/-- A call whose request waits in a queue. -/
theorem Unanswered.right {admitted : Bool} (h : s.Unanswered r a) (hr : s.calls[r]? = some pl)
    (hcr : t.cr r = some ⟨admitted, a⟩) : t.Right r pl := by
  rw [Unanswered, hr] at h
  cases pl with
  | connecting a' n wake =>
    obtain ⟨rfl, hw⟩ : a' = a ∧ wake ≠ .signalled := by simpa [Place.unanswered] using h
    exact ⟨admitted, hcr, fun h => absurd h hw⟩
  | connected a' v =>
    obtain ⟨-, hv⟩ : a' = some a ∧ v = -1 := by simpa [Place.unanswered] using h
    exact .inl hv
  | _ => cases h

theorem Requests.of_shrinks (h : s.Requests) (hq : s.Shrinks t) (hcr : ∀ l r, r ∈ t.queueOf l → t.cr r = s.cr r)
    (hun : ∀ l r a, r ∈ t.queueOf l → s.Unanswered r a → t.Unanswered r a)
    (hright : ∀ c pl, t.calls[c]? = some pl → t.Right c pl) : t.Requests := by
  refine ⟨fun l => (h.nodup l).sublist (hq l), fun l l' r hr hr' => h.once l l' r (hq.mem hr) (hq.mem hr'), ?_, hright⟩
  intro l r hr
  obtain ⟨a, ha, hua⟩ := h.queued l r (hq.mem hr)
  exact ⟨a, (hcr l r hr).trans ha, hun l r a hr hua⟩

/-- A step that only takes requests out of the queues. -/
theorem Requests.idle (h : s.Requests) (hk : s.kernel = none) (hq : s.Shrinks t) (hcalls : t.calls = s.calls)
    (hcr : t.cr = s.cr) : t.Requests := by
  have hserved : ∀ r, s.Served r → t.Served r := fun r hr => by rwa [Served, hcalls]
  refine h.of_shrinks hq (fun l r _ => by rw [hcr]) (fun l r a _ hu => by rwa [Unanswered, hcalls]) fun c pl hc => ?_
  exact (h.right c pl (hcalls ▸ hc)).of_idle hk (by rw [hcr]) hserved

/-- A call moves on. -/
theorem Requests.setPlace (h : s.Requests) (hc : s.calls[c]? = some pl) (hs : ∀ r, pl.serves r = false)
    (hun : ∀ a, pl.unanswered a = true → pl'.unanswered a = true) (hright : (s.setPlace c pl').Right c pl') :
    (s.setPlace c pl').Requests := by
  refine h.of_shrinks (fun l => List.Sublist.refl _) (fun _ _ _ => rfl) (fun l r a _ hu => setPlace_any hc (hun a) hu) ?_
  intro d pl₀ hd
  obtain ⟨rfl, rfl⟩ | ⟨-, hd⟩ := setPlace_getElem hd
  · exact hright
  · have hold := h.right d pl₀ hd
    cases pl₀ with
    | connecting a n wake =>
      obtain ⟨adm, hadm, hsig⟩ := hold
      exact ⟨adm, hadm, fun hw => ⟨(hsig hw).1, (hsig hw).2.setPlace hc hs⟩⟩
    | connected a v => exact hold.imp id fun hv => ⟨hv.1, hv.2.setPlace hc hs⟩
    | signalling l r b f =>
      obtain ⟨hk, a, ha, hu, hl⟩ := hold
      exact ⟨hk, a, ha, setPlace_any hc (hun a) hu, hl⟩
    | _ => trivial

theorem Requests.start (h : s.Requests) (hk : s.kernel = none) (hright : (s.start pl).Right s.calls.length pl) :
    (s.start pl).Requests := by
  refine h.of_shrinks (fun l => List.Sublist.refl _) (fun _ _ _ => rfl) (fun l r a _ hu => hu.start pl) ?_
  intro d pl₀ hd
  obtain ⟨rfl, rfl⟩ | hd := start_getElem hd
  · exact hright
  · exact (h.right d pl₀ hd).of_idle hk rfl fun r hr => hr.start pl

/-! ## Steps -/

/-- The request that is taken out of its queue is in no queue any more. -/
theorem Requests.pop (h : s.Requests) (hx : s.scb.get l = some x) (hv : x.variant = .listener (r :: q) w) (l' : ScbPtr) :
    r ∉ (s.setQueue l q w).queueOf l' := by
  have hl : s.queueOf l = r :: q := by simp [queueOf_eq hx, Scb.queue, hv]
  intro hr
  have hold : r ∈ s.queueOf l' :=
    (shrinks_setQueue (w := w) hx (q := q) (by simp [Scb.queue, hv])).mem hr
  obtain rfl := h.once l l' r (by simp [hl]) hold
  have hnew : (s.setQueue l q w).queueOf l = q := by
    rw [queueOf_eq (x := x.setVariant (.listener q w)) (by simp [setQueue, modifyScb, hx])]
    rfl
  have hnodup := h.nodup l
  rw [hl] at hnodup
  exact (List.nodup_cons.1 hnodup).1 (hnew ▸ hr)

theorem Requests.grant {cr : Cr} (h : s.Requests) (hk : s.kernel = none) (hx : s.scb.get l = some x)
    (hv : x.variant = .listener (r :: q) w) (hcr : s.cr r = some cr) :
    ((s.setQueue l q w).grant r cr).Requests ∧ s.Unanswered r cr.peer := by
  have hmem : r ∈ s.queueOf l := by simp [queueOf_eq hx, Scb.queue, hv]
  obtain ⟨a, ha, hua⟩ := h.queued l r hmem
  cases hcr.symm.trans ha
  have hgrant : (s.setQueue l q w).Shrinks ((s.setQueue l q w).grant r ⟨false, a⟩) :=
    shrinks_modifyScb a fun x _ => List.Sublist.refl _
  have hpop := h.pop hx hv
  have hset : s.Shrinks (s.setQueue l q w) := shrinks_setQueue hx (by simp [Scb.queue, hv])
  refine ⟨h.of_shrinks (hset.trans hgrant) ?_ (fun _ _ _ _ hu => hu) ?_, hua⟩
  · intro l' r' hr'
    have hne : r' ≠ r := fun he => hpop l' (he ▸ hgrant.mem hr')
    exact Function.update_of_ne hne _ _
  · intro d pl hd
    by_cases hdr : d = r
    · subst hdr
      exact hua.right hd (Function.update_self _ _ _)
    · exact (h.right d pl hd).of_idle hk (Function.update_of_ne hdr _ _) fun r hr => hr

theorem linked_connect (hx : s.scb.get a = some x) (ht : x.type = .peer) (hy : s.scb.get b = some y) (hab : a ≠ b) :
    (s.connect a b).linked a b = true := by
  have ha : (s.connect a b).scb.get a = some (x.wire b s.pipe.next (s.pipe.next + 1)) := by
    simp [connect, modifyScb, hx, hab]
  have hb : (s.connect a b).scb.get b = some (y.wire a (s.pipe.next + 1) s.pipe.next).toPeer := by
    simp [connect, modifyScb, hy, Ne.symm hab]
  obtain ⟨n, ty, p, v, k, m⟩ := x
  cases ht
  unfold linked
  rw [ha, hb]
  simp [Scb.wire, Scb.toPeer]

theorem Requests.loop (h : s.Requests) (hk : s.kernel = none) (hc : s.calls[c]? = some (.accepting l true))
    (hl : Loop s c l fid t) : t.Requests := by
  cases hl with
  | closed => exact h.setPlace hc (fun _ => rfl) (fun _ hu => by cases hu) trivial
  | @wait x w p fid hx hv =>
    have hq := h.idle hk (t := s.setQueue l [] (w ++ [c])) (shrinks_setQueue hx (List.nil_sublist _)) rfl rfl
    exact hq.setPlace hc (fun _ => rfl) (fun _ hu => by cases hu) trivial
  | refuse hx hv _ hcr =>
    exact (h.grant hk hx hv hcr).1.setPlace hc (fun _ => rfl) (fun _ hu => by cases hu) trivial
  | @honor x r q w p cr y fid hx hv _ hcr hy =>
    obtain ⟨hg, hua⟩ := h.grant hk hx hv hcr
    have hu := hg.idle hk ((shrinks_newSocket x.port).trans (shrinks_connect cr.peer s.scb.next)) rfl rfl
    refine hu.of_shrinks (fun _ => List.Sublist.refl _) (fun _ _ _ => rfl)
      (fun _ _ _ _ hu => setPlace_any hc (fun h => by cases h) hu) ?_
    intro d pl hd
    obtain ⟨rfl, rfl⟩ | ⟨-, hd⟩ := setPlace_getElem hd
    · refine ⟨rfl, cr.peer, Function.update_self _ _ _, setPlace_any hc (fun h => by cases h) hua, ?_⟩
      obtain ⟨z, hz, -⟩ := (setQueue_alike (g := fun _ => ()) (fun _ _ => rfl) s l q w).get hy
      have ha : (((s.setQueue l q w).grant r cr).newSocket x.port).scb.get cr.peer = some z.toPeer :=
        Heap.get_alloc_of_some (by simp [State.grant, modifyScb, hz])
      have hne : cr.peer ≠ s.scb.next := Nat.ne_of_lt (Heap.lt_next hy)
      exact linked_connect ha rfl (Heap.get_alloc_self (h := ((s.setQueue l q w).grant r cr).scb)) hne
    · exact (hu.right d pl hd).of_idle hk rfl fun r hr => hr.setPlace hc fun _ => rfl

/-- `sys_Connect` puts its request at the end of the queue. -/
theorem queueOf_request (hy : s.scb.get l = some y) (n : Nat) :
    (s.request a l q w n).queueOf = Function.update s.queueOf l (q ++ [s.calls.length]) := by
  obtain ⟨w', hscb⟩ := request_scb s a l q w n
  funext l'
  rw [queueOf, hscb]
  by_cases hl : l' = l
  · subst hl
    rw [Heap.get_modify_self, Function.update_self, Heap.get_modify, hy]
    split <;> rfl
  · rw [Heap.get_modify_of_ne hl, Function.update_of_ne hl, Heap.get_modify, queueOf]
    split <;> cases s.scb.get l' <;> rfl

theorem Requests.request (h : s.Requests) (hk : s.kernel = none) (hy : s.scb.get l = some y)
    (hv : y.variant = .listener q w) (n : Nat) : (s.request a l q w n).Requests := by
  have hqueue := queueOf_request (a := a) (q := q) (w := w) hy n
  have hl : s.queueOf l = q := by simp [queueOf_eq hy, Scb.queue, hv]
  have hlt : ∀ l r, r ∈ s.queueOf l → r < s.calls.length := fun l r hr => (h.queued l r hr).elim fun _ ha => ha.2.lt
  have hcr : ∀ r, (s.request a l q w n).cr r = if r = s.calls.length then some ⟨false, a⟩ else s.cr r := fun r =>
    (congrFun (signal_cr w) r).trans (Function.update_apply _ _ _ _)
  have hany : ∀ {p : Place → Bool} {r : CallId}, (∀ l, p (.accepting l false) = true → p (.accepting l true) = true) →
      s.calls[r]?.any p = true → (s.request a l q w n).calls[r]?.any p = true :=
    fun hp hr => start_any (signal_any hp w hr)
  have hself : (s.request a l q w n).Unanswered s.calls.length a := by
    have hlast : (s.request a l q w n).calls[s.calls.length]? = some (.connecting a n .asleep) :=
      start_last (signal_length w)
    rw [Unanswered, hlast]
    simp [Place.unanswered]
  refine ⟨?_, ?_, ?_, ?_⟩
  · intro l'
    rw [hqueue, Function.update_apply]
    split
    · have hfresh : ∀ r ∈ q, r ≠ s.calls.length := fun r hr => Nat.ne_of_lt (hlt l r (hl ▸ hr))
      simpa [List.nodup_append] using ⟨hl ▸ h.nodup l, hfresh⟩
    · exact h.nodup l'
  · have hmem : ∀ l' r, r ∈ (s.request a l q w n).queueOf l' → (r ∈ s.queueOf l' ∧ r < s.calls.length) ∨
        (l' = l ∧ r = s.calls.length) := by
      intro l' r hr
      rw [hqueue, Function.update_apply] at hr
      split at hr
      · rename_i he
        obtain hr | hr := List.mem_append.1 hr
        · exact .inl ⟨he ▸ hl ▸ hr, hlt l r (hl ▸ hr)⟩
        · exact .inr ⟨he, List.mem_singleton.1 hr⟩
      · exact .inl ⟨hr, hlt l' r hr⟩
    intro l₁ l₂ r hr₁ hr₂
    obtain ⟨hr₁, hlt₁⟩ | ⟨hl₁, he₁⟩ := hmem l₁ r hr₁ <;> obtain ⟨hr₂, hlt₂⟩ | ⟨hl₂, he₂⟩ := hmem l₂ r hr₂
    · exact h.once l₁ l₂ r hr₁ hr₂
    · exact absurd he₂ (Nat.ne_of_lt hlt₁)
    · exact absurd he₁ (Nat.ne_of_lt hlt₂)
    · rw [hl₁, hl₂]
  · intro l' r hr
    rw [hcr]
    by_cases he : r = s.calls.length
    · subst he
      exact ⟨a, if_pos rfl, hself⟩
    · have hold : r ∈ s.queueOf l' := by
        rw [hqueue, Function.update_apply] at hr
        split at hr
        · rename_i hl'
          obtain hr | hr := List.mem_append.1 hr
          · rw [hl', hl]
            exact hr
          · exact absurd (List.mem_singleton.1 hr) he
        · exact hr
      obtain ⟨a', ha', hu⟩ := h.queued l' r hold
      exact ⟨a', (if_neg he).trans ha', hany (fun _ h => by cases h) hu⟩
  · intro d pl hd
    have hserved : ∀ r, s.Served r → (s.request a l q w n).Served r :=
      fun r hr => hr.imp fun _ hc => hany (fun _ h => by cases h) hc
    obtain ⟨he, rfl⟩ | hd := start_getElem hd
    · refine ⟨false, (hcr d).trans (if_pos (he.trans (signal_length w))), fun hw => by cases hw⟩
    · obtain hd | ⟨l', rfl⟩ := signal_getElem w hd
      · have hlt := (List.getElem?_eq_some_iff.1 hd).1
        exact (h.right d pl hd).of_idle hk ((hcr d).trans (if_neg (Nat.ne_of_lt hlt))) hserved
      · trivial

/-- `sys_Accept` signals the call of `sys_Connect` and returns. -/
theorem Requests.signal {f : Fid} {cr : Cr} (h : s.Requests) (hc : s.calls[c]? = some (.signalling l r b f))
    (hcr : s.cr r = some cr) (hu : (s.signalConnected r).unref l = some t) :
    State.Requests { t.setPlace c (.accepted l r b f (s.linked cr.peer b)) with kernel := none } := by
  obtain ⟨hk, a, ha, hua, hlinked⟩ := h.right c _ hc
  cases hcr.symm.trans ha
  have hcalls := unref_calls hu
  have hcr' : t.cr = s.cr := (unref_cr hu).trans (signalConnected_cr r)
  have hsig : (s.signalConnected r).calls[c]? = some (.signalling l r b f) := signalConnected_getElem hc (by simp) r
  have hget : t.calls[c]? = some (.signalling l r b f) := hcalls ▸ hsig
  have hq : s.Shrinks t := by
    refine shrinks_of_keeps ?_
    have := unref_keeps (g := Scb.queue) (fun _ => rfl) hu
    rwa [signalConnected_scb] at this
  have hserved : ∀ r', s.Served r' → (t.setPlace c (.accepted l r b f (s.linked a b))).Served r' := fun r' hr' =>
    hr'.imp fun d hd => setPlace_any hget (fun hp => by cases hp)
      (hcalls ▸ signalConnected_any (fun _ _ hp => by cases hp) r hd)
  have hself : (t.setPlace c (.accepted l r b f (s.linked a b))).Served r :=
    ⟨c, by rw [setPlace_self hget]; simp [Place.serves, hlinked]⟩
  refine h.of_shrinks hq (fun _ r' _ => congrFun hcr' r') ?_ ?_
  · intro l' r' a' hr' hu'
    have hne : r' ≠ r := by
      rintro rfl
      obtain ⟨a'', ha'', -⟩ := h.queued l' r' (hq.mem hr')
      cases ha.symm.trans ha''
    refine setPlace_any hget (fun hp => by cases hp) ?_
    rw [hcalls, signalConnected_of_ne hne]
    exact hu'
  · intro d pl hd
    obtain ⟨rfl, rfl⟩ | ⟨hdc, hd⟩ := setPlace_getElem hd
    · trivial
    · have hidle : s.kernel ≠ some d := fun he => hdc (Option.some.inj (he.symm.trans hk))
      have hold : s.calls[d]? = some pl →
          State.Right { t.setPlace c (.accepted l r b f (s.linked a b)) with kernel := none } d pl :=
        fun hd => (h.right d pl hd).of_other hidle (congrFun hcr' d) hserved
      rw [hcalls] at hd
      by_cases hdr : d = r
      · subst hdr
        obtain hd' | ⟨a', n, hd', rfl⟩ := signalConnected_self hd
        · exact hold hd'
        · obtain ⟨adm, hadm, -⟩ := h.right d _ hd'
          cases ha.symm.trans hadm
          exact ⟨true, (congrFun hcr' d).trans ha, fun _ => ⟨rfl, hself⟩⟩
      · exact hold (signalConnected_of_ne hdr ▸ hd)

theorem Requests.signalAvailable (h : s.Requests) (hk : s.kernel = none) (hx : s.scb.get l = some x)
    (hq : q.Sublist x.queue) : (s.signalAvailable l q w).Requests := by
  have hs : (s.signal w).2.Requests := by
    obtain ⟨w', hw⟩ | ⟨c, l', w', -, hc, hw⟩ := signal_cases s w
    · rwa [hw]
    · rw [hw]
      exact h.setPlace hc (fun _ => rfl) (fun _ hu => by cases hu) trivial
  refine hs.idle ((signal_kernel w).trans hk) (shrinks_modifyScb l fun y hy => ?_) rfl rfl
  rw [signal_scb, hx] at hy
  cases hy
  exact hq

theorem Requests.ends (h : s.Requests) (hk : s.kernel = none) (hx : s.scb.get a = some x) (he : Ends s x a t) :
    t.Requests ∧ t.kernel = none := by
  cases he with
  | nothing => exact ⟨h, hk⟩
  | @peer b =>
    refine ⟨h.idle hk ?_ rfl rfl, hk⟩
    exact shrinks_modifyScb (s := { s with pipe := _ }) b fun _ _ => List.nil_sublist _
  | @listener q w ht hv =>
    have hp : State.Requests { s with portMap := Function.update s.portMap x.port none } :=
      h.idle hk (fun _ => List.Sublist.refl _) rfl rfl
    exact ⟨hp.signalAvailable hk hx (by simp [Scb.queue, hv]), (signal_kernel w).trans hk⟩

/-- Every step keeps the requests in order. -/
theorem Requests.step (h : s.Requests) (hs : s.step act = some s') : s'.Requests := by
  have hk := step_kernel hs
  cases step_cases hs with
  | socketFail | listenFail | shutDownFail => exact h
  | socket => exact h.idle (hk trivial) (shrinks_newSocket _) rfl rfl
  | listen => exact h.idle (hk trivial) (shrinks_modifyScb _ fun _ _ => List.nil_sublist _) rfl rfl
  | acceptFail => exact h.start (hk trivial) trivial
  | @accept l x fid _ _ _ _ hl =>
    have hk := hk trivial
    have href : (s.modifyScb l Scb.ref).Requests :=
      h.idle hk (shrinks_modifyScb l fun x _ => List.Sublist.refl _) rfl rfl
    have henter : (s.enter l).Requests := href.start hk trivial
    exact henter.loop hk List.getElem?_concat_length hl
  | acceptResume hc hl => exact h.loop (hk trivial) hc hl
  | connectFail => exact h.start (hk trivial) (.inl rfl)
  | connect _ _ _ _ hy _ hv => exact h.request (hk trivial) hy hv _
  | @timedOut c a n wake cr fid hc hw =>
    refine h.setPlace hc (fun _ => rfl) (fun a' hu => ?_) (.inl rfl)
    obtain ⟨rfl, -⟩ : a = a' ∧ wake ≠ .signalled := by simpa [Place.unanswered] using hu
    simp [Place.unanswered]
  | @missed c a n cr fid hc hcr hadm =>
    have hm : (s.setPlace c (.connected (some a) (-1))).Requests :=
      h.setPlace hc (fun _ => rfl) (fun a' hu => by simpa [Place.unanswered] using hu) (.inl rfl)
    refine hm.of_shrinks (fun _ => List.Sublist.refl _) (fun l r hr => Function.update_of_ne ?_ _ _)
      (fun _ _ _ _ hu => hu) ?_
    · rintro rfl
      obtain ⟨a', ha', -⟩ := hm.queued l r hr
      cases hcr.symm.trans ha'
      cases hadm
    · intro d pl hd
      by_cases hdc : d = c
      · subst hdc
        cases (setPlace_self hc).symm.trans hd
        exact .inl rfl
      · exact (hm.right d pl hd).of_idle (hk trivial) (Function.update_of_ne hdc _ _) fun _ hr => hr
  | @connected c a n cr t fid hc _ _ hu =>
    have hcalls := unref_calls hu
    have hkeeps := shrinks_of_keeps (unref_keeps (fun _ => rfl) hu)
    have ht : t.Requests := h.idle (hk trivial) hkeeps hcalls (unref_cr hu)
    have hc' : t.calls[c]? = some (.connecting a n .signalled) := hcalls ▸ hc
    refine ht.setPlace hc' (fun _ => rfl) (fun a' hu => by simp [Place.unanswered] at hu) (.inr ⟨rfl, ?_⟩)
    obtain ⟨adm, -, hsig⟩ := ht.right c _ hc'
    exact (hsig rfl).2.setPlace hc' fun _ => rfl
  | shutRead => exact h.idle (hk trivial) (fun _ => List.Sublist.refl _) rfl rfl
  | shutWrite =>
    exact h.idle (hk trivial) (shrinks_modifyScb (s := { s with pipe := _ }) _ fun _ _ => List.nil_sublist _) rfl rfl
  | dup | drop => exact h.idle (hk trivial) (shrinks_modifyScb _ fun x _ => List.Sublist.refl _) rfl rfl
  | @close a x t hx hslots he =>
    have hk := hk trivial
    have hdrop : (s.dropSlot a).Requests := h.idle hk (shrinks_modifyScb a fun x _ => List.Sublist.refl _) rfl rfl
    have hx' : (s.dropSlot a).scb.get a = some { x with slots := 0 } := by simp [dropSlot, modifyScb, hx, hslots]
    obtain ⟨ht, hidle⟩ := hdrop.ends hk hx' he
    exact ht.idle hidle (release_shrinks _) (release_calls _) (release_cr _)
  | signal hc _ hcr hu => exact h.signal hc hcr hu
  | @expire c a n hc =>
    obtain ⟨adm, hadm, -⟩ := h.right c _ hc
    exact h.setPlace hc (fun _ => rfl) (fun a' hu => by simpa [Place.unanswered] using hu)
      ⟨adm, hadm, fun hw => by cases hw⟩

theorem Loop.shrinks {fid : Option Fid} (hl : Loop s c l fid t) : s.Shrinks t := by
  cases hl with
  | closed => exact fun _ => List.Sublist.refl _
  | @wait x w p fid hx hv => exact shrinks_setQueue hx (List.nil_sublist _)
  | @refuse x r q w p cr y hx hv =>
    have hset : s.Shrinks (s.setQueue l q w) := shrinks_setQueue hx (by simp [Scb.queue, hv])
    exact hset.trans (shrinks_modifyScb cr.peer fun x _ => List.Sublist.refl _)
  | @honor x r q w p cr y fid hx hv =>
    have hset : s.Shrinks (s.setQueue l q w) := shrinks_setQueue hx (by simp [Scb.queue, hv])
    have hgrant : (s.setQueue l q w).Shrinks ((s.setQueue l q w).grant r cr) :=
      shrinks_modifyScb cr.peer fun x _ => List.Sublist.refl _
    exact (hset.trans hgrant).trans ((shrinks_newSocket x.port).trans (shrinks_connect cr.peer s.scb.next))

/-- Only the request of a new call gets into a queue. -/
theorem Step.queued (hs : Step s act s') (hr : r ∈ s'.queueOf l) : r ∈ s.queueOf l ∨ r = s.calls.length := by
  have hshrinks : s.Shrinks s' → r ∈ s.queueOf l ∨ r = s.calls.length := fun h => .inl (h.mem hr)
  have hother : s'.queueOf l = s.queueOf l → r ∈ s.queueOf l ∨ r = s.calls.length := fun h => .inl (h ▸ hr)
  cases hs with
  | socketFail | listenFail | shutDownFail | acceptFail | connectFail => exact .inl hr
  | shutRead | timedOut | missed | expire => exact hother rfl
  | socket => exact hshrinks (shrinks_newSocket _)
  | listen => exact hshrinks (shrinks_modifyScb _ fun _ _ => List.nil_sublist _)
  | @accept l' x fid _ _ _ _ hl =>
    have henter : s.Shrinks (s.enter l') := shrinks_modifyScb l' fun x _ => List.Sublist.refl _
    exact hshrinks (henter.trans hl.shrinks)
  | acceptResume _ hl => exact hshrinks hl.shrinks
  | @connect a l' _ y _ n q w _ _ _ _ hy _ hv =>
    rw [queueOf_request hy, Function.update_apply] at hr
    split at hr
    · rename_i hl
      rw [hl, queueOf_eq hy, Scb.queue, hv]
      exact (List.mem_append.1 hr).imp id List.mem_singleton.1
    · exact .inl hr
  | connected _ _ _ _ hu =>
    have hk := unref_keeps (g := Scb.queue) (fun _ => rfl) hu
    exact hshrinks (shrinks_of_keeps hk)
  | shutWrite => exact hshrinks (shrinks_modifyScb (s := { s with pipe := _ }) _ fun _ _ => List.nil_sublist _)
  | dup | drop => exact hshrinks (shrinks_modifyScb _ fun x _ => List.Sublist.refl _)
  | @close a x t hx hslots he =>
    have hdrop : s.Shrinks (s.dropSlot a) := shrinks_modifyScb a fun x _ => List.Sublist.refl _
    have hx' : (s.dropSlot a).scb.get a = some { x with slots := 0 } := by simp [dropSlot, modifyScb, hx, hslots]
    exact hshrinks ((hdrop.trans (he.shrinks hx')).trans (release_shrinks _))
  | signal _ _ _ hu =>
    have hk := unref_keeps (g := Scb.queue) (fun _ => rfl) hu
    rw [signalConnected_scb] at hk
    exact hshrinks (shrinks_of_keeps hk)

theorem boot_requests : boot.Requests where
  nodup _ := List.nodup_nil
  once _ _ _ hr := by cases hr
  queued _ _ hr := by cases hr
  right _ _ hc := by cases hc

end State

end TinyOS.Sockets
