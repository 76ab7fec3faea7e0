import TinyOS.Sockets.Steps

/-!
# What a step does to one socket

- `Change`: the fields of an SCB other than `refcount`, before and after a step (`Step.change`);
- `Step.born`: the SCBs that a step makes.
-/

namespace TinyOS.Sockets

open Streams (Fid)
open Streams.View (maxPort)

/-- What `FCB_reserve` gives in the step, if `sys_Accept` calls `sys_Socket`. -/
def Action.fid : Action → Option Fid
  | .accept _ fid | .resume _ fid => fid
  | _ => none

namespace State

variable {s s' t u : State} {a b l : ScbPtr} {c : CallId} {x y : Scb} {fid : Option Fid} {act : Action}

/-- What a step that does not make `a` an end of a connection does to the union in its SCB. -/
inductive VariantStep (s : State) (act : Action) (a : ScbPtr) : Variant → Variant → Prop
  | same (v : Variant) : VariantStep s act a v v
  | queue (q w q' w' : List CallId) : VariantStep s act a (.listener q w) (.listener q' w')
  | listen {z : Scb} (v : Variant) : act = .listen (some a) → s.scb.get a = some z → z.type = .unbound → z.port < maxPort →
      VariantStep s act a v (.listener [] [])
  | shut {how : ShutdownMode} {p : Option ScbPtr} {w r r' : Option PipePtr} : act = .shutDown (some a) how →
      r' = r ∨ r' = none → VariantStep s act a (.peer p w r) (.peer p none r')
  | unlinked {a' : ScbPtr} {x' : Scb} {w' r' : Option PipePtr} (p : Option ScbPtr) (w r : Option PipePtr) :
      act = .drop a' → s.scb.get a' = some x' → x'.slots = 1 → x'.type = .peer → x'.variant = .peer (some a) w' r' →
      VariantStep s act a (.peer p w r) (.peer none w r)

/-- What a step makes of an SCB `x` at `a`. -/
structure Change (s : State) (act : Action) (a : ScbPtr) (x y : Scb) : Prop where
  port : y.port = x.port
  slots : y.slots = if act = .dup a then x.slots + 1 else if act = .drop a then x.slots - 1 else x.slots
  type : (s.client act ≠ some a ∧ y.type = x.type) ∨
    (act = .listen (some a) ∧ x.type = .unbound ∧ y.type = .listener) ∨ (s.client act = some a ∧ y.type = .peer)
  wirings : y.wirings = if s.client act = some a ∧ act.fid ≠ none then x.wirings + 1 else x.wirings
  variant : if s.client act = some a ∧ act.fid ≠ none then
      y.variant = .peer (some s.scb.next) (some s.pipe.next) (some (s.pipe.next + 1))
    else s.VariantStep act a x.variant y.variant

/-- The fields that `Change` is about. -/
def core (x : Scb) : Scb := { x with refcount := 0 }

theorem Change.congr {x' y' : Scb} (h : s.Change act a x y) (hx : core x' = core x) (hy : core y' = core y) :
    s.Change act a x' y' := by
  obtain ⟨n, ty, p, v, k, m⟩ := x
  obtain ⟨n', ty', p', v', k', m'⟩ := x'
  obtain ⟨i, ty₁, p₁, v₁, k₁, m₁⟩ := y
  obtain ⟨i', ty₁', p₁', v₁', k₁', m₁'⟩ := y'
  cases hx
  cases hy
  exact ⟨h.port, h.slots, h.type, h.wirings, h.variant⟩

/-- A step that has nothing to do with the socket. -/
theorem Change.same (hd : act ≠ .dup a) (hd' : act ≠ .drop a) (hc : s.client act ≠ some a) (x : Scb) :
    s.Change act a x x where
  port := rfl
  slots := by rw [if_neg hd, if_neg hd']
  type := .inl ⟨hc, rfl⟩
  wirings := by rw [if_neg fun h => hc h.1]
  variant := by
    rw [if_neg fun h => hc h.1]
    exact .same _

/-- A step that does not admit the request of the socket. -/
theorem Change.of_not_client (hc : s.client act ≠ some a) (hp : y.port = x.port)
    (hs : y.slots = if act = .dup a then x.slots + 1 else if act = .drop a then x.slots - 1 else x.slots)
    (ht : y.type = x.type) (hw : y.wirings = x.wirings) (hv : s.VariantStep act a x.variant y.variant) :
    s.Change act a x y :=
  ⟨hp, hs, .inl ⟨hc, ht⟩, by rw [if_neg fun h => hc h.1, hw], by rwa [if_neg fun h => hc h.1]⟩

theorem Change.fields (h : s.Change act a x y) (hl : ∀ b, act ≠ .listen (some b)) (hc : s.client act ≠ some a) :
    y.port = x.port ∧ y.slots = (if act = .dup a then x.slots + 1 else if act = .drop a then x.slots - 1 else x.slots) ∧
      y.type = x.type ∧ y.wirings = x.wirings := by
  obtain ⟨-, ht⟩ | ⟨he, -⟩ | ⟨he, -⟩ := h.type
  · have hw := h.wirings
    rw [if_neg fun h => hc h.1] at hw
    exact ⟨h.port, h.slots, ht, hw⟩
  · exact absurd he (hl a)
  · exact absurd he hc

/-- The loop of `sys_Accept` admits the request of the socket. -/
theorem Loop.change (hl : Loop s c l fid t) (hx : s.scb.get a = some x) (hy : t.scb.get a = some y) (hact : act.fid = fid)
    (hclient : u.client act = s.clientOf l) (hnext : u.scb.next = s.scb.next) (hpipe : u.pipe = s.pipe)
    (hd : act ≠ .dup a) (hd' : act ≠ .drop a) : u.Change act a x y := by
  have hqueue : ∀ {z : Scb} {q w q' w' : List CallId}, s.scb.get l = some z → z.variant = .listener q w →
      ∀ {y}, (s.setQueue l q' w').scb.get a = some y →
      y.port = x.port ∧ y.slots = x.slots ∧ y.type = x.type ∧ y.wirings = x.wirings ∧
        u.VariantStep act a x.variant y.variant := by
    intro z q w q' w' hz hv y hy
    obtain ⟨x', hx', rfl⟩ := Heap.get_modify_eq_some.1 hy
    cases hx.symm.trans hx'
    split
    · rename_i hal
      subst hal
      cases hx.symm.trans hz
      rw [hv]
      exact ⟨rfl, rfl, rfl, rfl, .queue _ _ _ _⟩
    · exact ⟨rfl, rfl, rfl, rfl, .same _⟩
  cases hl with
  | closed hz hv hp =>
    cases hx.symm.trans hy
    exact .same hd hd' (by simp [hclient, clientOf, hz, hp]) x
  | @wait z w p fid hz hv hp =>
    have hno : u.client act ≠ some a := by simp [hclient, clientOf, hz, hp, Scb.queue, hv]
    obtain ⟨h₁, h₂, h₃, h₄, h₅⟩ := hqueue hz hv hy
    exact .of_not_client hno h₁ (by rw [if_neg hd, if_neg hd', h₂]) h₃ h₄ h₅
  | @refuse z r q w p cr y' hz hv hp hcr _ =>
    have hon : u.client act = some cr.peer := by simp [hclient, clientOf, hz, hp, Scb.queue, hv, hcr]
    obtain ⟨x', hx', rfl⟩ := Heap.get_modify_eq_some.1 hy
    obtain ⟨h₁, h₂, h₃, h₄, h₅⟩ := hqueue hz hv hx'
    split
    · rename_i hap
      have hyes : u.client act = some a := hon.trans (congrArg some hap.symm)
      refine ⟨h₁, by rw [if_neg hd, if_neg hd']; exact h₂, .inr (.inr ⟨hyes, rfl⟩), ?_, ?_⟩
      · rw [if_neg fun h => h.2 hact]
        exact h₄
      · rw [if_neg fun h => h.2 hact]
        exact h₅
    · rename_i hap
      have hno : u.client act ≠ some a := fun h => hap (Option.some.inj (h.symm.trans hon))
      exact .of_not_client hno h₁ (by rw [if_neg hd, if_neg hd', h₂]) h₃ h₄ h₅
  | @honor z r q w p cr y' fid hz hv hp hcr _ =>
    have hon : u.client act = some cr.peer := by simp [hclient, clientOf, hz, hp, Scb.queue, hv, hcr]
    have hab : a ≠ s.scb.next := Nat.ne_of_lt (Heap.lt_next hx)
    have hget : ((((s.setQueue l q w).grant r cr).newSocket z.port).modifyScb cr.peer
        (·.wire s.scb.next s.pipe.next (s.pipe.next + 1))).scb.get a = some y := by
      rw [← hy]
      exact (Heap.get_modify_of_ne hab).symm
    obtain ⟨x₁, hx₁, rfl⟩ := Heap.get_modify_eq_some.1 hget
    obtain ⟨he, -⟩ | hx₁ := Heap.get_alloc_eq_some.1 hx₁
    · exact absurd he hab
    obtain ⟨x', hx', rfl⟩ := Heap.get_modify_eq_some.1 hx₁
    obtain ⟨h₁, h₂, h₃, h₄, h₅⟩ := hqueue hz hv hx'
    by_cases hap : a = cr.peer
    · have hyes : u.client act = some a := hon.trans (congrArg some hap.symm)
      have hfid : act.fid ≠ none := by simp [hact]
      rw [if_pos hap, if_pos hap]
      refine ⟨h₁, by rw [if_neg hd, if_neg hd']; exact h₂, .inr (.inr ⟨hyes, rfl⟩), ?_, ?_⟩
      · rw [if_pos ⟨hyes, hfid⟩, ← h₄]
        rfl
      · rw [if_pos ⟨hyes, hfid⟩, hnext, hpipe]
        rfl
    · have hno : u.client act ≠ some a := fun h => hap (Option.some.inj (h.symm.trans hon))
      rw [if_neg hap, if_neg hap]
      exact .of_not_client hno h₁ (by rw [if_neg hd, if_neg hd', h₂]) h₃ h₄ h₅

theorem client_eq_none (h : s.loopOn act = none) : s.client act = none := by simp [client, h]

/-- What `socket_close` of `b` does to a socket. -/
theorem Ends.change {z : Scb} (he : Ends (s.dropSlot b) { z with slots := 0 } b t) (hz : s.scb.get b = some z)
    (hslots : z.slots = 1) (hx : s.scb.get a = some x) (hy : t.scb.get a = some y) : s.Change (.drop b) a x y := by
  have hdrop : ∀ {y}, (s.dropSlot b).scb.get a = some y → s.Change (.drop b) a x y := by
    intro y hy
    obtain ⟨x', hx', rfl⟩ := Heap.get_modify_eq_some.1 hy
    cases hx.symm.trans hx'
    split
    · rename_i hab
      subst hab
      exact .of_not_client (by simp [client, loopOn]) rfl (by simp) rfl rfl (.same _)
    · rename_i hab
      exact .same (by simp) (by simp [Ne.symm hab]) (by simp [client, loopOn]) x
  cases he with
  | nothing => exact hdrop hy
  | @peer b' w r w' r' p' y₀ k ht hv _ hy₀ hyv =>
    obtain ⟨y', hy', rfl⟩ := Heap.get_modify_eq_some.1 hy
    have hc := hdrop hy'
    split
    · rename_i hab
      subst hab
      cases hy'.symm.trans hy₀
      have hvar : x.variant = .peer p' w' r' := by
        have := Heap.get_modify_eq_some.1 hy'
        obtain ⟨x', hx', he⟩ := this
        cases hx.symm.trans hx'
        rw [he] at hyv
        split at hyv <;> exact hyv
      obtain ⟨h₁, h₂, h₃, h₄⟩ := hc.fields (by simp) (by simp [client, loopOn])
      exact .of_not_client (by simp [client, loopOn]) h₁ h₂ h₃ h₄ (hvar ▸ .unlinked p' w' r' rfl hz hslots ht hv)
    · exact hc
  | @listener q w ht hv =>
    obtain ⟨y', hy', rfl⟩ := Heap.get_modify_eq_some.1 hy
    rw [signal_scb] at hy'
    have hc := hdrop hy'
    split
    · rename_i hab
      subst hab
      cases hx.symm.trans hz
      have hvar : x.variant = .listener q w := hv
      obtain ⟨h₁, h₂, h₃, h₄⟩ := hc.fields (by simp) (by simp [client, loopOn])
      exact .of_not_client (by simp [client, loopOn]) h₁ h₂ h₃ h₄ (hvar ▸ .queue _ _ _ _)
    · exact hc

/-- What a step does to a socket. -/
theorem Step.change (hs : Step s act s') (hx : s.scb.get a = some x) (hy : s'.scb.get a = some y) : s.Change act a x y := by
  have hstay : act ≠ .dup a → act ≠ .drop a → s.loopOn act = none → s.scb.Keeps core s'.scb → s.Change act a x y := by
    intro hd hd' hc hk
    obtain ⟨x', hx', hcore⟩ := hk.kept a y hy
    cases hx.symm.trans hx'
    exact (Change.same hd hd' (by simp [client_eq_none hc]) x).congr rfl hcore
  cases hs with
  | socketFail | listenFail | shutDownFail | connectFail => exact hstay (by simp) (by simp) rfl (.refl _ _)
  | @acceptFail sock fid hno =>
    refine hstay (by simp) (by simp) ?_ (.refl _ _)
    cases sock with
    | none => rfl
    | some l =>
      cases hl : s.scb.get l with
      | none => simp [loopOn, hl]
      | some z => simp [loopOn, hl, hno l z rfl hl]
  | shutRead | expire => exact hstay (by simp) (by simp) rfl (.refl _ _)
  | timedOut _ hc | missed _ hc => exact hstay (by simp) (by simp) (by simp [loopOn, hc]) (.refl _ _)
  | socket =>
    obtain ⟨he, -⟩ | hy := Heap.get_alloc_eq_some.1 hy
    · exact absurd he (Nat.ne_of_lt (Heap.lt_next hx))
    · cases hx.symm.trans hy
      exact .same (by simp) (by simp) (by simp [client, loopOn]) x
  | @listen b z hz _ ht _ hlt =>
    obtain ⟨x', hx', rfl⟩ := Heap.get_modify_eq_some.1 hy
    cases hx.symm.trans hx'
    split
    · rename_i hab
      subst hab
      cases hx.symm.trans hz
      refine ⟨rfl, by simp, .inr (.inl ⟨rfl, ht, rfl⟩), by simp [client, loopOn], ?_⟩
      rw [if_neg (by simp [client, loopOn])]
      exact .listen _ rfl hx ht hlt
    · exact .same (by simp) (by simp) (by simp [client, loopOn]) x
  | @accept l z fid _ hz _ ht hl =>
    have henter : s.scb.Alike core (s.enter l).scb := modifyScb_alike l fun _ _ => rfl
    obtain ⟨x', hx', hcore⟩ := henter.get hx
    have hclient : s.client (.accept (some l) fid) = (s.enter l).clientOf l := by
      rw [clientOf_enter]
      simp [client, loopOn, hz, ht]
    exact (hl.change (u := s) hx' hy rfl hclient rfl rfl (by simp) (by simp)).congr hcore.symm rfl
  | @acceptResume c l fid _ hc hl =>
    exact hl.change (u := s) hx hy rfl (by simp [client, loopOn, hc]) rfl rfl (by simp) (by simp)
  | @connect b l _ z port n q w _ _ _ _ hz _ hv =>
    obtain ⟨w', hscb⟩ := request_scb s b l q w n
    rw [hscb] at hy
    obtain ⟨x₁, hx₁, rfl⟩ := Heap.get_modify_eq_some.1 hy
    obtain ⟨x', hx', rfl⟩ := Heap.get_modify_eq_some.1 hx₁
    cases hx.symm.trans hx'
    have hc : ∀ {x₁}, core x₁ = core x → s.Change (.connect (some b) port n) a x x₁ := fun h =>
      (Change.same (by simp) (by simp) (by simp [client, loopOn]) x).congr rfl h
    have hc₁ : s.Change (.connect (some b) port n) a x (if a = b then x.ref else x) := hc (by split <;> rfl)
    split
    · rename_i hal
      subst hal
      cases hx.symm.trans hz
      obtain ⟨h₁, h₂, h₃, h₄⟩ := hc₁.fields (by simp) (by simp [client, loopOn])
      exact .of_not_client (by simp [client, loopOn]) h₁ h₂ h₃ h₄ (hv ▸ .queue _ _ _ _)
    · exact hc₁
  | connected _ hc _ _ hu =>
    have hk := unref_keeps (g := core) (fun _ => rfl) hu
    exact hstay (by simp) (by simp) (by simp [loopOn, hc]) hk
  | @shutWrite b z p w r r' how k _ hz hv hr =>
    obtain ⟨x', hx', rfl⟩ := Heap.get_modify_eq_some.1 hy
    cases hx.symm.trans hx'
    split
    · rename_i hab
      subst hab
      cases hx.symm.trans hz
      exact .of_not_client (by simp [client, loopOn]) rfl (by simp [Scb.setVariant]) rfl rfl (hv ▸ .shut rfl hr)
    · exact .same (by simp) (by simp) (by simp [client, loopOn]) x
  | @dup b | @drop b =>
    obtain ⟨x', hx', rfl⟩ := Heap.get_modify_eq_some.1 hy
    cases hx.symm.trans hx'
    split
    · rename_i hab
      subst hab
      exact .of_not_client (by simp [client, loopOn]) rfl (by simp) rfl rfl (.same _)
    · rename_i hab
      exact .same (by simp [Ne.symm hab]) (by simp [Ne.symm hab]) (by simp [client, loopOn]) x
  | @close b z t hz hslots he =>
    have hk : t.scb.Keeps core (t.release b z.refcount).scb := by
      unfold release
      split
      · exact (Heap.Keeps.refl _ _).free b
      · exact (modifyScb_alike (f := Scb.unref) b fun _ _ => rfl).keeps
    obtain ⟨y', hy', hcore⟩ := hk.kept a y hy
    exact (he.change hz hslots hx hy').congr rfl hcore
  | signal _ _ _ hu =>
    have hk := unref_keeps (g := core) (fun _ => rfl) hu
    rw [signalConnected_scb] at hk
    exact hstay (by simp) (by simp) rfl hk

/-- The two SCBs that a step can make: a socket of its own, and the server end of a connection. -/
inductive Born (s : State) : Action → Scb → Prop
  | socket (port : Int) (fid : Option Fid) : Born s (.socket port fid) ⟨0, .unbound, port.toNat, .unbound, 1, 0⟩
  | server {act : Action} {a : ScbPtr} (port : Nat) : s.client act = some a → act.fid ≠ none →
      Born s act ⟨0, .peer, port, .peer (some a) (some (s.pipe.next + 1)) (some s.pipe.next), 1, 1⟩

theorem Loop.born (hl : Loop s c l fid t) (hx : s.scb.get a = none) (hy : t.scb.get a = some y) (hact : act.fid = fid)
    (hclient : u.client act = s.clientOf l) (hpipe : u.pipe = s.pipe) : a = s.scb.next ∧ u.Born act y := by
  have hqueue : ∀ {q w}, (s.setQueue l q w).scb.get a = none := by
    intro q w
    by_cases hal : a = l
    · subst hal
      simp [setQueue, modifyScb, hx]
    · simp [setQueue, modifyScb, hal, hx]
  have hgrant : ∀ {q w r cr}, ((s.setQueue l q w).grant r cr).scb.get a = none := by
    intro q w r cr
    by_cases hap : a = cr.peer
    · subst hap
      simp [State.grant, modifyScb, hqueue]
    · simp [State.grant, modifyScb, hap, hqueue]
  cases hl with
  | closed => cases hx.symm.trans hy
  | wait => cases hqueue.symm.trans hy
  | @refuse _ r => cases (hgrant (r := r)).symm.trans hy
  | @honor z r q w p cr y' fid hz hv hp hcr hy' =>
    obtain ⟨y₁, hy₁, rfl⟩ := Heap.get_modify_eq_some.1 hy
    obtain ⟨y₂, hy₂, rfl⟩ := Heap.get_modify_eq_some.1 hy₁
    obtain ⟨he, rfl⟩ | hold := Heap.get_alloc_eq_some.1 hy₂
    · have he : a = s.scb.next := he
      have hne : a ≠ cr.peer := Nat.ne_of_gt (he ▸ Heap.lt_next hy')
      rw [if_pos he, if_neg hne]
      have hon : u.client act = some cr.peer := by simp [hclient, clientOf, hz, hp, Scb.queue, hv, hcr]
      have hb := Born.server (s := u) z.port hon (by simp [hact])
      rw [hpipe] at hb
      exact ⟨he, hb⟩
    · cases (hgrant (r := r)).symm.trans hold

/-- An SCB that was not there before a step. -/
theorem Step.born (hs : Step s act s') (hx : s.scb.get a = none) (hy : s'.scb.get a = some y) :
    a = s.scb.next ∧ s.Born act y := by
  have hnot : s.scb.Keeps (fun _ => ()) s'.scb → a = s.scb.next ∧ s.Born act y := by
    intro hk
    obtain ⟨x, hx', -⟩ := hk.kept a y hy
    cases hx.symm.trans hx'
  have halike : s.scb.Alike (fun _ => ()) s'.scb → a = s.scb.next ∧ s.Born act y := fun hk => hnot hk.keeps
  cases hs with
  | socketFail | listenFail | shutDownFail | acceptFail | connectFail => exact hnot (.refl _ _)
  | shutRead | timedOut | missed | expire => exact hnot (.refl _ _)
  | socket fid _ _ =>
    obtain ⟨he, rfl⟩ | hy := Heap.get_alloc_eq_some.1 hy
    · exact ⟨he, .socket _ _⟩
    · cases hx.symm.trans hy
  | listen => exact halike (listen_alike (fun _ => rfl) s _ _)
  | @accept l z fid _ hz _ ht hl =>
    have henter : (s.enter l).scb.get a = none := by
      have hne : a ≠ l := by
        rintro rfl
        cases hx.symm.trans hz
      simp [enter, State.start, modifyScb, hne, hx]
    have hclient : s.client (.accept (some l) fid) = (s.enter l).clientOf l := by
      rw [clientOf_enter]
      simp [client, loopOn, hz, ht]
    exact hl.born (u := s) henter hy rfl hclient rfl
  | @acceptResume c l fid _ hc hl => exact hl.born (u := s) hx hy rfl (by simp [client, loopOn, hc]) rfl
  | @connect b l _ _ _ n q w =>
    have hk : s.scb.Alike (fun _ => ()) (s.modifyScb b Scb.ref).scb := modifyScb_alike b fun _ _ => rfl
    exact halike (hk.trans (request_alike (fun _ _ => rfl) s b l q w n))
  | connected _ _ _ _ hu =>
    have hk := unref_keeps (g := fun _ => ()) (fun _ => rfl) hu
    exact hnot hk
  | shutWrite => exact halike (setVariant_alike (fun _ _ => rfl) s _ _)
  | dup | drop => exact halike (modifyScb_alike _ fun _ _ => rfl)
  | close hz hslots he =>
    obtain ⟨z, hz', -⟩ := release_get hz he hslots hy
    cases hx.symm.trans hz'
  | signal _ _ _ hu =>
    have hk := unref_keeps (g := fun _ => ()) (fun _ => rfl) hu
    rw [signalConnected_scb] at hk
    exact hnot hk

/-- The step makes a connection. -/
def Wires (s : State) (act : Action) : Prop := s.client act ≠ none ∧ act.fid ≠ none

instance (s : State) (act : Action) : Decidable (s.Wires act) := inferInstanceAs (Decidable (_ ∧ _))

/-- The socket of the request that a step admits is there before and after. -/
theorem Step.client_get (hs : Step s act s') (ha : s.client act = some a) :
    ∃ x y, s.scb.get a = some x ∧ s'.scb.get a = some y := by
  obtain ⟨t, c, l, fid, ht, hc, hl⟩ := hs.loop_of_client ha
  obtain hnone | ⟨cr, x, r, hon, hx, -⟩ := hl.client
  · cases hc.symm.trans hnone
  · cases hc.symm.trans hon
    obtain ⟨y, hy, -⟩ := hl.get_some (g := fun _ => ()) (fun _ _ => rfl) (fun _ => rfl) (fun _ _ _ _ => rfl) hx
    rcases ht with rfl | rfl
    · exact ⟨x, y, hx, hy⟩
    · obtain ⟨x', hx', -⟩ := Heap.get_modify_eq_some.1 hx
      exact ⟨x', y, hx', hy⟩

/-- The next addresses. -/
structure Nexts (s : State) (act : Action) (s' : State) : Prop where
  scb : s.scb.next ≤ s'.scb.next
  wired : s.Wires act → s.scb.next < s'.scb.next
  pipe : s'.pipe.next = s.pipe.next + if s.Wires act then 2 else 0

theorem Nexts.idle (hc : s.client act = none) (hscb : s.scb.next ≤ t.scb.next) (hpipe : t.pipe.next = s.pipe.next) :
    s.Nexts act t :=
  ⟨hscb, fun h => absurd hc h.1, by rw [if_neg fun h => h.1 hc, hpipe]; rfl⟩

theorem Loop.nexts (hl : Loop s c l fid t) (hact : act.fid = fid) (hclient : u.client act = s.clientOf l)
    (hnext : u.scb.next = s.scb.next) (hpipe : u.pipe = s.pipe) : u.Nexts act t := by
  cases hl with
  | closed hz hv hp =>
    exact .idle (by simp [hclient, clientOf, hz, hp]) (Nat.le_of_eq hnext) (by rw [hpipe]; rfl)
  | wait hz hv hp =>
    exact .idle (by simp [hclient, clientOf, hz, hp, Scb.queue, hv]) (Nat.le_of_eq hnext) (by rw [hpipe]; rfl)
  | refuse =>
    refine ⟨Nat.le_of_eq hnext, fun h => absurd hact h.2, ?_⟩
    rw [if_neg fun h => h.2 hact, hpipe]
    rfl
  | honor hz hv hp hcr =>
    have hon : u.Wires act := ⟨by simp [hclient, clientOf, hz, hp, Scb.queue, hv, hcr], by simp [hact]⟩
    refine ⟨?_, fun _ => ?_, ?_⟩
    · rw [hnext]
      exact Nat.le_succ _
    · rw [hnext]
      exact Nat.lt_succ_self _
    · rw [if_pos hon, hpipe]
      rfl

theorem Step.nexts (hs : Step s act s') : s.Nexts act s' := by
  have hkeeps : s.client act = none → s.scb.Keeps (fun _ => ()) s'.scb → s'.pipe.next = s.pipe.next → s.Nexts act s' :=
    fun hc hk hp => .idle hc (Nat.le_of_eq hk.next.symm) hp
  cases hs with
  | socketFail | listenFail | shutDownFail | connectFail | listen | dup | drop | expire =>
    exact .idle rfl (Nat.le_refl _) rfl
  | @acceptFail sock fid hno =>
    refine .idle (client_eq_none ?_) (Nat.le_refl _) rfl
    cases sock with
    | none => rfl
    | some l =>
      cases hl : s.scb.get l with
      | none => simp [loopOn, hl]
      | some z => simp [loopOn, hl, hno l z rfl hl]
  | timedOut _ hc | missed _ hc => exact .idle (client_eq_none (by simp [loopOn, hc])) (Nat.le_refl _) rfl
  | socket => exact .idle rfl (Nat.le_succ _) rfl
  | @accept l z fid _ hz _ ht hl =>
    have hclient : s.client (.accept (some l) fid) = (s.enter l).clientOf l := by
      rw [clientOf_enter]
      simp [client, loopOn, hz, ht]
    exact hl.nexts (u := s) rfl hclient rfl rfl
  | @acceptResume c l fid _ hc hl => exact hl.nexts (u := s) rfl (by simp [client, loopOn, hc]) rfl rfl
  | @connect b l _ _ _ n q w =>
    obtain ⟨w', hscb⟩ := request_scb s b l q w n
    exact .idle rfl (by rw [hscb]; exact Nat.le_refl _) (by rw [request_pipe])
  | connected _ hc _ _ hu =>
    have hk := unref_keeps (g := fun _ => ()) (fun _ => rfl) hu
    have hp := unref_pipe hu
    exact hkeeps (client_eq_none (by simp [loopOn, hc])) hk (congrArg Heap.next hp)
  | shutRead _ _ hk | shutWrite _ _ hk => exact .idle rfl (Nat.le_refl _) hk
  | @close b z t hz hslots he =>
    have hscb : t.scb.next = s.scb.next := (he.alike (g := fun _ => ()) fun _ _ => rfl).next
    have hpipe : t.pipe.next = s.pipe.next := by
      cases he with
      | nothing => rfl
      | peer _ _ hk => exact hk
      | listener => exact congrArg Heap.next (signal_pipe _)
    refine .idle rfl (Nat.le_of_eq ?_) (by rw [release_pipe, hpipe])
    rw [← hscb]
    unfold release
    split <;> rfl
  | signal _ _ _ hu =>
    have hk := unref_keeps (g := fun _ => ()) (fun _ => rfl) hu
    rw [signalConnected_scb] at hk
    have hp := (unref_pipe hu).trans (signalConnected_pipe _)
    exact hkeeps rfl hk (congrArg Heap.next hp)

end State

end TinyOS.Sockets
