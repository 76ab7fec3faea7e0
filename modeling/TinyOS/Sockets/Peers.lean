import TinyOS.Sockets.Changes
import TinyOS.Sockets.Refcount

/-!
# The ends of connections

- `Wired`: each open peer is the end of one connection, and so is its peer;
- `peers_iff_admitted_once`: so it is as long as `sys_Accept` admits the requests of sockets that are no peers, and has a fid
  for them.
-/

namespace TinyOS.Sockets

open Streams (Fid)

namespace Scb

/-- `peer_s.peer`. -/
def peerOf (x : Scb) : Option ScbPtr :=
  match x.variant with
  | .peer p _ _ => p
  | _ => none

/-- `peer_s.write_pipe` and `peer_s.read_pipe`. -/
def pipes (x : Scb) : List PipePtr :=
  match x.variant with
  | .peer _ w r => w.toList ++ r.toList
  | _ => []

end Scb

namespace State

variable {s s' t : State} {a b : ScbPtr} {p : PipePtr} {x y : Scb} {act : Action}

/-- Each open peer is one end of one connection, and the open sockets are peers of each other. -/
structure PeersRight (s : State) : Prop where
  wired : ∀ a x, s.scb.get a = some x → 0 < x.slots → x.type = .peer → x.wirings = 1
  symmetric : ∀ a b x y, s.scb.get a = some x → 0 < x.slots → s.scb.get b = some y → 0 < y.slots →
    x.peerOf = some b → y.peerOf = some a

/-- If the step closes a socket, it does not touch the open sockets other than its peer, nor their pipes. -/
def ClosesOwnEnds (s : State) (act : Action) : Prop :=
  ∀ a s', act = .drop a → s.step act = some s' → ∀ x, s.scb.get a = some x → x.slots = 1 →
    ∀ b y, b ≠ a → x.peerOf ≠ some b → s.scb.get b = some y → 0 < y.slots →
      s'.scb.get b = some y ∧ ∀ p ∈ y.pipes, s'.pipe.get p = s.pipe.get p

/-- If the step admits the request of an open socket, it makes a connection of it, unless the socket is a peer already. -/
def AdmitsOnce (s : State) (act : Action) : Prop :=
  ∀ a ∈ s.client act, ∀ x ∈ s.scb.get a, 0 < x.slots → (x.type = .peer ↔ act.fid = none)

instance (s : State) (act : Action) : Decidable (s.AdmitsOnce act) := by
  unfold AdmitsOnce
  infer_instance

/-- What is known of the open sockets. -/
structure Wired (s : State) : Prop where
  wired : ∀ a x, s.scb.get a = some x → 0 < x.slots → x.type = .peer → x.wirings = 1
  plain : ∀ a x, s.scb.get a = some x → 0 < x.slots → x.type ≠ .peer → x.wirings = 0 ∧ x.peerOf = none ∧ x.pipes = []
  symmetric : ∀ a b x y, s.scb.get a = some x → 0 < x.slots → s.scb.get b = some y → 0 < y.slots →
    x.peerOf = some b → y.peerOf = some a
  shared : ∀ a b x y p, a ≠ b → s.scb.get a = some x → 0 < x.slots → s.scb.get b = some y → 0 < y.slots →
    p ∈ x.pipes → p ∈ y.pipes → x.peerOf = some b
  peer_lt : ∀ a x b, s.scb.get a = some x → 0 < x.slots → x.peerOf = some b → b < s.scb.next
  pipe_lt : ∀ a x p, s.scb.get a = some x → 0 < x.slots → p ∈ x.pipes → p < s.pipe.next

theorem Wired.peersRight (h : s.Wired) : s.PeersRight := ⟨h.wired, h.symmetric⟩

/-- The step closes a socket whose peer is `a`. -/
def Unlinks (s : State) (act : Action) (a : ScbPtr) : Prop :=
  ∃ b y, act = .drop b ∧ s.scb.get b = some y ∧ y.slots = 1 ∧ y.peerOf = some a

/-- An open socket after a step: one that was there and is not the client of a connection, the two ends of a connection that
the step makes, or a new one. -/
inductive After (s : State) (act : Action) (a : ScbPtr) (y : Scb) : Prop
  | kept {x : Scb} : s.scb.get a = some x → 0 < x.slots → ¬(s.client act = some a ∧ act.fid ≠ none) →
      (y.peerOf = x.peerOf ∨ y.peerOf = none ∧ s.Unlinks act a) → (∀ p ∈ y.pipes, p ∈ x.pipes) →
      y.wirings = x.wirings → (y.type = .peer ↔ x.type = .peer) → act ≠ .drop a ∨ 1 < x.slots → After s act a y
  | client {x : Scb} : s.scb.get a = some x → 0 < x.slots → s.client act = some a → act.fid ≠ none → y.type = .peer →
      y.wirings = x.wirings + 1 → y.peerOf = some s.scb.next → y.pipes = [s.pipe.next, s.pipe.next + 1] → After s act a y
  | server {b : ScbPtr} : a = s.scb.next → s.client act = some b → act.fid ≠ none → y.type = .peer → y.wirings = 1 →
      y.peerOf = some b → y.pipes = [s.pipe.next + 1, s.pipe.next] → After s act a y
  | socket : a = s.scb.next → s.client act = none → y.type = .unbound → y.wirings = 0 → y.peerOf = none → y.pipes = [] →
      After s act a y

theorem Step.after (h : s.Wired) (hok : s.AdmitsOnce act) (hs : Step s act s') (hy : s'.scb.get a = some y)
    (ho : 0 < y.slots) : s.After act a y := by
  cases hx : s.scb.get a with
  | none =>
    obtain ⟨ha, hb⟩ := hs.born hx hy
    cases hb with
    | socket => exact .socket ha rfl rfl rfl rfl rfl
    | server port hc hf => exact .server ha hc hf rfl rfl rfl rfl
  | some x =>
    have hc := hs.change hx hy
    have hslots := hc.slots
    have hopen : 0 < x.slots ∧ (act ≠ .drop a ∨ 1 < x.slots) := by
      obtain rfl | ⟨x', hx', ho'⟩ := hs.open hy ho
      · rw [Heap.get_next] at hx
        cases hx
      · cases hx.symm.trans hx'
        refine ⟨ho', ?_⟩
        by_cases hd : act = .drop a
        · subst hd
          simp at hslots
          exact .inr (by omega)
        · exact .inl hd
    have hw := hc.wirings
    have hv := hc.variant
    by_cases hclient : s.client act = some a ∧ act.fid ≠ none
    · rw [if_pos hclient] at hw hv
      have ht : y.type = .peer := by
        obtain ⟨hno, -⟩ | ⟨he, -⟩ | ⟨-, ht⟩ := hc.type
        · exact absurd hclient.1 hno
        · subst he
          exact absurd rfl hclient.2
        · exact ht
      exact .client hx hopen.1 hclient.1 hclient.2 ht hw (by simp [Scb.peerOf, hv]) (by simp [Scb.pipes, hv])
    · rw [if_neg hclient] at hw hv
      have ht : y.type = .peer ↔ x.type = .peer := by
        obtain ⟨-, ht⟩ | ⟨-, hxt, ht⟩ | ⟨hon, ht⟩ := hc.type
        · rw [ht]
        · simp [hxt, ht]
        · have hfid : act.fid = none := by
            by_contra hf
            exact hclient ⟨hon, hf⟩
          exact ⟨fun _ => (hok a hon x hx hopen.1).2 hfid, fun _ => ht⟩
      have hends : (y.peerOf = x.peerOf ∨ y.peerOf = none ∧ s.Unlinks act a) ∧ ∀ p ∈ y.pipes, p ∈ x.pipes := by
        unfold Scb.peerOf Scb.pipes
        generalize hxv : x.variant = v at hv
        generalize y.variant = v' at hv
        cases hv with
        | same => exact ⟨.inl rfl, fun _ hp => hp⟩
        | queue => exact ⟨.inl rfl, fun _ hp => hp⟩
        | listen _ he hz hzt =>
          cases hx.symm.trans hz
          obtain ⟨-, hpeer, -⟩ := h.plain a x hx hopen.1 (by simp [hzt])
          rw [Scb.peerOf, hxv] at hpeer
          exact ⟨.inl hpeer.symm, fun _ hp => by cases hp⟩
        | shut _ hr =>
          refine ⟨.inl rfl, fun p hp => ?_⟩
          obtain rfl | rfl := hr
          · simpa using Or.inr hp
          · cases hp
        | unlinked p w r he hz hslots _ hzv =>
          exact ⟨.inr ⟨rfl, _, _, he, hz, hslots, by simp [Scb.peerOf, hzv]⟩, fun _ hp => hp⟩
      exact .kept hx hopen.1 hclient hends.1 hends.2 hw ht hopen.2

/-- A socket is not unlinked as long as its peer stays open. -/
theorem Wired.not_unlinks (h : s.Wired) (hx : s.scb.get a = some x) (ho : 0 < x.slots) (hy : s.scb.get b = some y)
    (hpeer : x.peerOf = some b) (hstays : act ≠ .drop b ∨ 1 < y.slots) : ¬s.Unlinks act a := by
  rintro ⟨c, z, he, hz, hslots, hzp⟩
  have hback := h.symmetric c a z x hz (by omega) hx ho hzp
  cases hpeer.symm.trans hback
  cases hy.symm.trans hz
  obtain hne | hlt := hstays
  · exact hne he
  · omega

theorem Wired.step_wired (h : s.Wired) (hok : s.AdmitsOnce act) (hs : Step s act s') (hy : s'.scb.get a = some y)
    (ho : 0 < y.slots) (ht : y.type = .peer) : y.wirings = 1 := by
  cases hs.after h hok hy ho with
  | @kept x hx hxo _ _ _ hw hty => exact hw.trans (h.wired a x hx hxo (hty.1 ht))
  | @client x hx hxo hc hf _ hw =>
    have hnot : x.type ≠ .peer := fun he => hf ((hok a hc x hx hxo).1 he)
    rw [hw, (h.plain a x hx hxo hnot).1]
  | server _ _ _ _ hw => exact hw
  | socket _ _ htu => cases htu.symm.trans ht

theorem Wired.step_plain (h : s.Wired) (hok : s.AdmitsOnce act) (hs : Step s act s') (hy : s'.scb.get a = some y)
    (ho : 0 < y.slots) (ht : y.type ≠ .peer) : y.wirings = 0 ∧ y.peerOf = none ∧ y.pipes = [] := by
  cases hs.after h hok hy ho with
  | @kept x hx hxo _ hp hps hw hty =>
    obtain ⟨hw₀, hp₀, hps₀⟩ := h.plain a x hx hxo fun he => ht (hty.2 he)
    refine ⟨hw.trans hw₀, ?_, ?_⟩
    · obtain hp | ⟨hp, -⟩ := hp
      · rw [hp, hp₀]
      · exact hp
    · refine List.eq_nil_iff_forall_not_mem.2 fun p hp => ?_
      have := hps p hp
      rw [hps₀] at this
      cases this
  | client _ _ _ _ htp => exact absurd htp ht
  | server _ _ _ htp => exact absurd htp ht
  | socket _ _ _ hw hp hps => exact ⟨hw, hp, hps⟩

theorem Wired.step_symmetric (h : s.Wired) (hok : s.AdmitsOnce act) (hs : Step s act s') {z : Scb}
    (hy : s'.scb.get a = some y) (hyo : 0 < y.slots) (hz : s'.scb.get b = some z) (hzo : 0 < z.slots)
    (hpeer : y.peerOf = some b) : z.peerOf = some a := by
  have hfresh : ∀ {x}, s.scb.get s.scb.next ≠ some x := by simp
  cases hs.after h hok hy hyo with
  | @kept x hx hxo _ hp _ _ _ hstays =>
    have hold : x.peerOf = some b := by
      obtain hp | ⟨hp, -⟩ := hp
      · exact hp.symm.trans hpeer
      · cases hp.symm.trans hpeer
    have hb : b ≠ s.scb.next := Nat.ne_of_lt (h.peer_lt a x b hx hxo hold)
    cases hs.after h hok hz hzo with
    | @kept z₀ hz₀ hzo₀ _ hpz =>
      have hback := h.symmetric a b x z₀ hx hxo hz₀ hzo₀ hold
      obtain hpz | ⟨-, hunlinks⟩ := hpz
      · exact hpz.trans hback
      · exact absurd hunlinks (h.not_unlinks hz₀ hzo₀ hx hback hstays)
    | @client z₀ hz₀ hzo₀ hc hf =>
      have hback := h.symmetric a b x z₀ hx hxo hz₀ hzo₀ hold
      have hnot : z₀.type ≠ .peer := fun he => hf ((hok b hc z₀ hz₀ hzo₀).1 he)
      cases hback.symm.trans (h.plain b z₀ hz₀ hzo₀ hnot).2.1
    | server he => exact absurd he hb
    | socket he => exact absurd he hb
  | client _ _ hc hf _ _ hp =>
    cases hp.symm.trans hpeer
    cases hs.after h hok hz hzo with
    | kept hz₀ => exact absurd hz₀ hfresh
    | client hz₀ => exact absurd hz₀ hfresh
    | server _ hc' _ _ _ hpz =>
      cases hc.symm.trans hc'
      exact hpz
    | socket _ hc' => cases hc.symm.trans hc'
  | server ha hc hf _ _ hp =>
    cases hp.symm.trans hpeer
    cases hs.after h hok hz hzo with
    | kept _ _ hnot => exact absurd ⟨hc, hf⟩ hnot
    | client _ _ _ _ _ _ hpz => exact hpz.trans (congrArg some ha.symm)
    | server hb hc' _ _ _ hpz =>
      cases hc.symm.trans hc'
      rw [hpz, ha, hb]
    | socket _ hc' => cases hc.symm.trans hc'
  | socket _ _ _ _ hp => cases hp.symm.trans hpeer

theorem Wired.step_shared (h : s.Wired) (hok : s.AdmitsOnce act) (hs : Step s act s') {z : Scb} (hab : a ≠ b)
    (hy : s'.scb.get a = some y) (hyo : 0 < y.slots) (hz : s'.scb.get b = some z) (hzo : 0 < z.slots)
    (hpy : p ∈ y.pipes) (hpz : p ∈ z.pipes) : y.peerOf = some b := by
  have hnew : ∀ {q : List PipePtr}, p < s.pipe.next → q = [s.pipe.next, s.pipe.next + 1] ∨
      q = [s.pipe.next + 1, s.pipe.next] → p ∉ q := by
    rintro q hlt (rfl | rfl) hp
    all_goals
      have hp : p = s.pipe.next ∨ p = s.pipe.next + 1 := by simpa [or_comm] using hp
      obtain rfl | rfl := hp
      · exact Nat.lt_irrefl _ hlt
      · exact Nat.not_succ_lt_self hlt
  cases hs.after h hok hy hyo with
  | @kept x hx hxo _ hp hps =>
    have hlt := h.pipe_lt a x p hx hxo (hps p hpy)
    cases hs.after h hok hz hzo with
    | @kept z₀ hz₀ hzo₀ _ _ hpsz _ _ hstaysz =>
      have hold := h.shared a b x z₀ p hab hx hxo hz₀ hzo₀ (hps p hpy) (hpsz p hpz)
      obtain hp | ⟨-, hunlinks⟩ := hp
      · exact hp.trans hold
      · exact absurd hunlinks (h.not_unlinks hx hxo hz₀ hold hstaysz)
    | client _ _ _ _ _ _ _ hpsz => exact absurd hpz (hnew hlt (.inl hpsz))
    | server _ _ _ _ _ _ hpsz => exact absurd hpz (hnew hlt (.inr hpsz))
    | socket _ _ _ _ _ hpsz =>
      rw [hpsz] at hpz
      cases hpz
  | client _ _ hc _ _ _ hp hps =>
    cases hs.after h hok hz hzo with
    | @kept z₀ hz₀ hzo₀ _ _ hpsz => exact absurd hpy (hnew (h.pipe_lt b z₀ p hz₀ hzo₀ (hpsz p hpz)) (.inl hps))
    | client _ _ hc' => exact absurd (Option.some.inj (hc.symm.trans hc')) hab
    | server hb => rw [hp, hb]
    | socket _ _ _ _ _ hpsz =>
      rw [hpsz] at hpz
      cases hpz
  | server ha hc _ _ _ hp hps =>
    cases hs.after h hok hz hzo with
    | @kept z₀ hz₀ hzo₀ _ _ hpsz => exact absurd hpy (hnew (h.pipe_lt b z₀ p hz₀ hzo₀ (hpsz p hpz)) (.inr hps))
    | client _ _ hc' =>
      cases hc.symm.trans hc'
      exact hp
    | server hb => exact absurd (ha.trans hb.symm) hab
    | socket _ _ _ _ _ hpsz =>
      rw [hpsz] at hpz
      cases hpz
  | socket _ _ _ _ _ hps =>
    rw [hps] at hpy
    cases hpy

theorem Wired.step_peer_lt (h : s.Wired) (hok : s.AdmitsOnce act) (hs : Step s act s') (hy : s'.scb.get a = some y)
    (ho : 0 < y.slots) (hpeer : y.peerOf = some b) : b < s'.scb.next := by
  cases hs.after h hok hy ho with
  | @kept x hx hxo _ hp =>
    obtain hp | ⟨hp, -⟩ := hp
    · exact Nat.lt_of_lt_of_le (h.peer_lt a x b hx hxo (hp.symm.trans hpeer)) hs.nexts.scb
    · cases hp.symm.trans hpeer
  | client _ _ hc hf _ _ hp =>
    cases hp.symm.trans hpeer
    exact hs.nexts.wired ⟨by simp [hc], hf⟩
  | @server b' _ hc _ _ _ hp =>
    cases hp.symm.trans hpeer
    obtain ⟨x, _, hx, -⟩ := hs.client_get hc
    exact Nat.lt_of_lt_of_le (Heap.lt_next hx) hs.nexts.scb
  | socket _ _ _ _ hp => cases hp.symm.trans hpeer

theorem Wired.step_pipe_lt (h : s.Wired) (hok : s.AdmitsOnce act) (hs : Step s act s') (hy : s'.scb.get a = some y)
    (ho : 0 < y.slots) (hp : p ∈ y.pipes) : p < s'.pipe.next := by
  have htwo : ∀ b, s.client act = some b → act.fid ≠ none → p = s.pipe.next ∨ p = s.pipe.next + 1 →
      p < s'.pipe.next := by
    intro b hc hf hor
    rw [hs.nexts.pipe, if_pos ⟨by simp [hc], hf⟩]
    obtain rfl | rfl := hor
    · exact Nat.lt_add_of_pos_right (by decide)
    · exact Nat.lt_succ_self _
  cases hs.after h hok hy ho with
  | @kept x hx hxo _ _ hps =>
    rw [hs.nexts.pipe]
    exact Nat.lt_of_lt_of_le (h.pipe_lt a x p hx hxo (hps p hp)) (Nat.le_add_right _ _)
  | client _ _ hc hf _ _ _ hps => exact htwo _ hc hf (by simpa [hps] using hp)
  | server _ hc hf _ _ _ hps => exact htwo _ hc hf (by simpa [hps, or_comm] using hp)
  | socket _ _ _ _ _ hps =>
    rw [hps] at hp
    cases hp

/-- **Step lemma.** -/
theorem Wired.step (h : s.Wired) (hok : s.AdmitsOnce act) (hs : Step s act s') : s'.Wired where
  wired _ _ hy ho ht := h.step_wired hok hs hy ho ht
  plain _ _ hy ho ht := h.step_plain hok hs hy ho ht
  symmetric _ _ _ _ hy hyo hz hzo hpeer := h.step_symmetric hok hs hy hyo hz hzo hpeer
  shared _ _ _ _ _ hab hy hyo hz hzo hpy hpz := h.step_shared hok hs hab hy hyo hz hzo hpy hpz
  peer_lt _ _ _ hy ho hpeer := h.step_peer_lt hok hs hy ho hpeer
  pipe_lt _ _ _ hy ho hp := h.step_pipe_lt hok hs hy ho hp

/-! ## Closing -/

theorem closePipe_frame {q : Option PipePtr} {e : Pipe.End} (h : s.closePipe q e = some t) :
    t.scb = s.scb ∧ ∀ p, p ∉ q.toList → t.pipe.get p = s.pipe.get p := by
  unfold closePipe at h
  obtain ⟨q, rfl, h⟩ := Option.bind_eq_some_iff.1 h
  obtain ⟨z, -, rfl⟩ := Option.map_eq_some_iff.1 h
  split
  · exact ⟨rfl, fun p hp => Heap.get_modify_of_ne (by simpa using hp)⟩
  · exact ⟨rfl, fun p hp => Heap.get_free_of_ne (by simpa using hp)⟩

/-- `socket_close` has to do with the peer of the socket only, and with its own pipes. -/
theorem closeEnds_frame (h : s.closeEnds x a = some t) (hba : b ≠ a) (hpeer : x.peerOf ≠ some b) :
    t.scb.get b = s.scb.get b ∧ ∀ p, p ∉ x.pipes → t.pipe.get p = s.pipe.get p := by
  unfold closeEnds at h
  split at h
  · cases h
    exact ⟨rfl, fun _ _ => rfl⟩
  · rename_i b' w r ht hv
    obtain ⟨s₁, h₁, h⟩ := Option.bind_eq_some_iff.1 h
    obtain ⟨s₂, h₂, h⟩ := Option.bind_eq_some_iff.1 h
    unfold unlinkPeer at h
    obtain ⟨y, hy, h⟩ := Option.bind_eq_some_iff.1 h
    split at h
    · cases h
      obtain ⟨hs₁, hp₁⟩ := closePipe_frame h₁
      obtain ⟨hs₂, hp₂⟩ := closePipe_frame h₂
      have hbb : b ≠ b' := fun he => hpeer (by simp [Scb.peerOf, hv, he])
      refine ⟨(Heap.get_modify_of_ne hbb).trans (by rw [hs₂, hs₁]), fun p hp => ?_⟩
      have hp : p ∉ w.toList ∧ p ∉ r.toList := by simpa [Scb.pipes, hv] using hp
      exact (hp₂ p hp.2).trans (hp₁ p hp.1)
    · cases h
  · obtain ⟨slot, -, rfl⟩ := Option.map_eq_some_iff.1 h
    refine ⟨(Heap.get_modify_of_ne hba).trans (by rw [signal_scb]), fun p _ => ?_⟩
    exact congrArg (Heap.get · p) (signal_pipe _)
  · cases h
    exact ⟨rfl, fun _ _ => rfl⟩
  · cases h

theorem socketClose_frame {ret : Int} (hx : s.scb.get a = some x) (h : s.socketClose a = some (ret, t)) (hba : b ≠ a)
    (hpeer : x.peerOf ≠ some b) :
    t.scb.get b = s.scb.get b ∧ ∀ p, p ∉ x.pipes → t.pipe.get p = s.pipe.get p := by
  unfold socketClose at h
  simp only [hx, Option.bind_some] at h
  obtain ⟨s₁, h₁, h⟩ := Option.bind_eq_some_iff.1 h
  obtain ⟨z, -, h⟩ := Option.map_eq_some_iff.1 h
  obtain ⟨hscb, hpipe⟩ := closeEnds_frame h₁ hba hpeer
  split at h
  · cases h
    exact ⟨(Heap.get_free_of_ne hba).trans hscb, hpipe⟩
  · cases h
    exact ⟨(Heap.get_modify_of_ne hba).trans hscb, hpipe⟩

theorem fcbDecref_frame (hx : s.scb.get a = some x) (h : s.fcbDecref a = some t) (hba : b ≠ a)
    (hpeer : x.peerOf ≠ some b) :
    t.scb.get b = s.scb.get b ∧ ∀ p, p ∉ x.pipes → t.pipe.get p = s.pipe.get p := by
  unfold fcbDecref at h
  simp only [hx, Option.bind_some] at h
  split at h
  · obtain ⟨⟨ret, t'⟩, hclose, rfl⟩ := Option.map_eq_some_iff.1 h
    have hx' : (s.dropSlot a).scb.get a = some { x with slots := x.slots - 1 } := by simp [dropSlot, modifyScb, hx]
    obtain ⟨hscb, hpipe⟩ := socketClose_frame hx' hclose hba hpeer
    exact ⟨hscb.trans (Heap.get_modify_of_ne hba), hpipe⟩
  · cases h
    exact ⟨Heap.get_modify_of_ne hba, fun _ _ => rfl⟩

theorem Wired.closesOwnEnds (h : s.Wired) : s.ClosesOwnEnds act := by
  rintro a s' rfl hs x hx hslots b y hba hpeer hy hyo
  have hown : ∀ p ∈ y.pipes, p ∉ x.pipes := fun p hp hpx =>
    hpeer (h.shared a b x y p (Ne.symm hba) hx (by omega) hy hyo hpx hp)
  simp only [State.step, perform] at hs
  split at hs
  · split at hs
    · obtain ⟨hscb, hpipe⟩ := fcbDecref_frame hx hs hba hpeer
      exact ⟨hscb.trans hy, fun p hp => hpipe p (hown p hp)⟩
    · cases hs
  · cases hs

theorem Wired.not_peersRight (h : s.Wired) (hbad : ¬s.AdmitsOnce act) (hs : Step s act s') : ¬s'.PeersRight := by
  simp only [AdmitsOnce, not_forall] at hbad
  obtain ⟨a, ha, x, hx, ho, hiff⟩ := hbad
  obtain ⟨x', y, hx', hy⟩ := hs.client_get ha
  cases hx.symm.trans hx'
  have hc := hs.change hx hy
  have ht : y.type = .peer := by
    obtain ⟨hno, -⟩ | ⟨he, -⟩ | ⟨-, ht⟩ := hc.type
    · exact absurd ha hno
    · subst he
      cases ha
    · exact ht
  have hyo : 0 < y.slots := by
    have hd : act ≠ .dup a := by
      rintro rfl
      cases ha
    have hd' : act ≠ .drop a := by
      rintro rfl
      cases ha
    rw [hc.slots, if_neg hd, if_neg hd']
    exact ho
  intro hright
  have hone := hright.wired a y hy hyo ht
  rw [hc.wirings] at hone
  by_cases hfid : act.fid = none
  · have hnot : x.type ≠ .peer := fun he => hiff ⟨fun _ => hfid, fun _ => he⟩
    rw [if_neg fun h => h.2 hfid, (h.plain a x hx ho hnot).1] at hone
    cases hone
  · have hpeer : x.type = .peer := by
      by_contra hn
      exact hiff ⟨fun he => absurd he hn, fun he => absurd he hfid⟩
    rw [if_pos ⟨ha, hfid⟩, h.wired a x hx ho hpeer] at hone
    cases hone

theorem boot_wired : boot.Wired where
  wired _ _ hx := by cases hx
  plain _ _ hx := by cases hx
  symmetric _ _ _ _ hx := by cases hx
  shared _ _ _ _ _ _ hx := by cases hx
  peer_lt _ _ _ hx := by cases hx
  pipe_lt _ _ _ hx := by cases hx

end State

/-- **Peers.** Along a run each open peer is the end of exactly one connection, open sockets are peers of each other, and
closing a socket does not touch a third one or its pipes, exactly when `sys_Accept` admits no request of an open peer and has
a fid for each open socket whose request it admits. -/
theorem peers_iff_admitted_once {s' : State} {as : List Action} (hr : system.run State.boot as = some s') :
    system.AllStates State.PeersRight State.boot as ∧ system.AllSteps State.ClosesOwnEnds State.boot as ↔
      system.AllSteps State.AdmitsOnce State.boot as := by
  have hiff : system.AllStates State.PeersRight State.boot as ↔ system.AllSteps State.AdmitsOnce State.boot as :=
    Lts.allStates_iff_allSteps (I := State.Wired) (fun _ h => h.peersRight)
      (fun _ _ _ h ha hs => h.step ha (State.step_cases hs)) (fun _ _ _ h ha hs => h.not_peersRight ha (State.step_cases hs))
      State.boot_wired hr
  refine ⟨fun h => hiff.1 h.1, fun hok => ⟨hiff.2 hok, ?_⟩⟩
  exact Lts.allSteps_of_allSteps (I := State.Wired) (fun _ _ _ h ha hs => h.step ha (State.step_cases hs))
    (fun _ _ h _ => h.closesOwnEnds) State.boot_wired hok

/-- A connection of which one end is closed. -/
theorem peers_iff_admitted_once_closed :
    let fid : Option Fid := some ⟨0, by decide⟩
    let as := [.socket 5 fid, .listen (some 0), .socket 0 fid, .connect (some 1) 5 100, .accept (some 0) fid, .signal 1,
      .resume 0 none, .drop 1]
    system.AllStates State.PeersRight State.boot as ∧ system.AllSteps State.ClosesOwnEnds State.boot as := by
  intro fid as
  obtain ⟨s', hr⟩ : ∃ s', system.run State.boot as = some s' := Option.isSome_iff_exists.1 (by decide +kernel)
  exact (peers_iff_admitted_once hr).2 (by decide +kernel)

/-- Two requests of socket 1 wait when `sys_Accept` is called twice: it is made a peer of sockets 2 and 3, and socket 2, whose
peer it was, names it still. Closing socket 2 then clears the peer of socket 1. -/
theorem admitted_twice :
    ∃ s s', system.Reaches s ∧ s.scb.get 1 = some ⟨2, .peer, 0, .peer (some 3) (some 2) (some 3), 1, 2⟩ ∧
      (s.scb.get 2).bind Scb.peerOf = some 1 ∧ ¬s.PeersRight ∧ s.step (.drop 2) = some s' ∧
      (s'.scb.get 1).bind Scb.peerOf = none := by
  let fid : Option Fid := some ⟨0, by decide⟩
  obtain ⟨s, hr, hs⟩ := Option.map_eq_some_iff.1 (show
    (system.run State.boot [.socket 5 fid, .listen (some 0), .socket 0 fid, .connect (some 1) 5 100,
        .connect (some 1) 5 100, .accept (some 0) fid, .signal 2, .accept (some 0) fid, .signal 3]).map
      (fun s => (s.scb.get 1, (s.scb.get 2).bind Scb.peerOf,
        (s.step (.drop 2)).map fun s' => (s'.scb.get 1).bind Scb.peerOf)) =
      some (some ⟨2, .peer, 0, .peer (some 3) (some 2) (some 3), 1, 2⟩, some 1, some none) by decide +kernel)
  obtain ⟨hx, hpeer, hdrop⟩ : _ ∧ _ ∧ _ := by simpa only [Prod.mk.injEq] using hs
  obtain ⟨s', hs', hnone⟩ := Option.map_eq_some_iff.1 hdrop
  refine ⟨s, s', Lts.reaches_of_run (.init rfl) hr, hx, hpeer, fun h => ?_, hs', hnone⟩
  cases h.wired 1 _ hx (by decide) rfl

end TinyOS.Sockets
