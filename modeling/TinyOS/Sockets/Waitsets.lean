import TinyOS.Sockets.Calls
import TinyOS.Sockets.Changes
import TinyOS.Sockets.Refcount

/-!
# The calls that wait on a listener

- `Step.portMap`: what a step does to `Port_Map`;
- `Waiting`: the waitset of a listener is the calls of `sys_Accept` that wait on it, and an open listener is in `Port_Map`
  (`Waiting.step`).
-/

namespace TinyOS.Sockets

open Streams (Fid)
open Streams.View (maxPort)

/-- The waitset of `req_available`. -/
def Scb.waitset (x : Scb) : Option (List CallId) :=
  match x.variant with
  | .listener _ w => some w
  | _ => none

theorem Scb.waitset_eq_some {x : Scb} {w : List CallId} : x.waitset = some w ↔ ∃ q, x.variant = .listener q w := by
  unfold waitset
  split
  · rename_i q w' hv
    simp [hv, eq_comm]
  · rename_i hv
    simp only [reduceCtorEq, false_iff, not_exists]
    exact fun q => hv q w

namespace State

variable {s s' t : State} {a b l : ScbPtr} {c d : CallId} {x y : Scb} {pl pl' : Place} {q w : List CallId}
  {fid : Option Fid} {act : Action} {f : Scb → Scb}

/-- `sys_Listen` gets past its checks. -/
def CanListen (s : State) (x : Scb) : Prop := x.type = .unbound ∧ 1 ≤ x.port ∧ x.port < maxPort ∧ s.portMap x.port = none

instance (s : State) (x : Scb) : Decidable (s.CanListen x) := inferInstanceAs (Decidable (_ ∧ _))

/-- What a step does to `Port_Map`. -/
inductive PortStep (s : State) (act : Action) (m : Nat → Option ScbPtr) : Prop
  | same : m = s.portMap → PortStep s act m
  | listen {a : ScbPtr} {x : Scb} : act = .listen (some a) → s.scb.get a = some x → 0 < x.slots → s.CanListen x →
      m = Function.update s.portMap x.port (some a) → PortStep s act m
  | close {a : ScbPtr} {x : Scb} {q w : List CallId} : act = .drop a → s.scb.get a = some x → x.slots = 1 →
      x.type = .listener → x.variant = .listener q w → m = Function.update s.portMap x.port none → PortStep s act m

theorem Loop.portMap (hl : Loop s c l fid t) : t.portMap = s.portMap := by
  cases hl <;> rfl

theorem Step.portMap (hs : Step s act s') : s.PortStep act s'.portMap := by
  cases hs with
  | socketFail | listenFail | shutDownFail | acceptFail | connectFail | socket => exact .same rfl
  | shutRead | shutWrite | timedOut | missed | expire | dup | drop => exact .same rfl
  | listen hx hslots ht h₁ h₂ hp => exact .listen rfl hx hslots ⟨ht, h₁, h₂, hp⟩ rfl
  | accept _ _ _ hl => exact .same hl.portMap
  | acceptResume _ hl => exact .same hl.portMap
  | connect => exact .same (request_portMap _ _ _ _ _ _)
  | connected _ _ _ _ hu =>
    obtain ⟨k, rfl⟩ := unref_eq hu
    exact .same rfl
  | close hx hslots he =>
    rw [release_portMap]
    cases he with
    | nothing => exact .same rfl
    | peer => exact .same rfl
    | listener ht hv => exact .close rfl hx hslots ht hv (signal_portMap _)
  | signal _ _ _ hu =>
    obtain ⟨k, rfl⟩ := unref_eq hu
    exact .same (signalConnected_portMap _)

/-! ## Waitsets -/

def waitsetOf (s : State) (l : ScbPtr) : Option (List CallId) := (s.scb.get l).bind Scb.waitset

theorem waitsetOf_eq_some : s.waitsetOf l = some w ↔ ∃ x q, s.scb.get l = some x ∧ x.variant = .listener q w := by
  simp only [waitsetOf, Option.bind_eq_some_iff, Scb.waitset_eq_some, exists_and_left]

/-- The waitsets that are there have been there. -/
def KeepsWaitsets (s t : State) : Prop := ∀ l w, t.waitsetOf l = some w → s.waitsetOf l = some w

theorem KeepsWaitsets.trans (h : s.KeepsWaitsets t) (h' : t.KeepsWaitsets s') : s.KeepsWaitsets s' :=
  fun l w hw => h l w (h' l w hw)

theorem keepsWaitsets_of_keeps (h : s.scb.Keeps Scb.waitset t.scb) : s.KeepsWaitsets t := by
  intro l w hw
  obtain ⟨y, hy, hyw⟩ := Option.bind_eq_some_iff.1 hw
  obtain ⟨x, hx, hyx⟩ := h.kept l y hy
  exact Option.bind_eq_some_iff.2 ⟨x, hx, hyx ▸ hyw⟩

theorem keepsWaitsets_modifyScb (a : ScbPtr)
    (hf : ∀ x w, s.scb.get a = some x → (f x).waitset = some w → x.waitset = some w) :
    s.KeepsWaitsets (s.modifyScb a f) := by
  intro l w hw
  obtain ⟨y, hy, hyw⟩ := Option.bind_eq_some_iff.1 hw
  obtain ⟨x, hx, rfl⟩ := Heap.get_modify_eq_some.1 hy
  refine Option.bind_eq_some_iff.2 ⟨x, hx, ?_⟩
  split at hyw
  · rename_i hla
    exact hf x w (hla ▸ hx) hyw
  · exact hyw

theorem keepsWaitsets_newSocket (port : Nat) : s.KeepsWaitsets (s.newSocket port) := by
  intro l w hw
  obtain ⟨y, hy, hyw⟩ := Option.bind_eq_some_iff.1 hw
  obtain ⟨-, rfl⟩ | hy := Heap.get_alloc_eq_some.1 hy
  · cases hyw
  · exact Option.bind_eq_some_iff.2 ⟨y, hy, hyw⟩

theorem keepsWaitsets_connect (a b : ScbPtr) : s.KeepsWaitsets (s.connect a b) :=
  (keepsWaitsets_modifyScb (f := (·.wire b s.pipe.next (s.pipe.next + 1))) a fun x w _ hw => by cases hw).trans
    (keepsWaitsets_modifyScb b fun x w _ hw => by cases hw)

/-- The waitsets, and the calls that wait. -/
def Waitsets (s : State) : Prop :=
  ∀ l w, s.waitsetOf l = some w → w.Nodup ∧ ∀ c, c ∈ w ↔ s.calls[c]? = some (.accepting l false)

/-- The same calls wait on the same listeners. -/
def SameWaits (s t : State) : Prop :=
  ∀ (c : CallId) l, t.calls[c]? = some (.accepting l false) ↔ s.calls[c]? = some (.accepting l false)

theorem Waitsets.of_kept (h : s.Waitsets) (hk : s.KeepsWaitsets t) (hc : s.SameWaits t) : t.Waitsets := by
  intro l w hw
  obtain ⟨hnodup, hmem⟩ := h l w (hk l w hw)
  exact ⟨hnodup, fun c => (hmem c).trans (hc c l).symm⟩

theorem sameWaits_setPlace (hc : s.calls[c]? = some pl) (hpl : ∀ l, pl ≠ .accepting l false)
    (hpl' : ∀ l, pl' ≠ .accepting l false) : s.SameWaits (s.setPlace c pl') := by
  intro d l
  by_cases hdc : d = c
  · subst hdc
    rw [setPlace_self hc, hc]
    simp [hpl, hpl']
  · rw [show (s.setPlace c pl').calls[d]? = s.calls[d]? from List.getElem?_set_ne (Ne.symm hdc)]

theorem sameWaits_start (hpl : ∀ l, pl ≠ .accepting l false) : s.SameWaits (s.start pl) := by
  intro d l
  refine ⟨fun hd => ?_, fun hd => start_of_some hd pl⟩
  obtain ⟨-, he⟩ | hd := start_getElem hd
  · exact absurd he.symm (hpl l)
  · exact hd

theorem Waitsets.setPlace (h : s.Waitsets) (hc : s.calls[c]? = some pl) (hpl : ∀ l, pl ≠ .accepting l false)
    (hpl' : ∀ l, pl' ≠ .accepting l false) : (s.setPlace c pl').Waitsets :=
  h.of_kept (fun _ _ hw => hw) (sameWaits_setPlace hc hpl hpl')

theorem Waitsets.start (h : s.Waitsets) (hpl : ∀ l, pl ≠ .accepting l false) : (s.start pl).Waitsets :=
  h.of_kept (fun _ _ hw => hw) (sameWaits_start hpl)

theorem Waitsets.kept (h : s.Waitsets) (hk : s.KeepsWaitsets t) (hc : t.calls = s.calls) : t.Waitsets :=
  h.of_kept hk fun c l => by rw [hc]

theorem Waitsets.modifyScb (h : s.Waitsets) (a : ScbPtr)
    (hf : ∀ x w, s.scb.get a = some x → (f x).waitset = some w → x.waitset = some w) : (s.modifyScb a f).Waitsets :=
  h.kept (keepsWaitsets_modifyScb a hf) rfl

/-- `kernel_wait`. -/
theorem Waitsets.wait (h : s.Waitsets) (hc : s.calls[c]? = some (.accepting l true)) (hx : s.scb.get l = some x)
    (hv : x.variant = .listener q w) : ((s.setQueue l q (w ++ [c])).setPlace c (.accepting l false)).Waitsets := by
  obtain ⟨hnodup, hmem⟩ := h l w (waitsetOf_eq_some.2 ⟨x, q, hx, hv⟩)
  have hset : (s.setQueue l q (w ++ [c])).calls[c]? = some (.accepting l true) := hc
  intro l' w' hw'
  obtain ⟨y, q', hy, hyv⟩ := waitsetOf_eq_some.1 hw'
  obtain ⟨x', hx', rfl⟩ := Heap.get_modify_eq_some.1 hy
  by_cases hl : l' = l
  · subst hl
    rw [if_pos rfl] at hyv
    cases hyv
    have hfresh : ∀ d ∈ w, d ≠ c := by
      rintro d hd rfl
      cases hc.symm.trans ((hmem d).1 hd)
    refine ⟨by simpa [List.nodup_append] using ⟨hnodup, hfresh⟩, fun d => ?_⟩
    by_cases hdc : d = c
    · subst hdc
      rw [setPlace_self hset]
      simp
    · rw [show ((s.setQueue l' q (w ++ [c])).setPlace c (.accepting l' false)).calls[d]? = s.calls[d]? from
        List.getElem?_set_ne (Ne.symm hdc)]
      simp [hdc, hmem d]
  · rw [if_neg hl] at hyv
    obtain ⟨hnodup', hmem'⟩ := h l' w' (waitsetOf_eq_some.2 ⟨x', q', hx', hyv⟩)
    refine ⟨hnodup', fun d => (hmem' d).trans ?_⟩
    by_cases hdc : d = c
    · subst hdc
      rw [setPlace_self hset, hc]
      simp [Ne.symm hl]
    · rw [show ((s.setQueue l q (w ++ [c])).setPlace c (.accepting l false)).calls[d]? = s.calls[d]? from
        List.getElem?_set_ne (Ne.symm hdc)]

/-- `kernel_signal` wakes the first call of the waitset. -/
theorem Waitsets.signalAvailable (h : s.Waitsets) (hx : s.scb.get l = some x) (hv : x.variant = .listener q w)
    (q' : List CallId) : (s.signalAvailable l q' w).Waitsets := by
  obtain ⟨hnodup, hmem⟩ := h l w (waitsetOf_eq_some.2 ⟨x, q, hx, hv⟩)
  cases w with
  | nil =>
    refine h.modifyScb l fun y w hy hw => ?_
    cases hx.symm.trans hy
    cases hw
    exact Scb.waitset_eq_some.2 ⟨q, hv⟩
  | cons c rest =>
    have hc := (hmem c).1 List.mem_cons_self
    have hsig : s.signal (c :: rest) = (rest, s.setPlace c (.accepting l true)) := by
      unfold signal
      rw [hc]
    have hnodup := List.nodup_cons.1 hnodup
    unfold State.signalAvailable
    rw [hsig]
    intro l' w' hw'
    obtain ⟨y, q₁, hy, hyv⟩ := waitsetOf_eq_some.1 hw'
    obtain ⟨x', hx', rfl⟩ := Heap.get_modify_eq_some.1 hy
    by_cases hl : l' = l
    · subst hl
      rw [if_pos rfl] at hyv
      cases hyv
      refine ⟨hnodup.2, fun d => ?_⟩
      by_cases hdc : d = c
      · subst hdc
        rw [show (State.modifyScb (s.setPlace d (.accepting l' true)) l' _).calls[d]? = _ from setPlace_self hc]
        simp [hnodup.1]
      · rw [show (State.modifyScb (s.setPlace c (.accepting l' true)) l' _).calls[d]? = s.calls[d]? from
          List.getElem?_set_ne (Ne.symm hdc), ← hmem d]
        simp [hdc]
    · rw [if_neg hl] at hyv
      obtain ⟨hnodup', hmem'⟩ := h l' w' (waitsetOf_eq_some.2 ⟨x', q₁, hx', hyv⟩)
      refine ⟨hnodup', fun d => (hmem' d).trans ?_⟩
      by_cases hdc : d = c
      · subst hdc
        rw [show (State.modifyScb (s.setPlace d (.accepting l true)) l _).calls[d]? = _ from setPlace_self hc, hc]
        simp [Ne.symm hl]
      · rw [show (State.modifyScb (s.setPlace c (.accepting l true)) l _).calls[d]? = s.calls[d]? from
          List.getElem?_set_ne (Ne.symm hdc)]

theorem Waitsets.loop (h : s.Waitsets) (hc : s.calls[c]? = some (.accepting l true)) (hl : Loop s c l fid t) :
    t.Waitsets := by
  have hqueue : ∀ {x q w q'}, s.scb.get l = some x → x.variant = .listener q w → (s.setQueue l q' w).Waitsets := by
    intro x q w q' hx hv
    refine h.modifyScb l fun y w' hy hw' => ?_
    cases hx.symm.trans hy
    cases hw'
    exact Scb.waitset_eq_some.2 ⟨q, hv⟩
  cases hl with
  | closed => exact h.setPlace hc (by simp) (by simp)
  | wait hx hv => exact h.wait hc hx hv
  | @refuse x r q w p cr y hx hv =>
    have hg : ((s.setQueue l q w).grant r cr).Waitsets :=
      (hqueue hx hv).kept (keepsWaitsets_modifyScb cr.peer fun _ _ _ hw => hw) rfl
    exact hg.setPlace hc (by simp) (by simp)
  | @honor x r q w p cr y fid hx hv =>
    have hg : ((s.setQueue l q w).grant r cr).Waitsets :=
      (hqueue hx hv).kept (keepsWaitsets_modifyScb cr.peer fun _ _ _ hw => hw) rfl
    have hw := hg.kept ((keepsWaitsets_newSocket x.port).trans (keepsWaitsets_connect cr.peer s.scb.next)) rfl
    exact (hw.setPlace hc (by simp) (by simp)).kept (fun _ _ h => h) rfl

/-! ## The invariant -/

/-- Listeners, and the calls that wait on them. -/
structure Waiting (s : State) : Prop where
  waitsets : s.Waitsets
  port : ∀ l x w, s.scb.get l = some x → x.waitset = some w → x.port < maxPort
  type : ∀ (c : CallId) l woken x, s.calls[c]? = some (.accepting l woken) → s.scb.get l = some x → x.type ≠ .unbound
  owns : ∀ l x w, s.scb.get l = some x → 0 < x.slots → x.waitset = some w → s.portMap x.port = some l

theorem Ends.waitsets (h : s.Waitsets) (hx : s.scb.get a = some x) (he : Ends s x a t) : t.Waitsets := by
  cases he with
  | nothing => exact h
  | @peer b => exact (h.kept (t := { s with pipe := _ }) (fun _ _ hw => hw) rfl).modifyScb b fun _ _ _ hw => by cases hw
  | listener _ hv =>
    have hp : State.Waitsets { s with portMap := Function.update s.portMap x.port none } := h.kept (fun _ _ hw => hw) rfl
    exact hp.signalAvailable hx hv _

theorem Waiting.step_waitsets (h : s.Waiting) (hs : Step s act s') : s'.Waitsets := by
  have hw := h.waitsets
  cases hs with
  | socketFail | listenFail | shutDownFail => exact hw
  | socket => exact hw.kept (keepsWaitsets_newSocket _) rfl
  | @listen a x hx _ ht =>
    intro l w hl
    obtain ⟨y, hy, hyw⟩ := Option.bind_eq_some_iff.1 hl
    obtain ⟨x', hx', rfl⟩ := Heap.get_modify_eq_some.1 hy
    split at hyw
    · rename_i hla
      subst hla
      cases hx.symm.trans hx'
      cases hyw
      refine ⟨List.nodup_nil, fun c => ?_⟩
      simp only [List.not_mem_nil, false_iff]
      exact fun hc => h.type c l false x hc hx ht
    · exact hw l w (Option.bind_eq_some_iff.2 ⟨x', hx', hyw⟩)
  | acceptFail => exact hw.start (by simp)
  | @accept l x fid _ _ _ _ hl =>
    have henter : (s.enter l).Waitsets := (hw.modifyScb (f := Scb.ref) l fun _ _ _ h => h).start (by simp)
    exact henter.loop List.getElem?_concat_length hl
  | acceptResume hc hl => exact hw.loop hc hl
  | connectFail => exact hw.start (by simp)
  | @connect a l x y port n q w hx _ _ _ hy _ hv =>
    have hu : State.Waitsets { s.modifyScb a Scb.ref with cr := Function.update s.cr s.calls.length (some ⟨false, a⟩) } :=
      (hw.modifyScb (f := Scb.ref) a fun _ _ _ h => h).kept (fun _ _ h => h) rfl
    obtain ⟨y', hy', hyv⟩ := (modifyScb_alike (f := Scb.ref) (g := fun x => x.variant) a fun _ _ => rfl).get hy
    exact (hu.signalAvailable hy' (hyv.trans hv) (q ++ [s.calls.length])).start (by simp)
  | timedOut _ hc _ => exact hw.setPlace hc (by simp) (by simp)
  | missed _ hc => exact (hw.setPlace hc (by simp) (by simp)).kept (fun _ _ h => h) rfl
  | connected _ hc _ _ hu =>
    have ht := hw.kept (keepsWaitsets_of_keeps (unref_keeps (g := Scb.waitset) (fun _ => rfl) hu)) (unref_calls hu)
    exact ht.setPlace ((unref_calls hu) ▸ hc) (by simp) (by simp)
  | shutRead => exact hw.kept (fun _ _ h => h) rfl
  | shutWrite =>
    exact (hw.kept (t := { s with pipe := _ }) (fun _ _ h => h) rfl).modifyScb _ fun _ _ _ hw => by cases hw
  | dup | drop => exact hw.modifyScb _ fun _ _ _ h => h
  | @close a x t hx hslots he =>
    have hdrop : (s.dropSlot a).Waitsets := hw.modifyScb a fun _ _ _ h => h
    have hx' : (s.dropSlot a).scb.get a = some { x with slots := 0 } := by simp [dropSlot, State.modifyScb, hx, hslots]
    refine (he.waitsets hdrop hx').kept ?_ (release_calls _)
    unfold release
    split
    · exact keepsWaitsets_of_keeps ((Heap.Keeps.refl _ _).free a)
    · exact keepsWaitsets_modifyScb a fun _ _ _ h => h
  | @signal c r l b fid cr t hc _ _ hu =>
    have hsig : (s.signalConnected r).Waitsets := by
      unfold signalConnected
      split
      · rename_i hr
        exact hw.setPlace hr (by simp) (by simp)
      · exact hw
    have ht := hsig.kept (keepsWaitsets_of_keeps (unref_keeps (g := Scb.waitset) (fun _ => rfl) hu)) (unref_calls hu)
    have hc' : t.calls[c]? = some (.signalling l r b fid) := unref_calls hu ▸ signalConnected_getElem hc (by simp) r
    exact (ht.setPlace hc' (by simp) (by simp)).kept (fun _ _ h => h) rfl
  | expire hc => exact hw.setPlace hc (by simp) (by simp)

/-- The SCB of a call that waits or is about to was there before. -/
theorem Step.accepting {woken : Bool} (hs : Step s act s') (hc : s'.calls[c]? = some (.accepting l woken)) :
    (∃ x, s.scb.get l = some x ∧ 0 < x.slots ∧ x.type = .listener ∧ ∃ fid, act = .accept (some l) fid) ∨
      ∃ woken', s.calls[c]? = some (.accepting l woken') ∧ s.Moves act c (.accepting l woken') (.accepting l woken) := by
  cases hold : s.calls[c]? with
  | none =>
    obtain ⟨-, hb⟩ := hs.begins hold hc
    cases hb with
    | @accept l' x _ fid hx hslots ht hend =>
      rcases hend with ⟨_, he⟩ | he | ⟨_, _, _, he⟩
      · cases he
      · cases he
        exact .inl ⟨x, hx, hslots, ht, fid, rfl⟩
      · cases he
  | some pl =>
    obtain ⟨pl', hpl', hm⟩ := hs.moves hold
    cases hc.symm.trans hpl'
    obtain ⟨woken', rfl⟩ : ∃ woken', pl = .accepting l woken' := by
      cases hm with
      | stay => exact ⟨woken, rfl⟩
      | woken => exact ⟨false, rfl⟩
      | loop _ hend =>
        rcases hend with ⟨_, he⟩ | he | ⟨_, _, _, he⟩
        · cases he
        · cases he
          exact ⟨true, rfl⟩
        · cases he
    exact .inr ⟨woken', rfl, hm⟩

/-- What was a listener before a step, if it is one after it. -/
theorem Change.waitset (h : s.Change act a x y) (hx : s.scb.get a = some x) (hw : y.waitset = some w) :
    (∃ w', x.waitset = some w') ∨ (act = .listen (some a) ∧ x.port < maxPort) := by
  obtain ⟨q, hyv⟩ := Scb.waitset_eq_some.1 hw
  have hv := h.variant
  split at hv
  · cases hyv.symm.trans hv
  · rw [hyv] at hv
    generalize hxv : x.variant = v at hv
    cases hv with
    | same => exact .inl ⟨w, Scb.waitset_eq_some.2 ⟨q, hxv⟩⟩
    | queue q₀ w₀ => exact .inl ⟨w₀, Scb.waitset_eq_some.2 ⟨q₀, hxv⟩⟩
    | listen _ he hz _ hlt =>
      cases hx.symm.trans hz
      exact .inr ⟨he, hlt⟩

theorem Change.type_ne_unbound (h : s.Change act a x y) (ht : x.type ≠ .unbound) : y.type ≠ .unbound := by
  obtain ⟨-, he⟩ | ⟨-, hxt, -⟩ | ⟨-, he⟩ := h.type
  · rwa [he]
  · exact absurd hxt ht
  · simp [he]

theorem Waiting.step (h : s.Waiting) (hb : s.Balanced) (hs : Step s act s') : s'.Waiting := by
  refine ⟨h.step_waitsets hs, ?_, ?_, ?_⟩
  · intro l y w hy hw
    cases hx : s.scb.get l with
    | none =>
      obtain ⟨-, hborn⟩ := hs.born hx hy
      cases hborn <;> cases hw
    | some x =>
      have hc := hs.change hx hy
      rw [hc.port]
      obtain ⟨w', hw'⟩ | ⟨-, hlt⟩ := hc.waitset hx hw
      · exact h.port l x w' hx hw'
      · exact hlt
  · intro c l woken y hc hy
    obtain ⟨x, hx, -, ht, -⟩ | ⟨woken', hc', -⟩ := hs.accepting hc
    · exact (hs.change hx hy).type_ne_unbound (by simp [ht])
    · cases hx : s.scb.get l with
      | none =>
        obtain ⟨he, -⟩ := hs.born hx hy
        have hlt := hb.lt_next hc' (show Place.holds l _ = true by simp [Place.holds, Place.inside])
        exact absurd he (Nat.ne_of_lt hlt)
      | some x => exact (hs.change hx hy).type_ne_unbound (h.type c l woken' x hc' hx)
  · intro l y w hy ho hw
    cases hx : s.scb.get l with
    | none =>
      obtain ⟨-, hborn⟩ := hs.born hx hy
      cases hborn <;> cases hw
    | some x =>
      have hc := hs.change hx hy
      have hxo : 0 < x.slots := by
        obtain rfl | ⟨x', hx', hxo⟩ := hs.open hy ho
        · rw [Heap.get_next] at hx
          cases hx
        · cases hx.symm.trans hx'
          exact hxo
      obtain ⟨w', hw'⟩ | ⟨rfl, -⟩ := hc.waitset hx hw
      · have hown := h.owns l x w' hx hxo hw'
        rw [hc.port]
        cases hs.portMap with
        | same hm => rw [hm, hown]
        | @listen a z _ hz _ hcan hm =>
          have hne : x.port ≠ z.port := by
            intro he
            rw [he, hcan.2.2.2] at hown
            cases hown
          rw [hm, Function.update_of_ne hne, hown]
        | @close a z q w₀ he hz hslots _ hzv hm =>
          have hne : x.port ≠ z.port := by
            intro hpe
            have hown' := h.owns a z w₀ hz (by omega) (Scb.waitset_eq_some.2 ⟨q, hzv⟩)
            rw [← hpe, hown] at hown'
            cases hown'
            cases hx.symm.trans hz
            have hslots' := hc.slots
            rw [he, if_neg (by simp), if_pos rfl] at hslots'
            omega
          rw [hm, Function.update_of_ne hne, hown]
      · cases hs with
        | listenFail =>
          exact h.owns l y w hy ho hw
        | listen hz =>
          cases hx.symm.trans hz
          rw [hc.port]
          exact Function.update_self _ _ _

theorem boot_waiting : boot.Waiting where
  waitsets _ _ hw := by cases hw
  port _ _ _ hx := by cases hx
  type _ _ _ _ hc := by cases hc
  owns _ _ _ hx := by cases hx

end State

end TinyOS.Sockets
