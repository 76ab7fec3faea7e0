import TinyOS.Sockets.Changes
import TinyOS.Sockets.Ports
import TinyOS.Sockets.Waitsets

/-!
# The bounds of the port table

`Port_Map` has `MAX_PORT` elements, and `MAX_PORT` is a legal port.

- `portAccesses`: at which indices a step accesses `Port_Map`; the model has no result where one of them is outside
  (`step_of_outside`);
- `Bounded`: the ports of the listeners are inside, in every state reached;
- `port_accesses_iff`: all accesses are inside as long as no socket listens on `MAX_PORT` or connects to it, and no call of
  `sys_Accept` goes on with a listener that was freed.
-/

namespace TinyOS.Sockets

open Streams (Fid)
open Streams.View (maxPort)

namespace State

variable {s s' : State} {a l : ScbPtr} {c : CallId} {x y : Scb} {p : Nat} {act : Action}

/-- The SCB of an open socket. -/
def openScb (s : State) (a : ScbPtr) : Option Scb := (s.scb.get a).filter fun x => 0 < x.slots

theorem openScb_eq_some : s.openScb a = some x ↔ s.scb.get a = some x ∧ 0 < x.slots := by
  simp [openScb, Option.filter_eq_some_iff]

/-- The indices at which a call that needs the kernel accesses `Port_Map`; `none` for a port that is read from a freed SCB. -/
def portAccesses (s : State) : Action → List (Option Nat)
  | .listen (some a) =>
    match s.openScb a with
    | some x => if x.type = .unbound ∧ ¬(x.port < 1 ∨ x.port > maxPort) then [some x.port] else []
    | none => []
  | .accept (some l) _ =>
    match s.openScb l with
    | some x => if x.type = .listener then [some x.port] else []
    | none => []
  | .resume c _ =>
    match s.calls[c]? with
    | some (.accepting l true) => [(s.scb.get l).map Scb.port]
    | _ => []
  | .connect (some a) port _ =>
    match s.openScb a with
    | some x => if ¬(x.type ≠ .unbound ∨ port > maxPort ∨ port < 1) then [some port.toNat] else []
    | none => []
  | .drop a =>
    match s.openScb a with
    | some x => if x.slots - 1 = 0 ∧ x.type = .listener then [some x.port] else []
    | none => []
  | _ => []

/-- All accesses of the step are inside `Port_Map`. -/
def InBounds (s : State) (act : Action) : Prop :=
  s.kernel = none → ∀ i ∈ s.portAccesses act, ∃ p, i = some p ∧ p < maxPort

/-- No socket on `MAX_PORT` listens, none connects to it, and `sys_Accept` does not go on with a freed listener. -/
def AvoidsMaxPort (s : State) (act : Action) : Prop :=
  s.kernel = none →
    match act with
    | .listen (some a) => ∀ x ∈ s.openScb a, x.type = .unbound → x.port ≠ maxPort
    | .connect (some a) port _ => ∀ x ∈ s.openScb a, x.type = .unbound → port ≠ maxPort
    | .resume c _ => ∀ l, s.calls[c]? = some (.accepting l true) → s.scb.get l ≠ none
    | _ => True

/-! ## The model has no result outside -/

theorem portSlot_eq_none (hp : maxPort ≤ p) : s.portSlot p = none := if_neg (Nat.not_lt.2 hp)

/-- The loop of `sys_Accept` on a listener that was freed, or with a port outside. -/
theorem acceptLoop_outside (fid : Option Fid) (h : ∀ x, s.scb.get l = some x → maxPort ≤ x.port) :
    s.acceptLoop c l fid = none := by
  unfold acceptLoop
  cases hx : s.scb.get l with
  | none => rfl
  | some x =>
    simp only [Option.bind_some, portSlot_eq_none (h x hx), Option.bind_none]
    cases x.variant <;> rfl

theorem socketClose_outside (hx : s.scb.get a = some x) (ht : x.type = .listener) (hp : maxPort ≤ x.port) :
    s.socketClose a = none := by
  have hends : s.closeEnds x a = none := by
    unfold closeEnds
    rw [ht]
    cases x.variant with
    | listener queue waitset => simp only [portSlot_eq_none hp, Option.map_none]
    | unbound | peer => rfl
  rw [socketClose, hx, Option.bind_some, hends]
  rfl

theorem step_of_outside (h : ¬s.InBounds act) : s.step act = none := by
  unfold InBounds at h
  push Not at h
  obtain ⟨hk, i, hi, hout⟩ := h
  have hout : ∀ p, i = some p → maxPort ≤ p := hout
  have hpos : ∀ {a x}, s.openScb a = some x → s.IsOpen a := fun h =>
    have h := openScb_eq_some.1 h
    ⟨_, h.1, h.2⟩
  unfold portAccesses at hi
  split at hi
  · -- `sys_Listen`
    split at hi
    · rename_i a _ x hx
      split at hi
      · rename_i hcheck
        obtain rfl := List.mem_singleton.1 hi
        have hslot := portSlot_eq_none (s := s) (hout _ rfl)
        simp only [step, hk, if_true, perform, Option.mem_some_iff, forall_eq', hpos hx, sysListen,
          (openScb_eq_some.1 hx).1, Option.bind_some, hcheck.1, ne_eq, not_true_eq_false, if_false, hcheck.2, hslot,
          Option.map_none]
      · cases hi
    · cases hi
  · -- `sys_Accept`
    split at hi
    · rename_i l fid _ x hx
      split at hi
      · rename_i ht
        obtain rfl := List.mem_singleton.1 hi
        have hget : ((s.modifyScb l Scb.ref).start (.accepting l true)).scb.get l = some x.ref := by
          simp [modifyScb, start, (openScb_eq_some.1 hx).1]
        have hloop := acceptLoop_outside (s := (s.modifyScb l Scb.ref).start (.accepting l true)) (c := s.calls.length)
          fid fun y hy => by
            cases hget.symm.trans hy
            exact hout _ rfl
        simp only [step, hk, if_true, perform, Option.mem_some_iff, forall_eq', hpos hx, sysAccept,
          (openScb_eq_some.1 hx).1, Option.bind_some, ht, ne_eq, not_true_eq_false, if_false, hloop]
      · cases hi
    · cases hi
  · -- `sys_Accept` after its wait
    rename_i c fid
    split at hi
    · rename_i l hc
      obtain rfl := List.mem_singleton.1 hi
      simp only [step, hk, if_true, perform, hc]
      exact acceptLoop_outside fid fun x hx => hout _ (by rw [hx]; rfl)
    · cases hi
  · -- `sys_Connect`
    split at hi
    · rename_i a port timeout _ x hx
      split at hi
      · rename_i hcheck
        obtain rfl := List.mem_singleton.1 hi
        have hslot := portSlot_eq_none (s := s) (hout _ rfl)
        simp only [step, hk, if_true, perform, Option.mem_some_iff, forall_eq', hpos hx, sysConnect,
          (openScb_eq_some.1 hx).1, Option.bind_some, hcheck, if_false, hslot, Option.bind_none]
      · cases hi
    · cases hi
  · -- `socket_close`
    split at hi
    · rename_i a _ x hx
      split at hi
      · rename_i hcheck
        obtain rfl := List.mem_singleton.1 hi
        have hget : (s.modifyScb a fun x => { x with slots := x.slots - 1 }).scb.get a =
            some { x with slots := x.slots - 1 } := by
          simp [modifyScb, (openScb_eq_some.1 hx).1]
        simp only [step, hk, if_true, perform, hpos hx, fcbDecref, (openScb_eq_some.1 hx).1, Option.bind_some, hcheck.1,
          socketClose_outside hget hcheck.2 (hout _ rfl), Option.map_none]
      · cases hi
    · cases hi
  · cases hi

/-! ## The ports of the listeners -/

/-- The ports that are used without a test. -/
structure Bounded (s : State) : Prop where
  listener : ∀ a x, s.scb.get a = some x → x.type = .listener → x.port < maxPort
  accepting : ∀ (c : CallId) l w, s.calls[c]? = some (.accepting l w) → l < s.scb.next ∧
    ∀ x, s.scb.get l = some x → x.port < maxPort

theorem boot_bounded : boot.Bounded :=
  ⟨fun _ _ hx => (by cases hx), fun _ _ _ hc => (by cases hc)⟩

theorem Bounded.step (h : s.Bounded) (hs : s.step act = some s') : s'.Bounded := by
  have hstep := step_cases hs
  -- a socket that was there before keeps its port
  have hold : ∀ {a x y}, s.scb.get a = some x → s'.scb.get a = some y → x.port < maxPort → y.port < maxPort :=
    fun hx hy hp => by rwa [(hstep.change hx hy).port]
  refine ⟨fun a y hy ht => ?_, fun c l w hc => ?_⟩
  · cases hx : s.scb.get a with
    | some x =>
      refine hold hx hy ?_
      rcases (hstep.change hx hy).type with ⟨-, hsame⟩ | ⟨rfl, hunbound, -⟩ | ⟨-, hpeer⟩
      · exact h.listener a x hx (hsame ▸ ht)
      · cases hstep with
        | listenFail =>
          cases hx.symm.trans hy
          rw [hunbound] at ht
          cases ht
        | listen hz _ _ _ hlt =>
          cases hx.symm.trans hz
          exact hlt
      · rw [hpeer] at ht
        cases ht
    | none =>
      obtain ⟨-, hborn⟩ := hstep.born hx hy
      cases hborn with
      | socket | server => cases ht
  · obtain ⟨hlt, hport⟩ : l < s.scb.next ∧ ∀ x, s.scb.get l = some x → x.port < maxPort := by
      rcases hstep.accepting hc with ⟨x, hx, -, ht, -⟩ | ⟨w', hc', -⟩
      · refine ⟨Heap.lt_next hx, fun x' hx' => ?_⟩
        cases hx.symm.trans hx'
        exact h.listener l x hx ht
      · exact h.accepting c l w' hc'
    refine ⟨Nat.lt_of_lt_of_le hlt hstep.nexts.scb, fun y hy => ?_⟩
    cases hx : s.scb.get l with
    | some x => exact hold hx hy (hport x hx)
    | none => exact absurd (hstep.born hx hy).1 (Nat.ne_of_lt hlt)

theorem inside_ite {b : Prop} [Decidable b] :
    (∀ i ∈ if b then [some p] else [], ∃ q, i = some q ∧ q < maxPort) ↔ (b → p < maxPort) := by
  by_cases hb : b <;> simp [hb]

/-- In a state with the invariant, what a step has to avoid is exactly what takes it outside. -/
theorem Bounded.inBounds_iff (h : s.Bounded) : s.InBounds act ↔ s.AvoidsMaxPort act := by
  refine forall_congr' fun hk => ?_
  -- the accesses with no test of their own
  have hinside : ∀ {a x}, s.openScb a = some x → x.type = .listener → x.port < maxPort := fun hx ht =>
    h.listener _ _ (openScb_eq_some.1 hx).1 ht
  cases act with
  | listen sock =>
    cases sock with
    | none => simp [portAccesses]
    | some a =>
      cases hx : s.openScb a with
      | none => simp [portAccesses, hx]
      | some x =>
        simp only [portAccesses, hx, inside_ite, Option.mem_some_iff, forall_eq']
        refine ⟨fun hp ht he => ?_, fun hne hcheck => ?_⟩
        · exact Nat.lt_irrefl _ (he ▸ hp ⟨ht, by simp [he, maxPort]⟩)
        · have := hne hcheck.1
          omega
  | accept sock fid =>
    cases sock with
    | none => simp [portAccesses]
    | some l =>
      cases hx : s.openScb l with
      | none => simp [portAccesses, hx]
      | some x =>
        simp only [portAccesses, hx, inside_ite, iff_true]
        exact hinside hx
  | connect sock port timeout =>
    cases sock with
    | none => simp [portAccesses]
    | some a =>
      cases hx : s.openScb a with
      | none => simp [portAccesses, hx]
      | some x =>
        simp only [portAccesses, hx, inside_ite, Option.mem_some_iff, forall_eq']
        refine ⟨fun hp ht he => ?_, fun hne hcheck => ?_⟩
        · have := hp (by simp [ht, he, maxPort])
          omega
        · push Not at hcheck
          have := hne hcheck.1
          omega
  | drop a =>
    cases hx : s.openScb a with
    | none => simp [portAccesses, hx]
    | some x =>
      simp only [portAccesses, hx, inside_ite, iff_true]
      exact fun hcheck => hinside hx hcheck.2
  | resume c fid =>
    by_cases hc : ∃ l, s.calls[c]? = some (.accepting l true)
    · obtain ⟨l, hc⟩ := hc
      simp only [portAccesses, hc, List.mem_singleton, forall_eq, Option.some.injEq, Place.accepting.injEq, and_true,
        forall_eq']
      cases hx : s.scb.get l with
      | none => simp
      | some x => simpa [hx] using (h.accepting c l true hc).2 x hx
    · have hnone : s.portAccesses (.resume c fid) = [] := by
        simp only [portAccesses]
        split
        · rename_i l hl
          exact absurd ⟨l, hl⟩ hc
        · rfl
      rw [hnone]
      exact iff_of_true (fun _ hi => by cases hi) fun l hl => absurd ⟨l, hl⟩ hc
  | socket | shutDown | dup | signal | expire => simp [portAccesses]

/-! ## Listeners on one port -/

/-- A listener on `p` is installed by `sys_Listen`, found by `sys_Connect` and removed by `socket_close`, which change no
other element of `Port_Map`. -/
structure Serves (p : Nat) : Prop where
  installs : ∀ (s : State) a x, s.scb.get a = some x → x.type = .unbound → x.port = p → s.portMap p = none →
    ∃ s', s.sysListen (some a) = some (0, s') ∧ s'.portMap = Function.update s.portMap p (some a)
  finds : ∀ (s : State) a l x y queue waitset timeout, s.scb.get a = some x → x.type = .unbound → s.portMap p = some l →
    s.scb.get l = some y → y.type = .listener → y.variant = .listener queue waitset →
      s.sysConnect p timeout (some a) = some (s.request a l queue waitset timeout)
  removes : ∀ (s : State) a x queue waitset, x.type = .listener → x.port = p → x.variant = .listener queue waitset →
    ∃ s', s.closeEnds x a = some s' ∧ s'.portMap = Function.update s.portMap p none

theorem serves_of_lt (hp : 1 ≤ p) (hlt : p < maxPort) : Serves p := by
  have hslot : ∀ s : State, s.portSlot p = some (s.portMap p) := fun s => if_pos hlt
  refine ⟨fun s a x hx ht hxp hnone => ?_, fun s a l x y queue waitset timeout hx ht hl hy hty hv => ?_,
    fun s a x queue waitset ht hxp hv => ?_⟩
  · have hcheck : ¬(p < 1 ∨ p > maxPort) := by omega
    subst hxp
    refine ⟨s.listen a x.port, ?_, rfl⟩
    simp only [sysListen, hx, Option.bind_some, ht, ne_eq, not_true_eq_false, if_false, hcheck, hslot, hnone,
      Option.map_some]
    rfl
  · have hcheck : ¬(x.type ≠ .unbound ∨ (p : Int) > maxPort ∨ (p : Int) < 1) := by
      rw [ht]
      simp only [ne_eq, not_true_eq_false, false_or]
      omega
    simp only [sysConnect, hx, Option.bind_some, hcheck, if_false, Int.toNat_natCast, hslot, hl, hy, hty, ne_eq,
      not_true_eq_false, hv]
  · subst hxp
    refine ⟨({ s with portMap := Function.update s.portMap x.port none }).signalAvailable a queue waitset, ?_, ?_⟩
    · simp only [closeEnds, ht, hv, hslot, Option.map_some]
    · exact signalAvailable_portMap _ a queue waitset

/-- The port for which `Port_Map` is too short. -/
theorem not_serves_maxPort : ¬Serves maxPort := by
  intro h
  let s := (boot.sysSocket maxPort (some ⟨0, by decide⟩)).2
  obtain ⟨s', hs', -⟩ := h.installs s 0 ⟨0, .unbound, maxPort, .unbound, 1, 0⟩ rfl rfl rfl rfl
  have hnone : s.sysListen (some 0) = none := rfl
  cases hnone.symm.trans hs'

theorem serves_iff (hp : 1 ≤ p) (hle : p ≤ maxPort) : Serves p ↔ p ≠ maxPort := by
  constructor
  · rintro h rfl
    exact not_serves_maxPort h
  · exact fun hne => serves_of_lt hp (by omega)

end State

/-- **`Port_Map` is indexed in bounds** along a run exactly when the run avoids `MAX_PORT` and listeners that were freed; and
a legal port can be served exactly when it is not `MAX_PORT`. -/
theorem port_accesses_iff (as : List Action) :
    (system.AllSteps State.InBounds State.boot as ↔ system.AllSteps State.AvoidsMaxPort State.boot as) ∧
      ∀ p, 1 ≤ p → p ≤ maxPort → (State.Serves p ↔ p ≠ maxPort) := by
  refine ⟨⟨fun h => ?_, fun h => ?_⟩, fun p hp hle => State.serves_iff hp hle⟩
  · exact Lts.allSteps_of_allSteps (I := State.Bounded) (fun _ _ _ hI _ hs => hI.step hs)
      (fun _ _ hI hok => hI.inBounds_iff.1 hok) State.boot_bounded h
  · exact Lts.allSteps_of_allSteps (I := State.Bounded) (fun _ _ _ hI _ hs => hI.step hs)
      (fun _ _ hI hok => hI.inBounds_iff.2 hok) State.boot_bounded h

/-- A socket on port 5 listens and is closed. -/
theorem port_accesses_iff_five : system.AllSteps State.InBounds State.boot
    [.socket 5 (some ⟨0, by decide⟩), .listen (some 0), .drop 0] ∧ State.Serves 5 := by
  refine ⟨(port_accesses_iff _).1.2 ⟨fun _ => trivial, fun s₁ hs₁ => ?_⟩,
    ((port_accesses_iff []).2 5 (by decide) (by decide)).2 (by decide)⟩
  cases hs₁
  refine ⟨fun _ x hx _ => ?_, fun s₂ hs₂ => ⟨fun _ => trivial, fun _ _ => trivial⟩⟩
  cases hx
  decide

/-- A socket on port 1023 listens. -/
theorem listens_outside : ¬∀ as, system.AllSteps State.InBounds State.boot as := by
  intro h
  obtain ⟨-, h⟩ := h [.socket 1023 (some ⟨0, by decide⟩), .listen (some 0)]
  obtain ⟨hin, -⟩ := h _ rfl
  obtain ⟨p, hp, hlt⟩ := hin rfl (some 1023) (by decide)
  cases hp
  exact absurd hlt (by decide)

end TinyOS.Sockets
