import TinyOS.Sockets.Model

/-!
# What a step of the socket layer can do

- `Loop`: the ways out of the loop of `sys_Accept`;
- `Ends`: what `socket_close` does before it decrements `refcount`;
- `Step`: the steps, with all that the code has checked (`step_cases`).
-/

namespace TinyOS.Sockets

open Streams (Fid)
open Streams.View (maxPort)
open Pipe (End)

/-- The action is of a call that is not inside the kernel. -/
def Action.Enters : Action → Prop
  | .signal _ | .expire _ => False
  | _ => True

namespace State

variable {s s' t : State} {a b l : ScbPtr} {c r : CallId} {x y : Scb} {fid : Option Fid} {act : Action}

/-! ## Parts of the calls -/

/-- A call of `sys_Accept` gets past its checks. -/
def enter (s : State) (l : ScbPtr) : State := (s.modifyScb l Scb.ref).start (.accepting l true)

def setQueue (s : State) (l : ScbPtr) (queue waitset : List CallId) : State :=
  s.modifyScb l (·.setVariant (.listener queue waitset))

/-- `req->admitted = 1`, and the type of the socket that the request is for. -/
def grant (s : State) (r : CallId) (cr : Cr) : State :=
  { s.modifyScb cr.peer Scb.toPeer with cr := Function.update s.cr r (some { cr with admitted := true }) }

/-- A call of `sys_Socket` that returns a fid. -/
def newSocket (s : State) (port : Nat) : State := { s with scb := s.scb.alloc ⟨0, .unbound, port, .unbound, 1, 0⟩ }

/-- The call of `sys_Accept` stops at its `kernel_signal`. -/
def hold (s : State) (c : CallId) (l : ScbPtr) (r : CallId) (b : ScbPtr) (fid : Fid) : State :=
  { s.setPlace c (.signalling l r b fid) with kernel := some c }

def listen (s : State) (a : ScbPtr) (port : Nat) : State :=
  { s.modifyScb a fun x => { x with type := .listener, variant := .listener [] [] } with
    portMap := Function.update s.portMap port (some a) }

/-- One slot less. -/
def dropSlot (s : State) (a : ScbPtr) : State := s.modifyScb a fun x => { x with slots := x.slots - 1 }

/-- The end of `socket_close`. -/
def release (s : State) (a : ScbPtr) (refcount : Int) : State :=
  if refcount - 1 ≤ 0 then { s with scb := s.scb.free a } else s.modifyScb a Scb.unref

/-- The loop of `sys_Accept` in call `c` on `l`, up to its wait, its `kernel_signal` or its return. -/
inductive Loop (s : State) (c : CallId) (l : ScbPtr) : Option Fid → State → Prop
  | closed {x : Scb} {q w : List CallId} {fid : Option Fid} : s.scb.get l = some x → x.variant = .listener q w →
      s.portMap x.port = none → Loop s c l fid (s.setPlace c (.refused (some l) none))
  | wait {x : Scb} {w : List CallId} {a : ScbPtr} {fid : Option Fid} : s.scb.get l = some x →
      x.variant = .listener [] w → s.portMap x.port = some a →
      Loop s c l fid ((s.setQueue l [] (w ++ [c])).setPlace c (.accepting l false))
  | refuse {x : Scb} {r : CallId} {q w : List CallId} {a : ScbPtr} {cr : Cr} {y : Scb} : s.scb.get l = some x →
      x.variant = .listener (r :: q) w → s.portMap x.port = some a → s.cr r = some cr → s.scb.get cr.peer = some y →
      Loop s c l none (((s.setQueue l q w).grant r cr).setPlace c (.refused (some l) (some r)))
  | honor {x : Scb} {r : CallId} {q w : List CallId} {a : ScbPtr} {cr : Cr} {y : Scb} {fid : Fid} :
      s.scb.get l = some x → x.variant = .listener (r :: q) w → s.portMap x.port = some a → s.cr r = some cr →
      s.scb.get cr.peer = some y →
      Loop s c l (some fid)
        (((((s.setQueue l q w).grant r cr).newSocket x.port).connect cr.peer s.scb.next).hold c l r s.scb.next fid)

theorem acceptLoop_cases (h : s.acceptLoop c l fid = some s') : Loop s c l fid s' := by
  unfold acceptLoop at h
  obtain ⟨x, hx, h⟩ := Option.bind_eq_some_iff.1 h
  split at h
  · rename_i queue waitset hv
    unfold portSlot at h
    split at h
    · rename_i hport
      simp only [Option.bind_some] at h
      cases hslot : s.portMap x.port with
      | none =>
        rw [hslot] at h
        cases h
        exact .closed hx hv hslot
      | some p =>
        rw [hslot] at h
        cases queue with
        | nil =>
          cases h
          exact .wait hx hv hslot
        | cons r queue =>
          simp only [honor] at h
          obtain ⟨cr, hcr, h⟩ := Option.bind_eq_some_iff.1 h
          obtain ⟨y, hy, h⟩ := Option.map_eq_some_iff.1 h
          obtain ⟨y₀, hy₀, -⟩ := Heap.get_modify_eq_some.1 hy
          have hlegal : ¬((x.port : Int) < 0 ∨ (x.port : Int) > maxPort) := by omega
          simp only [sysSocket, if_neg hlegal] at h
          cases fid with
          | none =>
            cases h
            exact .refuse hx hv hslot hcr hy₀
          | some fid =>
            cases h
            exact .honor hx hv hslot hcr hy₀
    · cases h
  · cases h

/-- The `switch` of `socket_close`. -/
inductive Ends (s : State) (x : Scb) (a : ScbPtr) : State → Prop
  | nothing : x.type ≠ .listener → (∀ b w r, x.variant ≠ .peer (some b) w r) ∨ x.type = .unbound → Ends s x a s
  | peer {b : ScbPtr} {w r w' r' : Option PipePtr} {p' : Option ScbPtr} {y : Scb} {h : Heap Pipe.PipeCB} : x.type = .peer →
      x.variant = .peer (some b) w r → h.next = s.pipe.next → s.scb.get b = some y → y.variant = .peer p' w' r' →
      Ends s x a ({ s with pipe := h }.modifyScb b (·.setVariant (.peer none w' r')))
  | listener {q w : List CallId} : x.type = .listener → x.variant = .listener q w →
      Ends s x a ({ s with portMap := Function.update s.portMap x.port none }.signalAvailable a q w)

theorem closePipe_eq {p : Option PipePtr} {e : End} (h : s.closePipe p e = some s') :
    ∃ k : Heap Pipe.PipeCB, k.next = s.pipe.next ∧ s' = { s with pipe := k } := by
  unfold closePipe at h
  obtain ⟨p, -, h⟩ := Option.bind_eq_some_iff.1 h
  obtain ⟨z, -, rfl⟩ := Option.map_eq_some_iff.1 h
  split
  · exact ⟨s.pipe.modify p (·.close e), rfl, rfl⟩
  · exact ⟨s.pipe.free p, rfl, rfl⟩

theorem closeEnds_cases (h : s.closeEnds x a = some s') : Ends s x a s' := by
  unfold closeEnds at h
  split at h
  · rename_i ht hv
    cases h
    exact .nothing (by simp [ht]) (.inl fun b w r hb => by simp [hv] at hb)
  · rename_i b w r ht hv
    obtain ⟨s₁, h₁, h⟩ := Option.bind_eq_some_iff.1 h
    obtain ⟨s₂, h₂, h⟩ := Option.bind_eq_some_iff.1 h
    obtain ⟨k₁, hk₁, rfl⟩ := closePipe_eq h₁
    obtain ⟨k₂, hk₂, rfl⟩ := closePipe_eq h₂
    unfold unlinkPeer at h
    obtain ⟨y, hy, h⟩ := Option.bind_eq_some_iff.1 h
    split at h
    · rename_i hyv
      cases h
      exact .peer ht hv (hk₂.trans hk₁) hy hyv
    · cases h
  · rename_i ht hv
    obtain ⟨slot, -, rfl⟩ := Option.map_eq_some_iff.1 h
    exact .listener ht hv
  · rename_i ht
    cases h
    exact .nothing (by simp [ht]) (.inr ht)
  · cases h

/-! ## Steps -/

/-- The steps, and what they leave behind. -/
inductive Step (s : State) : Action → State → Prop
  | socketFail (port : Int) (fid : Option Fid) : Step s (.socket port fid) s
  | socket {port : Int} (fid : Fid) : 0 ≤ port → port ≤ maxPort → Step s (.socket port (some fid)) (s.newSocket port.toNat)
  | listenFail (sock : Option ScbPtr) : Step s (.listen sock) s
  | listen {a : ScbPtr} {x : Scb} : s.scb.get a = some x → 0 < x.slots → x.type = .unbound → 1 ≤ x.port →
      x.port < maxPort → s.portMap x.port = none → Step s (.listen (some a)) (s.listen a x.port)
  | acceptFail {sock : Option ScbPtr} (fid : Option Fid) :
      (∀ l x, sock = some l → s.scb.get l = some x → x.type ≠ .listener) →
      Step s (.accept sock fid) (s.start (.refused none none))
  | accept {l : ScbPtr} {x : Scb} {fid : Option Fid} {s' : State} : s.scb.get l = some x → 0 < x.slots →
      x.type = .listener → Loop (s.enter l) s.calls.length l fid s' → Step s (.accept (some l) fid) s'
  | acceptResume {c : CallId} {l : ScbPtr} {fid : Option Fid} {s' : State} : s.calls[c]? = some (.accepting l true) →
      Loop s c l fid s' → Step s (.resume c fid) s'
  | connectFail (sock : Option ScbPtr) (port : Int) (timeout : Nat) :
      Step s (.connect sock port timeout) (s.start (.connected none (-1)))
  | connect {a l : ScbPtr} {x y : Scb} {port : Int} {timeout : Nat} {q w : List CallId} : s.scb.get a = some x →
      0 < x.slots → x.type = .unbound → s.portMap port.toNat = some l → s.scb.get l = some y → y.type = .listener →
      y.variant = .listener q w → Step s (.connect (some a) port timeout) (s.request a l q w timeout)
  | timedOut {c : CallId} {a : ScbPtr} {timeout : Nat} {wake : Wake} {cr : Cr} (fid : Option Fid) :
      s.calls[c]? = some (.connecting a timeout wake) → wake ≠ .asleep → s.cr c = some cr → cr.admitted = false →
      Step s (.resume c fid) (s.setPlace c (.connected (some a) (-1)))
  | missed {c : CallId} {a : ScbPtr} {timeout : Nat} {cr : Cr} (fid : Option Fid) :
      s.calls[c]? = some (.connecting a timeout .expired) → s.cr c = some cr → cr.admitted = true →
      Step s (.resume c fid) { s.setPlace c (.connected (some a) (-1)) with cr := Function.update s.cr c none }
  | connected {c : CallId} {a : ScbPtr} {timeout : Nat} {cr : Cr} {t : State} (fid : Option Fid) :
      s.calls[c]? = some (.connecting a timeout .signalled) → s.cr c = some cr → cr.admitted = true →
      s.unref a = some t → Step s (.resume c fid) (t.setPlace c (.connected (some a) 0))
  | shutDownFail (sock : Option ScbPtr) (how : ShutdownMode) : Step s (.shutDown sock how) s
  | shutRead {a : ScbPtr} (how : ShutdownMode) (k : Heap Pipe.PipeCB) : k.next = s.pipe.next →
      Step s (.shutDown (some a) how) { s with pipe := k }
  | shutWrite {a : ScbPtr} {x : Scb} {p : Option ScbPtr} {w r r' : Option PipePtr} (how : ShutdownMode)
      (k : Heap Pipe.PipeCB) : k.next = s.pipe.next → s.scb.get a = some x → x.variant = .peer p w r → r' = r ∨ r' = none →
      Step s (.shutDown (some a) how) ({ s with pipe := k }.modifyScb a (·.setVariant (.peer p none r')))
  | dup {a : ScbPtr} {x : Scb} : s.scb.get a = some x → 0 < x.slots → Step s (.dup a) (s.fcbIncref a)
  | drop {a : ScbPtr} {x : Scb} : s.scb.get a = some x → 1 < x.slots → Step s (.drop a) (s.dropSlot a)
  | close {a : ScbPtr} {x : Scb} {t : State} : s.scb.get a = some x → x.slots = 1 →
      Ends (s.dropSlot a) { x with slots := 0 } a t → Step s (.drop a) (t.release a x.refcount)
  | signal {c r : CallId} {l b : ScbPtr} {fid : Fid} {cr : Cr} {t : State} :
      s.calls[c]? = some (.signalling l r b fid) → s.kernel = some c → s.cr r = some cr →
      (s.signalConnected r).unref l = some t →
      Step s (.signal c) { t.setPlace c (.accepted l r b fid (s.linked cr.peer b)) with kernel := none }
  | expire {c : CallId} {a : ScbPtr} {timeout : Nat} : s.calls[c]? = some (.connecting a timeout .asleep) →
      timeout ≠ noTimeout → Step s (.expire c) (s.setPlace c (.connecting a timeout .expired))

/-- `kernel_signal` wakes at most one call of `sys_Accept`. -/
theorem signal_cases (s : State) (w : List CallId) : (∃ w', s.signal w = (w', s)) ∨
    ∃ c l w', c ∈ w ∧ s.calls[c]? = some (.accepting l false) ∧
      s.signal w = (w', s.setPlace c (.accepting l true)) := by
  induction w with
  | nil => exact .inl ⟨[], rfl⟩
  | cons c rest ih =>
    unfold signal
    split
    · rename_i l hc
      exact .inr ⟨c, l, rest, List.mem_cons_self, hc, rfl⟩
    · obtain ⟨w', h⟩ | ⟨d, l, w', hd, h⟩ := ih
      · exact .inl ⟨w', h⟩
      · exact .inr ⟨d, l, w', List.mem_cons_of_mem c hd, h⟩

/-- `kernel_signal` does not touch anything but the calls. -/
theorem signal_eq (s : State) (w : List CallId) : ∃ calls, (s.signal w).2 = { s with calls := calls } := by
  obtain ⟨w', h⟩ | ⟨c, l, w', -, -, h⟩ := signal_cases s w
  · exact ⟨s.calls, by rw [h]⟩
  · exact ⟨_, by rw [h]; rfl⟩

@[simp] theorem signal_scb (w : List CallId) : (s.signal w).2.scb = s.scb := by
  obtain ⟨_, h⟩ := signal_eq s w
  rw [h]

@[simp] theorem signal_portMap (w : List CallId) : (s.signal w).2.portMap = s.portMap := by
  obtain ⟨_, h⟩ := signal_eq s w
  rw [h]

@[simp] theorem signal_pipe (w : List CallId) : (s.signal w).2.pipe = s.pipe := by
  obtain ⟨_, h⟩ := signal_eq s w
  rw [h]

@[simp] theorem signal_cr (w : List CallId) : (s.signal w).2.cr = s.cr := by
  obtain ⟨_, h⟩ := signal_eq s w
  rw [h]

@[simp] theorem signal_kernel (w : List CallId) : (s.signal w).2.kernel = s.kernel := by
  obtain ⟨_, h⟩ := signal_eq s w
  rw [h]

theorem request_pipe (s : State) (a l : ScbPtr) (q w : List CallId) (n : Nat) : (s.request a l q w n).pipe = s.pipe :=
  signal_pipe w

theorem request_portMap (s : State) (a l : ScbPtr) (q w : List CallId) (n : Nat) :
    (s.request a l q w n).portMap = s.portMap := signal_portMap w

/-- What `sys_Connect` does to the sockets before it waits. -/
theorem request_scb (s : State) (a l : ScbPtr) (q w : List CallId) (n : Nat) : ∃ w', (s.request a l q w n).scb =
    (s.scb.modify a Scb.ref).modify l (·.setVariant (.listener (q ++ [s.calls.length]) w')) :=
  ⟨_, congrArg (Heap.modify · l _) (signal_scb w)⟩

/-- What `socket_close` does to the other fields of its socket. -/
theorem Ends.get (h : Ends s x a t) (hx : s.scb.get a = some y) :
    ∃ z, t.scb.get a = some z ∧ z.refcount = y.refcount ∧ z.slots = y.slots ∧ z.type = y.type ∧ z.port = y.port := by
  cases h with
  | nothing => exact ⟨y, hx, rfl, rfl, rfl, rfl⟩
  | @peer b w r w' r' p' y₀ k _ _ _ hb hyv =>
    by_cases hab : a = b
    · subst hab
      exact ⟨y.setVariant (.peer none w' r'), by simp [modifyScb, hx], rfl, rfl, rfl, rfl⟩
    · exact ⟨y, by simpa [modifyScb, hab] using hx, rfl, rfl, rfl, rfl⟩
  | @listener q w _ _ =>
    unfold signalAvailable
    obtain ⟨w', h⟩ | ⟨c, l, w', -, -, h⟩ :=
        signal_cases { s with portMap := Function.update s.portMap x.port none } w
    all_goals rw [h]
    · exact ⟨y.setVariant (.listener q w'), by simp [modifyScb, hx], rfl, rfl, rfl, rfl⟩
    · exact ⟨y.setVariant (.listener q w'), by simp [modifyScb, setPlace, hx], rfl, rfl, rfl, rfl⟩

theorem socketClose_cases {ret : Int} (hx : s.scb.get a = some x) (h : s.socketClose a = some (ret, s')) :
    ∃ t, Ends s x a t ∧ s' = t.release a x.refcount ∧ ret = if x.refcount - 1 ≤ 0 then 0 else -1 := by
  unfold socketClose at h
  simp only [hx, Option.bind_some] at h
  obtain ⟨t, ht, h⟩ := Option.bind_eq_some_iff.1 h
  obtain ⟨z, hz, h⟩ := Option.map_eq_some_iff.1 h
  have hends := closeEnds_cases ht
  obtain ⟨z', hz', href, -⟩ := hends.get hx
  cases hz.symm.trans hz'
  rw [href] at h
  refine ⟨t, hends, ?_⟩
  unfold release
  split
  · rename_i hle
    rw [if_pos hle] at h
    cases h
    exact ⟨rfl, rfl⟩
  · rename_i hle
    rw [if_neg hle] at h
    cases h
    exact ⟨rfl, rfl⟩

theorem fcbDecref_cases (hx : s.scb.get a = some x) (hopen : 0 < x.slots) (h : s.fcbDecref a = some s') :
    Step s (.drop a) s' := by
  unfold fcbDecref at h
  rw [hx] at h
  simp only [Option.bind_some] at h
  split at h
  · rename_i hlast
    obtain ⟨⟨ret, t'⟩, hclose, rfl⟩ := Option.map_eq_some_iff.1 h
    have hx₀ : (s.dropSlot a).scb.get a = some { x with slots := 0 } := by simp [dropSlot, modifyScb, hx, hlast]
    obtain ⟨t, hends, rfl, -⟩ := socketClose_cases hx₀ hclose
    have hslots : x.slots = 1 := by omega
    exact Step.close (x := x) hx hslots hends
  · cases h
    exact .drop hx (by omega)

theorem sysShutDown_cases {how : ShutdownMode} {ret : Int} (h : s.sysShutDown how (some a) = some (ret, s')) :
    Step s (.shutDown (some a) how) s' := by
  unfold sysShutDown at h
  obtain ⟨x, hx, h⟩ := Option.bind_eq_some_iff.1 h
  split at h
  · cases h
    exact .shutDownFail _ _
  · cases hv : x.variant with
    | peer p w r =>
      rw [hv] at h
      cases how with
      | other => cases h; exact .shutDownFail _ _
      | read =>
        obtain ⟨t, ht, hs⟩ := Option.map_eq_some_iff.1 h
        obtain ⟨k, hk, rfl⟩ := closePipe_eq ht
        cases hs
        exact .shutRead _ k hk
      | write =>
        obtain ⟨t, ht, hs⟩ := Option.map_eq_some_iff.1 h
        obtain ⟨k, hk, rfl⟩ := closePipe_eq ht
        cases hs
        exact .shutWrite _ k hk hx hv (.inl rfl)
      | both =>
        obtain ⟨t, ht, hs⟩ := Option.map_eq_some_iff.1 h
        obtain ⟨k, hk, rfl⟩ := closePipe_eq ht
        cases hs
        exact .shutWrite _ k hk hx hv (.inr rfl)
    | _ =>
      rw [hv] at h
      cases how with
      | other => cases h; exact .shutDownFail _ _
      | _ => cases h

theorem sysListen_cases {ret : Int} (hopen : s.IsOpen a) (h : s.sysListen (some a) = some (ret, s')) :
    Step s (.listen (some a)) s' := by
  unfold sysListen at h
  obtain ⟨x, hx, h⟩ := Option.bind_eq_some_iff.1 h
  obtain ⟨x', hx', hslots⟩ := hopen
  cases hx.symm.trans hx'
  split at h
  · cases h
    exact .listenFail _
  · rename_i ht
    split at h
    · cases h
      exact .listenFail _
    · rename_i hport
      unfold portSlot at h
      split at h
      · rename_i hlt
        cases hslot : s.portMap x.port with
        | some l =>
          rw [hslot] at h
          cases h
          exact .listenFail _
        | none =>
          rw [hslot] at h
          cases h
          exact .listen hx hslots (not_not.1 ht) (by omega) hlt hslot
      · cases h

theorem sysConnect_cases {port : Int} {timeout : Nat} (hopen : s.IsOpen a)
    (h : s.sysConnect port timeout (some a) = some s') : Step s (.connect (some a) port timeout) s' := by
  unfold sysConnect at h
  obtain ⟨x, hx, h⟩ := Option.bind_eq_some_iff.1 h
  obtain ⟨x', hx', hslots⟩ := hopen
  cases hx.symm.trans hx'
  split at h
  · cases h
    exact .connectFail _ _ _
  · rename_i hcheck
    obtain ⟨slot, hslot, h⟩ := Option.bind_eq_some_iff.1 h
    unfold portSlot at hslot
    split at hslot
    · cases hslot
      split at h
      · cases h
        exact .connectFail _ _ _
      · rename_i l hl
        obtain ⟨y, hy, h⟩ := Option.bind_eq_some_iff.1 h
        split at h
        · cases h
          exact .connectFail _ _ _
        · rename_i hty
          split at h
          · rename_i hv
            cases h
            exact .connect hx hslots (by tauto) hl hy (not_not.1 hty) hv
          · cases h
    · cases hslot

/-- A step that needs the kernel. -/
theorem perform_cases (h : s.perform act = some s') : Step s act s' := by
  cases act with
  | socket port fid =>
    cases h
    unfold sysSocket
    split
    · exact .socketFail port fid
    · rename_i hport
      cases fid with
      | none => exact .socketFail port none
      | some fid => exact .socket fid (by omega) (by omega)
  | listen sock =>
    simp only [perform] at h
    split at h
    · rename_i hopen
      obtain ⟨⟨ret, t⟩, hl, rfl⟩ := Option.map_eq_some_iff.1 h
      cases sock with
      | none => cases hl; exact .listenFail none
      | some a => exact sysListen_cases (hopen a rfl) hl
    · cases h
  | accept sock fid =>
    simp only [perform] at h
    split at h
    · rename_i hopen
      cases sock with
      | none => cases h; exact .acceptFail fid fun l x hl => by cases hl
      | some l =>
        unfold sysAccept at h
        obtain ⟨x, hx, h⟩ := Option.bind_eq_some_iff.1 h
        obtain ⟨x', hx', hslots⟩ := hopen l rfl
        cases hx.symm.trans hx'
        split at h
        · rename_i ht
          cases h
          refine .acceptFail fid fun l' x' hl hx' => ?_
          cases hl
          cases hx.symm.trans hx'
          exact ht
        · rename_i ht
          exact .accept hx hslots (not_not.1 ht) (acceptLoop_cases h)
    · cases h
  | connect sock port timeout =>
    simp only [perform] at h
    split at h
    · rename_i hopen
      cases sock with
      | none => cases h; exact .connectFail none port timeout
      | some a => exact sysConnect_cases (hopen a rfl) h
    · cases h
  | shutDown sock how =>
    simp only [perform] at h
    split at h
    · obtain ⟨⟨ret, t⟩, hsd, rfl⟩ := Option.map_eq_some_iff.1 h
      cases sock with
      | none => cases hsd; exact .shutDownFail none how
      | some a => exact sysShutDown_cases hsd
    · cases h
  | dup a =>
    simp only [perform] at h
    split at h
    · rename_i hopen
      obtain ⟨x, hx, hslots⟩ := hopen
      cases h
      exact .dup hx hslots
    · cases h
  | drop a =>
    simp only [perform] at h
    split at h
    · rename_i hopen
      obtain ⟨x, hx, hslots⟩ := hopen
      exact fcbDecref_cases hx hslots h
    · cases h
  | resume c fid =>
    simp only [perform] at h
    split at h
    · rename_i l hc
      exact .acceptResume hc (acceptLoop_cases h)
    · rename_i a timeout hc
      unfold connectResume at h
      obtain ⟨cr, hcr, h⟩ := Option.bind_eq_some_iff.1 h
      split at h
      · rename_i hadm
        cases h
        exact .timedOut fid hc (by simp) hcr hadm
      · rename_i hadm
        simp only [Bool.true_eq_false, if_false] at h
        obtain ⟨t, ht, rfl⟩ := Option.map_eq_some_iff.1 h
        exact .connected fid hc hcr (by simpa using hadm) ht
    · rename_i a timeout hc
      unfold connectResume at h
      obtain ⟨cr, hcr, h⟩ := Option.bind_eq_some_iff.1 h
      split at h
      · rename_i hadm
        cases h
        exact .timedOut fid hc (by simp) hcr hadm
      · rename_i hadm
        cases h
        exact .missed fid hc hcr (by simpa using hadm)
    · cases h
  | signal c => cases h
  | expire c => cases h

/-- A step does one of the things that `Step` lists. -/
theorem step_cases (h : s.step act = some s') : Step s act s' := by
  have hperform : (if s.kernel = none then s.perform act else none) = some s' → Step s act s' := by
    intro h
    split at h
    · exact perform_cases h
    · cases h
  cases act with
  | signal c =>
    simp only [step] at h
    split at h
    · rename_i l r b fid hc
      split at h
      · rename_i hk
        unfold finishAccept at h
        obtain ⟨cr, hcr, h⟩ := Option.bind_eq_some_iff.1 h
        obtain ⟨t, ht, rfl⟩ := Option.map_eq_some_iff.1 h
        exact .signal hc hk hcr ht
      · cases h
    · cases h
  | expire c =>
    simp only [step] at h
    split at h
    · rename_i hc
      split at h
      · rename_i ht
        cases h
        exact .expire hc ht
      · cases h
    · cases h
  | _ => exact hperform h

/-! ## What a step is about -/

/-- The listener on which the step runs the loop of `sys_Accept`. -/
def loopOn (s : State) : Action → Option ScbPtr
  | .accept (some l) _ => if ((s.scb.get l).any fun x => x.type = .listener) then some l else none
  | .resume c _ =>
    match s.calls[c]? with
    | some (.accepting l true) => some l
    | _ => none
  | _ => none

/-- The socket whose request the loop of `sys_Accept` on `l` would admit. -/
def clientOf (s : State) (l : ScbPtr) : Option ScbPtr :=
  (s.scb.get l).bind fun x =>
    if s.portMap x.port = none then none else x.queue.head?.bind fun r => (s.cr r).map (·.peer)

/-- The socket whose request the step admits. -/
def client (s : State) (act : Action) : Option ScbPtr := (s.loopOn act).bind s.clientOf

theorem clientOf_enter (s : State) (l : ScbPtr) : (s.enter l).clientOf l = s.clientOf l := by
  unfold clientOf enter start modifyScb
  rw [Heap.get_modify_self]
  cases s.scb.get l <;> rfl

/-- A call of `sys_Accept` admits a request, or it changes no more than a waitset. -/
theorem Loop.client (h : Loop s c l fid t) : s.clientOf l = none ∨ ∃ cr x r, s.clientOf l = some cr.peer ∧
    s.scb.get cr.peer = some x ∧ s.cr r = some cr := by
  cases h with
  | @closed x q w fid hx hv hp => exact .inl (by simp [clientOf, hx, hp])
  | @wait x w a fid hx hv hp => exact .inl (by simp [clientOf, hx, hp, Scb.queue, hv])
  | @refuse x r q w a cr y hx hv hp hcr hy =>
    exact .inr ⟨cr, y, r, by simp [clientOf, hx, hp, Scb.queue, hv, hcr], hy, hcr⟩
  | @honor x r q w a cr y fid hx hv hp hcr hy =>
    exact .inr ⟨cr, y, r, by simp [clientOf, hx, hp, Scb.queue, hv, hcr], hy, hcr⟩

/-- A step that admits a request runs the loop of `sys_Accept`. -/
theorem Step.loop_of_client (hs : Step s act s') (ha : s.client act = some a) :
    ∃ t c l fid, (t = s ∨ t = s.enter l) ∧ t.clientOf l = some a ∧ Loop t c l fid s' := by
  cases hs with
  | @acceptFail sock fid hno =>
    cases sock with
    | none => cases ha
    | some l =>
      cases hl : s.scb.get l with
      | none => simp [client, loopOn, hl] at ha
      | some z => simp [client, loopOn, hl, hno l z rfl hl] at ha
  | @accept l x fid _ hx _ ht hl =>
    refine ⟨s.enter l, _, l, fid, .inr rfl, ?_, hl⟩
    rw [clientOf_enter]
    simpa [client, loopOn, hx, ht] using ha
  | @acceptResume c l fid _ hc hl => exact ⟨s, c, l, fid, .inl rfl, by simpa [client, loopOn, hc] using ha, hl⟩
  | timedOut _ hc | missed _ hc | connected _ hc => simp [client, loopOn, hc] at ha
  | _ => cases ha

/-! ## What the parts of a step do to the blocks -/

section Alike

variable {β : Type} {g : Scb → β}

theorem modifyScb_alike (a : ScbPtr) {f : Scb → Scb} (hf : ∀ x, s.scb.get a = some x → g (f x) = g x) :
    s.scb.Alike g (s.modifyScb a f).scb := (Heap.Alike.refl _ _).modify a hf

theorem setVariant_alike (hg : ∀ x v, g (x.setVariant v) = g x) (s : State) (a : ScbPtr) (v : Variant) :
    s.scb.Alike g (s.modifyScb a (·.setVariant v)).scb := modifyScb_alike a fun x _ => hg x v

theorem setQueue_alike (hg : ∀ x v, g (x.setVariant v) = g x) (s : State) (l : ScbPtr) (q w : List CallId) :
    s.scb.Alike g (s.setQueue l q w).scb := setVariant_alike hg s l _

theorem listen_alike (hg : ∀ x : Scb, g { x with type := .listener, variant := .listener [] [] } = g x) (s : State)
    (a : ScbPtr) (port : Nat) : s.scb.Alike g (s.listen a port).scb := (Heap.Alike.refl _ _).modify a fun x _ => hg x

theorem signalAvailable_alike (hg : ∀ x v, g (x.setVariant v) = g x) (s : State) (l : ScbPtr) (q w : List CallId) :
    s.scb.Alike g (s.signalAvailable l q w).scb := by
  have hs : s.scb.Alike g (s.signal w).2.scb := by
    rw [signal_scb]
    exact .refl _ _
  exact hs.modify l fun x _ => hg x _

theorem request_alike (hg : ∀ x v, g (x.setVariant v) = g x) (s : State) (a l : ScbPtr) (q w : List CallId) (n : Nat) :
    (s.modifyScb a Scb.ref).scb.Alike g (s.request a l q w n).scb :=
  signalAvailable_alike hg
    { s.modifyScb a Scb.ref with cr := Function.update s.cr s.calls.length (some ⟨false, a⟩) } l _ w

theorem Ends.alike (hg : ∀ x v, g (x.setVariant v) = g x) (h : Ends s x a t) : s.scb.Alike g t.scb := by
  cases h with
  | nothing => exact .refl _ _
  | @peer b => exact (Heap.Alike.refl _ _).modify b fun x _ => hg x _
  | @listener q w => exact signalAvailable_alike hg { s with portMap := Function.update s.portMap x.port none } a q w

theorem grant_alike (hg : ∀ x, g x.toPeer = g x) (s : State) (r : CallId) (cr : Cr) :
    s.scb.Alike g (s.grant r cr).scb := (Heap.Alike.refl _ _).modify cr.peer fun x _ => hg x

theorem connect_alike (hp : ∀ x, g x.toPeer = g x) (hw : ∀ x p w r, g (Scb.wire x p w r) = g x) (s : State)
    (a b : ScbPtr) : s.scb.Alike g (s.connect a b).scb :=
  ((Heap.Alike.refl _ _).modify a fun x _ => hw x _ _ _).modify b fun x _ => (hp _).trans (hw x _ _ _)

@[simp] theorem signalConnected_scb (r : CallId) : (s.signalConnected r).scb = s.scb := by
  unfold signalConnected
  split <;> rfl

theorem unref_keeps (hg : ∀ x, g x.unref = g x) (h : s.unref a = some t) : s.scb.Keeps g t.scb := by
  unfold unref at h
  obtain ⟨x, -, rfl⟩ := Option.map_eq_some_iff.1 h
  split
  · exact (Heap.Keeps.refl _ _).free a
  · exact (modifyScb_alike a fun x _ => hg x).keeps

/-- The loop of `sys_Accept` makes at most one socket, and changes of the others only what `g` does not see. -/
theorem Loop.alike (hv : ∀ x v, g (x.setVariant v) = g x) (hp : ∀ x, g x.toPeer = g x)
    (hw : ∀ x p w r, g (Scb.wire x p w r) = g x) (h : Loop s c l fid t) :
    s.scb.Alike g t.scb ∨ ∃ k port, s.scb.Alike g k ∧ (k.alloc ⟨0, .unbound, port, .unbound, 1, 0⟩).Alike g t.scb := by
  cases h with
  | closed => exact .inl (.refl _ _)
  | wait => exact .inl (setQueue_alike hv s l _ _)
  | @refuse x r q w _ cr => exact .inl ((setQueue_alike hv s l q w).trans (grant_alike hp _ r cr))
  | @honor x r q w _ cr y fid =>
    have hk := (setQueue_alike hv s l q w).trans (grant_alike hp _ r cr)
    exact .inr ⟨_, x.port, hk,
      connect_alike hp hw (((s.setQueue l q w).grant r cr).newSocket x.port) cr.peer s.scb.next⟩

theorem Loop.get (hv : ∀ x v, g (x.setVariant v) = g x) (hp : ∀ x, g x.toPeer = g x)
    (hw : ∀ x p w r, g (Scb.wire x p w r) = g x) (h : Loop s c l fid t) (hy : t.scb.get b = some y) :
    (b = s.scb.next ∧ ∃ port, g y = g ⟨0, .unbound, port, .unbound, 1, 0⟩) ∨
      ∃ x, s.scb.get b = some x ∧ g y = g x := by
  obtain hk | ⟨k, port, hk, hk'⟩ := h.alike hv hp hw
  · exact .inr (hk.keeps.kept b y hy)
  · obtain ⟨z, hz, hyz⟩ := hk'.keeps.kept b y hy
    obtain ⟨rfl, rfl⟩ | hz := Heap.get_alloc_eq_some.1 hz
    · exact .inl ⟨hk.next, port, hyz⟩
    · obtain ⟨x, hx, hzx⟩ := hk.keeps.kept b z hz
      exact .inr ⟨x, hx, hyz.trans hzx⟩

theorem Loop.get_some (hv : ∀ x v, g (x.setVariant v) = g x) (hp : ∀ x, g x.toPeer = g x)
    (hw : ∀ x p w r, g (Scb.wire x p w r) = g x) (h : Loop s c l fid t) (hx : s.scb.get b = some x) :
    ∃ y, t.scb.get b = some y ∧ g y = g x := by
  obtain hk | ⟨k, port, hk, hk'⟩ := h.alike hv hp hw
  · exact hk.get hx
  · obtain ⟨z, hz, hzx⟩ := hk.get hx
    obtain ⟨y, hy, hyz⟩ := hk'.get (Heap.get_alloc_of_some hz)
    exact ⟨y, hy, hyz.trans hzx⟩

end Alike

theorem unref_eq (h : s.unref a = some t) : ∃ k, t = { s with scb := k } := by
  unfold unref at h
  obtain ⟨x, -, rfl⟩ := Option.map_eq_some_iff.1 h
  split
  · exact ⟨_, rfl⟩
  · exact ⟨_, rfl⟩

theorem unref_calls (h : s.unref a = some t) : t.calls = s.calls := by
  obtain ⟨_, rfl⟩ := unref_eq h
  rfl

theorem unref_cr (h : s.unref a = some t) : t.cr = s.cr := by
  obtain ⟨_, rfl⟩ := unref_eq h
  rfl

theorem unref_pipe (h : s.unref a = some t) : t.pipe = s.pipe := by
  obtain ⟨_, rfl⟩ := unref_eq h
  rfl

theorem release_eq (t : State) (a : ScbPtr) (n : Int) : ∃ k, t.release a n = { t with scb := k } := by
  unfold release
  split
  · exact ⟨_, rfl⟩
  · exact ⟨_, rfl⟩

theorem release_calls (n : Int) : (t.release a n).calls = t.calls := by
  obtain ⟨_, h⟩ := release_eq t a n
  rw [h]

theorem release_cr (n : Int) : (t.release a n).cr = t.cr := by
  obtain ⟨_, h⟩ := release_eq t a n
  rw [h]

theorem release_pipe (n : Int) : (t.release a n).pipe = t.pipe := by
  obtain ⟨_, h⟩ := release_eq t a n
  rw [h]

theorem release_portMap (n : Int) : (t.release a n).portMap = t.portMap := by
  obtain ⟨_, h⟩ := release_eq t a n
  rw [h]

theorem signalConnected_eq (s : State) (r : CallId) : ∃ calls, s.signalConnected r = { s with calls := calls } := by
  unfold signalConnected
  split
  · exact ⟨_, rfl⟩
  · exact ⟨_, rfl⟩

@[simp] theorem signalConnected_cr (r : CallId) : (s.signalConnected r).cr = s.cr := by
  obtain ⟨_, h⟩ := signalConnected_eq s r
  rw [h]

@[simp] theorem signalConnected_pipe (r : CallId) : (s.signalConnected r).pipe = s.pipe := by
  obtain ⟨_, h⟩ := signalConnected_eq s r
  rw [h]

@[simp] theorem signalConnected_portMap (r : CallId) : (s.signalConnected r).portMap = s.portMap := by
  obtain ⟨_, h⟩ := signalConnected_eq s r
  rw [h]

/-- The counters after a `socket_close`. -/
theorem release_get (hx : s.scb.get a = some x) (he : Ends (s.dropSlot a) { x with slots := 0 } a t)
    (hslots : x.slots = 1) (hy : (t.release a x.refcount).scb.get b = some y) :
    ∃ z, s.scb.get b = some z ∧ y.refcount = (if b = a then z.refcount - 1 else z.refcount) ∧
      y.slots = (if b = a then 0 else z.slots) ∧ (b = a → 0 < x.refcount - 1) := by
  have hdrop : s.scb.Alike (fun z => z.refcount) (s.dropSlot a).scb := modifyScb_alike a fun _ _ => rfl
  have hkeep : s.scb.Keeps (fun z => z.refcount) t.scb := (hdrop.trans (he.alike fun _ _ => rfl)).keeps
  have hslot : (s.dropSlot a).scb.Keeps (fun z => z.slots) t.scb := (he.alike fun _ _ => rfl).keeps
  have hget : ∀ {z}, t.scb.get b = some z → ∃ z₀, s.scb.get b = some z₀ ∧ z.refcount = z₀.refcount ∧
      z.slots = if b = a then 0 else z₀.slots := by
    intro z hz
    obtain ⟨z₀, hz₀, href⟩ := hkeep.kept b z hz
    obtain ⟨z₁, hz₁, hsl⟩ := hslot.kept b z hz
    obtain ⟨z₂, hz₂, rfl⟩ := Heap.get_modify_eq_some.1 hz₁
    cases hz₀.symm.trans hz₂
    refine ⟨z₀, hz₀, href, hsl.trans ?_⟩
    split
    · rename_i hba
      subst hba
      cases hx.symm.trans hz₀
      show x.slots - 1 = 0
      omega
    · rfl
  unfold release at hy
  split at hy
  · obtain ⟨hba, hz⟩ := Heap.get_free_eq_some.1 hy
    obtain ⟨z₀, hz₀, href, hsl⟩ := hget hz
    exact ⟨z₀, hz₀, by rw [if_neg hba, href], hsl, fun h => absurd h hba⟩
  · rename_i hle
    obtain ⟨z, hz, rfl⟩ := Heap.get_modify_eq_some.1 hy
    obtain ⟨z₀, hz₀, href, hsl⟩ := hget hz
    refine ⟨z₀, hz₀, ?_, ?_, fun _ => by omega⟩
    · split
      · rw [← href]
        rfl
      · exact href
    · rw [← hsl]
      split <;> rfl

theorem setPlace_self {pl pl' : Place} (hc : s.calls[c]? = some pl) : (s.setPlace c pl').calls[c]? = some pl' := by
  obtain ⟨hlt, -⟩ := List.getElem?_eq_some_iff.1 hc
  exact List.getElem?_set_self hlt

/-- Where the loop of `sys_Accept` leaves its call, and all others where they are. -/
theorem Loop.calls (h : Loop s c l fid t) : ∃ pl, t.calls = s.calls.set c pl ∧
    ((∃ r, pl = .refused (some l) r) ∨ pl = .accepting l false ∨ ∃ r f, pl = .signalling l r s.scb.next f) := by
  cases h with
  | closed => exact ⟨_, rfl, .inl ⟨_, rfl⟩⟩
  | wait => exact ⟨_, rfl, .inr (.inl rfl)⟩
  | refuse => exact ⟨_, rfl, .inl ⟨_, rfl⟩⟩
  | honor => exact ⟨_, rfl, .inr (.inr ⟨_, _, rfl⟩)⟩

/-- Sockets that are open have been open, or are new. -/
theorem Step.open (h : Step s act s') (hy : s'.scb.get b = some y) (ho : 0 < y.slots) :
    b = s.scb.next ∨ ∃ x, s.scb.get b = some x ∧ 0 < x.slots := by
  have hkeeps : s.scb.Keeps (fun x => x.slots) s'.scb → b = s.scb.next ∨ ∃ x, s.scb.get b = some x ∧ 0 < x.slots := by
    intro hk
    obtain ⟨x, hx, hyx⟩ := hk.kept b y hy
    exact .inr ⟨x, hx, hyx ▸ ho⟩
  have hmodify : ∀ {a f}, s'.scb = s.scb.modify a f → (∀ x, s.scb.get a = some x → 0 < x.slots) →
      b = s.scb.next ∨ ∃ x, s.scb.get b = some x ∧ 0 < x.slots := by
    intro a f hm ha
    rw [hm] at hy
    obtain ⟨x, hx, rfl⟩ := Heap.get_modify_eq_some.1 hy
    refine .inr ⟨x, hx, ?_⟩
    split at ho
    · rename_i hba
      exact ha x (hba ▸ hx)
    · exact ho
  cases h with
  | socketFail | listenFail | shutDownFail | acceptFail | connectFail => exact .inr ⟨y, hy, ho⟩
  | shutRead | timedOut | missed | expire => exact .inr ⟨y, hy, ho⟩
  | socket =>
    obtain ⟨rfl, -⟩ | hy := Heap.get_alloc_eq_some.1 hy
    · exact .inl rfl
    · exact .inr ⟨y, hy, ho⟩
  | listen => exact hkeeps (listen_alike (fun _ => rfl) s _ _).keeps
  | accept _ _ _ hl =>
    obtain ⟨rfl, -⟩ | ⟨z, hz, hyz⟩ := hl.get (g := fun x => x.slots) (fun _ _ => rfl) (fun _ => rfl) (fun _ _ _ _ => rfl) hy
    · exact .inl rfl
    · obtain ⟨x, hx, rfl⟩ := Heap.get_modify_eq_some.1 hz
      refine .inr ⟨x, hx, ?_⟩
      rw [hyz] at ho
      split at ho <;> exact ho
  | acceptResume _ hl =>
    obtain ⟨rfl, -⟩ | ⟨z, hz, hyz⟩ := hl.get (g := fun x => x.slots) (fun _ _ => rfl) (fun _ => rfl) (fun _ _ _ _ => rfl) hy
    · exact .inl rfl
    · exact .inr ⟨z, hz, hyz ▸ ho⟩
  | @connect a l x y port timeout q w =>
    have hk : s.scb.Alike (fun x => x.slots) (s.modifyScb a Scb.ref).scb := modifyScb_alike a fun _ _ => rfl
    exact hkeeps (hk.trans (request_alike (fun _ _ => rfl) s a l q w timeout)).keeps
  | connected _ _ _ _ hu =>
    have hk := unref_keeps (g := fun x => x.slots) (fun _ => rfl) hu
    exact hkeeps hk
  | shutWrite => exact hkeeps (setVariant_alike (fun _ _ => rfl) s _ _).keeps
  | dup hx hslots => exact hmodify rfl fun z hz => Option.some.inj (hx.symm.trans hz) ▸ hslots
  | drop hx hslots => exact hmodify rfl fun z hz => Option.some.inj (hx.symm.trans hz) ▸ Nat.zero_lt_of_lt hslots
  | close hx hslots he =>
    obtain ⟨z, hz, -, hsl, -⟩ := release_get hx he hslots hy
    refine .inr ⟨z, hz, ?_⟩
    rw [hsl] at ho
    split at ho
    · cases ho
    · exact ho
  | signal _ _ _ hu =>
    have hk := unref_keeps (g := fun x => x.slots) (fun _ => rfl) hu
    rw [signalConnected_scb] at hk
    exact hkeeps hk

/-- The signal of `sys_Accept` moves calls of `sys_Connect` only. -/
theorem signalConnected_getElem {pl : Place} (hc : s.calls[c]? = some pl) (hpl : ∀ a n, pl ≠ .connecting a n .asleep)
    (r : CallId) : (s.signalConnected r).calls[c]? = some pl := by
  unfold signalConnected
  split
  · rename_i a n hr
    have hrc : r ≠ c := by
      rintro rfl
      cases hc.symm.trans hr
      exact hpl a n rfl
    exact (List.getElem?_set_ne hrc).trans hc
  · exact hc

/-- While a call is inside the kernel it goes on, or a timeout expires. -/
theorem step_kernel (h : s.step act = some s') (hact : act.Enters) : s.kernel = none := by
  cases act with
  | signal c | expire c => exact hact.elim
  | _ =>
    simp only [step] at h
    split at h
    · assumption
    · cases h

end State

end TinyOS.Sockets
