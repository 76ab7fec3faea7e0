import TinyOS.Connection.Model
import TinyOS.Sockets.Requests

/-!
# What `sys_Accept` returns

Two sockets, each the peer of the other, and two pipes of which each socket writes one and reads the other
(`Accepts.fresh`). `sys_Accept` makes them before its `kernel_signal`, and no other call runs until it returns.
-/

namespace TinyOS.Connection

open Sockets (ScbPtr PipePtr CallId Scb Place)
open Sockets.State
open Streams (Fid)

variable {s s' t : Sockets.State} {a b l : ScbPtr} {p q : PipePtr} {c d : CallId} {fid : Option Fid}
  {act : Sockets.Action}

/-- Socket `a` writes `p` and reads `q`, and its peer is `b`. -/
def PeerOf (s : Sockets.State) (a b : ScbPtr) (p q : PipePtr) : Prop :=
  ∃ x, s.scb.get a = some x ∧ x.type = .peer ∧ x.variant = .peer (some b) (some p) (some q)

/-- A new connection. -/
structure Fresh (s : Sockets.State) (a b : ScbPtr) (p q : PipePtr) : Prop where
  scb_ne : a ≠ b
  pipe_ne : p ≠ q
  client : PeerOf s a b p q
  server : PeerOf s b a q p
  write : s.pipe.get p = some (.new fun _ => 0)
  read : s.pipe.get q = some (.new fun _ => 0)

theorem PeerOf.of_scb (h : PeerOf s a b p q) (hk : t.scb = s.scb) : PeerOf t a b p q := by
  obtain ⟨x, hx, hx'⟩ := h
  exact ⟨x, hk ▸ hx, hx'⟩

theorem Fresh.of_eq (h : Fresh s a b p q) (hscb : t.scb = s.scb) (hpipe : t.pipe = s.pipe) : Fresh t a b p q :=
  ⟨h.scb_ne, h.pipe_ne, h.client.of_scb hscb, h.server.of_scb hscb, hpipe ▸ h.write, hpipe ▸ h.read⟩

/-- The sockets of a call of `sys_Accept` at its `kernel_signal`. -/
def Opening (s : Sockets.State) : Prop :=
  ∀ (c : CallId) l r b fid cr, s.calls[c]? = some (.signalling l r b fid) → s.cr r = some cr → ∃ p q, Fresh s cr.peer b p q

theorem connect_fresh {x y : Scb} (hx : s.scb.get a = some x) (ht : x.type = .peer) (hy : s.scb.get b = some y)
    (hab : a ≠ b) : Fresh (s.connect a b) a b s.pipe.next (s.pipe.next + 1) where
  scb_ne := hab
  pipe_ne := Nat.ne_of_lt (Nat.lt_succ_self _)
  client := ⟨x.wire b s.pipe.next (s.pipe.next + 1), by simp [connect, modifyScb, hx, hab], ht, rfl⟩
  server := ⟨(y.wire a (s.pipe.next + 1) s.pipe.next).toPeer, by simp [connect, modifyScb, hy, Ne.symm hab], rfl, rfl⟩
  write := Heap.get_alloc_of_some Heap.get_alloc_self
  read := Heap.get_alloc_self

theorem loop_opening (hl : Loop s c l fid t) (hc : s.calls[c]? = some (.accepting l true)) (hk : s.kernel = none)
    (hd : t.kernel ≠ none) (hreq : t.Requests) : Opening t := by
  cases hl with
  | closed | wait | refuse => exact absurd hk hd
  | @honor x r q w p cr y fid hx hv hp hcr hy =>
    intro d l' r' b f cr' hcall hcr'
    obtain ⟨hkernel, -⟩ := hreq.right d _ hcall
    obtain rfl : c = d := Option.some.inj hkernel
    have hself : (((((s.setQueue l q w).grant r cr).newSocket x.port).connect cr.peer s.scb.next).setPlace c
        (.signalling l r s.scb.next fid)).calls[c]? = some (.signalling l r s.scb.next fid) := setPlace_self hc
    cases hcall.symm.trans hself
    have hupdate : Function.update s.cr r (some { cr with admitted := true }) r = some cr' := hcr'
    rw [Function.update_self] at hupdate
    cases hupdate
    have hne : cr.peer ≠ s.scb.next := Nat.ne_of_lt (Heap.lt_next hy)
    obtain ⟨z, hz, ht⟩ : ∃ z, (((s.setQueue l q w).grant r cr).newSocket x.port).scb.get cr.peer = some z ∧
        z.type = .peer := by
      obtain ⟨z, hz, -⟩ := (setQueue_alike (g := fun _ => ()) (fun _ _ => rfl) s l q w).get hy
      refine ⟨z.toPeer, Heap.get_alloc_of_some ?_, rfl⟩
      exact Heap.get_modify_self.trans (congrArg (Option.map Scb.toPeer) hz)
    exact ⟨_, _, (connect_fresh hz ht Heap.get_alloc_self hne).of_eq rfl rfl⟩

/-- What is kept in the kernel, after a step, is a call of `sys_Accept` at its `kernel_signal`. -/
theorem Opening.step (h : Opening s) (hreq : s.Requests) (hs : s.step act = some t) : Opening t := by
  have hreq' := hreq.step hs
  have hidle : t.kernel = none → Opening t := by
    intro hk c l r b fid cr hc
    cases hk.symm.trans (hreq'.right c _ hc).1
  have hk := step_kernel hs
  have hloop : ∀ {u : Sockets.State} {c l fid}, Loop u c l fid t → u.calls[c]? = some (.accepting l true) →
      u.kernel = none → Opening t := by
    intro u c l fid hl hc hu
    by_cases ht : t.kernel = none
    · exact hidle ht
    · exact loop_opening hl hc hu ht hreq'
  cases step_cases hs with
  | socketFail | socket | listenFail | listen | acceptFail | connectFail | timedOut | missed | shutDownFail | shutRead
    | shutWrite | dup | drop => exact hidle (hk trivial)
  | accept _ _ _ hl => exact hloop hl List.getElem?_concat_length (hk trivial)
  | acceptResume hc hl => exact hloop hl hc (hk trivial)
  | connect => exact hidle ((signal_kernel _).trans (hk trivial))
  | connected _ _ _ _ hu =>
    obtain ⟨_, hu⟩ := unref_eq hu
    exact hidle (by rw [hu]; exact hk trivial)
  | @close a x t hx hslots he =>
    obtain ⟨_, hu⟩ := release_eq t a x.refcount
    refine hidle ?_
    rw [hu]
    cases he with
    | nothing | peer => exact hk trivial
    | listener => exact (signal_kernel _).trans (hk trivial)
  | signal => exact hidle rfl
  | @expire c a n hc =>
    intro d l r b fid cr hd hcr
    obtain ⟨-, he⟩ | ⟨-, hd⟩ := setPlace_getElem hd
    · cases he
    · obtain ⟨p, q, hf⟩ := h d l r b fid cr hd hcr
      exact ⟨p, q, hf.of_eq rfl rfl⟩

theorem reaches_opening (h : Sockets.system.Reaches s) : s.Requests ∧ Opening s := by
  refine Lts.Reaches.invariant (I := fun s => s.Requests ∧ Opening s) ?_ (fun s act t h hs => ?_) h
  · rintro s rfl
    exact ⟨boot_requests, fun c l r b fid cr hc => by cases hc⟩
  · exact ⟨h.1.step hs, h.2.step h.1 hs⟩

theorem PeerOf.unref (h : PeerOf s a b p q) (hu : s.unref l = some t) (ho : t.IsOpen a) :
    PeerOf t a b p q := by
  obtain ⟨x, hx, ht, hv⟩ := h
  obtain ⟨y, hy, -⟩ := ho
  obtain ⟨z, hz, hyz⟩ := (unref_keeps (g := fun x => (x.type, x.variant)) (fun _ => rfl) hu).kept a y hy
  cases hx.symm.trans hz
  obtain ⟨htype, hvariant⟩ := Prod.mk.inj hyz
  exact ⟨y, hy, htype.trans ht, hvariant.trans hv⟩

/-- The sockets that `sys_Accept` has just connected. -/
theorem Accepts.fresh (h : Accepts s t a b) (hs : Sockets.system.Reaches s) : ∃ p q, Fresh t a b p q := by
  obtain ⟨c, l, r, fid, cr, hc, hcr, rfl, hstep, ha, hb⟩ := h
  obtain ⟨p, q, hf⟩ := (reaches_opening hs).2 c l r b fid cr hc hcr
  cases step_cases hstep with
  | @signal _ r' l' b' fid' cr' u hc' _ hcr' hu =>
    have hpipe := (unref_pipe hu).trans (signalConnected_pipe r')
    have hg := hf.of_eq (signalConnected_scb r') (signalConnected_pipe r')
    exact ⟨p, q, hf.scb_ne, hf.pipe_ne, (hg.client.unref hu ha).of_scb rfl, (hg.server.unref hu hb).of_scb rfl,
      (congrArg (Heap.get · p) hpipe).trans hf.write, (congrArg (Heap.get · q) hpipe).trans hf.read⟩

end TinyOS.Connection
