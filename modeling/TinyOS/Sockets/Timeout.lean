import TinyOS.Sockets.Refcount

/-!
# Calls of `sys_Connect` that fail after their wait

- `Step.frame`: only the steps of the calls on a socket change its `refcount`;
- `failed_connect_leaves_trace`: a call that has waited and returns -1 leaves `refcount` of its socket one too high.
-/

namespace TinyOS.Sockets

open Streams (Fid)

namespace State

variable {s s' t : State} {a b l : ScbPtr} {c : CallId} {x : Scb} {fid : Option Fid} {act : Action}

/-- The step is by a call on socket `a`. -/
def On (s : State) (a : ScbPtr) : Action → Prop
  | .listen sock | .accept sock _ | .connect sock _ _ | .shutDown sock _ => sock = some a
  | .dup b | .drop b => b = a
  | .resume c _ | .signal c => (s.calls[c]?.any (·.inside a)) = true
  | .socket _ _ | .expire _ => False

instance (s : State) (a : ScbPtr) : ∀ act, Decidable (s.On a act)
  | .listen _ | .accept .. | .connect .. | .shutDown .. | .dup _ | .drop _ | .resume .. | .signal _ =>
    inferInstanceAs (Decidable (_ = _))
  | .socket .. | .expire _ => inferInstanceAs (Decidable False)

/-- When a call of `sys_Connect` on `a` in `s` has returned in `s'`, nothing is left of it. -/
structure LeavesNoTrace (s s' : State) (a : ScbPtr) (c : CallId) : Prop where
  socket : ∃ x y, s.scb.get a = some x ∧ s'.scb.get a = some y ∧ y.type = .unbound ∧ y.variant = .unbound ∧
    y.refcount = x.refcount
  queues : ∀ l z, s'.scb.get l = some z → c ∉ z.queue

theorem unref_get (hu : s.unref b = some t) (hab : a ≠ b) : t.scb.get a = s.scb.get a := by
  unfold unref at hu
  obtain ⟨x, -, rfl⟩ := Option.map_eq_some_iff.1 hu
  split
  · exact Heap.get_free_of_ne hab
  · exact Heap.get_modify_of_ne hab

/-- Steps of calls on other sockets keep the count. -/
theorem Step.frame (hs : Step s act s') (hn : ¬s.On a act) (hx : s.scb.get a = some x) :
    ∃ y, s'.scb.get a = some y ∧ y.refcount = x.refcount := by
  have halike : s.scb.Alike (fun x => x.refcount) s'.scb → ∃ y, s'.scb.get a = some y ∧ y.refcount = x.refcount :=
    fun hk => hk.get hx
  have hloop : ∀ {t c l fid}, Loop t c l fid s' → t.scb.get a = some x →
      ∃ y, s'.scb.get a = some y ∧ y.refcount = x.refcount := fun hl ht =>
    hl.get_some (g := fun x => x.refcount) (fun _ _ => rfl) (fun _ => rfl) (fun _ _ _ _ => rfl) ht
  have hother : s'.scb.get a = s.scb.get a → ∃ y, s'.scb.get a = some y ∧ y.refcount = x.refcount :=
    fun he => ⟨x, he.trans hx, rfl⟩
  cases hs with
  | socketFail | listenFail | shutDownFail | acceptFail | connectFail => exact ⟨x, hx, rfl⟩
  | shutRead | timedOut | missed | expire => exact ⟨x, hx, rfl⟩
  | socket => exact ⟨x, Heap.get_alloc_of_some hx, rfl⟩
  | listen => exact halike (listen_alike (fun _ => rfl) s _ _)
  | @accept l _ fid _ _ _ _ hl =>
    have hal : a ≠ l := fun h => hn (by simp [On, h])
    exact hloop hl ((Heap.get_modify_of_ne hal).trans hx)
  | acceptResume _ hl => exact hloop hl hx
  | @connect b l _ _ _ n q w =>
    have hab : a ≠ b := fun h => hn (by simp [On, h])
    have hx' : (s.modifyScb b Scb.ref).scb.get a = some x := (Heap.get_modify_of_ne hab).trans hx
    exact (request_alike (g := fun x => x.refcount) (fun _ _ => rfl) s b l q w n).get hx'
  | @connected c b _ _ _ _ hc _ _ hu =>
    have hab : a ≠ b := fun h => hn (by simp [On, hc, Place.inside, h])
    have hget := unref_get hu hab
    exact hother hget
  | shutWrite => exact halike (setVariant_alike (fun _ _ => rfl) s _ _)
  | dup | drop => exact halike (modifyScb_alike _ fun _ _ => rfl)
  | @close b x' t hx' hslots he =>
    have hab : a ≠ b := fun h => hn (by simp [On, h])
    have hdrop : s.scb.Alike (fun x => x.refcount) (s.dropSlot b).scb := modifyScb_alike b fun _ _ => rfl
    obtain ⟨y, hy, hyx⟩ := (hdrop.trans (he.alike fun _ _ => rfl)).get hx
    refine ⟨y, ?_, hyx⟩
    unfold release
    split
    · exact (Heap.get_free_of_ne hab).trans hy
    · exact (Heap.get_modify_of_ne hab).trans hy
  | @signal c r l b fid cr t hc _ _ hu =>
    have hal : a ≠ l := fun h => hn (by simp [On, hc, Place.inside, h])
    refine hother ((unref_get hu hal).trans ?_)
    rw [signalConnected_scb]

/-- So do runs of them. -/
theorem run_frame {as : List Action} (hr : system.run s as = some s')
    (hn : system.AllSteps (fun s act => ¬s.On a act) s as) (hx : s.scb.get a = some x) :
    ∃ y, s'.scb.get a = some y ∧ y.refcount = x.refcount := by
  refine Lts.run_invariant (I := fun s => ∃ y, s.scb.get a = some y ∧ y.refcount = x.refcount) ?_ ⟨x, hx, rfl⟩ hn hr
  rintro s act s' ⟨y, hy, hyx⟩ hok hs
  obtain ⟨z, hz, hzy⟩ := (step_cases hs).frame hok hy
  exact ⟨z, hz, hzy.trans hyx⟩

/-- The call has waited. -/
theorem Step.connect_get {port : Int} {n : Nat} (hs : Step s (.connect (some a) port n) s')
    (hw : s'.calls[s.calls.length]? = some (.connecting a n .asleep)) (hx : s.scb.get a = some x) :
    ∃ y, s'.scb.get a = some y ∧ y.refcount = x.refcount + 1 := by
  cases hs with
  | connectFail => simp [State.start] at hw
  | @connect _ l _ _ _ _ q w =>
    have hx' : (s.modifyScb a Scb.ref).scb.get a = some x.ref := by simp [modifyScb, hx]
    exact (request_alike (g := fun x => x.refcount) (fun _ _ => rfl) s a l q w n).get hx'

/-- The call returns -1. -/
theorem Step.fail_scb (hs : Step s (.resume c fid) s') (hf : s'.calls[c]? = some (.connected (some a) (-1))) :
    s'.scb = s.scb := by
  cases hs with
  | @acceptResume _ l _ _ hc hl =>
    obtain ⟨pl, hcalls, hpl⟩ := hl.calls
    have hself : s'.calls[c]? = some pl := hcalls ▸ setPlace_self hc
    rw [hf] at hself
    cases hself
    rcases hpl with ⟨_, h⟩ | h | ⟨_, _, h⟩ <;> cases h
  | timedOut => rfl
  | missed => rfl
  | @connected _ _ _ _ t _ hc _ _ hu =>
    rw [← unref_calls hu] at hc
    cases (setPlace_self hc).symm.trans hf

end State

/-- **A failed connect leaves a trace.** Whatever calls on other sockets do while a call of `sys_Connect` waits, if it then
returns -1 its socket is not what it was: `refcount` has not been decremented. -/
theorem failed_connect_leaves_trace {s s₁ s₂ s₃ : State} {a : ScbPtr} {port : Int} {timeout : Nat} {as : List Action}
    {fid : Option Fid} (hcall : s.step (.connect (some a) port timeout) = some s₁)
    (hwait : s₁.calls[s.calls.length]? = some (.connecting a timeout .asleep)) (hrun : system.run s₁ as = some s₂)
    (hother : system.AllSteps (fun s act => ¬s.On a act) s₁ as)
    (hret : s₂.step (.resume s.calls.length fid) = some s₃)
    (hfail : s₃.calls[s.calls.length]? = some (.connected (some a) (-1))) :
    ¬s.LeavesNoTrace s₃ a s.calls.length := by
  rintro ⟨⟨x, y, hx, hy, -, -, href⟩, -⟩
  obtain ⟨x₁, hx₁, href₁⟩ := (State.step_cases hcall).connect_get hwait hx
  obtain ⟨x₂, hx₂, href₂⟩ := State.run_frame hrun hother hx₁
  rw [(State.step_cases hret).fail_scb hfail, hx₂] at hy
  cases hy
  omega

/-- A call that times out, and nothing else happens. -/
theorem failed_connect_leaves_trace_alone :
    let fid : Option Fid := some ⟨0, by decide⟩
    ∃ s s₃, system.run State.boot [.socket 5 fid, .listen (some 0), .socket 0 fid] = some s ∧
      system.run s [.connect (some 1) 5 100, .expire 0, .resume 0 none] = some s₃ ∧ ¬s.LeavesNoTrace s₃ 1 0 := by
  intro fid
  refine ⟨_, _, rfl, rfl, ?_⟩
  exact @failed_connect_leaves_trace _ _ _ _ 1 5 100 [.expire 0] none rfl rfl rfl (by decide) rfl rfl

/-- The request of a call that has timed out is still in the queue; the next `sys_Accept` makes a connection of it. -/
theorem timed_out_request_accepted :
    let fid : Option Fid := some ⟨0, by decide⟩
    ∃ s s₃ s₄, system.run State.boot [.socket 5 fid, .listen (some 0), .socket 0 fid] = some s ∧
      system.run s [.connect (some 1) 5 100, .expire 0, .resume 0 none] = some s₃ ∧
      s₃.calls[0]? = some (.connected (some 1) (-1)) ∧ ¬s.LeavesNoTrace s₃ 1 0 ∧
      system.run s₃ [.accept (some 0) fid] = some s₄ ∧
      s₄.scb.get 1 = some ⟨1, .peer, 0, .peer (some 2) (some 0) (some 1), 1, 1⟩ := by
  intro fid
  refine ⟨_, _, _, rfl, rfl, rfl, fun h => ?_, rfl, rfl⟩
  exact h.queues 0 _ rfl (by decide)

end TinyOS.Sockets
