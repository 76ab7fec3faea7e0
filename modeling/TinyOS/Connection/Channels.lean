import TinyOS.Connection.Closing
import TinyOS.Pipe.Fifo

/-!
# Two channels

As long as nothing is shut down or closed, each pipe of a connection with its calls is in a state that one made by
`sys_Pipe` can reach (`Channels`): the steps of the calls on it are steps of `TinyOS.Pipe.sys`, and those of the calls
on the other one are no steps at all.
-/

namespace TinyOS.Connection

open Sockets (ScbPtr PipePtr)
open Pipe (End Call PipeCB)

namespace State

variable {s s' u : State} {w : Side → PipePtr} {x y : Side} {b : Sockets.State} {t : Transfer} {a : Action} {c : Call}
  {z : PipeCB}

/-- The bytes in the pipe that `x` writes to. -/
def contents (s : State) (x : Side) : Option (List UInt8) :=
  (s.sockets.scb.get (s.scb x)).bind fun y =>
    match y.variant with
    | .peer _ (some p) _ => (s.sockets.pipe.get p).map PipeCB.contents
    | _ => none

/-- The side whose bytes the action is about: it is the one of the writer. -/
def direction (s : State) : Action → Option Side
  | .call x e _ _ => some (x.reading e).other
  | .run =>
    match s.kernel with
    | .running t => (s.find t).map fun c => (t.side.reading c.stream).other
    | _ => none
  | .resume t => (s.find t).map fun c => (t.side.reading c.stream).other
  | _ => none

/-- Nothing has been closed; each pipe is as `TinyOS.Pipe` has it. -/
structure Channels (s : State) (w : Side → PipePtr) : Prop where
  tied : s.Tied w
  shut : s.shut = []
  closed : s.closed = []
  pipe : ∀ x, ∃ z, s.sockets.pipe.get (w x) = some z ∧ Pipe.sys.Reaches (s.view (w x) z)
  sent : ∀ x, s.sent x = (s.chan (w x)).stored.map Prod.snd
  received : ∀ x, s.received x.other = (s.chan (w x)).taken.map Prod.snd

theorem init_channels (hs : connection.init s) : ∃ w, s.Channels w := by
  obtain ⟨b, scb, p, q, hf, hopen, rfl⟩ := init_fresh hs
  exact ⟨_, new_tied hf hopen, rfl, rfl, fun x => ⟨_, Fresh.pipe hf x, .init ⟨fun _ => 0, rfl⟩⟩, fun _ => rfl, fun _ => rfl⟩

/-! ## Steps -/

theorem Channels.pointer (h : s.Channels w) (x : Side) (e : End) : s.pointer w x e = some (w (x.reading e).other) := by
  cases e <;> simp [State.pointer, h.shut, Side.reading]

/-- What a state of a pipe must be to be the view of one. -/
theorem view_eq {p : PipePtr} {v : Pipe.State} (hpipe : v.pipe = z) (hfreed : v.freed = false)
    (hslots : ∀ e, v.slots e = 1) (hrefs : ∀ e, v.refcount e = 1 + (v.calls.map Call.stream).count e)
    (hchan : s.chan p = ⟨v.calls, v.started, v.stored, v.taken, v.returns⟩)
    (hkernel : (s.view p z).kernel = v.kernel) : s.view p z = v := by
  obtain ⟨pipe, freed, slots, refcount, calls, kernel, started, stored, taken, returns⟩ := v
  obtain rfl : slots = fun _ => 1 := funext hslots
  obtain rfl : refcount = fun e => 1 + (calls.map Call.stream).count e := funext hrefs
  cases hpipe
  cases hfreed
  cases hkernel
  simp only [view, hchan]

/-- A new call is one on its pipe. -/
theorem view_begin {p : PipePtr} (hk : s.kernel = .free) (e : End) (n : BitVec 32) (buf : Int → UInt8) :
    (s.view p z).step (.call e n buf) = some ((s.begin x p e n buf).view p z) := by
  have hkernel : (s.view p z).kernel = none := by simp [view, hk]
  have hslots : 0 < (s.view p z).slots e := Nat.one_pos
  rw [Pipe.State.step, if_pos ⟨hkernel, hslots⟩]
  refine congrArg some (view_eq rfl rfl (fun _ => rfl) (fun e' => ?_) (Function.update_self _ _ _) ?_).symm
  · simp only [Pipe.State.fcbIncref, view, List.map_cons, List.count_cons, Function.update_apply]
    by_cases he : e' = e
    · subst he
      simp
      omega
    · simp [he, Ne.symm he]
  · simp [view, State.begin]

/-- A call on one pipe is not seen at another one. -/
theorem view_congr {p : PipePtr} (hchan : u.chan p = s.chan p) (hs : (s.view p z).kernel = none)
    (hu : (u.view p z).kernel = none) : u.view p z = s.view p z :=
  view_eq rfl rfl (fun _ => rfl) (fun _ => rfl) hchan (hu.trans hs.symm)

theorem view_kernel_none {p : PipePtr} (hk : ∀ t, s.kernel = .running t → t.pipe ≠ p) : (s.view p z).kernel = none := by
  unfold view
  cases hk' : s.kernel with
  | running t => exact if_neg (hk t hk')
  | free | leaving => rfl

theorem view_kernel_ne {p : PipePtr} (hk : s.kernel = .running t) (hp : p ≠ t.pipe) : (s.view p z).kernel = none :=
  view_kernel_none fun r hr => by
    cases hk.symm.trans hr
    exact Ne.symm hp

theorem view_kernel_self (hk : s.kernel = .running t) : (s.view t.pipe z).kernel = some t.id := by simp [view, hk]

theorem pipe_step {v v' : Pipe.State} {a : Pipe.Action} (hv : Pipe.sys.Reaches v) (hs : v.step a = some v') :
    Pipe.sys.Reaches v' := Lts.Reaches.step hv hs

/-- What a call makes of its pipe. -/
theorem view_record (hv : Pipe.sys.Reaches (s.view t.pipe z)) (hk : s.kernel = .running t) (hc : s.find t = some c) :
    Pipe.sys.Reaches ((s.view t.pipe z).runCall c) ∧
      (s.record t (s.view t.pipe z) ((s.view t.pipe z).runCall c)).view t.pipe ((s.view t.pipe z).runCall c).pipe =
        (s.view t.pipe z).runCall c := by
  have hr := view_ran hc z
  have hfind : (s.view t.pipe z).find t.id = some c := hc
  have hstep : (s.view t.pipe z).step (.run t.id) = some ((s.view t.pipe z).runCall c) := by
    rw [Pipe.State.step, if_pos (view_kernel_self hk), hfind, Option.map_some]
  have hreach : Pipe.sys.Reaches ((s.view t.pipe z).runCall c) := pipe_step hv hstep
  refine ⟨hreach, ?_⟩
  have hinv := Pipe.reaches_inv hreach
  set v' := (s.view t.pipe z).runCall c
  have hrefs : ∀ e, v'.refcount e = 1 + (v'.calls.map Call.stream).count e := by
    intro e
    have href := hinv.refs e
    rw [hr.slots] at href
    exact href
  refine view_eq rfl ?_ (fun e => congrFun hr.slots e) hrefs (Function.update_self _ _ _) ?_
  · rw [← Bool.not_eq_true]
    intro hf
    have hzero := hinv.freed hf .reader
    rw [hrefs] at hzero
    omega
  · by_cases hn : v'.kernel = none
    · rw [hn]
      refine view_kernel_none fun r hrun => ?_
      simp only [record, hn, ne_eq, not_true_eq_false, if_false] at hrun
      split at hrun <;> cases hrun
    · obtain ⟨-, -, he | he⟩ | ⟨-, -, he⟩ := hr.outcome
      · have hkernel : (s.record t (s.view t.pipe z) v').kernel = .running t := by simp [record, hn, hk]
        rw [view_kernel_self hkernel, he, view_kernel_self hk]
      · exact absurd he hn
      · exact absurd he hn

/-- A call that has been woken up goes on. -/
theorem view_resume (hv : Pipe.sys.Reaches (s.view t.pipe z)) (hk : s.kernel = .free) (hc : s.find t = some c)
    (hwoken : c.place = .woken) : Pipe.sys.Reaches ((s.resume t).view t.pipe z) := by
  have hfind : (s.view t.pipe z).find t.id = some c := hc
  have hinv := Pipe.reaches_inv hv
  obtain ⟨hmem, hid⟩ := Pipe.State.find_mem hfind
  have hkernel : (s.view t.pipe z).kernel = none := view_kernel_none (by simp [hk])
  have hstep : (s.view t.pipe z).step (.resume t.id) =
      some { (s.view t.pipe z).setCall { c with place := .inner } with kernel := some t.id } := by
    rw [Pipe.State.step, hfind]
    exact if_pos ⟨hkernel, hwoken⟩
  have hcalls : ((s.view t.pipe z).setCall { c with place := .inner }).calls =
      (s.chan t.pipe).calls.map fun d => if d.id = t.id then { d with place := .inner } else d := by
    refine List.map_congr_left fun d hd => ?_
    rw [← hid]
    split
    · rename_i he
      rw [hinv.eq_of_id hmem hd he]
    · rfl
  have hstreams : ((s.view t.pipe z).setCall { c with place := .inner }).calls.map Call.stream =
      (s.chan t.pipe).calls.map Call.stream := by
    rw [hcalls, List.map_map]
    refine List.map_congr_left fun d _ => ?_
    simp only [Function.comp_apply]
    split <;> rfl
  convert pipe_step hv hstep using 1
  refine view_eq rfl rfl (fun _ => rfl) (fun e => ?_) ?_ (by simp [view, State.resume])
  · rw [hstreams]
    rfl
  · rw [hcalls]
    exact Function.update_self _ _ _

/-! ## Every step -/

/-- What the steps that are not of a call on a pipe leave as it is. -/
theorem Channels.of_same (h : s.Channels w) (ht : s'.Tied w) (hshut : s'.shut = []) (hclosed : s'.closed = [])
    (hpipe : s'.sockets.pipe = s.sockets.pipe) (hchan : s'.chan = s.chan)
    (hview : ∀ p z, (s'.view p z).kernel = (s.view p z).kernel) (hsent : s'.sent = s.sent)
    (hreceived : s'.received = s.received) : s'.Channels w := by
  refine ⟨ht, hshut, hclosed, fun x => ?_, fun x => ?_, fun x => ?_⟩
  · obtain ⟨z, hz, hv⟩ := h.pipe x
    have hsame : s'.view (w x) z = s.view (w x) z :=
      view_eq rfl rfl (fun _ => rfl) (fun _ => rfl) (congrFun hchan _) (hview _ _)
    exact ⟨z, by rw [hpipe, hz], hsame ▸ hv⟩
  · rw [hsent, hchan, h.sent]
  · rw [hreceived, hchan, h.received]

/-- A call gets the kernel, and has not moved a byte yet. -/
theorem Channels.starts (h : s.Channels w) (ht : u.Tied w) (hk : s.kernel = .free) (hu : u.kernel = .running t)
    (hshut : u.shut = s.shut) (hclosed : u.closed = s.closed) (hpipe : u.sockets.pipe = s.sockets.pipe)
    (hself : ∀ z, Pipe.sys.Reaches (s.view t.pipe z) → Pipe.sys.Reaches (u.view t.pipe z))
    (hother : ∀ p ≠ t.pipe, u.chan p = s.chan p) (hstored : (u.chan t.pipe).stored = (s.chan t.pipe).stored)
    (htaken : (u.chan t.pipe).taken = (s.chan t.pipe).taken) (hsent : u.sent = s.sent)
    (hreceived : u.received = s.received) : u.Channels w := by
  have hlogs : ∀ p, (u.chan p).stored = (s.chan p).stored ∧ (u.chan p).taken = (s.chan p).taken := by
    intro p
    by_cases hp : p = t.pipe
    · subst hp
      exact ⟨hstored, htaken⟩
    · rw [hother p hp]
      exact ⟨rfl, rfl⟩
  refine ⟨ht, hshut.trans h.shut, hclosed.trans h.closed, fun y => ?_, fun y => ?_, fun y => ?_⟩
  · obtain ⟨z, hz, hv⟩ := h.pipe y
    refine ⟨z, by rw [hpipe, hz], ?_⟩
    by_cases hy : w y = t.pipe
    · rw [hy] at hv ⊢
      exact hself z hv
    · rw [view_congr (s := s) (hother _ hy) (view_kernel_none (by simp [hk])) (view_kernel_ne hu hy)]
      exact hv
  · rw [hsent, (hlogs _).1, h.sent]
  · rw [hreceived, (hlogs _).2, h.received]

theorem Channels.begin (h : s.Channels w) (hk : s.kernel = .free) (e : End) (n : BitVec 32) (buf : Int → UInt8)
    (ht : (s.begin x (w (x.reading e).other) e n buf).Tied w) :
    (s.begin x (w (x.reading e).other) e n buf).Channels w := by
  refine h.starts ht hk rfl rfl rfl rfl (fun z hv => pipe_step hv (view_begin hk e n buf)) (fun p hp => ?_) ?_ ?_ rfl rfl
  · exact Function.update_of_ne hp _ _
  · simp [State.begin]
  · simp [State.begin]

theorem Channels.resume (h : s.Channels w) (hk : s.kernel = .free) (hc : s.find t = some c)
    (hwoken : c.place = .woken) (ht : (s.resume t).Tied w) : (s.resume t).Channels w := by
  refine h.starts ht hk rfl rfl rfl rfl (fun z hv => view_resume hv hk hc hwoken) (fun p hp => ?_) ?_ ?_ rfl rfl
  · exact Function.update_of_ne hp _ _
  · simp [State.resume]
  · simp [State.resume]

theorem map_drop_append {l l' : List (Nat × UInt8)} (h : l <+: l') :
    l.map Prod.snd ++ (l'.drop l.length).map Prod.snd = l'.map Prod.snd := by
  rw [← List.map_append, List.prefix_iff_eq_append.1 h]

/-- What `socket_write` stores goes through the pipe that its side writes to. -/
theorem Channels.record_sent {v' : Pipe.State} (h : s.Channels w) (hc : s.find t = some c) (ht : t ∈ s.transfers)
    (hv' : v' = (s.view t.pipe z).runCall c) (y : Side) :
    (s.record t (s.view t.pipe z) v').sent y = ((s.record t (s.view t.pipe z) v').chan (w y)).stored.map Prod.snd := by
  have hpipe := h.tied.calls.pipe t ht c hc
  subst hv'
  show Function.update s.sent t.side _ y = (Function.update s.chan t.pipe _ (w y)).stored.map Prod.snd
  cases hs : c.stream with
  | writer =>
    rw [hs, Side.reading, Side.other_other] at hpipe
    by_cases hy : y = t.side
    · subst hy
      rw [Function.update_self, hpipe, Function.update_self, h.sent, ← hpipe]
      exact map_drop_append (Pipe.State.runCall_goes (s.view t.pipe z) c).logs.1.1
    · rw [Function.update_of_ne hy, hpipe, Function.update_of_ne (h.tied.ends.pipe_ne_of_ne hy)]
      exact h.sent y
  | reader =>
    have hstored := (Pipe.State.runCall_goes (s.view t.pipe z) c).logs.1.2 hs
    simp only [hstored, List.drop_length, List.map_nil, List.append_nil, Function.update_eq_self]
    rw [h.sent, Function.update_apply]
    split
    · rename_i hy
      rw [hy]
      rfl
    · rfl

/-- What `socket_read` takes comes through the pipe that the other side writes to. -/
theorem Channels.record_received {v' : Pipe.State} (h : s.Channels w) (hc : s.find t = some c) (ht : t ∈ s.transfers)
    (hv' : v' = (s.view t.pipe z).runCall c) (y : Side) : (s.record t (s.view t.pipe z) v').received y.other =
      ((s.record t (s.view t.pipe z) v').chan (w y)).taken.map Prod.snd := by
  have hpipe := h.tied.calls.pipe t ht c hc
  subst hv'
  show Function.update s.received t.side _ y.other = (Function.update s.chan t.pipe _ (w y)).taken.map Prod.snd
  cases hs : c.stream with
  | writer =>
    have htaken := (Pipe.State.runCall_goes (s.view t.pipe z) c).logs.2.2 hs
    simp only [htaken, List.drop_length, List.map_nil, List.append_nil, Function.update_eq_self]
    rw [h.received, Function.update_apply]
    split
    · rename_i hy
      rw [hy]
      rfl
    · rfl
  | reader =>
    rw [hs, Side.reading] at hpipe
    by_cases hy : y = t.side.other
    · subst hy
      have hreceived := h.received t.side.other
      rw [Side.other_other] at hreceived ⊢
      rw [Function.update_self, hpipe, Function.update_self, hreceived, ← hpipe]
      exact map_drop_append (Pipe.State.runCall_goes (s.view t.pipe z) c).logs.2.1
    · have hne : y.other ≠ t.side := fun he => hy (by rw [← he, Side.other_other])
      rw [Function.update_of_ne hne, hpipe, Function.update_of_ne (h.tied.ends.pipe_ne_of_ne hy)]
      exact h.received y

theorem record_kernel {v v' : Pipe.State} (hk : s.kernel = .running t) {r : Transfer}
    (hr : (s.record t v v').kernel = .running r) : r = t := by
  simp only [record, hk] at hr
  split at hr
  · cases hr
    rfl
  · split at hr <;> cases hr

theorem Channels.run (h : s.Channels w) (hk : s.kernel = .running t) (hrun : s.run t = some s') (ht : s'.Tied w) :
    s'.Channels w := by
  obtain ⟨hmem, hf⟩ := h.tied.calls.running t hk
  obtain ⟨c, hc⟩ := Option.ne_none_iff_exists'.1 hf
  have hpipe := h.tied.calls.pipe t hmem c hc
  obtain ⟨z, hz, hv⟩ := h.pipe (t.side.reading c.stream).other
  rw [← hpipe] at hz hv
  rw [run_eq hz hc, Option.some.injEq] at hrun
  subst hrun
  obtain ⟨hreach, hview⟩ := view_record hv hk hc
  refine ⟨ht, h.shut, h.closed, fun y => ?_, h.record_sent hc hmem rfl, h.record_received hc hmem rfl⟩
  by_cases hy : w y = t.pipe
  · rw [hy]
    exact ⟨((s.view t.pipe z).runCall c).pipe, Heap.get_modify_self.trans (congrArg _ hz), hview.symm ▸ hreach⟩
  · obtain ⟨z', hz', hv'⟩ := h.pipe y
    refine ⟨z', (Heap.get_modify_of_ne hy).trans hz', ?_⟩
    rw [view_congr (s := s) (Function.update_of_ne hy _ _) (view_kernel_ne hk hy)]
    · exact hv'
    · refine view_kernel_none fun r hr => ?_
      rw [record_kernel hk hr]
      exact Ne.symm hy

/-- `FCB_decref`, when both sockets stay open. -/
theorem Ends.fcbDecref_open (h : Ends (some x) s w) (ht : s'.Tied w) (hclosed : s'.closed = [])
    (hs : s.fcbDecref x = some s') : s' = { s with sockets := s.sockets.dropSlot (s.scb x) } := by
  have hne : s.refs x ≠ 0 := by
    intro hzero
    obtain ⟨b, -, rfl⟩ := Option.map_eq_some_iff.1 hs
    have hx := (ht.ends.closed x).2 hzero
    rw [hclosed] at hx
    exact List.not_mem_nil hx
  exact Option.some.inj (hs.symm.trans (h.fcbDecref_more hne))

/-- `socket_read` and `socket_write` come to their pipe. -/
theorem Channels.transfer_eq (h : s.Channels w) (hx : 0 < s.slots x) (e : End) (n : BitVec 32) (buf : Int → UInt8) :
    s.transfer x e n buf = some (s.begin x (w (x.reading e).other) e n buf) := by
  obtain ⟨y, hy, hptr⟩ := h.tied.socketPipe hx e
  obtain ⟨z, hz, -⟩ := h.pipe (x.reading e).other
  simp only [State.transfer, hy, hptr, h.pointer, hz, Option.bind_some, Option.map_some]

/-- **Step lemma.** As long as nothing is closed, the two pipes take the steps of pipes. -/
theorem Channels.step (h : s.Channels w) (hs : s.step a = some s') (hshut : s'.shut = []) (hclosed : s'.closed = []) :
    s'.Channels w := by
  obtain ⟨he, hp⟩ := step_eq_some.1 hs
  have ht := (h.tied.step hs).2
  cases a with
  | call x e n buf =>
    rw [perform, h.transfer_eq he.2, Option.some.injEq] at hp
    subst hp
    exact h.begin he.1 e n buf ht
  | run =>
    obtain ⟨t, hk⟩ := he
    simp only [perform, hk] at hp
    exact h.run hk hp ht
  | resume t =>
    obtain ⟨hk, -, hwoken⟩ := he
    simp only [Option.any_eq_true, decide_eq_true_eq] at hwoken
    obtain ⟨c, hc, hplace⟩ := hwoken
    cases hp
    exact h.resume hk hc hplace ht
  | leave =>
    obtain ⟨t, hk⟩ := he
    obtain ⟨hmem, -⟩ := h.tied.calls.leaving t hk
    simp only [perform, hk] at hp
    obtain rfl := (h.tied.ends.endTransfer hmem).fcbDecref_open ht hclosed hp
    exact h.of_same ht h.shut h.closed rfl rfl (fun _ _ => by simp [view, hk]) rfl rfl
  | dup x =>
    cases hp
    exact h.of_same ht h.shut h.closed rfl rfl (fun _ _ => rfl) rfl rfl
  | drop x =>
    obtain rfl := (h.tied.ends.dropSlot he.2).fcbDecref_open ht hclosed hp
    exact h.of_same ht h.shut h.closed rfl rfl (fun _ _ => rfl) rfl rfl
  | shutDown x how =>
    obtain ⟨r, hr, rfl⟩ := Option.map_eq_some_iff.1 hp
    obtain ⟨r', -, rfl⟩ := Option.map_eq_some_iff.1 hr
    exact absurd hshut (List.append_ne_nil_of_right_ne_nil _ (List.cons_ne_nil _ _))

/-- **Run lemma.** -/
theorem reaches_channels (h : connection.Reaches s) (hshut : s.shut = []) (hclosed : s.closed = []) :
    ∃ w, s.Channels w := by
  refine h.invariant (I := fun s => s.shut = [] → s.closed = [] → ∃ w, s.Channels w) (fun s hi _ _ => init_channels hi)
    (fun s a s' ih hs hshut hclosed => ?_) hshut hclosed
  obtain ⟨hs₁, hs₂⟩ := step_grows hs
  obtain ⟨w, hw⟩ := ih (List.append_eq_nil_iff.1 (hs₁.symm.trans hshut)).1 (List.prefix_nil.1 (hclosed ▸ hs₂))
  exact ⟨w, hw.step hs hshut hclosed⟩

/-! ## The two directions -/

theorem Channels.contents_eq (h : s.Channels w) (x : Side) :
    s.contents x = (s.sockets.pipe.get (w x)).map PipeCB.contents := by
  obtain ⟨y, hy, -, -, hv⟩ := h.tied.ends.socket x (by simp [h.closed])
  simp [contents, hy, hv, ends, h.shut]

/-- What one side has sent and the other has not received is in the pipe. -/
theorem Channels.conserved (h : s.Channels w) (x : Side) :
    ∃ l, s.contents x = some l ∧ s.sent x = s.received x.other ++ l := by
  obtain ⟨z, hz, hv⟩ := h.pipe x
  refine ⟨z.contents, by rw [h.contents_eq, hz, Option.map_some], ?_⟩
  rw [h.sent, h.received]
  exact (Pipe.reaches_inv hv).fifo

/-- An action leaves the other direction alone. -/
theorem Channels.frame (h : s.Channels w) (hs : s.step a = some s') (hshut : s'.shut = []) (hclosed : s'.closed = [])
    (hx : s.direction a ≠ some x) :
    s'.sockets.pipe.get (w x) = s.sockets.pipe.get (w x) ∧ s'.chan (w x) = s.chan (w x) := by
  obtain ⟨he, hp⟩ := step_eq_some.1 hs
  have ht := (h.tied.step hs).2
  have hdir : ∀ t ∈ s.transfers, ∀ c, s.find t = some c → some (t.side.reading c.stream).other ≠ some x →
      w x ≠ t.pipe := by
    intro t hmem c hc hne
    rw [h.tied.calls.pipe t hmem c hc]
    exact h.tied.ends.pipe_ne_of_ne fun he => hne (congrArg some he.symm)
  cases a with
  | call y e n buf =>
    rw [perform, h.transfer_eq he.2, Option.some.injEq] at hp
    subst hp
    have hne : w x ≠ w (y.reading e).other := h.tied.ends.pipe_ne_of_ne fun he => hx (congrArg some he.symm)
    exact ⟨rfl, Function.update_of_ne hne _ _⟩
  | run =>
    obtain ⟨t, hk⟩ := he
    obtain ⟨hmem, hf⟩ := h.tied.calls.running t hk
    obtain ⟨c, hc⟩ := Option.ne_none_iff_exists'.1 hf
    simp only [direction, hk, hc, Option.map_some] at hx
    simp only [perform, hk] at hp
    obtain ⟨z, hz, hp⟩ := Option.bind_eq_some_iff.1 hp
    obtain ⟨c', -, rfl⟩ := Option.map_eq_some_iff.1 hp
    have hne := hdir t hmem c hc hx
    exact ⟨Heap.get_modify_of_ne hne, Function.update_of_ne hne _ _⟩
  | resume t =>
    obtain ⟨-, hmem, hwoken⟩ := he
    simp only [Option.any_eq_true, decide_eq_true_eq] at hwoken
    obtain ⟨c, hc, -⟩ := hwoken
    simp only [direction, hc, Option.map_some] at hx
    cases hp
    exact ⟨rfl, Function.update_of_ne (hdir t hmem c hc hx) _ _⟩
  | leave =>
    obtain ⟨t, hk⟩ := he
    obtain ⟨hmem, -⟩ := h.tied.calls.leaving t hk
    simp only [perform, hk] at hp
    obtain rfl := (h.tied.ends.endTransfer hmem).fcbDecref_open ht hclosed hp
    exact ⟨rfl, rfl⟩
  | dup y =>
    cases hp
    exact ⟨rfl, rfl⟩
  | drop y =>
    obtain rfl := (h.tied.ends.dropSlot he.2).fcbDecref_open ht hclosed hp
    exact ⟨rfl, rfl⟩
  | shutDown y how =>
    obtain ⟨r, hr, rfl⟩ := Option.map_eq_some_iff.1 hp
    obtain ⟨r', -, rfl⟩ := Option.map_eq_some_iff.1 hr
    exact absurd hshut (List.append_ne_nil_of_right_ne_nil _ (List.cons_ne_nil _ _))

end State

/-- **A connection is two independent FIFO channels.** As long as nothing has been shut down or closed, what the
`socket_read` calls at one side have taken is a prefix of what the `socket_write` calls at the other side have stored,
and the rest is in the pipe; an action of one direction leaves the other one as it is. -/
theorem channels_fifo {s : State} (hs : connection.Reaches s) (hshut : s.shut = []) (hclosed : s.closed = []) :
    (∀ x, s.received x.other <+: s.sent x ∧ ∃ l, s.contents x = some l ∧ s.sent x = s.received x.other ++ l) ∧
      ∀ a s', s.step a = some s' → s'.shut = [] → s'.closed = [] → ∀ x, s.direction a ≠ some x →
        s'.contents x = s.contents x ∧ s'.sent x = s.sent x ∧ s'.received x.other = s.received x.other := by
  obtain ⟨w, h⟩ := State.reaches_channels hs hshut hclosed
  refine ⟨fun x => ?_, fun a s' hstep hshut' hclosed' x hx => ?_⟩
  · obtain ⟨l, hl, hsent⟩ := h.conserved x
    exact ⟨⟨l, hsent.symm⟩, l, hl, hsent⟩
  · have h' := h.step hstep hshut' hclosed'
    obtain ⟨hpipe, hchan⟩ := h.frame hstep hshut' hclosed' hx
    rw [h.contents_eq, h'.contents_eq, h.sent, h'.sent, h.received, h'.received, hpipe, hchan]
    exact ⟨rfl, rfl, rfl⟩

/-- The server sends two bytes to the client, and the client receives the first one. -/
theorem channels_fifo_client :
    let as := [.call .server .writer 2 fun i => if i = 0 then 7 else 8, .run, .run, .run, .run, .run, .run, .leave,
      .call .client .reader 1 fun _ => 0, .run, .run, .run]
    ∃ s, connection.run accepted as = some s ∧ s.received .client = [7] ∧ s.sent .server = [7, 8] ∧
      (∀ x, s.received x.other <+: s.sent x) ∧ ∀ s', s.step .run = some s' → s'.shut = [] → s'.closed = [] →
        s'.contents .client = s.contents .client := by
  intro as
  have hsome : (connection.run accepted as).isSome := by decide +kernel
  obtain ⟨s, hs⟩ := Option.isSome_iff_exists.1 hsome
  have hfacts : (connection.run accepted as).all fun s => s.shut = [] ∧ s.closed = [] ∧ s.received .client = [7] ∧
      s.sent .server = [7, 8] ∧ s.direction .run = some .server := by decide +kernel
  simp only [hs, Option.all_some, decide_eq_true_eq] at hfacts
  obtain ⟨hshut, hclosed, hreceived, hsent, hdir⟩ := hfacts
  obtain ⟨hfifo, hframe⟩ := channels_fifo (Lts.reaches_of_run (.init accepted_init) hs) hshut hclosed
  exact ⟨s, hs, hreceived, hsent, fun x => (hfifo x).1, fun s' hstep hshut' hclosed' =>
    (hframe .run s' hstep hshut' hclosed' .client (by rw [hdir]; simp)).1⟩

end TinyOS.Connection
