import TinyOS.Proc.History

/-!
# Joining threads

- `joins_correct`: what `sys_ThreadJoin` returns, when it frees a PTCB, and that nobody uses the PTCB afterwards;
- `joined_once_iff`: no join succeeds that began after the first success exactly if none begins while another one is
  still in the call.
-/

namespace TinyOS.Proc

/-- Processes and threads, with the history of the threads. -/
def watched : Lts (State × History) Action := system.record History.start History.after

namespace State

variable {s s' : State} {cur : Pid} {i : ThreadId} {own tid : Tid} {a : Action}

/-- Nobody sleeps in a join of a thread that has exited or is detached. -/
def Awake (s : State) : Prop := ∀ j tid, s.Asleep j tid → ¬s.links.Ended tid

theorem Awake.step (h : s.Awake) (hinv : s.links.Inv) (hs : s.step a = some s') : s'.Awake := by
  intro j tid hj he
  obtain ⟨hj, he⟩ := (step_effect hinv hs).sleeps j tid hj he
  exact h j tid hj he

end State

/-- What holds of every state of a run and its history. -/
structure Watched (s : State) (h : History) : Prop where
  tracks : h.Tracks s.links
  awake : s.Awake

theorem watched_boot {tid : Tid} (htid : tid ≠ nothread) (initTask : Task) (argl : Int) (args : Args) :
    Watched (State.boot tid initTask argl args) (.start (State.boot tid initTask argl args)) := by
  have hl := State.boot_links tid initTask argl args
  refine ⟨History.start_tracks htid rfl rfl rfl hl, fun j a hj => ?_⟩
  obtain ⟨k, hk, hjoins⟩ := hj.joins
  rw [hl] at hk
  rcases Links.keys_start hk with hk | ⟨-, rfl⟩
  · cases hk
  · cases hjoins

theorem watched_step {x y : State × History} {a : Action} (h : Watched x.1 x.2) (hs : watched.step x a = some y) :
    Watched y.1 y.2 := by
  obtain ⟨hs, hy⟩ := Lts.record_step.1 hs
  rw [hy]
  exact ⟨h.tracks.next (State.step_effect h.tracks.inv hs).links, h.awake.step h.tracks.inv hs⟩

theorem watched_reaches {x : State × History} (h : watched.Reaches x) : Watched x.1 x.2 := by
  refine Lts.Reaches.invariant (I := fun x => Watched x.1 x.2) ?_ (fun _ _ _ h hs => watched_step h hs) h
  rintro ⟨s, h⟩ ⟨⟨tid, initTask, argl, args, htid, rfl⟩, hh⟩
  obtain rfl : h = .start (State.boot tid initTask argl args) := hh
  exact watched_boot htid initTask argl args

/-! ## What a join returns -/

/-- The check of `sys_ThreadJoin(tid)`, for a call by `th`. -/
def State.Joinable (s : State) (th : Thread) (tid : Tid) : Prop :=
  tid ∈ (s.pcb th.ownerPcb).ptcbList ∧ tid ≠ nothread ∧ (∃ x, s.ptcb tid = some x ∧ x.detached = false) ∧
    th.ownerPtcb ≠ tid

/-- Thread `i` leaves `sys_ThreadJoin(tid)` with what thread `t` has made of it, or sleeps in it. -/
def History.Promised (h : History) (t : ThreadId) (s' : State) (i : ThreadId) (tid : Tid) : Prop :=
  if h.detached t then s'.returned i = some (-1, none)
  else
    match h.exitval t with
    | some exitval => s'.returned i = some (0, some exitval)
    | none => s'.Asleep i tid

namespace State

variable {s s' : State} {h : History} {cur : Pid} {i t : ThreadId} {own tid : Tid} {x : Ptcb} {j : Option Tid}

theorem asleep_of_wait (hi : s.Acts i cur own j) : (s.wait i (.join tid)).Asleep i tid := by
  obtain ⟨th, hi, -⟩ := Option.map_eq_some_iff.1 ((List.getElem?_map ..).symm.trans hi)
  exact ⟨{ th with place := .waiting (.join tid) false }, by simp [wait, setPlace, hi], rfl⟩

theorem joinLoop_promised (hi : s.Acts i cur own j) (hx : s.ptcb tid = some x) (hd : h.detached t = x.detached)
    (he : h.exitval t = if x.exited then some x.exitval else none) :
    ∃ s', s.joinLoop i cur tid = some s' ∧ h.Promised t s' i tid := by
  unfold joinLoop History.Promised
  rw [hx, hd, he]
  refine ⟨_, rfl, ?_⟩
  dsimp only
  have hi' : ∀ {y : Ptcb}, State.Acts (s.setPtcb tid (some y)) i cur own j := hi
  have hi'' : ∀ {y : Ptcb}, State.Acts ((s.setPtcb tid (some y)).freePtcb cur tid) i cur own j := by
    intro y
    unfold Acts
    rw [links_freePtcb]
    exact hi
  by_cases hdet : x.detached = true
  · simp [hdet, returned_ret hi']
  · simp only [Bool.not_eq_true] at hdet
    by_cases hex : x.exited = true
    · simp only [hdet, hex, Bool.false_eq_true, Bool.true_eq_false, and_false, if_false, if_true]
      split
      · rw [returned_ret hi'']
      · rw [returned_ret hi']
    · simp only [Bool.not_eq_true] at hex
      simp [hdet, hex, asleep_of_wait hi]

end State

/-- `sys_ThreadJoin` in the state `s`, after the run that `h` tells of. -/
structure JoinsCorrect (s : State) (h : History) : Prop where
  refcount : ∀ tid x, s.ptcb tid = some x → x.refcount = s.threads.countP fun th => th.place.joins = some tid
  /-- A joiner that is in the call uses the PTCB of the thread that it called `sys_ThreadJoin` on. -/
  inside : ∀ (i : ThreadId) th tid, s.threads[i]? = some th → th.place.joins = some tid →
    ∃ t, h.target i = some t ∧ h.Holds s.links tid t
  /-- The exit or the detaching of the thread has woken it. -/
  woken : ∀ (i : ThreadId) th tid woken t, s.threads[i]? = some th → th.place = .waiting (.join tid) woken →
    h.target i = some t → (h.exitval t).isSome ∨ h.detached t = true → woken = true
  resumes : ∀ (i : ThreadId) th tid t, s.threads[i]? = some th → th.place = .waiting (.join tid) true →
    h.target i = some t → ∃ s', s.step (.resume i) = some s' ∧ h.Promised t s' i tid
  enters : ∀ (i : ThreadId) th tid, s.threads[i]? = some th → th.place = .user → s.Joinable th tid →
    ∃ t s', h.thread tid = some t ∧ s.step (.call i (.threadJoin tid)) = some s' ∧ h.Promised t s' i tid
  freed : ∀ t, h.freed t ≤ 1 ∧ (h.freed t ≠ 0 → (h.exitval t).isSome ∧ h.detached t = false)
  /-- The joiner that frees a PTCB leaves no other one in the call. -/
  last : ∀ a s' tid, s.step a = some s' → (s.ptcb tid).isSome → s'.ptcb tid = none →
    ∀ th ∈ s'.threads, th.place.joins ≠ some tid
  /-- The searched lists hold PTCBs that have not been freed, and so do the threads that have not exited. -/
  listed : ∀ p tid, tid ∈ (s.pcb p).ptcbList → ∃ t, h.Holds s.links tid t
  own : ∀ (i : ThreadId) th, s.threads[i]? = some th → th.place ≠ .exited → h.Holds s.links th.ownerPtcb i

namespace Watched

variable {s s' : State} {h : History} {i t : ThreadId} {th : Thread} {tid : Tid}

theorem holds (hw : Watched s h) (hs : (s.ptcb tid).isSome) : ∃ t, h.Holds s.links tid t := by
  obtain ⟨x, hx⟩ := Option.isSome_iff_exists.1 hs
  exact hw.tracks.holds hx

theorem key_joins (hi : s.threads[i]? = some th) (hj : th.place.joins = some tid) :
    s.links.keys[i]? = some ⟨th.ownerPcb, th.ownerPtcb, true, some tid⟩ := by
  have hp : th.place ≠ .exited := by
    intro hp
    rw [hp] at hj
    cases hj
  exact hj ▸ State.acts_of_place hi hp

/-- The thread that a joiner waits for, and its PTCB. -/
theorem target (hw : Watched s h) (hi : s.threads[i]? = some th) (hj : th.place.joins = some tid) :
    ∃ t x, h.target i = some t ∧ h.thread tid = some t ∧ s.ptcb tid = some x ∧ h.Matches t x := by
  have hk := key_joins hi hj
  obtain ⟨-, hm, -⟩ := hw.tracks.inv.joins i _ tid hk rfl
  obtain ⟨x, hx⟩ := Option.isSome_iff_exists.1 (hw.tracks.inv.listed _ tid hm)
  obtain ⟨t, ht, hm⟩ := hw.tracks.ptcb tid x hx
  exact ⟨t, x, (hw.tracks.target i _ tid hk rfl).trans ht, ht, hx, hm⟩

theorem refcount (hw : Watched s h) {x : Ptcb} (hx : s.ptcb tid = some x) :
    x.refcount = s.threads.countP fun th => th.place.joins = some tid := by
  rw [hw.tracks.inv.refcount tid x hx]
  exact List.countP_map

/-- A join that passes its check. -/
theorem enters (hw : Watched s h) (hi : s.threads[i]? = some th) (hp : th.place = .user) (hjoin : s.Joinable th tid) :
    ∃ t s', h.thread tid = some t ∧ s.step (.call i (.threadJoin tid)) = some s' ∧ h.Promised t s' i tid := by
  obtain ⟨hm, hnull, ⟨x, hx, hd⟩, hne⟩ := hjoin
  obtain ⟨t, htid, hmt⟩ := hw.tracks.ptcb tid x hx
  have ha := State.acts_of_place hi (by simp [hp])
  have hself : (s.setPtcb tid (some { x with refcount := x.refcount + 1 })).ptcb tid =
      some { x with refcount := x.refcount + 1 } := Function.update_self ..
  obtain ⟨s', hs, hpromise⟩ := State.joinLoop_promised (h := h) (t := t)
    (s := s.setPtcb tid (some { x with refcount := x.refcount + 1 })) ha hself hmt.detached hmt.exitval
  refine ⟨t, s', htid, ?_, hpromise⟩
  obtain ⟨cur, own, place, ret, out⟩ := th
  obtain rfl : place = .user := hp
  rw [State.step, hi]
  show s.sysThreadJoin i cur own tid = some s'
  rw [State.sysThreadJoin, hx]
  dsimp only
  rw [if_neg (by simp [hm, hnull, hd, hne])]
  exact hs

end Watched

/-- **Joins.** Whatever the threads do, a join that has passed its check returns 0 with the value that the thread passed
to `sys_ThreadExit`, or -1 if the thread was detached first; the last joiner frees the PTCB, once, and nobody uses it
then. -/
theorem joins_correct {s : State} {h : History} (hr : watched.Reaches (s, h)) : JoinsCorrect s h := by
  have hw : Watched s h := watched_reaches hr
  constructor
  case refcount => exact fun tid x hx => hw.refcount hx
  case inside =>
    intro i th tid hi hj
    obtain ⟨t, x, ht, htid, hx, hm⟩ := hw.target hi hj
    exact ⟨t, ht, htid, by rw [show s.links.ptcb tid = some x from hx]; rfl, hm.freed⟩
  case woken =>
    intro i th tid woken t hi hp ht he
    obtain ⟨t', x, ht', htid, hx, hm⟩ := hw.target hi (show th.place.joins = some tid by rw [hp]; rfl)
    obtain rfl := Option.some.inj (ht.symm.trans ht')
    by_contra hn
    rw [Bool.not_eq_true] at hn
    refine hw.awake i tid ⟨th, hi, hn ▸ hp⟩ ⟨x, hx, he.imp (fun he => ?_) fun hd => hm.detached ▸ hd⟩
    rw [hm.exitval] at he
    by_contra hx
    simp [hx] at he
  case resumes =>
    intro i th tid t hi hp ht
    obtain ⟨t', x, ht', htid, hx, hm⟩ := hw.target hi (show th.place.joins = some tid by rw [hp]; rfl)
    obtain rfl := Option.some.inj (ht.symm.trans ht')
    obtain ⟨s', hs, hpromise⟩ :=
      State.joinLoop_promised (State.acts_of_place hi (by simp [hp])) hx hm.detached hm.exitval
    refine ⟨s', ?_, hpromise⟩
    obtain ⟨cur, own, place, ret, out⟩ := th
    obtain rfl : place = .waiting (.join tid) true := hp
    rw [State.step, hi]
    exact hs
  case enters => exact fun i th tid => hw.enters
  case freed => exact fun t => ⟨hw.tracks.freed t, fun hf => hw.tracks.undetached t (.inl hf)⟩
  case last =>
    intro a s' tid hs hsome hnone th hth hj
    obtain ⟨i, hi⟩ := List.mem_iff_getElem?.1 hth
    have hw' : Watched s' (h.after s a s') := watched_step (x := (s, h)) (y := (s', _)) hw (Lts.record_step.2 ⟨hs, rfl⟩)
    obtain ⟨-, x, -, -, hx, -⟩ := hw'.target hi hj
    rw [hnone] at hx
    cases hx
  case listed => exact fun p tid hm => hw.holds (hw.tracks.inv.listed p tid hm)
  case own =>
    intro i th hi hp
    have hk := State.acts_of_place hi hp
    obtain ⟨-, x, hx, -⟩ := hw.tracks.inv.own i _ hk rfl
    obtain ⟨hm, -⟩ := hw.tracks.own_matches hk rfl hx
    exact ⟨hw.tracks.owned.live i _ hk rfl, by rw [show s.links.ptcb th.ownerPtcb = some x from hx]; rfl, hm.freed⟩

/-- Init and another thread wait for thread 1, which exits with 7: init gets 7. -/
theorem joins_correct_two :
    ∃ s h s', watched.Reaches (s, h) ∧ JoinsCorrect s h ∧ h.exitval 1 = some 7 ∧ s.step (.resume 0) = some s' ∧
      s'.returned 0 = some (0, some 7) := by
  let s₀ := State.boot 1 0 0 none
  obtain ⟨⟨s, h⟩, hr, hx⟩ := Option.map_eq_some_iff.1 (show
    (watched.run (s₀, .start s₀) [.call 0 (.createThread 2 0 0 none), .call 0 (.createThread 3 0 0 none),
      .call 0 (.threadJoin 2), .call 2 (.threadJoin 2), .call 1 (.threadExit 7)]).map
      (fun x => (x.2.exitval 1, x.2.detached 1, x.2.target 0, (x.1.threads[0]?).map Thread.place)) =
      some (some 7, false, some 1, some (.waiting (.join 2) true)) by decide +kernel)
  obtain ⟨hex, hdet, htarget, hplace⟩ : _ ∧ _ ∧ _ ∧ _ := by simpa only [Prod.mk.injEq] using hx
  have hreach : watched.Reaches (s, h) :=
    Lts.reaches_of_run (.init ⟨⟨1, 0, 0, none, by decide, rfl⟩, rfl⟩) hr
  have hc := joins_correct hreach
  obtain ⟨th, hi, hp⟩ := Option.map_eq_some_iff.1 hplace
  obtain ⟨s', hs, hpromise⟩ := hc.resumes 0 th 2 1 hi hp htarget
  refine ⟨s, h, s', hreach, hc, hex, hs, ?_⟩
  simpa [History.Promised, hex, hdet] using hpromise

/-! ## Joining again -/

/-- A `sys_ThreadJoin(tid)` does not begin after the thread has been joined and while another thread of the process is in
the same call. -/
def Timely (s : State) (h : History) : Action → Prop
  | .call i (.threadJoin tid) =>
    (h.thread tid).any h.joined = true → ∀ th ∈ s.threads, th.place.joins = some tid →
      (s.threads[i]?).map Thread.ownerPcb ≠ some th.ownerPcb
  | _ => True

instance (s : State) (h : History) : ∀ a, Decidable (Timely s h a)
  | .call _ (.threadJoin _) => inferInstanceAs (Decidable (_ → _))
  | .call _ (.exec _ _ _ _) | .call _ (.createThread _ _ _ _) | .call _ (.threadDetach _) | .call _ (.threadExit _)
  | .call _ (.exit _) | .call _ (.waitChild _) | .call _ (.file _) | .resume _ => inferInstanceAs (Decidable True)

namespace History

variable {h : History} {t t' : Links} {e : Event}

/-- No thread waits in a join that began late. -/
def Punctual (h : History) (t : Links) : Prop :=
  ∀ (i : ThreadId) k tid, t.keys[i]? = some k → k.joins = some tid → h.late i = false

/-- A join that has returned 0 has found its thread exited, and not detached. -/
theorem Tracks.of_joined (hT : h.Tracks t) {tid : Tid} {x : Ptcb} (hx : t.ptcb tid = some x)
    (hj : (h.thread tid).any h.joined = true) : x.exited = true ∧ x.detached = false ∧ x.refcount ≠ 0 := by
  obtain ⟨i, hi, hm⟩ := hT.ptcb tid x hx
  have hj : h.joined i = true := by simpa [hi] using hj
  obtain ⟨hex, hdet⟩ := hT.undetached i (.inr hj)
  refine ⟨?_, hm.detached.symm.trans hdet, hm.joined hj⟩
  rw [hm.exitval] at hex
  by_contra hn
  simp [hn] at hex

theorem next_join_late (h : History) (i : ThreadId) (tid : Tid) (entry : Bool) (ret : Option (Int × Option Int)) :
    (h.next (.join i tid entry ret) t t').late = (h.enter i tid entry).late :=
  leave_late ..

theorem enter_late {i j : ThreadId} {tid : Tid} {entry : Bool} (hj : j ≠ i) :
    (h.enter i tid entry).late j = h.late j := by
  cases entry with
  | false => rfl
  | true => exact Function.update_of_ne hj _ _

/-- The threads that wait after a join has returned waited before. -/
theorem Punctual.leave (hp : h.Punctual t) {t₁ : Links} {i : ThreadId} {p : Pid} {tid : Tid} {entry : Bool} {x : Ptcb}
    {ret : Option (Int × Option Int)} (hin : t.Inside i p tid entry t₁) (hkeys : t'.keys = (t₁.leave i tid x).keys) :
    (h.next (.join i tid entry ret) t t').Punctual t' := by
  intro j k a hj hk
  rw [hkeys] at hj
  obtain ⟨own, hi⟩ := hin.key
  rw [next_join_late]
  rcases Links.move_cases (t := t₁.setPtcb tid _) hi hj with ⟨rfl, rfl⟩ | ⟨hji, hj⟩
  · cases hk
  · rw [enter_late hji]
    exact hp j k a ((hin.other hji).symm.trans hj) hk

theorem Punctual.next (hp : h.Punctual t) (hT : h.Tracks t) (hs : t.Happens e t') : (h.next e t t').Punctual t' := by
  cases hs with
  | quiet | detached => exact hp
  | created q tid hi hnull hfree he hd hr =>
    intro j k a hj hk
    rcases Links.keys_start hj with hj | ⟨-, rfl⟩
    · exact hp j k a hj hk
    · cases hk
  | exited exitval hi hx =>
    intro j k a hj hk
    rcases Links.move_cases (t := t.setPtcb _ _) hi hj with ⟨rfl, rfl⟩ | ⟨-, hj⟩
    · cases hk
    · exact hp j k a hj hk
  | @refused i p own tid hi =>
    intro j k a hj hk
    have hji : j ≠ i := by
      rintro rfl
      cases hi.symm.trans hj
      cases hk
    rw [next_join_late, enter_late hji]
    exact hp j k a hj hk
  | @sleeps i p tid entry t₁ x hin hx hd he =>
    intro j k a hj hk
    by_cases hji : j = i
    · subst hji
      cases hin with
      | already hi => exact hp j k a hj hk
      | @enters own x₀ hi hm hne hx₀ hd₀ =>
        obtain rfl : { x₀ with refcount := x₀.refcount + 1 } = x := by simpa [Links.move, Links.setPtcb] using hx
        show Function.update h.late j ((h.thread tid).any h.joined) j = false
        rw [Function.update_self]
        by_contra hn
        rw [Bool.not_eq_false] at hn
        have hex : x₀.exited = true := (hT.of_joined hx₀ hn).1
        have he : x₀.exited = false := he
        rw [hex] at he
        cases he
    · exact (enter_late hji).trans (hp j k a ((hin.other hji).symm.trans hj) hk)
  | @fails i p tid entry t₁ x hin _ _ => exact hp.leave (x := x) hin rfl
  | @succeeds i p tid entry t₁ x hin _ _ _ _ => exact hp.leave (x := x) hin rfl
  | @frees i p tid entry t₁ x hin _ _ _ _ => exact hp.leave (x := x) hin rfl

/-- Only a join that begins late and returns 0 at once is a late success. -/
theorem again_iff (hp : h.Punctual t) (ha : h.again = false) (hs : t.Happens e t') :
    (h.next e t t').again = true ↔
      ∃ i tid out, e = .join i tid true (some (0, out)) ∧ (h.thread tid).any h.joined = true := by
  have hleave : ∀ {i : ThreadId} {p : Pid} {tid : Tid} {entry : Bool} {t₁ : Links} (out : Option Int),
      t.Inside i p tid entry t₁ → ((h.next (.join i tid entry (some (0, out))) t t').again = true ↔
        ∃ i' tid' out', Event.join i tid entry (some (0, out)) = .join i' tid' true (some (0, out')) ∧
          (h.thread tid').any h.joined = true) := by
    intro i p tid entry t₁ out hin
    show ((h.enter i tid entry).again || (h.enter i tid entry).late i) = true ↔ _
    rw [enter_again, ha, Bool.false_or]
    cases hin with
    | already hi => simpa [enter] using hp i _ tid hi rfl
    | enters _ _ _ _ _ =>
      show Function.update h.late i _ i = true ↔ _
      rw [Function.update_self]
      simp
  cases hs with
  | quiet | created | exited | detached => simpa [History.next, onEvent] using ha
  | refused | sleeps | fails => simpa [History.next, onEvent, leave] using ha
  | succeeds hin _ _ _ _ | frees hin _ _ _ _ => exact hleave _ hin

end History

/-- A join that returns 0 at once has found the PTCB in the list of its process. -/
theorem Links.Happens.entry {t t' : Links} {i : ThreadId} {tid : Tid} {out : Option Int}
    (hs : t.Happens (.join i tid true (some (0, out))) t') :
    ∃ p own x, t.keys[i]? = some ⟨p, own, true, none⟩ ∧ tid ∈ t.list p ∧ t.ptcb tid = some x := by
  have hin : ∀ {p : Pid} {t₁ : Links}, t.Inside i p tid true t₁ →
      ∃ p own x, t.keys[i]? = some ⟨p, own, true, none⟩ ∧ tid ∈ t.list p ∧ t.ptcb tid = some x := by
    intro p t₁ hin
    cases hin with
    | enters hi hm _ hx _ => exact ⟨_, _, _, hi, hm, hx⟩
  cases hs with
  | succeeds h _ _ _ _ | frees h _ _ _ _ => exact hin h

namespace State

variable {s s' : State} {i : ThreadId} {tid : Tid} {a : Action}

/-- A call of `sys_ThreadJoin` is seen where one begins. -/
theorem event_entry {ret : Option (Int × Option Int)} (h : s.event a s' = .join i tid true ret) :
    a = .call i (.threadJoin tid) := by
  unfold event observed at h
  repeat' split at h
  all_goals cases h
  rfl

theorem event_threadJoin (hs : s.step (.call i (.threadJoin tid)) = some s') :
    s.event (.call i (.threadJoin tid)) s' = .join i tid true (s'.returned i) := by
  obtain ⟨j, c, th, hj, hi, hp, he⟩ | ⟨j, w, th, hj, -, -, -⟩ := step_cases hs
  · cases hj
    have ha := acts_of_place hi (by simp [hp])
    rw [hp] at ha
    exact (sysThreadJoin_effect ha he).event_eq (.inl rfl)
  · cases hj

end State

theorem not_timely {s : State} {h : History} {a : Action} (ht : ¬Timely s h a) :
    ∃ i tid, a = .call i (.threadJoin tid) ∧ (h.thread tid).any h.joined = true ∧
      ∃ th ∈ s.threads, th.place.joins = some tid ∧ (s.threads[i]?).map Thread.ownerPcb = some th.ownerPcb := by
  unfold Timely at ht
  split at ht
  · simp only [not_forall, not_not] at ht
    obtain ⟨hjoined, th, hth, hj, hown⟩ := ht
    exact ⟨_, _, rfl, hjoined, th, hth, hj, hown⟩
  · exact absurd trivial ht

/-- A step makes a late success exactly if it is not timely. -/
theorem again_iff_not_timely {s s' : State} {h : History} {a : Action} (hw : Watched s h) (hp : h.Punctual s.links)
    (ha : h.again = false) (hs : s.step a = some s') : (h.after s a s').again = true ↔ ¬Timely s h a := by
  have hhap := (State.step_effect hw.tracks.inv hs).links
  unfold History.after
  rw [History.again_iff hp ha hhap]
  constructor
  · rintro ⟨i, tid, out, he, hjoined⟩
    obtain rfl := State.event_entry he
    rw [he] at hhap
    obtain ⟨p, own, x, hi, hm, hx⟩ := hhap.entry
    obtain ⟨-, -, hpos⟩ := hw.tracks.of_joined hx hjoined
    -- the count of joiners is positive, and a joiner has the PTCB in the list of its process
    rw [hw.refcount hx, ← Nat.pos_iff_ne_zero, List.countP_pos_iff] at hpos
    obtain ⟨th, hth, hj⟩ := hpos
    obtain ⟨j, hj'⟩ := List.mem_iff_getElem?.1 hth
    have hlist := (hw.tracks.inv.joins j _ tid (Watched.key_joins hj' (by simpa using hj)) rfl).2.1
    intro ht
    refine ht hjoined th hth (by simpa using hj) ?_
    obtain ⟨th', hi', hk⟩ := Option.map_eq_some_iff.1 ((List.getElem?_map ..).symm.trans hi)
    rw [hi', Option.map_some, show th'.ownerPcb = p from congrArg Key.owner hk]
    exact congrArg some (hw.tracks.inv.unique _ _ tid hm hlist)
  · intro ht
    obtain ⟨i, tid, rfl, hjoined, th, hth, hj, hown⟩ := not_timely ht
    obtain ⟨k, c, th', hc, hi, hp', -⟩ | ⟨k, w, th', hc, -, -, -⟩ := State.step_cases hs
    case inr => cases hc
    cases hc
    obtain ⟨j, hj'⟩ := List.mem_iff_getElem?.1 hth
    obtain ⟨-, hm, -⟩ := hw.tracks.inv.joins j _ tid (Watched.key_joins hj' hj) rfl
    obtain ⟨x, hx⟩ := Option.isSome_iff_exists.1 (hw.tracks.inv.listed _ tid hm)
    obtain ⟨hex, hdet, -⟩ := hw.tracks.of_joined hx hjoined
    have hsame : th'.ownerPcb = th.ownerPcb := by simpa [hi] using hown
    have ha' := State.acts_of_place hi (by simp [hp'])
    have hne : th'.ownerPtcb ≠ tid := by
      rintro rfl
      obtain ⟨-, y, hy, hye⟩ := hw.tracks.inv.own i _ ha' rfl
      obtain rfl := Option.some.inj (hx.symm.trans hy)
      rw [hex] at hye
      cases hye
    have hnull : tid ≠ nothread := by
      rintro rfl
      rw [hw.tracks.null] at hjoined
      cases hjoined
    obtain ⟨t, s₁, htid, hs₁, hpromise⟩ := hw.enters hi hp' ⟨hsame ▸ hm, hnull, ⟨x, hx, hdet⟩, hne⟩
    cases hs₁.symm.trans hs
    have hjt : h.joined t = true := by simpa [htid] using hjoined
    obtain ⟨hval, hnd⟩ := hw.tracks.undetached t (.inr hjt)
    obtain ⟨v, hv⟩ := Option.isSome_iff_exists.1 hval
    refine ⟨i, tid, some v, (State.event_threadJoin hs).trans ?_, hjoined⟩
    rw [show s'.returned i = some (0, some v) by simpa [History.Promised, hnd, hv] using hpromise]

/-- What a run keeps until it makes a late success. -/
structure Once (s : State) (h : History) : Prop where
  watched : Watched s h
  punctual : h.Punctual s.links
  again : h.again = false

/-- **Joined once.** No join that begins after the first success of a join of the same thread succeeds, in the whole of a
run, exactly if none begins then while another thread of the process is still in the call. -/
theorem joined_once_iff {tid : Tid} {initTask : Task} {argl : Int} {args : Args} {as : List Action}
    {x : State × History} (htid : tid ≠ nothread)
    (hr : watched.run (.boot tid initTask argl args, .start (.boot tid initTask argl args)) as = some x) :
    watched.AllStates (fun x => x.2.again = false) (.boot tid initTask argl args, .start (.boot tid initTask argl args))
        as ↔
      watched.AllSteps (fun x a => Timely x.1 x.2 a) (.boot tid initTask argl args, .start (.boot tid initTask argl args))
        as := by
  refine Lts.allStates_iff_allSteps (I := fun x => Once x.1 x.2) (fun _ h => h.again) ?_ ?_ ?_ hr
  · intro x a y h ht hs
    obtain ⟨hs', hy⟩ := Lts.record_step.1 hs
    have hinv := h.watched.tracks.inv
    refine ⟨watched_step h.watched hs, ?_, ?_⟩
    · rw [hy]
      exact h.punctual.next h.watched.tracks (State.step_effect hinv hs').links
    · rw [hy, ← Bool.not_eq_true, again_iff_not_timely h.watched h.punctual h.again hs']
      exact not_not_intro ht
  · intro x a y h ht hs
    obtain ⟨hs', hy⟩ := Lts.record_step.1 hs
    rw [hy, Bool.not_eq_false]
    exact (again_iff_not_timely h.watched h.punctual h.again hs').2 ht
  · refine ⟨watched_boot htid initTask argl args, fun i k a hi hk => rfl, rfl⟩

/-- Threads 0 and 2 wait for thread 1, which exits. Thread 0 gets its exit value, then thread 2, which frees the PTCB, and
thread 3 calls `sys_ThreadJoin` after that. -/
theorem joined_once_iff_late :
    watched.AllStates (fun x => x.2.again = false) (.boot 1 0 0 none, .start (.boot 1 0 0 none))
      [.call 0 (.createThread 2 0 0 none), .call 0 (.createThread 3 0 0 none), .call 0 (.createThread 4 0 0 none),
        .call 0 (.threadJoin 2), .call 2 (.threadJoin 2), .call 1 (.threadExit 7), .resume 0, .resume 2,
        .call 3 (.threadJoin 2)] := by
  have hrun : (watched.run (.boot 1 0 0 none, .start (.boot 1 0 0 none))
      [.call 0 (.createThread 2 0 0 none), .call 0 (.createThread 3 0 0 none), .call 0 (.createThread 4 0 0 none),
        .call 0 (.threadJoin 2), .call 2 (.threadJoin 2), .call 1 (.threadExit 7), .resume 0, .resume 2,
        .call 3 (.threadJoin 2)]).isSome := by decide +kernel
  obtain ⟨x, hx⟩ := Option.isSome_iff_exists.1 hrun
  exact (joined_once_iff (by decide) hx).2 (by decide +kernel)

/-- In the same run, thread 3 calls `sys_ThreadJoin` before thread 2 goes on: the call returns 0. -/
theorem joined_twice : ∃ s h, watched.Reaches (s, h) ∧ h.joined 1 = true ∧ h.again = true := by
  let s₀ := State.boot 1 0 0 none
  obtain ⟨⟨s, h⟩, hr, hx⟩ := Option.map_eq_some_iff.1 (show
    (watched.run (s₀, .start s₀)
      [.call 0 (.createThread 2 0 0 none), .call 0 (.createThread 3 0 0 none), .call 0 (.createThread 4 0 0 none),
        .call 0 (.threadJoin 2), .call 2 (.threadJoin 2), .call 1 (.threadExit 7), .resume 0,
        .call 3 (.threadJoin 2)]).map (fun x => (x.2.joined 1, x.2.again)) = some (true, true) by decide +kernel)
  obtain ⟨hj, ha⟩ : _ ∧ _ := by simpa only [Prod.mk.injEq] using hx
  exact ⟨s, h, Lts.reaches_of_run (.init ⟨⟨1, 0, 0, none, by decide, rfl⟩, rfl⟩) hr, hj, ha⟩

end TinyOS.Proc
