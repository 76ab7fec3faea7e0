import TinyOS.Sockets.Steps

/-!
# Where the calls are

- `Moves`: from where to where a step can take a call of `sys_Accept` or `sys_Connect` (`Step.moves`);
- `Step.new`: where a new call is after its first step.
-/

namespace TinyOS.Sockets

open Streams (Fid)

namespace State

variable {s s' t : State} {a b l : ScbPtr} {c d r : CallId} {x : Scb} {pl pl' pl₀ : Place} {fid : Option Fid} {act : Action}

theorem setPlace_getElem (h : (s.setPlace c pl').calls[d]? = some pl) :
    (d = c ∧ pl = pl') ∨ (d ≠ c ∧ s.calls[d]? = some pl) := by
  by_cases hdc : d = c
  · subst hdc
    obtain ⟨hlt, -⟩ := List.getElem?_eq_some_iff.1 h
    have hself : (s.setPlace d pl').calls[d]? = some pl' :=
      List.getElem?_set_self (by simpa [setPlace] using hlt)
    exact .inl ⟨rfl, Option.some.inj (h.symm.trans hself)⟩
  · exact .inr ⟨hdc, (List.getElem?_set_ne (Ne.symm hdc)).symm.trans h⟩

theorem start_getElem (h : (s.start pl').calls[d]? = some pl) :
    (d = s.calls.length ∧ pl = pl') ∨ s.calls[d]? = some pl := by
  unfold start at h
  rw [List.getElem?_append] at h
  split at h
  · exact .inr h
  · rename_i hge
    obtain ⟨hlt, -⟩ := List.getElem?_eq_some_iff.1 h
    have hd : d - s.calls.length = 0 := by simpa using hlt
    rw [hd] at h
    exact .inl ⟨Nat.le_antisymm (Nat.le_of_sub_eq_zero hd) (Nat.le_of_not_lt hge), by simpa [eq_comm] using h⟩

theorem start_last {n : Nat} (hn : s.calls.length = n) : (s.start pl).calls[n]? = some pl := by
  subst hn
  exact List.getElem?_concat_length

theorem start_any {p : Place → Bool} (h : s.calls[d]?.any p = true) : (s.start pl).calls[d]?.any p = true := by
  obtain ⟨pl₀, hd, hp⟩ := (Option.any_eq_true _ _).1 h
  refine (Option.any_eq_true _ _).2 ⟨pl₀, ?_, hp⟩
  obtain ⟨hlt, -⟩ := List.getElem?_eq_some_iff.1 hd
  exact (List.getElem?_append_left hlt).trans hd

/-- A call moves on, and `p` goes with it. -/
theorem setPlace_any {p : Place → Bool} (hc : s.calls[c]? = some pl) (hp : p pl = true → p pl' = true)
    (h : s.calls[d]?.any p = true) : (s.setPlace c pl').calls[d]?.any p = true := by
  by_cases hdc : d = c
  · subst hdc
    rw [hc] at h
    rw [setPlace_self hc]
    exact hp h
  · have hset : (s.setPlace c pl').calls[d]? = s.calls[d]? := List.getElem?_set_ne (Ne.symm hdc)
    rwa [hset]

theorem signal_any {p : Place → Bool} (hp : ∀ l, p (.accepting l false) = true → p (.accepting l true) = true)
    (w : List CallId) (h : s.calls[d]?.any p = true) : (s.signal w).2.calls[d]?.any p = true := by
  obtain ⟨w', hw⟩ | ⟨c, l, w', -, hc, hw⟩ := signal_cases s w
  · rwa [hw]
  · rw [hw]
    exact setPlace_any hc (hp l) h

theorem signal_getElem (w : List CallId) (h : (s.signal w).2.calls[d]? = some pl) :
    s.calls[d]? = some pl ∨ ∃ l, pl = .accepting l true := by
  obtain ⟨w', hw⟩ | ⟨c, l, w', -, -, hw⟩ := signal_cases s w
  · rw [hw] at h
    exact .inl h
  · rw [hw] at h
    obtain ⟨-, hpl⟩ | ⟨-, hd⟩ := setPlace_getElem h
    · exact .inr ⟨l, hpl⟩
    · exact .inl hd

@[simp] theorem signal_length (w : List CallId) : (s.signal w).2.calls.length = s.calls.length := by
  obtain ⟨w', hw⟩ | ⟨c, l, w', -, -, hw⟩ := signal_cases s w
  · rw [hw]
  · rw [hw]
    exact List.length_set

/-- Other calls do not see the signal of `sys_Accept`. -/
theorem signalConnected_any {p : Place → Bool}
    (hp : ∀ a n, p (.connecting a n .asleep) = true → p (.connecting a n .signalled) = true)
    (r : CallId) (h : s.calls[d]?.any p = true) : (s.signalConnected r).calls[d]?.any p = true := by
  unfold signalConnected
  split
  · rename_i a n hr
    exact setPlace_any hr (hp a n) h
  · exact h

theorem signalConnected_of_ne (hdr : d ≠ r) : (s.signalConnected r).calls[d]? = s.calls[d]? := by
  unfold signalConnected
  split
  · exact List.getElem?_set_ne (Ne.symm hdr)
  · rfl

theorem signalConnected_self (h : (s.signalConnected r).calls[r]? = some pl) : s.calls[r]? = some pl ∨
    ∃ a n, s.calls[r]? = some (.connecting a n .asleep) ∧ pl = .connecting a n .signalled := by
  unfold signalConnected at h
  split at h
  · rename_i a n hr
    exact .inr ⟨a, n, hr, Option.some.inj (h.symm.trans (setPlace_self hr))⟩
  · exact .inl h

/-! ## Steps -/

/-- Where the loop of `sys_Accept` on `l` ends. -/
def LoopEnd (l : ScbPtr) (pl : Place) : Prop :=
  (∃ r, pl = .refused (some l) r) ∨ pl = .accepting l false ∨ ∃ r b f, pl = .signalling l r b f

/-- The moves of call `c` in a step. -/
inductive Moves (s : State) (act : Action) (c : CallId) : Place → Place → Prop
  | stay (pl : Place) : Moves s act c pl pl
  | woken (l : ScbPtr) : Moves s act c (.accepting l false) (.accepting l true)
  | loop {l : ScbPtr} {fid : Option Fid} {pl : Place} : act = .resume c fid → LoopEnd l pl →
      Moves s act c (.accepting l true) pl
  | accepted (l : ScbPtr) (r : CallId) (b : ScbPtr) (f : Fid) (linked : Bool) : act = .signal c →
      Moves s act c (.signalling l r b f) (.accepted l r b f linked)
  | signalled (a : ScbPtr) (n : Nat) : Moves s act c (.connecting a n .asleep) (.connecting a n .signalled)
  | expired (a : ScbPtr) (n : Nat) : Moves s act c (.connecting a n .asleep) (.connecting a n .expired)
  | failed {cr : Cr} {wake : Wake} {fid : Option Fid} (a : ScbPtr) (n : Nat) : act = .resume c fid → s.cr c = some cr →
      cr.admitted = false ∨ wake = .expired → wake ≠ .asleep → Moves s act c (.connecting a n wake) (.connected (some a) (-1))
  | connected {fid : Option Fid} (a : ScbPtr) (n : Nat) : act = .resume c fid → Moves s act c (.connecting a n .signalled) (.connected (some a) 0)

theorem setPlace_moves (hc : s.calls[c]? = some pl) (hm : t.Moves act c pl pl') (hd : s.calls[d]? = some pl₀) :
    ∃ pl₁, (s.setPlace c pl').calls[d]? = some pl₁ ∧ t.Moves act d pl₀ pl₁ := by
  by_cases hdc : d = c
  · subst hdc
    cases hc.symm.trans hd
    exact ⟨pl', setPlace_self hc, hm⟩
  · exact ⟨pl₀, (List.getElem?_set_ne (Ne.symm hdc)).trans hd, .stay _⟩

theorem signal_moves (w : List CallId) (hd : s.calls[d]? = some pl) :
    ∃ pl', (s.signal w).2.calls[d]? = some pl' ∧ t.Moves act d pl pl' := by
  obtain ⟨w', hw⟩ | ⟨c, l, w', -, hc, hw⟩ := signal_cases s w
  · rw [hw]
    exact ⟨pl, hd, .stay _⟩
  · rw [hw]
    exact setPlace_moves hc (.woken l) hd

theorem signalConnected_moves (r : CallId) (hd : s.calls[d]? = some pl) :
    ∃ pl', (s.signalConnected r).calls[d]? = some pl' ∧ t.Moves act d pl pl' := by
  unfold signalConnected
  split
  · rename_i a n hr
    exact setPlace_moves hr (.signalled a n) hd
  · exact ⟨pl, hd, .stay _⟩

theorem start_of_some (hd : s.calls[d]? = some pl) (pl' : Place) : (s.start pl').calls[d]? = some pl :=
  (List.getElem?_append_left (List.getElem?_eq_some_iff.1 hd).1).trans hd

theorem Loop.end (hl : Loop s c l fid t) (hc : s.calls[c]? = some pl) : ∃ pl', t.calls = s.calls.set c pl' ∧
    t.calls[c]? = some pl' ∧ LoopEnd l pl' := by
  obtain ⟨pl', hcalls, hend⟩ := hl.calls
  refine ⟨pl', hcalls, ?_, hend.imp id (Or.imp id fun ⟨r, f, h⟩ => ⟨r, _, f, h⟩)⟩
  rw [hcalls]
  exact setPlace_self hc

/-- A step takes every call along one of the moves. -/
theorem Step.moves (hs : Step s act s') (hc : s.calls[c]? = some pl) :
    ∃ pl', s'.calls[c]? = some pl' ∧ s.Moves act c pl pl' := by
  have hstay : s'.calls = s.calls → ∃ pl', s'.calls[c]? = some pl' ∧ s.Moves act c pl pl' :=
    fun h => ⟨pl, h ▸ hc, .stay _⟩
  cases hs with
  | socketFail | socket | listenFail | listen | shutDownFail | shutRead | shutWrite | dup | drop => exact hstay rfl
  | acceptFail | connectFail => exact ⟨pl, start_of_some hc _, .stay _⟩
  | @accept l x fid _ _ _ _ hl =>
    obtain ⟨pl', hcalls, -⟩ := hl.calls
    have hne : c ≠ s.calls.length := Nat.ne_of_lt (List.getElem?_eq_some_iff.1 hc).1
    refine ⟨pl, ?_, .stay _⟩
    rw [hcalls, List.getElem?_set_ne (Ne.symm hne)]
    exact start_of_some (s := s.modifyScb l Scb.ref) hc _
  | acceptResume hc' hl =>
    obtain ⟨pl', hcalls, -, hend⟩ := hl.end hc'
    rw [hcalls]
    exact setPlace_moves hc' (.loop rfl hend) hc
  | @connect a l _ _ _ n q w =>
    obtain ⟨pl', hpl', hm⟩ := signal_moves (t := s) (s := { s.modifyScb a Scb.ref with
      cr := Function.update s.cr s.calls.length (some ⟨false, a⟩) }) w hc
    exact ⟨pl', start_of_some hpl' _, hm⟩
  | timedOut fid hc' hw hcr hadm => exact setPlace_moves hc' (.failed _ _ rfl hcr (.inl hadm) hw) hc
  | missed fid hc' hcr _ => exact setPlace_moves hc' (.failed _ _ rfl hcr (.inr rfl) (by simp)) hc
  | @connected c' a n cr t fid hc' _ _ hu =>
    have hcalls := unref_calls hu
    exact setPlace_moves (s := t) (hcalls ▸ hc') (.connected a n rfl) (hcalls ▸ hc)
  | @close a x t _ _ he =>
    rw [release_calls]
    cases he with
    | nothing => exact ⟨pl, hc, .stay _⟩
    | peer => exact ⟨pl, hc, .stay _⟩
    | listener => exact signal_moves _ hc
  | @signal c' r l b fid cr t hc' _ _ hu =>
    have hcalls := unref_calls hu
    have hsig := signalConnected_getElem hc' (by simp) r
    by_cases hcc : c = c'
    · subst hcc
      cases hc.symm.trans hc'
      exact ⟨_, setPlace_self (s := t) (hcalls ▸ hsig), .accepted _ _ _ _ _ rfl⟩
    · obtain ⟨pl', hpl', hm⟩ := signalConnected_moves (t := s) r hc
      rw [← hcalls] at hpl'
      exact ⟨pl', (List.getElem?_set_ne (Ne.symm hcc)).trans hpl', hm⟩
  | expire hc' => exact setPlace_moves hc' (.expired _ _) hc

/-- Where a new call can be after its first step. -/
inductive Begins (s : State) : Action → Place → Prop
  | refused (sock : Option ScbPtr) (fid : Option Fid) : Begins s (.accept sock fid) (.refused none none)
  | accept {l : ScbPtr} {x : Scb} {pl : Place} (fid : Option Fid) : s.scb.get l = some x → 0 < x.slots →
      x.type = .listener → LoopEnd l pl → Begins s (.accept (some l) fid) pl
  | failed (sock : Option ScbPtr) (port : Int) (n : Nat) : Begins s (.connect sock port n) (.connected none (-1))
  | connect {a : ScbPtr} {x : Scb} (port : Int) (n : Nat) : s.scb.get a = some x → 0 < x.slots →
      Begins s (.connect (some a) port n) (.connecting a n .asleep)

theorem setPlace_none (hc : s.calls[d]? = none) (pl : Place) : (s.setPlace c pl).calls[d]? = none := by
  simpa [setPlace] using hc

theorem signal_none (w : List CallId) (hd : s.calls[d]? = none) : (s.signal w).2.calls[d]? = none := by
  rw [List.getElem?_eq_none_iff] at hd ⊢
  rwa [signal_length]

/-- Calls do not appear out of nothing. -/
theorem Step.begins (hs : Step s act s') (hnew : s.calls[c]? = none) (hc : s'.calls[c]? = some pl) :
    c = s.calls.length ∧ s.Begins act pl := by
  have hsame : s'.calls = s.calls → c = s.calls.length ∧ s.Begins act pl := by
    intro h
    cases hc.symm.trans (h ▸ hnew)
  have hset : ∀ {t d pl'}, s'.calls = (State.setPlace t d pl').calls → t.calls[c]? = none →
      c = s.calls.length ∧ s.Begins act pl := by
    intro t d pl' h ht
    rw [h, setPlace_none ht] at hc
    cases hc
  cases hs with
  | socketFail | socket | listenFail | listen | shutDownFail | shutRead | shutWrite | dup | drop => exact hsame rfl
  | acceptFail fid =>
    obtain ⟨he, rfl⟩ | hc := start_getElem hc
    · exact ⟨he, .refused _ fid⟩
    · cases hc.symm.trans hnew
  | connectFail sock port n =>
    obtain ⟨he, rfl⟩ | hc := start_getElem hc
    · exact ⟨he, .failed sock port n⟩
    · cases hc.symm.trans hnew
  | @accept l x fid _ hx hslots ht hl =>
    obtain ⟨pl', hcalls, hself, hend⟩ := hl.end List.getElem?_concat_length
    by_cases he : c = s.calls.length
    · subst he
      cases hc.symm.trans hself
      exact ⟨rfl, .accept fid hx hslots ht hend⟩
    · rw [hcalls, List.getElem?_set_ne (Ne.symm he)] at hc
      obtain ⟨h, -⟩ | hc := start_getElem (s := s.modifyScb l Scb.ref) hc
      · exact absurd h he
      · cases hc.symm.trans hnew
  | acceptResume hc' hl =>
    obtain ⟨pl', hcalls, -⟩ := hl.calls
    exact hset (t := s) hcalls hnew
  | @connect a l x _ port n q w hx hslots =>
    obtain ⟨he, rfl⟩ | hd := start_getElem hc
    · exact ⟨he.trans (signal_length w), .connect port n hx hslots⟩
    · cases hd.symm.trans (signal_none w hnew)
  | timedOut => exact hset (t := s) rfl hnew
  | missed => exact hset (t := s) rfl hnew
  | connected _ _ _ _ hu => exact hset rfl ((unref_calls hu).symm ▸ hnew)
  | close _ _ he =>
    rw [release_calls] at hc
    cases he with
    | nothing => cases hc.symm.trans hnew
    | peer => cases hc.symm.trans hnew
    | listener => cases hc.symm.trans (signal_none _ hnew)
  | @signal _ r _ _ _ _ t _ _ _ hu =>
    have ht : t.calls[c]? = none := by
      rw [unref_calls hu]
      unfold signalConnected
      split
      · exact setPlace_none hnew _
      · exact hnew
    exact hset (t := t) rfl ht
  | expire => exact hset (t := s) rfl hnew

end State

end TinyOS.Sockets
