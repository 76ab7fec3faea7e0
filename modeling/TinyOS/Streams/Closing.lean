import TinyOS.Streams.System

/-!
# When streams are closed

- `State.step_moves`: no step both opens and closes streams;
- `refcount_correct`: the reference counts are right along every run, and a step closes the streams that lose their last
  reference, and no other.
-/

namespace TinyOS.Streams

/-- From `a` to `b` streams are closed, and none is opened. -/
def Files.Closes (a b : Files) : Prop :=
  ∀ f, (b.fcb f).opened = (a.fcb f).opened ∧ (a.fcb f).closed ≤ (b.fcb f).closed

/-- From `a` to `b` streams are opened, and none is closed. -/
def Files.Opens (a b : Files) : Prop :=
  ∀ f, (b.fcb f).closed = (a.fcb f).closed ∧ (a.fcb f).opened ≤ (b.fcb f).opened

namespace Files

variable {a b c : Files} {f : FcbPtr}

theorem Closes.refl (a : Files) : a.Closes a := fun _ => ⟨rfl, Nat.le_refl _⟩

theorem Closes.trans (h : a.Closes b) (h' : b.Closes c) : a.Closes c :=
  fun f => ⟨(h' f).1.trans (h f).1, (h f).2.trans (h' f).2⟩

theorem Opens.refl (a : Files) : a.Opens a := fun _ => ⟨rfl, Nat.le_refl _⟩

theorem Opens.trans (h : a.Opens b) (h' : b.Opens c) : a.Opens c :=
  fun f => ⟨(h' f).1.trans (h f).1, (h f).2.trans (h' f).2⟩

theorem setFcb_closes {x : Fcb} (ho : x.opened = (a.fcb f).opened) (hc : (a.fcb f).closed ≤ x.closed) :
    a.Closes (a.setFcb f x) :=
  (Function.forall_update_iff a.fcb fun g y => y.opened = (a.fcb g).opened ∧ (a.fcb g).closed ≤ y.closed).2
    ⟨⟨ho, hc⟩, fun _ _ => ⟨rfl, Nat.le_refl _⟩⟩

theorem setFcb_opens {x : Fcb} (hc : x.closed = (a.fcb f).closed) (ho : (a.fcb f).opened ≤ x.opened) :
    a.Opens (a.setFcb f x) :=
  (Function.forall_update_iff a.fcb fun g y => y.closed = (a.fcb g).closed ∧ (a.fcb g).opened ≤ y.opened).2
    ⟨⟨hc, ho⟩, fun _ _ => ⟨rfl, Nat.le_refl _⟩⟩

theorem fcbIncref_closes (a : Files) (f : FcbPtr) : a.Closes (a.fcbIncref f) := setFcb_closes rfl (Nat.le_refl _)

theorem fcbIncref_opens (a : Files) (f : FcbPtr) : a.Opens (a.fcbIncref f) := setFcb_opens rfl (Nat.le_refl _)

theorem attach_opens (a : Files) (f : FcbPtr) (ops : FileOps) : a.Opens (a.attach f ops) :=
  setFcb_opens rfl (Nat.le_succ _)

theorem fcbDecref_closes (a : Files) (f : FcbPtr) : a.Closes (a.fcbDecref f).2 := by
  have hdec : a.Closes (a.setFcb f { a.fcb f with refcount := (a.fcb f).refcount - 1 }) :=
    setFcb_closes rfl (Nat.le_refl _)
  unfold fcbDecref
  dsimp only
  split
  · exact hdec.trans (setFcb_closes rfl (Nat.le_succ _))
  · exact hdec

theorem acquireFcb_opens (h : a.acquireFcb = some (f, b)) : a.Opens b := by
  unfold acquireFcb at h
  split at h
  · cases h
  · cases h
    exact setFcb_opens rfl (Nat.le_refl _)

theorem releaseAll_opens : ∀ (l : List FcbPtr) (a : Files), a.Opens (l.foldl releaseFcb a)
  | [], a => Opens.refl a
  | f :: l, a => releaseAll_opens l (a.releaseFcb f)

theorem acquireMany_opens (n : Nat) (acc : List FcbPtr) (a : Files) : a.Opens (a.acquireMany n acc).2 := by
  induction n generalizing acc a with
  | zero => exact Opens.refl a
  | succ n ih =>
    unfold acquireMany
    split
    · rename_i h
      exact (acquireFcb_opens h).trans (ih _ _)
    · exact releaseAll_opens acc a

end Files

namespace View

variable {v v' : View} {i : Fid} {f : FcbPtr}

theorem bindAll_opens (xs : List (Fid × FcbPtr)) (v : View) :
    v.files.Opens (xs.foldl (fun s x => s.bind x.1 x.2) v).files := by
  induction xs generalizing v with
  | nil => exact Files.Opens.refl v.files
  | cons x xs ih => exact (Files.fcbIncref_opens v.files x.2).trans (ih (v.bind x.1 x.2))

theorem fcbReserve_opens (v : View) (num : Nat) : v.files.Opens (v.fcbReserve num).2.files := by
  unfold fcbReserve
  split
  · exact Files.Opens.refl v.files
  · have ha := Files.acquireMany_opens num [] v.files
    split
    · rename_i h
      rwa [h] at ha
    · rename_i fcbs files h
      rw [h] at ha
      exact ha.trans (bindAll_opens _ ⟨v.fidt, files⟩)

theorem openOne_opens (v : View) (ops : FileOps) : v.files.Opens (v.openOne ops).2.files := by
  have hr := fcbReserve_opens v 1
  unfold openOne
  split
  · rename_i h
    rw [h] at hr
    exact hr.trans (Files.attach_opens _ _ _)
  · rename_i h
    rwa [h] at hr

theorem sysPipe_opens (v : View) : v.files.Opens v.sysPipe.2.files := by
  have hr := fcbReserve_opens v 2
  unfold sysPipe
  split
  · rename_i h
    rw [h] at hr
    exact (hr.trans (Files.attach_opens _ _ _)).trans (Files.attach_opens _ _ _)
  · rename_i h
    rwa [h] at hr

theorem openStream_opens {ops : FileOps} {devnum minor : Nat} {r : Option Fid}
    (he : v.openStream ops devnum minor = some (r, v')) : v.files.Opens v'.files := by
  have hr := fcbReserve_opens v 1
  unfold openStream at he
  split at he
  · rename_i h
    rw [h] at hr
    split at he
    · obtain ⟨v₂, hu, heq⟩ := Option.map_eq_some_iff.1 he
      cases heq
      unfold fcbUnreserve at hu
      split at hu
      · cases hu
        exact hr
      · cases hu
    · cases he
      exact hr.trans (Files.attach_opens _ _ _)
  · rename_i h
    rw [h] at hr
    cases he
    exact hr

theorem sysClose_closes (v : View) (fd retval : Int) : v.files.Closes (v.sysClose fd retval).2.files := by
  unfold sysClose
  split
  · split
    · exact Files.Closes.refl v.files
    · exact Files.fcbDecref_closes v.files _
  · exact Files.Closes.refl v.files

theorem sysDup2_closes (v : View) (oldfd newfd : Int) : v.files.Closes (v.sysDup2 oldfd newfd).2.files := by
  unfold sysDup2
  split
  · dsimp only
    split
    · exact Files.Closes.refl v.files
    · split
      · refine Files.Closes.trans ?_ (Files.fcbIncref_closes _ _)
        split
        · exact Files.fcbDecref_closes v.files _
        · exact Files.Closes.refl v.files
      · exact Files.Closes.refl v.files
  · exact Files.Closes.refl v.files

theorem inherit_closes (parent : Fidt) (l : List Fid) (v : View) : v.files.Closes (v.inherit parent l).files := by
  induction l generalizing v with
  | nil => exact Files.Closes.refl v.files
  | cons i l ih =>
    refine Files.Closes.trans ?_ (ih _)
    dsimp only
    split
    · exact Files.fcbIncref_closes v.files _
    · exact Files.Closes.refl v.files

theorem cleanup_closes (l : List Fid) (v : View) : v.files.Closes (v.cleanup l).files := by
  induction l generalizing v with
  | nil => exact Files.Closes.refl v.files
  | cons i l ih =>
    unfold cleanup
    split
    · exact (Files.fcbDecref_closes v.files _).trans (ih _)
    · exact ih v

end View

/-- A system call closes streams or opens streams, and does not do both. -/
theorem FileCall.apply_moves {v v' : View} {c : FileCall} (he : c.apply v = some v') :
    v.files.Closes v'.files ∨ v.files.Opens v'.files := by
  have hstream : ∀ {ops devnum minor}, (v.openStream ops devnum minor).map (·.2) = some v' →
      v.files.Opens v'.files := by
    intro ops devnum minor he
    obtain ⟨r, hr, rfl⟩ := Option.map_eq_some_iff.1 he
    exact View.openStream_opens hr
  cases c with
  | close fd retval => cases he; exact .inl (View.sysClose_closes v fd retval)
  | dup2 oldfd newfd => cases he; exact .inl (View.sysDup2_closes v oldfd newfd)
  | pipe => cases he; exact .inr (View.sysPipe_opens v)
  | socket port =>
    cases he
    unfold View.sysSocket
    split
    · exact .inr (Files.Opens.refl v.files)
    · exact .inr (View.openOne_opens v .socket)
  | openInfo => cases he; exact .inr (View.openOne_opens v .procInfo)
  | openNull devnum => exact .inr (hstream he)
  | openTerminal devnum termno => exact .inr (hstream he)

/-! ## Steps and runs -/

namespace State

variable {s s' : State} {a : Action}

/-- No step both opens and closes streams. -/
theorem step_moves (hs : s.step a = some s') : s.files.Closes s'.files ∨ s.files.Opens s'.files := by
  cases step_cases hs with
  | first | reap | ioFail => exact .inl (Files.Closes.refl s.files)
  | exec => exact .inl (View.inherit_closes _ _ _)
  | exit => exact .inl (View.cleanup_closes _ _)
  | file _ hv => exact FileCall.apply_moves hv
  | io => exact .inl (Files.fcbIncref_closes s.files _)
  | ioNone => exact .inl ((Files.fcbIncref_closes s.files _).trans (Files.fcbDecref_closes _ _))
  | finish => exact .inl (Files.fcbDecref_closes s.files _)

/-- A stream is closed by the step that takes its last reference. -/
theorem Inv.closed_step (h : s.Inv) (hs : s.step a = some s') (f : FcbPtr) :
    (s'.files.fcb f).closed = (s.files.fcb f).closed + if 0 < s.refs f ∧ s'.refs f = 0 then 1 else 0 := by
  have hc := h.counted.closed f
  have hc' := (h.step hs).counted.closed f
  simp only [List.not_mem_nil, not_false_eq_true, and_true] at hc hc'
  rcases step_moves hs with hm | hm
  · obtain ⟨ho, hle⟩ := hm f
    split_ifs at hc hc' ⊢ <;> omega
  · obtain ⟨heq, hle⟩ := hm f
    split_ifs at hc hc' ⊢ <;> omega

end State

/-- The reference counts, the list of free blocks, and the calls of `Close` so far, are right. -/
structure State.Correct (s : State) : Prop where
  refcount : ∀ f, f ∉ s.files.freelist → (s.files.fcb f).refcount = s.refs f
  free : ∀ f, s.files.freelist.count f = if s.refs f = 0 then 1 else 0
  closed : ∀ f, (s.files.fcb f).closed + (if 0 < s.refs f then 1 else 0) = (s.files.fcb f).opened
  stream : ∀ f, 0 < s.refs f → (s.files.fcb f).streamfunc ≠ none

theorem State.Inv.correct {s : State} (h : s.Inv) : s.Correct := by
  refine ⟨h.counted.refcount, fun f => ?_, fun f => ?_, fun f hf => h.counted.stream f hf List.not_mem_nil⟩
  · have hfree := h.counted.free f
    have hnd := h.counted.nodup
    simp only [List.not_mem_nil, or_false, List.append_nil] at hfree hnd
    rw [hnd.count]
    simp only [hfree]
  · simpa using h.counted.closed f

/-- **Reference counting of streams.** In every state reached, a block that is not on `FCB_freelist` has as many references
as its `refcount` says, a block is on the list, once, exactly when it has none, and every stream but the one in use has
been closed once. A step closes the streams that lose their last reference by it. -/
theorem refcount_correct {s : State} (h : system.Reaches s) :
    s.Correct ∧ ∀ a s', s.step a = some s' → ∀ f,
      (s'.files.fcb f).closed = (s.files.fcb f).closed + if 0 < s.refs f ∧ s'.refs f = 0 then 1 else 0 :=
  ⟨(State.reaches_inv h).correct, fun _ _ hs f => (State.reaches_inv h).closed_step hs f⟩

/-- Process 1 closes its null stream while a thread of it writes to the stream; the stream is closed when the writer is
done. -/
theorem refcount_correct_null : ∃ s s' f,
    system.run State.boot [.file Proc.initPid (.openNull 1), .io Proc.initPid true 0, .file Proc.initPid (.close 0 0)] =
      some s ∧ s.files.fcb f = ⟨1, some .null, 1, 0⟩ ∧ s.step (.finish 0) = some s' ∧
    s'.files.fcb f = ⟨0, some .null, 1, 1⟩ ∧ s.Correct := by
  obtain ⟨rest, hrest⟩ : ∃ rest, List.finRange maxFiles = ⟨0, by decide⟩ :: rest := ⟨_, List.finRange_succ⟩
  have hb : State.boot = { State.boot with files := ⟨fun _ => ⟨0, none, 0, 0⟩, ⟨0, by decide⟩ :: rest⟩ } := by
    rw [← hrest]
    rfl
  have hs : system.run { State.boot with files := ⟨fun _ => ⟨0, none, 0, 0⟩, ⟨0, by decide⟩ :: rest⟩ }
      [.file Proc.initPid (.openNull 1), .io Proc.initPid true 0, .file Proc.initPid (.close 0 0)] = some _ := rfl
  rw [← hb] at hs
  exact ⟨_, _, ⟨0, by decide⟩, hs, rfl, rfl, rfl, (refcount_correct (Lts.reaches_of_run (Lts.Reaches.init rfl) hs)).1⟩

end TinyOS.Streams
