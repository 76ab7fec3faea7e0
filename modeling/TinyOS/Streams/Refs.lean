import TinyOS.Lib.Count
import TinyOS.Streams.Model

/-!
# References to file control blocks

`Counted files refs` says that the blocks are right for `refs f` references to each block `f`. In the middle of a system
call there may be blocks that are acquired and have no reference yet, and blocks that have one and no stream.

- `Counted.incref`, `Counted.decref`, …: one lemma for each thing that the code does to a block;
- `FileCall.apply_kept`, `View.inherit_kept`, `View.cleanup_kept`: the system calls on the file table of a process keep the
  references counted, whatever references others hold.
-/

namespace TinyOS.Streams

/-- The slots of a file table that point to `f`. -/
def slots (fidt : Fidt) (f : FcbPtr) : Nat := countArgs fidt (· = some f)

/-- The blocks, when there are `refs f` references to each block `f`; those of `pending` are acquired and not referred to,
those of `fresh` are referred to once and have no stream. -/
structure Counted (files : Files) (refs : FcbPtr → Nat) (pending fresh : List FcbPtr) : Prop where
  nodup : (files.freelist ++ pending).Nodup
  free : ∀ f, f ∈ files.freelist ∨ f ∈ pending ↔ refs f = 0
  refcount : ∀ f, f ∉ files.freelist → (files.fcb f).refcount = refs f
  closed : ∀ f, (files.fcb f).closed + (if 0 < refs f ∧ f ∉ fresh then 1 else 0) = (files.fcb f).opened
  once : ∀ f ∈ fresh, refs f = 1
  stream : ∀ f, 0 < refs f → f ∉ fresh → (files.fcb f).streamfunc ≠ none

namespace Counted

variable {files files' : Files} {refs refs' : FcbPtr → Nat} {pending fresh : List FcbPtr} {f g : FcbPtr}

theorem notMem_free (h : Counted files refs pending fresh) (hf : 0 < refs f) : f ∉ files.freelist ∧ f ∉ pending := by
  have := (h.free f).not.2 (by omega)
  exact not_or.1 this

/-- One more reference to a block that has some. -/
theorem incref (h : Counted files refs pending fresh) (hf : 0 < refs f) (hfresh : f ∉ fresh)
    (hr : ∀ g, refs' g = refs g + if g = f then 1 else 0) : Counted (files.fcbIncref f) refs' pending fresh := by
  have hother : ∀ {g}, g ≠ f → (files.fcbIncref f).fcb g = files.fcb g := fun hg => Function.update_of_ne hg _ _
  have hself : (files.fcbIncref f).fcb f = { files.fcb f with refcount := (files.fcb f).refcount + 1 } :=
    Function.update_self _ _ _
  have hother' : ∀ {g}, g ≠ f → refs' g = refs g := fun {g} hg => by rw [hr, if_neg hg, Nat.add_zero]
  have hself' : refs' f = refs f + 1 := by rw [hr, if_pos rfl]
  refine ⟨h.nodup, fun g => ?_, fun g hg => ?_, fun g => ?_, fun g hg => ?_, fun g hg hgn => ?_⟩
  · refine (h.free g).trans ?_
    by_cases hgf : g = f
    · subst hgf
      omega
    · rw [hother' hgf]
  · by_cases hgf : g = f
    · subst hgf
      rw [hself, hself', h.refcount g hg]
    · rw [hother hgf, hother' hgf]
      exact h.refcount g hg
  · by_cases hgf : g = f
    · subst hgf
      have := h.closed g
      rw [if_pos ⟨hf, hfresh⟩] at this
      rw [hself, if_pos ⟨by omega, hfresh⟩]
      exact this
    · rw [hother hgf, hother' hgf]
      exact h.closed g
  · rw [hother' (by rintro rfl; exact hfresh hg)]
    exact h.once g hg
  · by_cases hgf : g = f
    · subst hgf
      rw [hself]
      exact h.stream g hf hfresh
    · rw [hother hgf]
      exact h.stream g (by rwa [← hother' hgf]) hgn

/-- The list, when `f` goes back to it. -/
theorem freelist_append (h : Counted files refs [] fresh) (hf : 0 < refs f) (hother : ∀ {g}, g ≠ f → refs' g = refs g)
    (h0 : refs' f = 0) : (files.freelist ++ [f] ++ []).Nodup ∧
      ∀ g, g ∈ files.freelist ++ [f] ∨ g ∈ ([] : List FcbPtr) ↔ refs' g = 0 := by
  constructor
  · have hn := h.nodup
    rw [List.append_nil] at hn ⊢
    exact List.Nodup.append hn (List.nodup_singleton f) (by simpa using (h.notMem_free hf).1)
  · intro g
    simp only [List.mem_append, List.mem_singleton, List.not_mem_nil, or_false]
    by_cases hgf : g = f
    · subst hgf
      simp [h0]
    · rw [hother hgf, ← h.free g]
      simp [hgf]

/-- One reference fewer; the last one closes the stream. -/
theorem decref (h : Counted files refs [] []) (hf : 0 < refs f) (hr : ∀ g, refs g = refs' g + if g = f then 1 else 0) :
    Counted (files.fcbDecref f).2 refs' [] [] := by
  have hnot := (h.notMem_free hf).1
  have hother' : ∀ {g}, g ≠ f → refs' g = refs g := fun {g} hg => by rw [hr g, if_neg hg, Nat.add_zero]
  have hself' : refs f = refs' f + 1 := by rw [hr, if_pos rfl]
  have hcount := h.refcount f hnot
  have hclosed := h.closed f
  rw [if_pos ⟨hf, List.not_mem_nil⟩] at hclosed
  unfold Files.fcbDecref
  simp only [Files.setFcb, Function.update_self]
  by_cases hlast : (files.fcb f).refcount - 1 = 0
  · -- the block goes back to the list
    have h0 : refs' f = 0 := by omega
    obtain ⟨hnodup, hfree⟩ := h.freelist_append hf hother' h0
    rw [if_pos hlast]
    refine ⟨hnodup, hfree, fun g hg => ?_, fun g => ?_, fun g hg => (by cases hg), fun g hg hgn => ?_⟩
    · simp only [Files.releaseFcb, List.mem_append, List.mem_singleton, not_or] at hg
      simp only [Files.releaseFcb, Function.update_of_ne hg.2]
      rw [hother' hg.2]
      exact h.refcount g hg.1
    · by_cases hgf : g = f
      · subst hgf
        simp [Files.releaseFcb, h0, hclosed]
      · simp only [Files.releaseFcb, Function.update_of_ne hgf]
        rw [hother' hgf]
        exact h.closed g
    · have hgf : g ≠ f := by
        rintro rfl
        omega
      simp only [Files.releaseFcb, Function.update_of_ne hgf]
      exact h.stream g (by rwa [← hother' hgf]) hgn
  · rw [if_neg hlast]
    refine ⟨h.nodup, fun g => ?_, fun g hg => ?_, fun g => ?_, fun g hg => (by cases hg), fun g hg hgn => ?_⟩
    · refine (h.free g).trans ?_
      by_cases hgf : g = f
      · subst hgf
        omega
      · rw [hother' hgf]
    · by_cases hgf : g = f
      · subst hgf
        simp only [Function.update_self]
        omega
      · simp only [Function.update_of_ne hgf]
        rw [hother' hgf]
        exact h.refcount g hg
    · by_cases hgf : g = f
      · subst hgf
        simp only [Function.update_self]
        rw [if_pos ⟨by omega, List.not_mem_nil⟩]
        exact hclosed
      · simp only [Function.update_of_ne hgf]
        rw [hother' hgf]
        exact h.closed g
    · by_cases hgf : g = f
      · subst hgf
        simp only [Function.update_self]
        exact h.stream g hf hgn
      · simp only [Function.update_of_ne hgf]
        exact h.stream g (by rwa [← hother' hgf]) hgn

/-! ## Reserving -/

theorem perm {l : List FcbPtr} (h : Counted files refs pending fresh) (hl : pending.Perm l) :
    Counted files refs l fresh :=
  ⟨(hl.append_left files.freelist).nodup_iff.1 h.nodup, fun f => by rw [← hl.mem_iff]; exact h.free f, h.refcount, h.closed,
    h.once, h.stream⟩

theorem acquire (h : Counted files refs pending fresh) (ha : files.acquireFcb = some (f, files')) :
    Counted files' refs (f :: pending) fresh := by
  unfold Files.acquireFcb at ha
  cases hl : files.freelist with
  | nil => simp [hl] at ha
  | cons a rest =>
    simp only [hl, Option.some.injEq, Prod.mk.injEq] at ha
    obtain ⟨rfl, rfl⟩ := ha
    have hn := h.nodup
    have hfree := h.free
    rw [hl] at hn hfree
    obtain ⟨hnot, hn'⟩ := List.nodup_cons.1 hn
    have hother : ∀ {g}, g ≠ a → Function.update files.fcb a { files.fcb a with refcount := 0 } g = files.fcb g :=
      fun hg => Function.update_of_ne hg _ _
    have h0 : refs a = 0 := (hfree a).1 (.inl List.mem_cons_self)
    refine ⟨?_, fun g => ?_, fun g hg => ?_, fun g => ?_, h.once, fun g hg hgn => ?_⟩
    · exact List.perm_middle.nodup_iff.2 hn
    · rw [← hfree g]
      simp only [Files.setFcb, List.mem_cons]
      tauto
    · by_cases hga : g = a
      · subst hga
        simp [Files.setFcb, h0]
      · simp only [Files.setFcb, hother hga]
        exact h.refcount g (by rw [hl, List.mem_cons, not_or]; exact ⟨hga, hg⟩)
    · by_cases hga : g = a
      · subst hga
        simpa [Files.setFcb] using h.closed g
      · simp only [Files.setFcb, hother hga]
        exact h.closed g
    · have hga : g ≠ a := by
        rintro rfl
        omega
      simp only [Files.setFcb, hother hga]
      exact h.stream g hg hgn

theorem release (h : Counted files refs (f :: pending) fresh) : Counted (files.releaseFcb f) refs pending fresh := by
  refine ⟨?_, fun g => ?_, fun g hg => ?_, h.closed, h.once, h.stream⟩
  · show (files.freelist ++ [f] ++ pending).Nodup
    rw [List.append_assoc]
    exact h.nodup
  · rw [← h.free g]
    simp only [Files.releaseFcb, List.mem_append, List.mem_cons]
    tauto
  · simp only [Files.releaseFcb, List.mem_append, not_or] at hg
    exact h.refcount g hg.1

/-- The first reference to an acquired block. -/
theorem bind (h : Counted files refs (f :: pending) fresh) (hr : ∀ g, refs' g = refs g + if g = f then 1 else 0) :
    Counted (files.fcbIncref f) refs' pending (f :: fresh) := by
  have h0 : refs f = 0 := (h.free f).1 (.inr List.mem_cons_self)
  have hnf : f ∉ fresh := fun hm => by
    have := h.once f hm
    omega
  have hn : f ∉ files.freelist ++ pending ∧ (files.freelist ++ pending).Nodup :=
    List.nodup_cons.1 (List.perm_middle.nodup_iff.1 h.nodup)
  obtain ⟨hfree, hpend⟩ := not_or.1 (List.mem_append.not.1 hn.1)
  have hother : ∀ {g}, g ≠ f → (files.fcbIncref f).fcb g = files.fcb g := fun hg => Function.update_of_ne hg _ _
  have hself : (files.fcbIncref f).fcb f = { files.fcb f with refcount := (files.fcb f).refcount + 1 } :=
    Function.update_self _ _ _
  have hother' : ∀ {g}, g ≠ f → refs' g = refs g := fun {g} hg => by rw [hr, if_neg hg, Nat.add_zero]
  have hself' : refs' f = 1 := by rw [hr, if_pos rfl, h0]
  refine ⟨hn.2, fun g => ?_, fun g hg => ?_, fun g => ?_, fun g hg => ?_, fun g hg hgn => ?_⟩
  · by_cases hgf : g = f
    · subst hgf
      rw [hself']
      exact ⟨fun hm => absurd hm (not_or.2 ⟨hfree, hpend⟩), fun hm => by cases hm⟩
    · rw [hother' hgf, ← h.free g, List.mem_cons, or_iff_right hgf]
      rfl
  · by_cases hgf : g = f
    · subst hgf
      rw [hself, hself', h.refcount g hg, h0]
    · rw [hother hgf, hother' hgf]
      exact h.refcount g hg
  · by_cases hgf : g = f
    · subst hgf
      have := h.closed g
      rw [h0] at this
      simpa [hself] using this
    · simpa [hother hgf, hother' hgf, hgf] using h.closed g
  · rcases List.mem_cons.1 hg with rfl | hm
    · exact hself'
    · rw [hother' (by rintro rfl; exact hnf hm)]
      exact h.once g hm
  · obtain ⟨hgf, hgn⟩ := not_or.1 (List.mem_cons.not.1 hgn)
    rw [hother hgf]
    exact h.stream g (by rwa [← hother' hgf]) hgn

theorem attach (h : Counted files refs pending (f :: fresh)) (hf : f ∉ fresh) (ops : FileOps) :
    Counted (files.attach f ops) refs pending fresh := by
  have h1 := h.once f List.mem_cons_self
  have hother : ∀ {g}, g ≠ f → (files.attach f ops).fcb g = files.fcb g := fun hg => Function.update_of_ne hg _ _
  refine ⟨h.nodup, h.free, fun g hg => ?_, fun g => ?_, fun g hg => h.once g (List.mem_cons_of_mem f hg),
    fun g hg hgn => ?_⟩
  · by_cases hgf : g = f
    · subst hgf
      simpa [Files.attach, Files.setFcb] using h.refcount g hg
    · rw [hother hgf]
      exact h.refcount g hg
  · have hc := h.closed g
    by_cases hgf : g = f
    · subst hgf
      rw [if_neg (by simp)] at hc
      rw [if_pos ⟨by omega, hf⟩]
      simp only [Files.attach, Files.setFcb, Function.update_self]
      omega
    · rw [hother hgf, ← hc]
      simp [hgf]
  · by_cases hgf : g = f
    · subst hgf
      simp [Files.attach, Files.setFcb]
    · rw [hother hgf]
      exact h.stream g hg (by simpa [hgf] using hgn)

/-- A block without a stream loses its reference, and goes back to the list. -/
theorem unreserve (h : Counted files refs [] [f]) (hr : ∀ g, refs g = refs' g + if g = f then 1 else 0) :
    Counted (files.releaseFcb f) refs' [] [] := by
  have h1 := h.once f List.mem_cons_self
  have hother' : ∀ {g}, g ≠ f → refs' g = refs g := fun {g} hg => by rw [hr g, if_neg hg, Nat.add_zero]
  have h0 : refs' f = 0 := by
    have := hr f
    rw [if_pos rfl] at this
    omega
  obtain ⟨hnodup, hfree⟩ := h.freelist_append (by omega) hother' h0
  refine ⟨hnodup, hfree, fun g hg => ?_, fun g => ?_, fun g hg => (by cases hg), fun g hg _ => ?_⟩
  · simp only [Files.releaseFcb, List.mem_append, List.mem_singleton, not_or] at hg
    rw [hother' hg.2]
    exact h.refcount g hg.1
  · have hc := h.closed g
    by_cases hgf : g = f
    · subst hgf
      rw [if_neg (by simp)] at hc
      simpa [Files.releaseFcb, h0] using hc
    · rw [hother' hgf]
      simpa [Files.releaseFcb, hgf] using hc
  · have hgf : g ≠ f := by
      rintro rfl
      omega
    exact h.stream g (by rwa [← hother' hgf]) (by simpa using hgf)

/-- The order of the blocks without a stream does not matter. -/
theorem freshen {l : List FcbPtr} (h : Counted files refs pending fresh) (hl : ∀ a, a ∈ fresh ↔ a ∈ l) :
    Counted files refs pending l :=
  ⟨h.nodup, h.free, h.refcount, fun g => by simpa only [hl] using h.closed g, fun g hg => h.once g ((hl g).2 hg),
    fun g hg hgn => h.stream g hg ((hl g).not.2 hgn)⟩

theorem releaseAll : ∀ (l : List FcbPtr) (files : Files), Counted files refs l fresh →
    Counted (l.foldl Files.releaseFcb files) refs [] fresh
  | [], _, h => h
  | f :: l, files, h => releaseAll l (files.releaseFcb f) h.release

/-- The second loop of `FCB_reserve` acquires all the blocks, or gives back those that it has acquired. -/
theorem acquireMany : ∀ (n : Nat) {acc : List FcbPtr} {files : Files}, Counted files refs acc fresh →
    (∀ files', Files.acquireMany n acc files = (none, files') → Counted files' refs [] fresh) ∧
    ∀ l files', Files.acquireMany n acc files = (some l, files') →
      l.length = acc.length + n ∧ Counted files' refs l fresh := by
  intro n
  induction n with
  | zero =>
    intro acc files h
    refine ⟨fun files' he => by simp [Files.acquireMany] at he, fun l files' he => ?_⟩
    simp only [Files.acquireMany, Prod.mk.injEq, Option.some.injEq] at he
    obtain ⟨rfl, rfl⟩ := he
    exact ⟨List.length_reverse, h.perm acc.reverse_perm.symm⟩
  | succ n ih =>
    intro acc files h
    cases ha : files.acquireFcb with
    | none =>
      refine ⟨fun files' he => ?_, fun l files' he => by simp [Files.acquireMany, ha] at he⟩
      simp only [Files.acquireMany, ha, Prod.mk.injEq, true_and] at he
      exact he ▸ releaseAll acc files h
    | some r =>
      obtain ⟨hnone, hsome⟩ := ih (h.acquire (f := r.1) (by rw [ha]))
      refine ⟨fun files' he => hnone files' ?_, fun l files' he => ?_⟩
      · simpa only [Files.acquireMany, ha] using he
      · obtain ⟨hlen, hc⟩ := hsome l files' (by simpa only [Files.acquireMany, ha] using he)
        refine ⟨?_, hc⟩
        rw [hlen, List.length_cons]
        omega

end Counted

/-! ## File tables -/

theorem slots_update (fidt : Fidt) (i : Fid) (x : Option FcbPtr) (g : FcbPtr) :
    slots (Function.update fidt i x) g + (if fidt i = some g then 1 else 0) =
      slots fidt g + (if x = some g then 1 else 0) := by
  simpa [slots] using countArgs_update fidt (· = some g) i x

theorem slots_pos {fidt : Fidt} {i : Fid} {f : FcbPtr} (h : fidt i = some f) : 0 < slots fidt f :=
  countArgs_pos.2 ⟨i, by simpa using h⟩

/-- The free fids that the first loop of `FCB_reserve` finds. -/
theorem findFids_some {fidt : Fidt} : ∀ {num f : Nat} {l : List Fid}, findFids fidt f num = some l →
    l.length = num ∧ l.Nodup ∧ ∀ i ∈ l, f ≤ i.val ∧ fidt i = none := by
  intro num
  induction num with
  | zero =>
    intro f l h
    cases h
    simp
  | succ num ih =>
    intro f l h
    simp only [findFids] at h
    cases hg : nextFree fidt f with
    | none => simp [hg] at h
    | some g =>
      simp only [hg] at h
      obtain ⟨rest, hr, rfl⟩ := Option.map_eq_some_iff.1 h
      obtain ⟨hlen, hnd, hrest⟩ := ih hr
      have hfree : f ≤ g.val ∧ fidt g = none := by simpa using List.find?_some hg
      refine ⟨by rw [List.length_cons, hlen], List.nodup_cons.2 ⟨fun hm => ?_, hnd⟩, fun i hi => ?_⟩
      · have := (hrest g hm).1
        omega
      · rcases List.mem_cons.1 hi with rfl | hi
        · exact hfree
        · have := hrest i hi
          exact ⟨by omega, this.2⟩

namespace View

variable {v v' : View} {o : FcbPtr → Nat} {i : Fid} {f : FcbPtr} {fresh : List FcbPtr}

/-- The references of the caller, with those that others hold. -/
def refs (v : View) (o : FcbPtr → Nat) (f : FcbPtr) : Nat := slots v.fidt f + o f

/-- The blocks are right, and no system call is at work on them. -/
def Kept (v : View) (o : FcbPtr → Nat) : Prop := Counted v.files (v.refs o) [] []

/-- A slot loses its stream. -/
theorem Kept.drop (h : v.Kept o) (hi : v.fidt i = some f) :
    Kept ⟨Function.update v.fidt i none, (v.files.fcbDecref f).2⟩ o := by
  refine Counted.decref h (Nat.add_pos_left (slots_pos hi) _) fun g => ?_
  have := slots_update v.fidt i none g
  rw [hi] at this
  simp only [refs, Option.some.injEq, eq_comm (a := f), reduceCtorEq, if_false] at this ⊢
  omega

/-- A free slot gets a stream that is already in use. -/
theorem Kept.put (h : v.Kept o) (hi : v.fidt i = none) (hf : 0 < v.refs o f) :
    Kept ⟨Function.update v.fidt i (some f), v.files.fcbIncref f⟩ o := by
  refine Counted.incref h hf List.not_mem_nil fun g => ?_
  have := slots_update v.fidt i (some f) g
  rw [hi] at this
  simp only [refs, Option.some.injEq, eq_comm (a := f), reduceCtorEq, if_false] at this ⊢
  omega

theorem sysClose_kept (h : v.Kept o) (fd retval : Int) : (v.sysClose fd retval).2.Kept o := by
  unfold sysClose
  split
  · split
    · exact h
    · rename_i hi
      exact h.drop hi
  · exact h

theorem sysDup2_kept (h : v.Kept o) (oldfd newfd : Int) : (v.sysDup2 oldfd newfd).2.Kept o := by
  unfold sysDup2
  split
  · rename_i hfd
    dsimp only
    split
    · exact h
    · rename_i old hold
      split
      · rename_i hne
        cases hnew : v.fidt ⟨newfd.toNat, hfd.2.2⟩ with
        | none => exact h.put hnew (Nat.add_pos_left (slots_pos hold) _)
        | some new =>
          rw [hnew] at hne
          have hslot : (⟨oldfd.toNat, hfd.1.2⟩ : Fid) ≠ ⟨newfd.toNat, hfd.2.2⟩ := by
            intro he
            rw [he, hnew] at hold
            exact hne hold.symm
          have hdrop := h.drop hnew
          have hput := hdrop.put (i := ⟨newfd.toNat, hfd.2.2⟩) (f := old) (Function.update_self _ _ _)
            (Nat.add_pos_left (slots_pos ((Function.update_of_ne hslot _ _).trans hold)) _)
          simpa only [Function.update_idem] using hput
      · exact h
  · exact h

/-! ### Reserving -/

/-- The last loop of `FCB_reserve`. -/
theorem bindAll_counted : ∀ {xs : List (Fid × FcbPtr)} {v : View} {fresh : List FcbPtr},
    Counted v.files (v.refs o) (xs.map (·.2)) fresh → (xs.map (·.1)).Nodup → (∀ x ∈ xs, v.fidt x.1 = none) →
    Counted (xs.foldl (fun s x => s.bind x.1 x.2) v).files ((xs.foldl (fun s x => s.bind x.1 x.2) v).refs o) []
        ((xs.map (·.2)).reverse ++ fresh) ∧
      (∀ i, i ∉ xs.map (·.1) → (xs.foldl (fun s x => s.bind x.1 x.2) v).fidt i = v.fidt i) ∧
      ∀ x ∈ xs, (xs.foldl (fun s x => s.bind x.1 x.2) v).fidt x.1 = some x.2 := by
  intro xs
  induction xs with
  | nil => exact fun h _ _ => ⟨h, fun _ _ => rfl, fun _ hx => by cases hx⟩
  | cons x xs ih =>
    intro v fresh h hnd hfree
    obtain ⟨hx, hnd⟩ := List.nodup_cons.1 hnd
    have hrefs : ∀ g, (v.bind x.1 x.2).refs o g = v.refs o g + if g = x.2 then 1 else 0 := by
      intro g
      have := slots_update v.fidt x.1 (some x.2) g
      rw [hfree x List.mem_cons_self] at this
      simp only [refs, bind, Option.some.injEq, eq_comm (a := x.2), reduceCtorEq, if_false] at this ⊢
      omega
    have hne : ∀ y ∈ xs, y.1 ≠ x.1 := fun y hy he => hx (List.mem_map.2 ⟨y, hy, he⟩)
    obtain ⟨hc, hother, hslot⟩ := ih (v := v.bind x.1 x.2) (h.bind hrefs) hnd fun y hy =>
      (Function.update_of_ne (hne y hy) _ _).trans (hfree y (List.mem_cons_of_mem x hy))
    refine ⟨?_, fun i hi => ?_, fun y hy => ?_⟩
    · simpa using hc
    · obtain ⟨hix, hi⟩ := not_or.1 (List.mem_cons.not.1 hi)
      exact (hother i hi).trans (Function.update_of_ne hix _ _)
    · rcases List.mem_cons.1 hy with rfl | hy
      · exact (hother y.1 hx).trans (Function.update_self _ _ _)
      · exact hslot y hy

/-- `FCB_reserve` reserves `num` slots with new blocks, or changes no slot. -/
theorem fcbReserve_counted (h : v.Kept o) (num : Nat) :
    (∀ v', v.fcbReserve num = (none, v') → v'.fidt = v.fidt ∧ v'.Kept o) ∧
    ∀ xs v', v.fcbReserve num = (some xs, v') →
      xs.length = num ∧ (xs.map (·.2)).Nodup ∧ Counted v'.files (v'.refs o) [] (xs.map (·.2)).reverse ∧
        ∀ x ∈ xs, v'.fidt x.1 = some x.2 := by
  unfold fcbReserve
  cases hfids : findFids v.fidt 0 num with
  | none =>
    refine ⟨fun v' he => ?_, fun xs v' he => by cases he⟩
    cases he
    exact ⟨rfl, h⟩
  | some fids =>
    obtain ⟨hlen, hnd, hfree⟩ := findFids_some hfids
    obtain ⟨hnone, hsome⟩ := Counted.acquireMany num h
    dsimp only
    cases ha : v.files.acquireMany num [] with
    | mk r files =>
      cases r with
      | none =>
        refine ⟨fun v' he => ?_, fun xs v' he => by cases he⟩
        cases he
        exact ⟨rfl, hnone files ha⟩
      | some fcbs =>
        obtain ⟨hlen', hc⟩ := hsome fcbs files ha
        rw [List.length_nil, Nat.zero_add] at hlen'
        refine ⟨fun v' he => (by cases he), fun xs v' he => ?_⟩
        cases he
        have hfst : (fids.zip fcbs).map (·.1) = fids := List.map_fst_zip (by omega)
        have hsnd : (fids.zip fcbs).map (·.2) = fcbs := List.map_snd_zip (by omega)
        have hfcbs : fcbs.Nodup := (List.nodup_append.1 hc.nodup).2.1
        obtain ⟨hb, -, hslot⟩ := @bindAll_counted o (fids.zip fcbs) ⟨v.fidt, files⟩ []
          (by rw [hsnd]; exact hc) (by rw [hfst]; exact hnd)
          fun x hx => (hfree x.1 (hfst ▸ List.mem_map_of_mem hx)).2
        refine ⟨?_, by rw [hsnd]; exact hfcbs, by simpa using hb, hslot⟩
        rw [List.length_zip]
        omega

/-- `FCB_reserve` of one slot. -/
theorem reserve_one (h : v.Kept o) :
    (∃ v', v.fcbReserve 1 = (none, v') ∧ v'.fidt = v.fidt ∧ v'.Kept o) ∨
    ∃ i f v', v.fcbReserve 1 = (some [(i, f)], v') ∧ v'.fidt i = some f ∧ Counted v'.files (v'.refs o) [] [f] := by
  obtain ⟨hnone, hsome⟩ := fcbReserve_counted h 1
  cases hr : v.fcbReserve 1 with
  | mk r v' =>
    cases r with
    | none => exact .inl ⟨v', rfl, hnone v' hr⟩
    | some xs =>
      obtain ⟨hlen, -, hc, hslot⟩ := hsome xs v' hr
      obtain ⟨x, rfl⟩ := List.length_eq_one_iff.1 hlen
      exact .inr ⟨x.1, x.2, v', rfl, hslot x (List.mem_singleton_self x), hc⟩

theorem openOne_kept (h : v.Kept o) (ops : FileOps) : (v.openOne ops).2.Kept o := by
  obtain ⟨v', hr, -, hk⟩ | ⟨i, f, v', hr, -, hc⟩ := reserve_one h
  · simpa only [openOne, hr] using hk
  · have hk : Kept ⟨v'.fidt, v'.files.attach f ops⟩ o := hc.attach List.not_mem_nil ops
    simpa only [openOne, hr] using hk

theorem sysPipe_kept (h : v.Kept o) : v.sysPipe.2.Kept o := by
  obtain ⟨hnone, hsome⟩ := fcbReserve_counted h 2
  cases hr : v.fcbReserve 2 with
  | mk r v' =>
    cases r with
    | none => simpa only [sysPipe, hr] using (hnone v' hr).2
    | some xs =>
      obtain ⟨hlen, hnd, hc, -⟩ := hsome xs v' hr
      obtain ⟨x, y, rfl⟩ := List.length_eq_two.1 hlen
      have hxy : x.2 ∉ [y.2] := (List.nodup_cons.1 hnd).1
      have hc : Counted v'.files (v'.refs o) [] [x.2, y.2] := hc.freshen fun a => List.mem_reverse
      have hk : Kept ⟨v'.fidt, (v'.files.attach x.2 .pipeReader).attach y.2 .pipeWriter⟩ o :=
        (hc.attach hxy .pipeReader).attach List.not_mem_nil .pipeWriter
      simpa only [sysPipe, hr] using hk

theorem openStream_kept (h : v.Kept o) {ops : FileOps} {devnum minor : Nat} {r : Option Fid}
    (he : v.openStream ops devnum minor = some (r, v')) : v'.Kept o := by
  obtain ⟨v₁, hr, -, hk⟩ | ⟨i, f, v₁, hr, hi, hc⟩ := reserve_one h
  · simp only [openStream, hr] at he
    cases he
    exact hk
  · simp only [openStream, hr, fcbUnreserve, hi, if_true] at he
    split at he
    · cases he
      refine hc.unreserve fun g => ?_
      have := slots_update v₁.fidt i none g
      rw [hi] at this
      simp only [refs, Option.some.injEq, eq_comm (a := f), reduceCtorEq, if_false] at this ⊢
      omega
    · cases he
      exact hc.attach List.not_mem_nil ops

/-! ### Exec and exit -/

/-- The new process gets the streams of its parent, which are in use. -/
theorem inherit_kept {parent : Fidt} : ∀ {l : List Fid} {v : View}, v.Kept o → l.Nodup → (∀ i ∈ l, v.fidt i = none) →
    (∀ i f, parent i = some f → 0 < o f) → (v.inherit parent l).Kept o := by
  intro l
  induction l with
  | nil => exact fun h _ _ _ => h
  | cons i l ih =>
    intro v h hnd hfree hpar
    obtain ⟨hi, hnd⟩ := List.nodup_cons.1 hnd
    have hfree' : ∀ x : Option FcbPtr, ∀ j ∈ l, Function.update v.fidt i x j = none := fun x j hj =>
      (Function.update_of_ne (by rintro rfl; exact hi hj) _ _).trans (hfree j (List.mem_cons_of_mem i hj))
    have hnone := hfree i List.mem_cons_self
    simp only [inherit]
    cases hp : parent i with
    | none =>
      refine ih ?_ hnd (hfree' none) hpar
      have : Function.update v.fidt i none = v.fidt := by rw [← hnone, Function.update_eq_self]
      rw [this]
      exact h
    | some f => exact ih (h.put hnone (Nat.add_pos_right _ (hpar i f hp))) hnd (hfree' _) hpar

/-- The last thread of a process drops all the slots of `l`. -/
theorem cleanup_kept : ∀ {l : List Fid} {v : View}, v.Kept o → (v.cleanup l).Kept o := by
  intro l
  induction l with
  | nil => exact fun h => h
  | cons a l ih =>
    intro v h
    simp only [cleanup]
    cases ha : v.fidt a with
    | none => exact ih h
    | some f => exact ih (h.drop ha)

end View

/-- The system calls on a file table keep the references counted. -/
theorem FileCall.apply_kept {v v' : View} {o : FcbPtr → Nat} {c : FileCall} (h : v.Kept o) (he : c.apply v = some v') :
    v'.Kept o := by
  have hstream : ∀ {ops devnum minor}, (v.openStream ops devnum minor).map (·.2) = some v' → v'.Kept o := by
    intro ops devnum minor he
    obtain ⟨r, hr, rfl⟩ := Option.map_eq_some_iff.1 he
    exact View.openStream_kept h hr
  cases c with
  | close fd retval => cases he; exact View.sysClose_kept h fd retval
  | dup2 oldfd newfd => cases he; exact View.sysDup2_kept h oldfd newfd
  | pipe => cases he; exact View.sysPipe_kept h
  | socket port =>
    cases he
    unfold View.sysSocket
    split
    · exact h
    · exact View.openOne_kept h .socket
  | openInfo => cases he; exact View.openOne_kept h .procInfo
  | openNull devnum => exact hstream he
  | openTerminal devnum termno => exact hstream he

end TinyOS.Streams
