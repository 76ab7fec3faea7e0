import TinyOS.Programs.Pipelines

/-!
# Runs of the shell

- `exists_runs`: `process_line` runs to its end if there are enough fids, blocks and PCBs;
- `processLine_keeps_fidt`: after a pipeline has been built, the shell's file table is what it was before;
- `processLine_pipe_ends`: the write end of a pipe is open in one child through one fid; its read end is open in two.
-/

namespace TinyOS.Shell

open Interference Streams
open Proc (Pid PidState initPid)

variable {p : Pid} {F T : Fidt} {h : List Event} {s s' t u : State} {f f₀ f₁ : FcbPtr} {i j r : Fid} {calm : Bool}
  {n m : ℕ} {commands argv : List String} {pipe : Int × Int}

/-! ## Room for the next calls -/

/-- There are `n` free blocks and `m` free PCBs. -/
structure Room (p : Pid) (F T : Fidt) (n m : ℕ) (h : List Event) (s : State) : Prop where
  keeps : Keeps p F T h s
  blocks : n ≤ s.files.freelist.length
  pcbs : ∃ cs : List Pid, cs.Nodup ∧ cs.length = m ∧ ∀ c ∈ cs, 1 < c.val ∧ s.pstate c = .free

theorem openNull_feasible {k : Option Fid → Process} (hfids : 1 ≤ (freeFrom T 0).card)
    (hk : ∀ i f, T i = none →
      (world p calm).Feasible (Enough calm) (Room p F (Function.update T i (some f)) n m) (k (some i))) :
    (world p calm).Feasible (Enough calm) (Room p F T (n + 1) m) (.call .openNull k) := by
  refine .call (fun r h s => ∃ i f, r = some i ∧ T i = none ∧ Room p F (Function.update T i (some f)) n m h s)
    (fun h t hR => ?_) fun r h s hR => ?_
  · have hok : Enough calm t .openNull := Nat.le_trans (Nat.le_add_left 1 n) hR.blocks
    have hfids' : 1 ≤ (freeFrom (t.view p).fidt 0).card := by
      rw [show (t.view p).fidt = T from hR.keeps.fidt]
      exact hfids
    obtain ⟨i, f, v, hv, -, -, hdrop⟩ := View.sysOpenNull_some hfids' hok
    have hd : does p t .openNull (some i) (t.setView p v) := ⟨v, hv, rfl⟩
    obtain ⟨i', f', hi', hT, hk⟩ := hR.keeps.openNull hfids hok hd
    refine ⟨hok, some i, t.setView p v, hd, i', f', hi', hT, hk, ?_, hR.pcbs⟩
    show n ≤ v.files.freelist.length
    rw [hdrop, List.length_drop]
    exact Nat.le_sub_of_add_le hR.blocks
  · obtain ⟨i, f, rfl, hi, hR⟩ := hR
    exact hk i f hi h s hR

theorem dup2_feasible {k : Int → Process} (hi : T i = some f)
    (hk : ∀ r, (world p calm).Feasible (Enough calm) (Room p F (Function.update T j (some f)) n m) (k r)) :
    (world p calm).Feasible (Enough calm) (Room p F T n m) (.call (.dup2 i.val j.val) k) := by
  refine .call _ (fun h t hR => ?_) hk
  have hd : does p t (.dup2 i.val j.val) ((t.view p).sysDup2 i.val j.val).1
    (t.setView p ((t.view p).sysDup2 i.val j.val).2) := ⟨rfl, rfl⟩
  exact ⟨trivial, _, _, hd, hR.keeps.dup2 hi hd, Nat.le_trans hR.blocks ((t.view p).length_sysDup2 i.val j.val), hR.pcbs⟩

theorem close_feasible {k : Int → Process}
    (hk : ∀ r, (world p calm).Feasible (Enough calm) (Room p F (Function.update T i none) n m) (k r)) :
    (world p calm).Feasible (Enough calm) (Room p F T n m) (.call (.close i.val) k) := by
  refine .call _ (fun h t hR => ?_) hk
  have hd : does p t (.close i.val) ((t.view p).sysClose i.val 0).1 (t.setView p ((t.view p).sysClose i.val 0).2) :=
    ⟨0, rfl, rfl⟩
  exact ⟨trivial, _, _, hd, hR.keeps.close hd, Nat.le_trans hR.blocks ((t.view p).length_sysClose i.val 0), hR.pcbs⟩

theorem pipe_feasible {k : Option (Fid × Fid) → Process} (hF : ∀ i f, F i = some f → ∃ j, T j = some f)
    (hfids : 2 ≤ (freeFrom T 0).card)
    (hk : ∀ i j f g, i ≠ j → T i = none → T j = none → (world p calm).Feasible (Enough calm)
      (Room p F (Function.update (Function.update T i (some f)) j (some g)) n m) (k (some (i, j)))) :
    (world p calm).Feasible (Enough calm) (Room p F T (n + 2) m) (.call .pipe k) := by
  refine .call (fun r h s => ∃ i j f g, r = some (i, j) ∧ (i ≠ j ∧ T i = none ∧ T j = none) ∧
      Room p F (Function.update (Function.update T i (some f)) j (some g)) n m h s)
    (fun h t hR => ?_) fun r h s hR => ?_
  · have hok : Enough calm t .pipe := Nat.le_trans (Nat.le_add_left 2 n) hR.blocks
    have hfids' : 2 ≤ (freeFrom (t.view p).fidt 0).card := by
      rw [show (t.view p).fidt = T from hR.keeps.fidt]
      exact hfids
    have hnd : (t.view p).files.freelist.Nodup := by
      have := hR.keeps.inv.counted.nodup
      rwa [List.append_nil] at this
    obtain ⟨i, j, f, g, v, hv, -, -, -, hdrop⟩ := View.sysPipe_some hfids' hok hnd
    have hd : does p t .pipe (t.view p).sysPipe.1 (t.setView p (t.view p).sysPipe.2) := ⟨rfl, rfl⟩
    obtain ⟨i, j, f, g, hr, hij, -, -, -, hk⟩ := hR.keeps.pipe hF hfids hok hd
    refine ⟨hok, _, _, hd, i, j, f, g, hr, hij, hk, ?_, hR.pcbs⟩
    show n ≤ (t.view p).sysPipe.2.files.freelist.length
    rw [hv, hdrop, List.length_drop]
    exact Nat.le_sub_of_add_le hR.blocks
  · obtain ⟨i, j, f, g, rfl, ⟨hij, hi, hj⟩, hR⟩ := hR
    exact hk i j f g hij hi hj h s hR

theorem exec_feasible {frag : List String} {k : Option Pid → Process}
    (hk : ∀ c, (world p calm).Feasible (Enough calm) (Room p F T n m) (k c)) :
    (world p calm).Feasible (Enough calm) (Room p F T n (m + 1)) (.call (.exec frag) k) := by
  refine .call _ (fun h t hR => ?_) hk
  obtain ⟨cs, hnd, hlen, hfree⟩ := hR.pcbs
  obtain ⟨c, cs, rfl⟩ := List.exists_cons_of_length_eq_add_one hlen
  obtain ⟨hc1, hc⟩ := hfree c List.mem_cons_self
  have he : ∃ u, t.sysExec p c = some u ∧ u.files.freelist = t.files.freelist ∧
      u.pstate = Function.update t.pstate c .alive := by
    refine ⟨_, if_pos ⟨hc, hR.keeps.alive⟩, ?_⟩
    rw [if_neg (Nat.not_le.2 hc1)]
    exact ⟨View.inherit_freelist _ _ _, rfl⟩
  obtain ⟨u, hu, hfl, hps⟩ := he
  have hd : does p t (.exec frag) (some c) u := ⟨hc1, hu⟩
  refine ⟨fun _ => ⟨c, hc1, hc⟩, some c, u, hd, hR.keeps.exec hd, by rw [hfl]; exact hR.blocks, cs,
    (List.nodup_cons.1 hnd).2, Nat.succ.inj hlen, fun c' hc' => ?_⟩
  have hne : c' ≠ c := by
    rintro rfl
    exact (List.nodup_cons.1 hnd).1 hc'
  rw [hps, Function.update_of_ne hne]
  exact hfree c' (List.mem_cons_of_mem c hc')

/-! ## The pipeline -/

theorem construct_last_feasible {frag : List String} {child : List (Option Pid)} {x y : FcbPtr}
    (hS : Saved F i j f₀ f₁) :
    (world p calm).Feasible (Enough calm) (Room p F (table F i j (some x) (some y)) n (m + 1))
      (construct i.val j.val [frag] pipe child) :=
  dup2_feasible (j := stdout) hS.table_saveout fun _ => close_feasible fun _ => exec_feasible fun _ =>
    dup2_feasible (j := stdin) hS.table_savein fun _ => close_feasible fun _ => .ret

theorem construct_feasible {child : List (Option Pid)} {x y : FcbPtr} (hS : Saved F i j f₀ f₁)
    (hfree : 4 ≤ (freeFrom F 0).card) (frag : List String) (frags : List (List String)) :
    (world p calm).Feasible (Enough calm)
      (Room p F (table F i j (some x) (some y)) (2 * frags.length) (frags.length + 1))
      (construct i.val j.val (frag :: frags) pipe child) := by
  induction frags generalizing frag pipe child x y with
  | nil => exact construct_last_feasible hS
  | cons next frags ih =>
    refine pipe_feasible (fun k f hk => hS.exists_slot k hk) (hS.card_free hfree) fun r w f g hrw hr hw => ?_
    obtain ⟨hr0, hr1⟩ := Saved.slot_ne hr
    obtain ⟨hw0, hw1⟩ := Saved.slot_ne hw
    refine dup2_feasible (j := stdout) (Function.update_self ..) fun _ => close_feasible fun _ => ?_
    rw [Saved.handed hrw hw hr1 hw1]
    refine exec_feasible fun _ => dup2_feasible (j := stdin) (Function.update_self ..) fun _ => close_feasible fun _ => ?_
    rw [Saved.next hr hr0 hr1]
    exact ih next

theorem savefid_feasible (src : Fid) {k : Int → Process} (hsrc : T src = some f) (hfids : 1 ≤ (freeFrom T 0).card)
    (hk : ∀ i : Fid, T i = none →
      (world p calm).Feasible (Enough calm) (Room p F (Function.update T i (some f)) n m) (k i.val)) :
    (world p calm).Feasible (Enough calm) (Room p F T (n + 1) m) (savefid src.val k) := by
  refine openNull_feasible hfids fun i g hi => dup2_feasible (j := i) (update_slot hsrc hi (some g)) fun _ => ?_
  rw [Function.update_idem]
  exact hk i hi

theorem processLine_feasible (h0 : F stdin = some f₀) (h1 : F stdout = some f₁) (hfree : 4 ≤ (freeFrom F 0).card)
    (hcheck : check commands (fragments argv) = none) :
    (world p calm).Feasible (Enough calm) (Room p F F (2 * (fragments argv).length) (fragments argv).length)
      (processLine commands argv pipe) := by
  obtain ⟨frag, frags, hfrags⟩ := exists_fragment argv
  rw [processLine, hcheck, hfrags, List.length_cons, Nat.mul_succ]
  refine savefid_feasible stdin h0 (by omega) fun a ha => ?_
  refine savefid_feasible stdout (update_slot h1 ha _) (card_update hfree ha) fun b hb => ?_
  have hS := Saved.of_update h0 h1 ha hb
  rw [hS.table_eq]
  exact construct_feasible hS hfree frag frags

/-- `process_line` runs to its end if there are enough blocks and PCBs. -/
theorem exists_runs (calm : Bool) (hs : system.Reaches s) (hp : s.pstate p = .alive) (h0 : s.fidt p stdin ≠ none)
    (h1 : s.fidt p stdout ≠ none) (hfree : 4 ≤ (freeFrom (s.fidt p) 0).card)
    (hcheck : check commands (fragments argv) = none) (hblocks : 2 * (fragments argv).length ≤ s.files.freelist.length)
    (hpcbs : ∃ cs : List Pid, cs.Nodup ∧ cs.length = (fragments argv).length ∧ ∀ c ∈ cs, 1 < c.val ∧ s.pstate c = .free) :
    ∃ h r s', (world p calm).Runs (Enough calm) [] (processLine commands argv pipe) s h r s' := by
  obtain ⟨f₀, h0⟩ := Option.ne_none_iff_exists'.1 h0
  obtain ⟨f₁, h1⟩ := Option.ne_none_iff_exists'.1 h1
  have hk : Keeps p (s.fidt p) (s.fidt p) [] s :=
    ⟨State.reaches_inv hs, hp, rfl, fun e he => absurd he List.not_mem_nil⟩
  exact processLine_feasible h0 h1 hfree hcheck [] s ⟨hk, hblocks, hpcbs⟩

/-! ## Two fragments -/

theorem finRange_two (m : ℕ) : ∃ rest : List (Fin (m + 2)), List.finRange (m + 2) = ⟨0, by omega⟩ :: ⟨1, by omega⟩ :: rest ∧
    rest.length = m := by
  refine ⟨_, by rw [List.finRange_succ, List.finRange_succ]; rfl, ?_⟩
  simp

theorem finRange_files : ∃ rest : List FcbPtr,
    List.finRange maxFiles = ⟨0, by decide⟩ :: ⟨1, by decide⟩ :: rest ∧ rest.length = 65534 := finRange_two 65534

/-- Process 1 opens two null streams. -/
theorem exists_started : ∃ s, system.Reaches s ∧ s.pstate initPid = .alive ∧ s.fidt initPid stdin ≠ none ∧
    s.fidt initPid stdout ≠ none ∧ 4 ≤ (freeFrom (s.fidt initPid) 0).card ∧ 4 ≤ s.files.freelist.length ∧
    ∃ cs : List Pid, cs.Nodup ∧ cs.length = 2 ∧ ∀ c ∈ cs, 1 < c.val ∧ s.pstate c = .free := by
  obtain ⟨rest, hrest, hlen⟩ := finRange_files
  have hrun : ∀ s : State, s.fidt = State.boot.fidt →
      s.files = ⟨fun _ => ⟨0, none, 0, 0⟩, ⟨0, by decide⟩ :: ⟨1, by decide⟩ :: rest⟩ → s.pstate = State.boot.pstate →
      ∃ s', system.run s [.file initPid (.openNull 1), .file initPid (.openNull 1)] = some s' ∧
        s'.pstate = State.boot.pstate ∧ s'.files.freelist = rest ∧ s'.fidt initPid =
          Function.update (Function.update (fun _ => none) stdin (some ⟨0, by decide⟩)) stdout (some ⟨1, by decide⟩) := by
    rintro ⟨ps, fidt, files, calls⟩ rfl rfl rfl
    exact ⟨_, rfl, rfl, rfl, rfl⟩
  obtain ⟨s, hs, hps, hfl, hfidt⟩ := hrun State.boot rfl (congrArg (Files.mk _) hrest) rfl
  refine ⟨s, Lts.reaches_of_run (.init rfl) hs, ?_⟩
  rw [hps, hfl, hfidt, hlen]
  refine ⟨rfl, by decide, by decide, by decide, by decide, [⟨2, by decide⟩, ⟨3, by decide⟩], by decide, rfl, ?_⟩
  intro c hc
  rcases List.mem_pair.1 hc with rfl | rfl
  · exact ⟨by decide, rfl⟩
  · exact ⟨by decide, rfl⟩

/-- Process 1 runs a pipeline of two programs. -/
theorem exists_runs_two (calm : Bool) : ∃ s h r s', system.Reaches s ∧ s.pstate initPid = .alive ∧
    s.fidt initPid stdin ≠ none ∧ s.fidt initPid stdout ≠ none ∧ 4 ≤ (freeFrom (s.fidt initPid) 0).card ∧
    (world initPid calm).Runs (Enough calm) [] (processLine ["cat"] ["cat", "|", "cat"] (0, 0)) s h r s' := by
  obtain ⟨s, hs, hp, h0, h1, hfree, hblocks, hpcbs⟩ := exists_started
  have hcheck : check ["cat"] (fragments ["cat", "|", "cat"]) = none := by decide
  obtain ⟨h, r, s', hr⟩ := exists_runs calm hs hp h0 h1 hfree hcheck hblocks hpcbs
  exact ⟨s, h, r, s', hs, hp, h0, h1, hfree, hr⟩

/-! ## The shell gets its file table back -/

theorem processLine_keeps_fidt {commands argv : List String} {pipe : Int × Int} {p : Pid} {s s' : State} {h : List Event}
    {r : Option (Except Complaint (List (Option Pid)))} (hs : system.Reaches s) (hp : s.pstate p = .alive)
    (h0 : s.fidt p stdin ≠ none) (h1 : s.fidt p stdout ≠ none) (hfree : 4 ≤ (freeFrom (s.fidt p) 0).card)
    (hcheck : check commands (fragments argv) = none)
    (hr : (world p false).Runs (Enough false) [] (processLine commands argv pipe) s h r s') :
    (∃ child, r = some (.ok child)) ∧ s'.fidt p = s.fidt p ∧
      ∀ e ∈ pipes p h, ∀ i, s'.fidt p i ≠ some e.1 ∧ s'.fidt p i ≠ some e.2 := by
  obtain ⟨hchild, hk, -⟩ := built_of_runs hs hp h0 h1 hfree hcheck hr
  exact ⟨hchild, hk.fidt, fun e he i => by rw [hk.fidt]; exact hk.apart e he i⟩

theorem processLine_keeps_fidt_two : ∃ s h r s',
    (world initPid false).Runs (Enough false) [] (processLine ["cat"] ["cat", "|", "cat"] (0, 0)) s h r s' ∧
    (∃ child, r = some (.ok child)) ∧ s'.fidt initPid = s.fidt initPid ∧
      ∀ e ∈ pipes initPid h, ∀ i, s'.fidt initPid i ≠ some e.1 ∧ s'.fidt initPid i ≠ some e.2 := by
  obtain ⟨s, h, r, s', hs, hp, h0, h1, hfree, hr⟩ := exists_runs_two false
  exact ⟨s, h, r, s', hr, processLine_keeps_fidt hs hp h0 h1 hfree (by decide) hr⟩

/-! ## The read end of a pipe has two owners -/

theorem processLine_pipe_ends {commands argv : List String} {pipe : Int × Int} {p : Pid} {s s' : State} {h : List Event}
    {r : Option (Except Complaint (List (Option Pid)))} (hs : system.Reaches s) (hp : s.pstate p = .alive)
    (h0 : s.fidt p stdin ≠ none) (h1 : s.fidt p stdout ≠ none) (hfree : 4 ≤ (freeFrom (s.fidt p) 0).card)
    (hcheck : check commands (fragments argv) = none) (hk : 2 ≤ (fragments argv).length)
    (hr : (world p true).Runs (Enough true) [] (processLine commands argv pipe) s h r s') :
    ¬Owned p h s' ∧
    ((pipes p h).length + 1 = (fragments argv).length ∧ (children h).length = (fragments argv).length) ∧
    ∀ (i : ℕ) (e : FcbPtr × FcbPtr) (c c' : Pid), (pipes p h)[i]? = some e → (children h)[i]? = some c →
      (children h)[i + 1]? = some c' → OneOwner s' e.2 c ∧ ¬OneOwner s' e.1 c' := by
  have hb := built_of_runs hs hp h0 h1 hfree hcheck hr
  obtain ⟨-, hlen, hn⟩ := hb.2.2 rfl
  exact ⟨not_owned_of_built hb hk, ⟨hlen.trans hn, hn⟩, fun _ _ _ _ hz hc hc' => ends_of_built hb hz hc hc'⟩

/-- The first one of two children can read from the pipe that it writes to. -/
theorem first_child_reads : ∃ s h r s', system.Reaches s ∧ s.pstate initPid = .alive ∧
    s.fidt initPid stdin ≠ none ∧ s.fidt initPid stdout ≠ none ∧ 4 ≤ (freeFrom (s.fidt initPid) 0).card ∧
    (world initPid true).Runs (Enough true) [] (processLine ["cat"] ["cat", "|", "cat"] (0, 0)) s h r s' ∧
    ¬Owned initPid h s' := by
  obtain ⟨s, h, r, s', hs, hp, h0, h1, hfree, hr⟩ := exists_runs_two true
  exact ⟨s, h, r, s', hs, hp, h0, h1, hfree, hr,
    not_owned_of_built (built_of_runs hs hp h0 h1 hfree (by decide) hr) (by decide)⟩

theorem processLine_pipe_ends_two : ∃ s h r s',
    (world initPid true).Runs (Enough true) [] (processLine ["cat"] ["cat", "|", "cat"] (0, 0)) s h r s' ∧
    ¬Owned initPid h s' ∧ ((pipes initPid h).length + 1 = 2 ∧ (children h).length = 2) ∧
    ∀ (i : ℕ) (e : FcbPtr × FcbPtr) (c c' : Pid), (pipes initPid h)[i]? = some e → (children h)[i]? = some c →
      (children h)[i + 1]? = some c' → OneOwner s' e.2 c ∧ ¬OneOwner s' e.1 c' := by
  obtain ⟨s, h, r, s', hs, hp, h0, h1, hfree, hr⟩ := exists_runs_two true
  exact ⟨s, h, r, s', hr, processLine_pipe_ends hs hp h0 h1 hfree (by decide) (by decide) hr⟩

end TinyOS.Shell
