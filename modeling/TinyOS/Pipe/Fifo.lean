import Mathlib.Data.List.Nodup
import Mathlib.Data.List.Count
import TinyOS.Pipe.Calls

/-!
# A pipe is a bounded FIFO queue

`Inv` ties the buffer to the bytes that have gone in and come out, each call to the bytes it has moved, and the
reference counts to the slots and the calls in progress; an end is open as long as it has a reference, so that it is
never closed under a call.
-/

namespace TinyOS.Pipe

/-- The bytes of call `id` in a log. -/
def bytesOf (id : Nat) (log : List (Nat × UInt8)) : List UInt8 := (log.filter fun x => x.1 = id).map Prod.snd

/-- The bytes at the first `n` addresses that a 32-bit index visits. -/
def firstBytes (buf : Int → UInt8) (n : Nat) : List UInt8 := (List.range n).map fun i => buf (BitVec.ofNat 32 i).toInt

/-- The bytes that the calls at an end have moved. -/
def State.log (s : State) : End → List (Nat × UInt8)
  | .writer => s.stored
  | .reader => s.taken

/-- The calls in progress at an end. -/
def pins (calls : List Call) (e : End) : Nat := (calls.map Call.stream).count e

/-! ## The invariant -/

/-- A call that is past the test of its loop. -/
def Place.afterTest : Place → Bool
  | .inner | .asleep | .woken => true
  | _ => false

structure CallOk (started : Nat) (log : List (Nat × UInt8)) (c : Call) : Prop where
  id_lt : c.id < started
  bytes : c.bytes = c.index
  le : c.index ≤ c.n
  lt : c.place.afterTest → c.index < c.n
  moved : bytesOf c.id log = firstBytes c.buf c.index.toNat

/-- A call that returned `k ≥ 0` moved the first `k` bytes of its buffer, and a writer all its bytes. -/
structure ReturnOk (started : Nat) (log : List (Nat × UInt8)) (r : Return) : Prop where
  id_lt : r.id < started
  all : r.stream = .writer → 0 ≤ r.result → r.result = r.n.toNat
  moved : 0 ≤ r.result → bytesOf r.id log = (List.range r.result.toNat).map fun i : Nat => r.buf i

/-- The invariant, but for one reference to the FCB of end `extra` that is neither a slot nor a call. -/
structure InvBut (extra : Option End) (s : State) : Prop where
  r_lt : s.pipe.rPosition < pipeBufferSize
  w_lt : s.pipe.wPosition < pipeBufferSize
  fifo : s.stored.map Prod.snd = s.taken.map Prod.snd ++ s.pipe.contents
  open_iff : ∀ e, s.pipe.isOpen e = true ↔ 0 < s.refcount e
  refs : ∀ e, s.refcount e = s.slots e + pins s.calls e + if extra = some e then 1 else 0
  freed : s.freed = true → ∀ e, s.refcount e = 0
  nodup : (s.calls.map Call.id).Nodup
  call : ∀ c ∈ s.calls, CallOk s.started (s.log c.stream) c
  log_id : ∀ e, ∀ x ∈ s.log e, x.1 < s.started
  returned : ∀ r ∈ s.returns, r.id ∉ s.calls.map Call.id
  return_ok : ∀ r ∈ s.returns, ReturnOk s.started (s.log r.stream) r

def Inv : State → Prop := InvBut none

variable {s s' : State} {c : Call} {e : End} {extra : Option End}

theorem boot_inv (buffer : Nat → UInt8) : Inv (State.boot buffer) where
  r_lt := Nat.zero_lt_succ _
  w_lt := Nat.zero_lt_succ _
  fifo := by simp [State.boot, PipeCB.new, PipeCB.contents]
  open_iff _ := by simp [State.boot, PipeCB.new]
  refs _ := by simp [State.boot, pins]
  freed h := by simp [State.boot] at h
  nodup := by simp [State.boot]
  call _ h := by simp [State.boot] at h
  log_id e := by cases e <;> simp [State.boot, State.log]
  returned _ h := by simp [State.boot] at h
  return_ok _ h := by simp [State.boot] at h

/-! ## The calls -/

theorem InvBut.setCalls (h : InvBut extra s) {l : List Call} (k : Option Nat)
    (hid : l.map Call.id = s.calls.map Call.id) (hstream : l.map Call.stream = s.calls.map Call.stream)
    (hok : ∀ c ∈ l, CallOk s.started (s.log c.stream) c) : InvBut extra { s with calls := l, kernel := k } :=
  { h with
    refs := fun e => by
      have hp : pins l e = pins s.calls e := by simp only [pins, hstream]
      simp only [hp]
      exact h.refs e
    nodup := hid ▸ h.nodup
    call := hok
    returned := fun r hr => hid ▸ h.returned r hr }

/-- A broadcast changes where calls are, and a call that it wakes up is still past its test. -/
theorem InvBut.broadcast (h : InvBut extra s) (e : End) : InvBut extra (s.broadcast e) := by
  refine h.setCalls s.kernel ?_ ?_ fun c hc => ?_
  · rw [List.map_map]
    refine List.map_congr_left fun c _ => ?_
    simp only [Function.comp_apply]
    split <;> rfl
  · rw [List.map_map]
    refine List.map_congr_left fun c _ => ?_
    simp only [Function.comp_apply]
    split <;> rfl
  · obtain ⟨c', hc', rfl⟩ := List.mem_map.1 hc
    have hok := h.call c' hc'
    split
    · rename_i hpl
      exact ⟨hok.id_lt, hok.bytes, hok.le, fun _ => hok.lt (by rw [hpl.2]; rfl), hok.moved⟩
    · exact hok

/-- The entries of a list without duplicate ids are told apart by their ids. -/
theorem InvBut.eq_of_id (h : InvBut extra s) {c' : Call} (hc : c ∈ s.calls) (hc' : c' ∈ s.calls)
    (he : c'.id = c.id) : c' = c := List.inj_on_of_nodup_map h.nodup hc' hc he

/-- A call at `c` goes on to `c'`. -/
theorem InvBut.setCall (h : InvBut extra s) (hc : c ∈ s.calls) {c' : Call} (k : Option Nat) (hid : c'.id = c.id)
    (hstream : c'.stream = c.stream) (hok : CallOk s.started (s.log c'.stream) c') :
    InvBut extra { s.setCall c' with kernel := k } := by
  refine h.setCalls k ?_ ?_ fun d hd => ?_
  · rw [State.setCall, List.map_map]
    refine List.map_congr_left fun d _ => ?_
    simp only [Function.comp_apply]
    split
    · rename_i he; exact he.symm
    · rfl
  · rw [State.setCall, List.map_map]
    refine List.map_congr_left fun d hd => ?_
    simp only [Function.comp_apply]
    split
    · rename_i he
      rw [h.eq_of_id hc hd (he.trans hid), hstream]
    · rfl
  · obtain ⟨d', hd', rfl⟩ := List.mem_map.1 hd
    split
    · exact hok
    · exact h.call d' hd'

/-! ## References -/

theorem Inv.incref (h : Inv s) (ho : 0 < s.refcount e) : InvBut (some e) (s.fcbIncref e) :=
  { h with
    open_iff := fun e' => by
      refine (h.open_iff e').trans ?_
      by_cases he : e' = e
      · subst he; simp [State.fcbIncref, ho]
      · simp [State.fcbIncref, he]
    refs := fun e' => by
      have := h.refs e'
      by_cases he : e' = e
      · subst he
        simpa [State.fcbIncref] using this
      · simpa [State.fcbIncref, he, Ne.symm he] using this
    freed := fun hf => by
      have := h.freed hf e
      omega }

/-- What the reference counts say about the ends, after one reference to `e` has gone. -/
theorem InvBut.drop (h : InvBut (some e) s) {isOpen : End → Bool} {freed : Bool}
    (hself : isOpen e = true ↔ 1 < s.refcount e) (hother : ∀ e', e' ≠ e → isOpen e' = s.pipe.isOpen e')
    (hfreed : freed = true → s.refcount e = 1 ∧ isOpen (State.peer e) = false) :
    Inv { s with
      pipe := { s.pipe with isOpen := isOpen }
      freed := freed
      refcount := Function.update s.refcount e (s.refcount e - 1) } := by
  have href := h.refs e
  simp only [if_true] at href
  have hopen : ∀ e', isOpen e' = true ↔ 0 < Function.update s.refcount e (s.refcount e - 1) e' := by
    intro e'
    by_cases he : e' = e
    · subst he
      rw [Function.update_self, hself]
      omega
    · rw [Function.update_of_ne he, hother e' he, h.open_iff e']
  refine { h with open_iff := hopen, refs := fun e' => ?_, freed := fun hf e' => ?_ }
  · have := h.refs e'
    by_cases he : e' = e
    · subst he
      simp only [Function.update_self, reduceCtorEq, if_false]
      omega
    · simpa [he, Ne.symm he] using this
  · obtain ⟨hone, hclosed⟩ := hfreed hf
    have hpeer : ¬0 < Function.update s.refcount e (s.refcount e - 1) (State.peer e) := by
      rw [← hopen, hclosed]
      simp
    have hall : e' = e ∨ e' = State.peer e := by cases e <;> cases e' <;> simp [State.peer]
    rcases hall with rfl | rfl
    · simp [hone]
    · exact Nat.eq_zero_of_not_pos hpeer

/-- The last reference of an end closes it; an end that still has one stays open. -/
theorem InvBut.decref (h : InvBut (some e) s) : Inv (s.fcbDecref e) := by
  have href := h.refs e
  simp only [if_true] at href
  have hopen : s.pipe.isOpen e = true := (h.open_iff e).2 (by omega)
  have hnotfreed : s.freed = false := by
    rw [← Bool.not_eq_true]
    exact fun hf => absurd (h.freed hf e) (by omega)
  have hpeer : State.peer e ≠ e := by cases e <;> simp [State.peer]
  unfold State.fcbDecref State.closeEnd
  simp only [Function.update_self]
  by_cases hone : s.refcount e = 1
  · have hclose : (s.pipe.close e).isOpen (State.peer e) = s.pipe.isOpen (State.peer e) :=
      Function.update_of_ne hpeer _ _
    have hself : (s.pipe.close e).isOpen e = true ↔ 1 < s.refcount e := by simp [PipeCB.close, hone]
    have hother : ∀ e', e' ≠ e → (s.pipe.close e).isOpen e' = s.pipe.isOpen e' := fun e' he =>
      Function.update_of_ne he _ _
    rw [if_pos (by omega), hclose]
    cases hp : s.pipe.isOpen (State.peer e) with
    | true => exact InvBut.broadcast (h.drop hself hother (show s.freed = true → _ by simp [hnotfreed])) _
    | false => exact h.drop hself hother fun _ => ⟨hone, hclose.trans hp⟩
  · rw [if_neg (by omega)]
    exact h.drop (by simp only [hopen, true_iff]; omega) (fun _ _ => rfl) (by simp [hnotfreed])

/-! ## Bytes -/

theorem bytesOf_append (id : Nat) (log : List (Nat × UInt8)) (y : Nat × UInt8) :
    bytesOf id (log ++ [y]) = bytesOf id log ++ if y.1 = id then [y.2] else [] := by
  by_cases hy : y.1 = id <;> simp [bytesOf, hy]

/-- A call that has not moved a byte is not in the log. -/
theorem bytesOf_eq_nil {id : Nat} {log : List (Nat × UInt8)} (h : ∀ x ∈ log, x.1 ≠ id) : bytesOf id log = [] := by
  simpa [bytesOf, List.filter_eq_nil_iff] using h

theorem firstBytes_succ (buf : Int → UInt8) (i : BitVec 32) :
    firstBytes buf (i.toNat + 1) = firstBytes buf i.toNat ++ [buf i.toInt] := by
  simp [firstBytes, List.range_succ]

/-- Up to `2 ^ 31` the index does not wrap. -/
theorem firstBytes_eq (buf : Int → UInt8) {n : Nat} (hn : n ≤ 2 ^ 31) :
    firstBytes buf n = (List.range n).map fun i : Nat => buf i := by
  refine List.map_congr_left fun i hi => ?_
  have := List.mem_range.1 hi
  rw [BitVec.toInt_eq_toNat_of_lt (by rw [BitVec.toNat_ofNat]; omega), BitVec.toNat_ofNat, Nat.mod_eq_of_lt (by omega)]

/-- A byte put at the index is not one of the bytes before it. -/
theorem firstBytes_update (buf : Int → UInt8) (i : BitVec 32) (x : UInt8) :
    firstBytes (Function.update buf i.toInt x) i.toNat = firstBytes buf i.toNat := by
  refine List.map_congr_left fun k hk => Function.update_of_ne ?_ _ _
  have hlt := List.mem_range.1 hk
  intro he
  have := congrArg BitVec.toNat (BitVec.eq_of_toInt_eq he)
  rw [BitVec.toNat_ofNat, Nat.mod_eq_of_lt (by omega)] at this
  omega

theorem succ_toNat {i n : BitVec 32} (h : i < n) : (i + 1).toNat = i.toNat + 1 := by
  have : i.toNat < n.toNat := h
  rw [BitVec.toNat_add]
  simp
  omega

/-! ## A call returns -/

theorem perm_filter_id : ∀ {l : List Call}, (l.map Call.id).Nodup → c ∈ l →
    l.Perm (c :: l.filter fun c' => c'.id ≠ c.id)
  | [], _, hc => absurd hc (List.not_mem_nil)
  | d :: l, hn, hc => by
    obtain ⟨hd, hn⟩ := List.nodup_cons.1 hn
    rcases List.mem_cons.1 hc with rfl | hc
    · have : (l.filter fun c' => c'.id ≠ c.id) = l :=
        List.filter_eq_self.2 fun c' hc' => by
          simp only [ne_eq, decide_eq_true_eq]
          rintro he
          exact hd (he ▸ List.mem_map_of_mem hc')
      rw [List.filter_cons_of_neg (by simp), this]
    · have hne : d.id ≠ c.id := fun he => hd (he ▸ List.mem_map_of_mem hc)
      rw [List.filter_cons_of_pos (by simpa using hne)]
      exact ((perm_filter_id hn hc).cons d).trans (.swap c d _)

theorem Inv.leave (h : Inv s) (hc : c ∈ s.calls) {result : Int}
    (hr : ReturnOk s.started (s.log c.stream) ⟨c.id, c.stream, c.n, c.buf, result⟩) : Inv (s.leave c result) := by
  have hperm := perm_filter_id h.nodup hc
  have hsub : (s.calls.filter fun c' => c'.id ≠ c.id).Sublist s.calls := List.filter_sublist
  refine InvBut.decref ?_
  exact { h with
    refs := fun e => by
      have := h.refs e
      have hp : pins s.calls e = pins (c :: s.calls.filter fun c' => c'.id ≠ c.id) e := (hperm.map _).count_eq e
      rw [hp, pins, List.map_cons, List.count_cons] at this
      by_cases he : c.stream = e <;> simp_all [pins]; omega
    nodup := (hsub.map Call.id).nodup h.nodup
    call := fun c' hc' => h.call c' (hsub.subset hc')
    returned := fun r hr' => by
      rcases List.mem_cons.1 hr' with rfl | hr'
      · simp
      · exact fun hm => h.returned r hr' ((hsub.map Call.id).subset hm)
    return_ok := fun r hr' => by
      rcases List.mem_cons.1 hr' with rfl | hr'
      · exact hr
      · exact h.return_ok r hr' }

/-- The call returns -1. -/
theorem Inv.fail (h : Inv s) (hc : c ∈ s.calls) : Inv (s.leave c (-1)) :=
  have hneg : ¬(0 : Int) ≤ -1 := by decide
  h.leave hc ⟨(h.call c hc).id_lt, fun _ hn => absurd hn hneg, fun hn => absurd hn hneg⟩

/-- The call returns the number of its bytes: a writer has come to the end of its loop. -/
theorem Inv.finish (h : Inv s) (hc : c ∈ s.calls) (hpl : c.place ≠ .asleep)
    (hall : c.stream = .writer → ¬c.index < c.n) : Inv (s.finish c) := by
  have hok := h.call c hc
  have hc' : c ∈ (s.broadcast (State.peer c.stream)).calls :=
    List.mem_map.2 ⟨c, hc, by simp [hpl]⟩
  refine Inv.leave (h.broadcast _) hc' ⟨hok.id_lt, fun hw hn => ?_, fun hn => ?_⟩
  · have he : c.bytes = c.n := by
      rw [hok.bytes]
      exact BitVec.le_antisymm hok.le (BitVec.not_lt.1 (hall hw))
    simp only at hn ⊢
    rw [he] at hn ⊢
    rw [BitVec.toInt_eq_toNat_cond] at hn ⊢
    split at hn <;> omega
  · have hb : c.bytes.toInt = c.index.toNat ∧ c.index.toNat < 2 ^ 31 := by
      simp only at hn
      rw [hok.bytes] at hn ⊢
      rw [BitVec.toInt_eq_toNat_cond] at hn ⊢
      split at hn <;> omega
    simp only
    rw [hb.1, Int.toNat_natCast, ← firstBytes_eq c.buf (by omega)]
    exact hok.moved

/-! ## A call moves a byte -/

/-- Call `c` moves the byte `x` and goes on to `c'`; `p` is the pipe after it. -/
theorem Inv.move (h : Inv s) (hc : c ∈ s.calls) {p : PipeCB} {stored taken : List (Nat × UInt8)} {x : UInt8} {c' : Call}
    (hr : p.rPosition < pipeBufferSize) (hw : p.wPosition < pipeBufferSize) (hopen : p.isOpen = s.pipe.isOpen)
    (hfifo : stored.map Prod.snd = taken.map Prod.snd ++ p.contents)
    (hlog : ∀ e, State.log { s with pipe := p, stored := stored, taken := taken } e =
      if e = c.stream then s.log e ++ [(c.id, x)] else s.log e)
    (hid : c'.id = c.id) (hstream : c'.stream = c.stream)
    (hok : CallOk s.started (s.log c.stream ++ [(c.id, x)]) c') :
    Inv ({ s with pipe := p, stored := stored, taken := taken }.setCall c') := by
  set s₁ : State := { s with pipe := p, stored := stored, taken := taken } with hs₁
  have hothers : ∀ id ≠ c.id, ∀ e, bytesOf id (s₁.log e) = bytesOf id (s.log e) := by
    intro id hne e
    rw [hlog]
    split
    · rw [bytesOf_append, if_neg (Ne.symm hne), List.append_nil]
    · rfl
  have hids : (s₁.setCall c').calls.map Call.id = s.calls.map Call.id := by
    rw [State.setCall, List.map_map]
    refine List.map_congr_left fun d _ => ?_
    simp only [Function.comp_apply]
    split
    · rename_i he; exact he.symm
    · rfl
  have hstreams : (s₁.setCall c').calls.map Call.stream = s.calls.map Call.stream := by
    rw [State.setCall, List.map_map]
    refine List.map_congr_left fun d hd => ?_
    simp only [Function.comp_apply]
    split
    · rename_i he
      rw [h.eq_of_id hc hd (he.trans hid), hstream]
    · rfl
  exact {
    r_lt := hr
    w_lt := hw
    fifo := hfifo
    open_iff := fun e => by
      show p.isOpen e = true ↔ _
      rw [hopen]
      exact h.open_iff e
    refs := fun e => by
      have : pins (s₁.setCall c').calls e = pins s.calls e := by simp only [pins, hstreams]
      rw [this]
      exact h.refs e
    freed := h.freed
    nodup := hids ▸ h.nodup
    call := fun d hd => by
      obtain ⟨d', hd', rfl⟩ := List.mem_map.1 hd
      show CallOk s.started (s₁.log _) _
      split
      · rw [hlog, if_pos hstream, hstream]
        exact hok
      · rename_i hne
        have hne : d'.id ≠ c.id := fun he => hne (he.trans hid.symm)
        have hd := h.call d' hd'
        exact ⟨hd.id_lt, hd.bytes, hd.le, hd.lt, (hothers _ hne _).trans hd.moved⟩
    log_id := fun e y hy => by
      have hy : y ∈ s₁.log e := hy
      rw [hlog] at hy
      split at hy
      · rcases List.mem_append.1 hy with hy | hy
        · exact h.log_id e y hy
        · rw [List.mem_singleton.1 hy]
          exact (h.call c hc).id_lt
      · exact h.log_id e y hy
    returned := fun r hr => by
      rw [hids]
      exact h.returned r hr
    return_ok := fun r hr => by
      have hr' := h.return_ok r hr
      have hne : r.id ≠ c.id := fun he => h.returned r hr (he ▸ List.mem_map_of_mem hc)
      exact ⟨hr'.id_lt, hr'.all, fun hn => (hothers _ hne _).trans (hr'.moved hn)⟩ }

/-- `pipe_write` stores a byte: the buffer is not full, so no unread byte is overwritten. -/
theorem Inv.store (h : Inv s) (hc : c ∈ s.calls) (hs : c.stream = .writer) (hlt : c.index < c.n)
    (hfull : ¬s.pipe.Full) : Inv (s.store c) := by
  have hok := h.call c hc
  refine h.move hc (x := c.buf c.index.toInt) h.r_lt (Ring.next_lt h.w_lt) rfl ?_ (fun e => ?_) rfl rfl
    ⟨hok.id_lt, by rw [hok.bytes], ?_, fun hp => by simp [Place.afterTest] at hp, ?_⟩
  · have := Ring.contents_push h.r_lt h.w_lt hfull s.pipe.buffer (c.buf c.index.toInt)
    simp only [PipeCB.put, PipeCB.contents]
    rw [this, List.map_append, h.fifo, PipeCB.contents, List.append_assoc]
    rfl
  · cases e <;> simp [State.log, hs]
  · show (c.index + 1).toNat ≤ c.n.toNat
    rw [succ_toNat hlt]
    exact hlt
  · rw [bytesOf_append, if_pos rfl, hok.moved]
    simp only [succ_toNat hlt]
    rw [firstBytes_succ]

/-- `pipe_read` takes the byte at the head of the contents. -/
theorem Inv.take (h : Inv s) (hc : c ∈ s.calls) (hs : c.stream = .reader) (hlt : c.index < c.n)
    (hne : ¬s.pipe.Empty) : Inv (s.take c) := by
  have hok := h.call c hc
  refine h.move hc (x := s.pipe.front) (Ring.next_lt h.r_lt) h.w_lt rfl ?_ (fun e => ?_) rfl rfl
    ⟨hok.id_lt, by rw [hok.bytes], ?_, fun hp => by simp [Place.afterTest] at hp, ?_⟩
  · have := Ring.contents_pop h.r_lt h.w_lt hne s.pipe.buffer
    rw [h.fifo, PipeCB.contents, this]
    simp [PipeCB.front, PipeCB.contents, PipeCB.advance]
  · cases e <;> simp [State.log, hs]
  · show (c.index + 1).toNat ≤ c.n.toNat
    rw [succ_toNat hlt]
    exact hlt
  · rw [bytesOf_append, if_pos rfl, hok.moved]
    simp only [succ_toNat hlt]
    rw [firstBytes_succ, firstBytes_update, Function.update_self]

/-! ## The two functions -/

/-- A call in progress keeps its end open. -/
theorem Inv.own_open (h : Inv s) (hc : c ∈ s.calls) : s.pipe.isOpen c.stream = true := by
  have hpin : 0 < pins s.calls c.stream := List.count_pos_iff.2 (List.mem_map_of_mem hc)
  have := h.refs c.stream
  exact (h.open_iff _).2 (by omega)

/-- The call goes on to another place of its code. -/
theorem Inv.goto (h : Inv s) (hc : c ∈ s.calls) (p : Place) (k : Option Nat) (hlt : p.afterTest → c.index < c.n) :
    Inv { s.setCall { c with place := p } with kernel := k } :=
  have hok := h.call c hc
  h.setCall hc k rfl rfl ⟨hok.id_lt, hok.bytes, hok.le, hlt, hok.moved⟩

/-- The call wakes up the other side and goes to sleep. -/
theorem Inv.wait (h : Inv s) (hc : c ∈ s.calls) (hpl : c.place = .inner) (e : End) :
    Inv ((s.broadcast e).kernelWait c) := by
  have hc' : c ∈ (s.broadcast e).calls := List.mem_map.2 ⟨c, hc, by simp [hpl]⟩
  exact Inv.goto (h.broadcast e) hc' .asleep none fun _ => (h.call c hc).lt (by rw [hpl]; rfl)

theorem Inv.go (h : Inv s) (hc : c ∈ s.calls) (hg : State.Goes s c s') : Inv s' := by
  have hlt : c.place = .inner → c.index < c.n := fun hpl => (h.call c hc).lt (by rw [hpl]; rfl)
  cases hg with
  | goto pl hpl =>
    refine h.goto hc pl s.kernel fun hafter => ?_
    obtain ⟨-, rfl⟩ | ⟨-, -, hlt⟩ := hpl
    · simp [Place.afterTest] at hafter
    · exact hlt
  | fail => exact h.fail hc
  | wait hpl => exact h.wait hc hpl _
  | finish hpl =>
    obtain ⟨hpl, hge⟩ | ⟨hpl, hclosed⟩ := hpl
    · exact h.finish hc (by simp [hpl]) fun _ => hge
    · refine h.finish hc (by simp [hpl]) fun hs => ?_
      have hopen := h.own_open hc
      rw [hs, hclosed] at hopen
      cases hopen
  | store hs hpl hfull => exact h.store hc hs (hlt hpl) hfull
  | take hs hpl hempty => exact h.take hc hs (hlt hpl) hempty
  | stay => exact h

/-! ## Every step -/

theorem Inv.begin (h : Inv s) (e : End) (hsl : 0 < s.slots e) (n : BitVec 32) (buf : Int → UInt8) :
    Inv { s.fcbIncref e with
      calls := ⟨s.started, e, .entry, n, buf, 0, 0⟩ :: s.calls
      kernel := some s.started
      started := s.started + 1 } := by
  have href := h.refs e
  have hi := h.incref (e := e) (by omega)
  have hfresh : s.started ∉ s.calls.map Call.id := fun hm => by
    obtain ⟨c, hc, he⟩ := List.mem_map.1 hm
    have := (h.call c hc).id_lt
    omega
  exact { hi with
    refs := fun e' => by
      have : (s.fcbIncref e).refcount e' = s.slots e' + pins s.calls e' + if some e = some e' then 1 else 0 := hi.refs e'
      show _ = s.slots e' + pins (_ :: s.calls) e' + _
      simp only [pins, List.map_cons, List.count_cons] at this ⊢
      by_cases he : e = e'
      · subst he
        simpa [State.fcbIncref, Nat.add_assoc] using this
      · simpa [he] using this
    nodup := List.nodup_cons.2 ⟨hfresh, h.nodup⟩
    call := fun c hc => by
      rcases List.mem_cons.1 hc with rfl | hc
      · refine ⟨Nat.lt_succ_self _, rfl, Nat.zero_le _, fun hp => by simp [Place.afterTest] at hp, ?_⟩
        exact bytesOf_eq_nil fun x hx => Nat.ne_of_lt (h.log_id e x hx)
      · have hok := h.call c hc
        exact ⟨Nat.lt_succ_of_lt hok.id_lt, hok.bytes, hok.le, hok.lt, hok.moved⟩
    log_id := fun e' x hx => Nat.lt_succ_of_lt (h.log_id e' x hx)
    returned := fun r hr hm => by
      rcases List.mem_cons.1 hm with he | hm
      · exact absurd (h.return_ok r hr).id_lt (by simp only at he; omega)
      · exact h.returned r hr hm
    return_ok := fun r hr => by
      have hok := h.return_ok r hr
      exact ⟨Nat.lt_succ_of_lt hok.id_lt, hok.all, hok.moved⟩ }

/-- **Step lemma.** -/
theorem Inv.step {a : Action} (h : Inv s) (he : s.step a = some s') : Inv s' := by
  cases State.step_cases he with
  | @call e n buf _ hsl => exact h.begin e hsl n buf
  | @run c _ hc _ => exact h.go hc (State.runCall_goes s c)
  | @resume c _ hc hpl => exact h.goto hc .inner (some c.id) fun _ => (h.call c hc).lt (by rw [hpl]; rfl)
  | @dup e _ hsl =>
    have href := h.refs e
    have hi := h.incref (e := e) (by omega)
    exact { hi with
      refs := fun e' => by
        have : (s.fcbIncref e).refcount e' = s.slots e' + pins s.calls e' + if some e = some e' then 1 else 0 := hi.refs e'
        show _ = Function.update s.slots e (s.slots e + 1) e' + pins s.calls e' + _
        by_cases he : e' = e
        · subst he
          simp only [Function.update_self, if_true, reduceCtorEq, if_false] at this ⊢
          omega
        · simpa [he, Ne.symm he] using this }
  | @close e _ hsl =>
    refine InvBut.decref { h with refs := fun e' => ?_ }
    have := h.refs e'
    by_cases he : e' = e
    · subst he
      simp only [Function.update_self, if_true, reduceCtorEq, if_false] at this ⊢
      omega
    · simpa [he, Ne.symm he] using this

/-- **Run lemma.** -/
theorem reaches_inv (hs : sys.Reaches s) : Inv s := by
  refine hs.invariant (fun s hs => ?_) fun s a s' h he => h.step he
  obtain ⟨buffer, rfl⟩ := hs
  exact boot_inv buffer

/-! ## Main theorem -/

structure PipeCorrect (s : State) : Prop where
  /-- What has gone in is what has come out and what is in the buffer. -/
  fifo : s.stored.map Prod.snd = s.taken.map Prod.snd ++ s.pipe.contents
  r_lt : s.pipe.rPosition < pipeBufferSize
  w_lt : s.pipe.wPosition < pipeBufferSize
  bounded : s.pipe.contents.length ≤ pipeBufferSize - 1
  /-- No step overwrites an unread byte. -/
  kept : ∀ a s', s.step a = some s' → ∀ p ∈ s.pipe.unread, s'.pipe.buffer p = s.pipe.buffer p
  writes : ∀ r ∈ s.returns, r.stream = .writer → 0 ≤ r.result →
    r.result = r.n.toNat ∧ bytesOf r.id s.stored = (List.range r.n.toNat).map fun i : Nat => r.buf i
  reads : ∀ r ∈ s.returns, r.stream = .reader → 0 ≤ r.result →
    bytesOf r.id s.taken = (List.range r.result.toNat).map fun i : Nat => r.buf i
  /-- The block is freed only when no call is left. -/
  freed : s.freed = true → s.calls = []

/-- The step may have written the cell at `w_position` of a pipe that was not full, and no other. -/
def Kept (s s' : State) : Prop :=
  s'.pipe.buffer = s.pipe.buffer ∨ ∃ x, s'.pipe.buffer = Function.update s.pipe.buffer s.pipe.wPosition x

theorem fcbDecref_buffer (s : State) (e : End) : (s.fcbDecref e).pipe.buffer = s.pipe.buffer := by
  unfold State.fcbDecref State.closeEnd
  dsimp only
  split
  · split <;> rfl
  · rfl

theorem leave_kept {s₁ : State} (hp : s₁.pipe = s.pipe) (c : Call) (r : Int) : Kept s (s₁.leave c r) :=
  .inl ((fcbDecref_buffer _ _).trans (congrArg PipeCB.buffer hp))

theorem State.Goes.kept (h : State.Goes s c s') : Kept s s' := by
  cases h with
  | goto => exact .inl rfl
  | fail => exact leave_kept rfl _ _
  | wait => exact .inl rfl
  | finish => exact leave_kept rfl _ _
  | store => exact .inr ⟨_, rfl⟩
  | take => exact .inl rfl
  | stay => exact .inl rfl

theorem step_kept {a : Action} (he : s.step a = some s') : Kept s s' := by
  cases State.step_cases he with
  | run => exact (State.runCall_goes _ _).kept
  | call | resume | dup => exact .inl rfl
  | close => exact .inl (fcbDecref_buffer _ _)

/-- **A pipe is a bounded FIFO queue of bytes.** -/
theorem pipe_correct (hs : sys.Reaches s) : PipeCorrect s := by
  have h := reaches_inv hs
  refine ⟨h.fifo, h.r_lt, h.w_lt, ?_, fun a s' he p hp => ?_, fun r hr hst hn => ?_, fun r hr hst hn => ?_, fun hf => ?_⟩
  · rw [PipeCB.contents, Ring.length_contents]
    exact Nat.le_pred_of_lt (Ring.count_lt h.r_lt)
  · rcases step_kept he with hb | ⟨x, hb⟩
    · rw [hb]
    · rw [hb, Function.update_of_ne]
      rintro rfl
      exact Ring.write_notMem_cells h.r_lt h.w_lt hp
  · have hok := h.return_ok r hr
    have hall := hok.all hst hn
    have hm := hok.moved hn
    rw [hst, hall, Int.toNat_natCast] at hm
    exact ⟨hall, hm⟩
  · have hm := (h.return_ok r hr).moved hn
    rwa [hst] at hm
  · by_contra hne
    obtain ⟨c, hc⟩ := List.exists_mem_of_ne_nil _ hne
    have hz := h.freed hf c.stream
    have ho := (h.open_iff c.stream).1 (h.own_open hc)
    omega

/-- A reader that comes first sleeps until a writer has stored two bytes, and takes them. -/
theorem pipe_correct_two_bytes : ∃ s, sys.Reaches s ∧ s.taken = [(0, 7), (0, 7)] ∧
    s.returns.map Return.result = [2, 2] ∧ PipeCorrect s := by
  have hrun : ((sys.run (State.boot fun _ => 0)
      [.call .reader 2 (fun _ => 0), .run 0, .run 0, .run 0, .call .writer 2 (fun _ => 7), .run 1, .run 1, .run 1, .run 1,
        .run 1, .run 1, .resume 0, .run 0, .run 0, .run 0, .run 0]).map fun s => (s.taken, s.returns.map Return.result)) =
      some ([(0, 7), (0, 7)], [2, 2]) := by
    decide +kernel
  obtain ⟨s, hs, he⟩ := Option.map_eq_some_iff.1 hrun
  obtain ⟨htaken, hret⟩ := Prod.mk.inj he
  have hr : sys.Reaches s := Lts.reaches_of_run (.init ⟨_, rfl⟩) hs
  exact ⟨s, hr, htaken, hret, pipe_correct hr⟩

end TinyOS.Pipe
