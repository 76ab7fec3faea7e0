import TinyOS.Proc.Table

/-!
# Threads and their PTCBs

What the system calls do to the PTCBs and to the lists that hold them, and nothing else. `State.links` reads the part
that matters off a state of the system; `Links.Step` are its changes.

- `Links.Inv`, kept by every change (`Links.Inv.step`): a PTCB is in one list at most, the one of a thread that has not
  exited is in the list of its process, and `refcount` is the number of threads in `sys_ThreadJoin`;
- `Links.Inv.step_ne_nil`: a `PTCB_List` that is not empty never becomes empty.
-/

namespace TinyOS.Proc

open Relation

/-- The PTCB that a thread at this place joins. -/
def Place.joins : Place → Option Tid
  | .waiting (.join tid) _ => some tid
  | _ => none

/-- What matters of a thread: its process, its PTCB, whether it has exited and the PTCB it joins. -/
structure Key where
  owner : Pid
  own : Tid
  live : Bool
  joins : Option Tid

def Thread.key (th : Thread) : Key := ⟨th.ownerPcb, th.ownerPtcb, th.place ≠ .exited, th.place.joins⟩

structure Links where
  keys : List Key
  ptcb : Tid → Option Ptcb
  list : Pid → List Tid

namespace Links

/-- Thread `i` goes to another place. -/
def move (t : Links) (i : ThreadId) (live : Bool) (joins : Option Tid) : Links :=
  { t with keys := t.keys.modify i fun k => { k with live := live, joins := joins } }

def setPtcb (t : Links) (tid : Tid) (x : Option Ptcb) : Links := { t with ptcb := Function.update t.ptcb tid x }

/-- A thread of `p` with the PTCB `x` at `tid`. -/
def start (t : Links) (p : Pid) (tid : Tid) (x : Ptcb) : Links where
  keys := t.keys ++ [⟨p, tid, true, none⟩]
  ptcb := Function.update t.ptcb tid (some x)
  list := Function.update t.list p (t.list p ++ [tid])

def free (t : Links) (p : Pid) (tid : Tid) : Links where
  keys := t.keys
  ptcb := Function.update t.ptcb tid none
  list := Function.update t.list p ((t.list p).erase tid)

theorem keys_move {t : Links} {i : ThreadId} {p : Pid} {own : Tid} {l live : Bool} {j joins : Option Tid}
    (h : t.keys[i]? = some ⟨p, own, l, j⟩) : (t.move i live joins).keys[i]? = some ⟨p, own, live, joins⟩ := by
  simp [move, h]

/-- The threads after a move of thread `i`. -/
theorem move_cases {t : Links} {i a : ThreadId} {p : Pid} {own : Tid} {l live : Bool} {j joins : Option Tid} {k : Key}
    (hi : t.keys[i]? = some ⟨p, own, l, j⟩) (ha : (t.move i live joins).keys[a]? = some k) :
    a = i ∧ k = ⟨p, own, live, joins⟩ ∨ a ≠ i ∧ t.keys[a]? = some k := by
  by_cases hai : a = i
  · subst hai
    exact .inl ⟨rfl, Option.some.inj (ha.symm.trans (keys_move hi))⟩
  · exact .inr ⟨hai, (List.getElem?_modify_ne _ _ (Ne.symm hai)).symm.trans ha⟩

theorem keys_start {t : Links} {j : ThreadId} {q : Pid} {tid : Tid} {x : Ptcb} {k : Key}
    (hj : (t.start q tid x).keys[j]? = some k) : t.keys[j]? = some k ∨ j = t.keys.length ∧ k = ⟨q, tid, true, none⟩ := by
  have hj : (t.keys ++ [⟨q, tid, true, none⟩])[j]? = some k := hj
  rcases Nat.lt_trichotomy j t.keys.length with hlt | rfl | hgt
  · rw [List.getElem?_append_left hlt] at hj
    exact .inl hj
  · rw [List.getElem?_concat_length] at hj
    exact .inr ⟨rfl, (Option.some.inj hj).symm⟩
  · rw [List.getElem?_eq_none (by rw [List.length_append]; exact hgt)] at hj
    cases hj

theorem move_self {t : Links} {i : ThreadId} {p : Pid} {own : Tid} {live : Bool} {j : Option Tid}
    (h : t.keys[i]? = some ⟨p, own, live, j⟩) : t.move i live j = t := by
  have hkeys : (t.keys.modify i fun k => { k with live := live, joins := j }) = t.keys := by
    refine List.ext_getElem? fun a => ?_
    by_cases ha : i = a
    · subst ha
      simp [h]
    · simp [ha]
  rw [move, hkeys]

theorem move_move (t : Links) (i : ThreadId) (live live' : Bool) (j j' : Option Tid) :
    (t.move i live j).move i live' j' = t.move i live' j' := by
  simp [move, List.modify_modify_eq, Function.comp_def]

/-- What thread `i`, of `p` and with the PTCB `own`, does to the PTCBs. -/
inductive Step (i : ThreadId) (p : Pid) (own : Tid) (t : Links) : Links → Prop
  | start {x : Ptcb} (q : Pid) (tid : Tid) : t.ptcb tid = none → x.exited = false → x.refcount = 0 →
      Step i p own t (t.start q tid x)
  | exit {x : Ptcb} (exitval : Int) : t.keys[i]? = some ⟨p, own, true, none⟩ → t.ptcb own = some x →
      Step i p own t ((t.setPtcb own (some { x with exitval := exitval, exited := true })).move i false none)
  | enter {x : Ptcb} (tid : Tid) : t.keys[i]? = some ⟨p, own, true, none⟩ → tid ∈ t.list p → tid ≠ own →
      t.ptcb tid = some x →
      Step i p own t ((t.setPtcb tid (some { x with refcount := x.refcount + 1 })).move i true (some tid))
  | leave {x : Ptcb} (tid : Tid) : t.keys[i]? = some ⟨p, own, true, some tid⟩ → t.ptcb tid = some x →
      Step i p own t ((t.setPtcb tid (some { x with refcount := x.refcount - 1 })).move i true none)
  | free {x : Ptcb} (tid : Tid) : t.keys[i]? = some ⟨p, own, true, none⟩ → t.ptcb tid = some x → tid ∈ t.list p →
      x.refcount = 0 → x.exited = true → Step i p own t (t.free p tid)
  | detach {x : Ptcb} (tid : Tid) : t.ptcb tid = some x →
      Step i p own t (t.setPtcb tid (some { x with detached := true }))

/-! ## The invariant -/

structure Inv (t : Links) : Prop where
  listed : ∀ p tid, tid ∈ t.list p → (t.ptcb tid).isSome
  unique : ∀ p q tid, tid ∈ t.list p → tid ∈ t.list q → p = q
  nodup : ∀ p, (t.list p).Nodup
  own : ∀ (i : ThreadId) (k : Key), t.keys[i]? = some k → k.live = true →
    k.own ∈ t.list k.owner ∧ ∃ x, t.ptcb k.own = some x ∧ x.exited = false
  distinct : ∀ (i j : ThreadId) (k k' : Key), t.keys[i]? = some k → t.keys[j]? = some k' → k.live = true →
    k'.live = true → k.own = k'.own → i = j
  joins : ∀ (i : ThreadId) (k : Key) tid, t.keys[i]? = some k → k.joins = some tid →
    k.live = true ∧ tid ∈ t.list k.owner ∧ tid ≠ k.own
  refcount : ∀ tid x, t.ptcb tid = some x → x.refcount = t.keys.countP (·.joins = some tid)

namespace Inv

variable {t t' : Links} {i : ThreadId} {p q : Pid} {own tid : Tid} {x : Ptcb} {k : Key}

/-- Thread `i` moves, and changes the PTCB `tid` along with it. -/
theorem turn (h : t.Inv) {j j' : Option Tid} {live : Bool} {y : Ptcb} (hi : t.keys[i]? = some ⟨p, own, true, j⟩)
    (hx : t.ptcb tid = some x) (he : y.exited = x.exited ∨ tid = own ∧ live = false)
    (hj : ∀ a, j' = some a → live = true ∧ a ∈ t.list p ∧ a ≠ own)
    (hother : ∀ a, a ≠ tid → (j' = some a ↔ j = some a))
    (hr : y.refcount + (if j = some tid then 1 else 0) = x.refcount + (if j' = some tid then 1 else 0)) :
    ((t.setPtcb tid (some y)).move i live j').Inv := by
  have hget : ∀ a k, (t.move i live j').keys[a]? = some k →
      a = i ∧ k = ⟨p, own, live, j'⟩ ∨ a ≠ i ∧ t.keys[a]? = some k := fun a k ha => move_cases hi ha
  have hself : Function.update t.ptcb tid (some y) tid = some y := Function.update_self _ _ _
  have hptcb : ∀ {a}, a ≠ tid → Function.update t.ptcb tid (some y) a = t.ptcb a := fun ha =>
    Function.update_of_ne ha _ _
  constructor
  case listed =>
    intro q a ha
    show (Function.update t.ptcb tid (some y) a).isSome
    by_cases hat : a = tid
    · rw [hat, hself]
      rfl
    · rw [hptcb hat]
      exact h.listed q a ha
  case unique => exact h.unique
  case nodup => exact h.nodup
  case own =>
    intro a k ha hk
    have hold : ∃ (b : ThreadId) (k₀ : Key), t.keys[b]? = some k₀ ∧ k₀.live = true ∧ k.own = k₀.own ∧ k.owner = k₀.owner ∧
        (k.own = tid → y.exited = x.exited) := by
      rcases hget a k ha with ⟨rfl, rfl⟩ | ⟨hai, ha⟩
      · refine ⟨a, _, hi, rfl, rfl, rfl, fun _ => he.resolve_right fun hn => ?_⟩
        rw [show live = true from hk] at hn
        cases hn.2
      · refine ⟨a, k, ha, hk, rfl, rfl, fun hkt => he.resolve_right fun hn => hai ?_⟩
        exact h.distinct a i k _ ha hi hk rfl (hkt.trans hn.1)
    obtain ⟨b, k₀, hb, hl, hown, howner, hex⟩ := hold
    obtain ⟨hm, z, hz, hze⟩ := h.own b k₀ hb hl
    rw [hown, howner]
    refine ⟨hm, ?_⟩
    show ∃ x, Function.update t.ptcb tid (some y) k₀.own = some x ∧ _
    by_cases hat : k₀.own = tid
    · rw [hat, hx] at hz
      obtain rfl := Option.some.inj hz
      exact ⟨y, by rw [hat, hself], (hex (hown.trans hat)).trans hze⟩
    · exact ⟨z, (hptcb hat).trans hz, hze⟩
  case distinct =>
    intro a b k k' ha hb hk hk' heq
    rcases hget a k ha with ⟨rfl, rfl⟩ | ⟨-, ha'⟩ <;> rcases hget b k' hb with ⟨rfl, rfl⟩ | ⟨-, hb'⟩
    · rfl
    · exact h.distinct a b _ k' hi hb' rfl hk' heq
    · exact h.distinct a b k _ ha' hi hk rfl heq
    · exact h.distinct a b k k' ha' hb' hk hk' heq
  case joins =>
    intro a k c ha hc
    rcases hget a k ha with ⟨rfl, rfl⟩ | ⟨-, ha⟩
    · exact hj c hc
    · exact h.joins a k c ha hc
  case refcount =>
    intro a z hz
    have hcount : (t.keys.modify i fun k => { k with live := live, joins := j' }).countP (·.joins = some a) +
        (if j = some a then 1 else 0) = t.keys.countP (·.joins = some a) + (if j' = some a then 1 else 0) := by
      simpa using List.countP_modify_add (p := fun k : Key => decide (k.joins = some a)) _ hi
    show z.refcount = (t.keys.modify i fun k => { k with live := live, joins := j' }).countP (·.joins = some a)
    by_cases hat : a = tid
    · subst hat
      obtain rfl : y = z := Option.some.inj (hself.symm.trans hz)
      have := h.refcount a x hx
      omega
    · have hold := h.refcount a z ((hptcb hat).symm.trans hz)
      have hsame : (if j' = some a then 1 else 0) = if j = some a then 1 else 0 := if_congr (hother a hat) rfl rfl
      omega

/-- The fields of a PTCB that the invariant does not look at may change. -/
theorem setPtcb (h : t.Inv) (hx : t.ptcb tid = some x) {y : Ptcb} (hr : y.refcount = x.refcount)
    (he : y.exited = x.exited) : (t.setPtcb tid (some y)).Inv := by
  have hself : (t.setPtcb tid (some y)).ptcb tid = some y := Function.update_self _ _ _
  have hptcb : ∀ {a}, a ≠ tid → (t.setPtcb tid (some y)).ptcb a = t.ptcb a := fun ha => Function.update_of_ne ha _ _
  refine { h with listed := fun p a ha => ?_, own := fun i k hi hk => ?_, refcount := fun a z hz => ?_ }
  · by_cases hat : a = tid
    · rw [hat, hself]
      rfl
    · rw [hptcb hat]
      exact h.listed p a ha
  · obtain ⟨hm, z, hz, hze⟩ := h.own i k hi hk
    refine ⟨hm, ?_⟩
    by_cases hat : k.own = tid
    · rw [hat, hx] at hz
      obtain rfl := Option.some.inj hz
      exact ⟨y, by rw [hat, hself], he.trans hze⟩
    · exact ⟨z, (hptcb hat).trans hz, hze⟩
  · by_cases hat : a = tid
    · subst hat
      obtain rfl : y = z := Option.some.inj (hself.symm.trans hz)
      exact hr.trans (h.refcount a x hx)
    · exact h.refcount a z ((hptcb hat).symm.trans hz)

/-- A free PTCB is in no list. -/
theorem not_listed (h : t.Inv) (hfree : t.ptcb tid = none) (p : Pid) : tid ∉ t.list p := fun hm => by
  have := h.listed p tid hm
  rw [hfree] at this
  cases this

/-- It is not that of a thread that has not exited. -/
theorem own_ne (h : t.Inv) (hfree : t.ptcb tid = none) (hi : t.keys[i]? = some k) (hk : k.live = true) : k.own ≠ tid := by
  rintro rfl
  exact h.not_listed hfree _ (h.own i k hi hk).1

theorem start (h : t.Inv) (q : Pid) (hfree : t.ptcb tid = none) (he : x.exited = false) (hr : x.refcount = 0) :
    (t.start q tid x).Inv := by
  have hnot : ∀ p, tid ∉ t.list p := h.not_listed hfree
  have hlist : ∀ {a p}, a ∈ (t.start q tid x).list p ↔ a ∈ t.list p ∨ p = q ∧ a = tid := by
    intro a p
    by_cases hp : p = q
    · subst hp
      simp [Links.start]
    · simp [Links.start, hp]
  have hptcb : ∀ {a}, a ≠ tid → (t.start q tid x).ptcb a = t.ptcb a := fun ha => Function.update_of_ne ha _ _
  have hself : (t.start q tid x).ptcb tid = some x := Function.update_self _ _ _
  have hown : ∀ {j : ThreadId} {k : Key}, t.keys[j]? = some k → k.live = true → k.own ≠ tid := fun hj hk =>
    h.own_ne hfree hj hk
  constructor
  case listed =>
    intro p a ha
    rcases hlist.1 ha with hm | ⟨-, rfl⟩
    · rw [hptcb (by rintro rfl; exact hnot p hm)]
      exact h.listed p a hm
    · simp [hself]
  case unique =>
    intro p r a hp hr
    rcases hlist.1 hp with hp' | ⟨rfl, rfl⟩ <;> rcases hlist.1 hr with hr' | ⟨rfl, hat⟩
    · exact h.unique p r a hp' hr'
    · exact absurd (hat ▸ hp') (hnot p)
    · exact absurd hr' (hnot r)
    · rfl
  case nodup =>
    intro p
    by_cases hp : p = q
    · subst hp
      simpa [Links.start] using List.Nodup.append (h.nodup p) (List.nodup_singleton tid) (by simpa using hnot p)
    · simpa [Links.start, hp] using h.nodup p
  case own =>
    intro j k hj hk
    rcases keys_start hj with hj | ⟨-, rfl⟩
    · obtain ⟨hm, z, hz, hze⟩ := h.own j k hj hk
      exact ⟨hlist.2 (.inl hm), z, (hptcb (hown hj hk)).trans hz, hze⟩
    · exact ⟨hlist.2 (.inr ⟨rfl, rfl⟩), x, hself, he⟩
  case distinct =>
    intro a b k k' ha hb hk hk' heq
    rcases keys_start ha with ha | ⟨rfl, rfl⟩ <;> rcases keys_start hb with hb | ⟨rfl, rfl⟩
    · exact h.distinct a b k k' ha hb hk hk' heq
    · exact absurd heq (hown ha hk)
    · exact absurd heq.symm (hown hb hk')
    · rfl
  case joins =>
    intro j k a hj hk
    rcases keys_start hj with hj | ⟨-, rfl⟩
    · obtain ⟨hl, hm, hne⟩ := h.joins j k a hj hk
      exact ⟨hl, hlist.2 (.inl hm), hne⟩
    · cases hk
  case refcount =>
    intro a z hz
    rw [show (t.start q tid x).keys = t.keys ++ [⟨q, tid, true, none⟩] from rfl, List.countP_append]
    by_cases ha : a = tid
    · subst ha
      obtain rfl : x = z := Option.some.inj (hself.symm.trans hz)
      have hzero : t.keys.countP (·.joins = some a) = 0 := by
        rw [List.countP_eq_zero]
        intro k hk hj
        obtain ⟨j, hj'⟩ := List.mem_iff_getElem?.1 hk
        exact hnot _ (h.joins j k a hj' (by simpa using hj)).2.1
      rw [hzero, hr]
      simp
    · rw [hptcb ha] at hz
      rw [h.refcount a z hz]
      simp

/-- A PTCB that nobody joins, of a thread that has exited, leaves its list and the heap. -/
theorem free (h : t.Inv) (hx : t.ptcb tid = some x) (hp : tid ∈ t.list p) (hr : x.refcount = 0)
    (he : x.exited = true) : (t.free p tid).Inv := by
  have hlist : ∀ {a q}, a ∈ (t.free p tid).list q ↔ a ∈ t.list q ∧ a ≠ tid := by
    intro a q
    by_cases hq : q = p
    · subst hq
      simp [Links.free, (h.nodup q).mem_erase_iff, and_comm]
    · have : tid ∉ t.list q := fun hm => hq (h.unique q p tid hm hp)
      simp only [Links.free, Function.update_of_ne hq]
      exact ⟨fun hm => ⟨hm, by rintro rfl; exact this hm⟩, And.left⟩
  have hptcb : ∀ {a}, a ≠ tid → (t.free p tid).ptcb a = t.ptcb a := fun ha => Function.update_of_ne ha _ _
  have hown : ∀ {j : ThreadId} {k : Key}, t.keys[j]? = some k → k.live = true → k.own ≠ tid := by
    rintro j k hj hk rfl
    obtain ⟨z, hz, hze⟩ := (h.own j k hj hk).2
    obtain rfl : x = z := Option.some.inj (hx.symm.trans hz)
    rw [he] at hze
    cases hze
  have hjoins : ∀ {j : ThreadId} {k : Key}, t.keys[j]? = some k → k.joins ≠ some tid := by
    intro j k hj hk
    have hpos : 0 < t.keys.countP (·.joins = some tid) :=
      List.countP_pos_iff.2 ⟨k, List.mem_of_getElem? hj, by simpa using hk⟩
    rw [← h.refcount tid x hx, hr] at hpos
    cases hpos
  constructor
  case listed =>
    intro q a ha
    obtain ⟨ha, hne⟩ := hlist.1 ha
    rw [hptcb hne]
    exact h.listed q a ha
  case unique => exact fun q r a hq hr => h.unique q r a (hlist.1 hq).1 (hlist.1 hr).1
  case nodup =>
    intro q
    by_cases hq : q = p
    · subst hq
      simpa [Links.free] using (h.nodup q).erase tid
    · simpa [Links.free, hq] using h.nodup q
  case own =>
    intro j k hj hk
    obtain ⟨hm, z, hz, hze⟩ := h.own j k hj hk
    exact ⟨hlist.2 ⟨hm, hown hj hk⟩, z, (hptcb (hown hj hk)).trans hz, hze⟩
  case distinct => exact h.distinct
  case joins =>
    intro j k a hj hk
    obtain ⟨hl, hm, hne⟩ := h.joins j k a hj hk
    exact ⟨hl, hlist.2 ⟨hm, by rintro rfl; exact hjoins hj hk⟩, hne⟩
  case refcount =>
    intro a z hz
    have hat : a ≠ tid := by
      rintro rfl
      simp [Links.free] at hz
    exact h.refcount a z ((hptcb hat).symm.trans hz)

/-- Every change keeps the invariant. -/
theorem step (h : t.Inv) (hs : Step i p own t t') : t'.Inv := by
  cases hs with
  | start q tid hfree he hr => exact h.start q hfree he hr
  | exit exitval hi hx => exact h.turn hi hx (.inr ⟨rfl, rfl⟩) (fun a ha => by cases ha) (fun a _ => Iff.rfl) (by simp)
  | enter tid hi hm hne hx =>
    refine h.turn hi hx (.inl rfl) (fun a ha => ?_) (fun a ha => by simp [Ne.symm ha]) (by simp)
    cases ha
    exact ⟨rfl, hm, hne⟩
  | @leave x tid hi hx =>
    refine h.turn hi hx (.inl rfl) (fun a ha => by cases ha) (fun a ha => by simp [Ne.symm ha]) ?_
    have hpos : 0 < t.keys.countP (·.joins = some tid) :=
      List.countP_pos_iff.2 ⟨_, List.mem_of_getElem? hi, by simp⟩
    rw [← h.refcount tid x hx] at hpos
    simp only [if_true, reduceCtorEq, if_false]
    omega
  | free tid _ hx hp hr he => exact h.free hx hp hr he
  | detach tid hx => exact h.setPtcb hx rfl rfl

theorem steps (h : t.Inv) (hs : ReflTransGen (Step i p own) t t') : t'.Inv := by
  induction hs with
  | refl => exact h
  | tail _ hs ih => exact ih.step hs

/-- The list of the process still holds the PTCB of the thread that frees another one. -/
theorem step_ne_nil (h : t.Inv) (hs : Step i p own t t') (hq : t.list q ≠ []) : t'.list q ≠ [] := by
  cases hs with
  | start r tid _ _ _ =>
    by_cases hr : q = r
    · subst hr
      simp [Links.start]
    · simpa [Links.start, hr] using hq
  | @free x tid hi hx hp hr he =>
    by_cases hqp : q = p
    · subst hqp
      obtain ⟨hm, z, hz, hze⟩ := h.own i _ hi rfl
      have hne : own ≠ tid := by
        rintro rfl
        obtain rfl : x = z := Option.some.inj (hx.symm.trans hz)
        rw [he] at hze
        cases hze
      have : own ∈ (t.list q).erase tid := (List.mem_erase_of_ne hne).2 hm
      simpa [Links.free] using List.ne_nil_of_mem this
    · simpa [Links.free, hqp] using hq
  | _ => exact hq

theorem steps_ne_nil (h : t.Inv) (hs : ReflTransGen (Step i p own) t t') (hq : t.list q ≠ []) : t'.list q ≠ [] := by
  induction hs with
  | refl => exact hq
  | tail hs₁ hs ih => exact (h.steps hs₁).step_ne_nil hs ih

end Inv

end Links

/-! ## The links of a state -/

namespace State

variable {s s' : State} {cur p : Pid} {i : ThreadId} {own tid : Tid} {x : Pcb}

def links (s : State) : Links := ⟨s.threads.map Thread.key, s.ptcb, fun p => (s.pcb p).ptcbList⟩

/-! ### Changes of a state -/

theorem map_modify_key (f : Thread → Thread) (live : Bool) (j : Option Tid)
    (hf : ∀ th, (f th).key = { th.key with live := live, joins := j }) (l : List Thread) :
    (l.modify i f).map Thread.key = (l.map Thread.key).modify i fun k => { k with live := live, joins := j } := by
  refine List.ext_getElem? fun a => ?_
  by_cases ha : i = a
  · subst ha
    simp [Function.comp_def, hf]
  · simp [ha]

theorem links_setPlace (s : State) (i : ThreadId) (pl : Place) :
    (s.setPlace i pl).links = s.links.move i (pl ≠ .exited) pl.joins := by
  unfold links setPlace Links.move
  rw [map_modify_key _ (pl ≠ .exited) pl.joins fun th => rfl]

@[simp] theorem links_ret (s : State) (i : ThreadId) (v : Int) (out : Option Int) :
    (s.ret i v out).links = s.links.move i true none := by
  unfold links ret Links.move
  rw [map_modify_key _ true none fun th => by simp [Thread.key, Place.joins]]

@[simp] theorem links_wait (s : State) (i : ThreadId) (w : Wait) :
    (s.wait i w).links = s.links.move i true (Place.waiting w false).joins := by
  unfold wait
  rw [links_setPlace]
  simp

@[simp] theorem links_wake (on : Thread → Wait → Bool) : (s.wake on).links = s.links := by
  unfold links wake
  rw [List.map_map]
  congr 1
  refine List.map_congr_left fun th _ => ?_
  unfold Function.comp Thread.wake
  split
  · rename_i h
    split
    · cases hw : ‹Wait› <;> simp [Thread.key, h, hw, Place.joins]
    · rfl
  · rfl

theorem links_setPcb (hx : x.ptcbList = (s.pcb p).ptcbList) : (s.setPcb p x).links = s.links := by
  unfold links setPcb
  congr 1
  funext q
  by_cases hq : q = p
  · subst hq
    simp [hx]
  · simp [hq]

@[simp] theorem links_setView (v : Streams.View) : (s.setView p v).links = s.links :=
  (links_setPcb rfl : (s.setPcb p { s.pcb p with fidt := v.fidt }).links = s.links)

theorem links_startThread (s : State) (p : Pid) (tid : Tid) (task : Task) (argl : Int) (args : Args) :
    (s.startThread p tid task argl args).links = s.links.start p tid ⟨task, argl, args, 0, false, false, 0⟩ := by
  unfold links startThread Links.start
  congr 1
  · simp [Thread.key, Place.joins]
  · funext q
    by_cases hq : q = p
    · subst hq
      simp [setPtcb, setPcb]
    · simp [setPtcb, setPcb, hq]

theorem links_freePtcb (s : State) (p : Pid) (tid : Tid) : (s.freePtcb p tid).links = s.links.free p tid := by
  unfold links freePtcb Links.free
  congr 1
  funext q
  by_cases hq : q = p
  · subst hq
    simp [setPtcb, setPcb]
  · simp [setPtcb, setPcb, hq]

@[simp] theorem links_reportExit (t : Tree) : (s.reportExit p t).links = s.links := by
  unfold reportExit broadcastChildExit
  dsimp only
  split <;> split <;> simp

@[simp] theorem links_cleanupProcess : (s.cleanupProcess p).links = s.links :=
  (links_setView _).trans (links_setPcb rfl)

/-! ### The system calls -/

/-- Thread `i` of `cur` has the PTCB `own`, has not exited and joins `j`. -/
def Acts (s : State) (i : ThreadId) (cur : Pid) (own : Tid) (j : Option Tid) : Prop :=
  s.links.keys[i]? = some ⟨cur, own, true, j⟩

theorem setupProcess_links (s : State) (cur p : Pid) (tree : Tree) (call : Option Task) (argl : Int) (args : Args) :
    (s.setupProcess cur p tree call argl args).links = s.links := by
  unfold setupProcess
  refine Eq.trans (links_setPcb rfl) ?_
  split
  · rfl
  · exact links_setView _

theorem sysExec_links {tree : Tree} (he : s.tree.exec cur = some (p, tree)) (tid : Tid) (call : Option Task) (argl : Int)
    (args : Args) :
    (s.sysExec cur tid call argl args).2.links =
      call.elim s.links fun task => s.links.start p tid ⟨task, argl, args, 0, false, false, 0⟩ := by
  unfold sysExec
  rw [he]
  have hl := setupProcess_links s cur p tree call argl args
  cases call with
  | none => exact hl
  | some task =>
    dsimp only [startMain, Option.elim]
    rw [links_startThread, links_setPcb (by rfl), hl]

theorem exitProcess_links (he : s.exitProcess p = some s') : s'.links = s.links := by
  unfold exitProcess at he
  obtain ⟨t, -, rfl⟩ := Option.map_eq_some_iff.1 he
  have h : ∀ s₁ : State, s₁.links = s.links → State.links { s₁.cleanupProcess p with tree := t } = s.links :=
    fun s₁ h₁ => (links_cleanupProcess (s := s₁)).trans h₁
  split
  · exact h _ (links_reportExit t)
  · exact h _ rfl

theorem sysThreadExit_links {exitval : Int} (hi : s.Acts i cur own none)
    (he : s.sysThreadExit i cur own exitval = some s') : Links.Step i cur own s.links s'.links := by
  unfold sysThreadExit at he
  obtain ⟨x, hx, he⟩ := Option.bind_eq_some_iff.1 he
  obtain ⟨s₂, h₂, rfl⟩ := Option.map_eq_some_iff.1 he
  have hlinks : s₂.links = s.links.setPtcb own (some { x with exitval := exitval, exited := true }) := by
    have hwake : ∀ s₁ : State, s₁.links = s.links.setPtcb own (some { x with exitval := exitval, exited := true }) →
        (if (s₁.pcb cur).threadCounter = 0 then s₁.exitProcess cur else some s₁) = some s₂ →
        s₂.links = s.links.setPtcb own (some { x with exitval := exitval, exited := true }) := by
      intro s₁ h₁ h₂
      split at h₂
      · exact (exitProcess_links h₂).trans h₁
      · cases h₂
        exact h₁
    refine hwake _ ?_ h₂
    split
    · exact (links_wake _).trans (links_setPcb rfl)
    · exact links_setPcb rfl
  rw [links_setPlace, hlinks]
  exact .exit exitval hi hx

theorem joinLoop_links {j : Option Tid} (hinv : (s.links.move i true (some tid)).Inv) (hi : s.Acts i cur own j)
    (he : s.joinLoop i cur tid = some s') :
    ReflTransGen (Links.Step i cur own) (s.links.move i true (some tid)) s'.links := by
  unfold joinLoop at he
  obtain ⟨x, hx, rfl⟩ := Option.map_eq_some_iff.1 he
  have hkey : (s.links.move i true (some tid)).keys[i]? = some ⟨cur, own, true, some tid⟩ := Links.keys_move hi
  have hleave : Links.Step i cur own (s.links.move i true (some tid)) _ := .leave tid hkey hx
  rw [show (s.links.move i true (some tid)).setPtcb tid (some { x with refcount := x.refcount - 1 }) =
    (s.links.setPtcb tid (some { x with refcount := x.refcount - 1 })).move i true (some tid) from rfl,
    Links.move_move] at hleave
  dsimp only
  split
  · rw [links_wait]
    exact .refl
  · rename_i hloop
    split
    · rw [links_ret]
      exact .single hleave
    · rename_i hdet
      split
      · rename_i hzero
        rw [links_ret, links_freePtcb]
        refine .tail (.single hleave) ?_
        refine .free tid (Links.keys_move (t := s.links.setPtcb tid _) hi) (Function.update_self _ _ _)
          (hinv.joins i _ tid hkey rfl).2.1 hzero ?_
        simpa [hdet] using hloop
      · rw [links_ret]
        exact .single hleave

theorem links_ret_self (hi : s.Acts i cur own none) (v : Int) (out : Option Int) : (s.ret i v out).links = s.links := by
  rw [links_ret, Links.move_self hi]

theorem links_wait_self (hi : s.Acts i cur own none) {w : Wait} (hw : (Place.waiting w false).joins = none) :
    (s.wait i w).links = s.links := by
  rw [links_wait, hw, Links.move_self hi]

theorem sysThreadJoin_links (hinv : s.links.Inv) (hi : s.Acts i cur own none)
    (he : s.sysThreadJoin i cur own tid = some s') : ReflTransGen (Links.Step i cur own) s.links s'.links := by
  unfold sysThreadJoin at he
  split at he
  · cases he
    rw [links_ret_self hi]
  · rename_i x hx
    split at he
    · cases he
      rw [links_ret_self hi]
    · rename_i hcheck
      simp only [not_or, not_not] at hcheck
      have henter : Links.Step i cur own s.links _ := .enter tid hi hcheck.1 (Ne.symm hcheck.2.2.2) hx
      exact .head henter (joinLoop_links (s := s.setPtcb tid _) (hinv.step henter) hi he)

theorem sysThreadDetach_links (hi : s.Acts i cur own none) :
    ReflTransGen (Links.Step i cur own) s.links (s.sysThreadDetach i cur tid).links := by
  unfold sysThreadDetach
  split
  · rw [links_ret_self hi]
  · rename_i x hx
    split
    · rw [links_ret_self hi]
    · have hl : ((s.setPtcb tid (some { x with detached := true })).broadcastExit tid).links =
          s.links.setPtcb tid (some { x with detached := true }) := links_wake _
      have hi' : State.Acts ((s.setPtcb tid (some { x with detached := true })).broadcastExit tid) i cur own none := by
        unfold Acts
        rw [hl]
        exact hi
      rw [links_ret_self hi', hl]
      exact .single (.detach tid hx)

theorem reap_links (hi : s.Acts i cur own none) (child : Pid) : (s.reap i cur child).links = s.links :=
  links_ret_self (s := s.cleanupZombie cur child) hi _ _

theorem specificLoop_links (hi : s.Acts i cur own none) (child : Pid) : (s.specificLoop i cur child).links = s.links := by
  unfold specificLoop
  split
  · exact links_wait_self hi rfl
  · exact reap_links hi child

theorem waitForSpecificChild_links (hi : s.Acts i cur own none) (cpid : Int) :
    (s.waitForSpecificChild i cur cpid).links = s.links := by
  unfold waitForSpecificChild
  split
  · exact links_ret_self hi _ _
  · split
    · exact links_ret_self hi _ _
    · exact specificLoop_links hi _

theorem waitForAnyChild_links (hi : s.Acts i cur own none) (he : s.waitForAnyChild i cur = some s') :
    s'.links = s.links := by
  unfold waitForAnyChild at he
  split at he
  · cases he
    exact links_ret_self hi _ _
  · split at he
    · cases he
      exact reap_links hi _
    · cases he
  · cases he
    exact links_wait_self hi rfl

theorem exitLoop_links {exitval : Int} : ∀ (n : Nat) {s : State}, s.Acts i cur own none →
    s.exitLoop i cur own exitval n = some s' → ReflTransGen (Links.Step i cur own) s.links s'.links := by
  intro n
  induction n with
  | zero => intro s _ he; cases he
  | succ n ih =>
    intro s hi he
    unfold exitLoop at he
    split at he
    · exact .single (sysThreadExit_links hi he)
    · split at he
      · exact ih (s := s.cleanupZombie cur _) hi he
      · cases he
    · cases he
      rw [links_wait_self hi rfl]

theorem sysExit_links {exitval : Int} (hi : s.Acts i cur own none) (he : s.sysExit i cur own exitval = some s') :
    ReflTransGen (Links.Step i cur own) s.links s'.links := by
  unfold sysExit at he
  have hl : (s.setPcb cur { s.pcb cur with exitval := exitval }).links = s.links := links_setPcb rfl
  have hi' : State.Acts (s.setPcb cur { s.pcb cur with exitval := exitval }) i cur own none := by
    unfold Acts
    rw [hl]
    exact hi
  rw [← hl]
  dsimp only at he
  split at he
  · exact exitLoop_links _ hi' he
  · exact .single (sysThreadExit_links hi' he)

/-! ### Steps -/

theorem Acts.same {s₁ : State} (hi : s.Acts i cur own none) (hl : s₁.links = s.links) : s₁.Acts i cur own none := by
  unfold Acts
  rw [hl]
  exact hi

/-- A thread stays where it is when another one starts. -/
theorem Acts.start {s₁ : State} {q : Pid} {y : Ptcb} (hi : s.Acts i cur own none)
    (hl : s₁.links = s.links.start q tid y) : s₁.Acts i cur own none := by
  unfold Acts
  rw [hl]
  exact (List.getElem?_append_left (List.getElem?_eq_some_iff.1 hi).1).trans hi

/-- A system call changes the links by steps of its thread. -/
theorem perform_links {c : Call} (hinv : s.links.Inv) (hi : s.Acts i cur own none)
    (he : s.perform i cur own c = some s') : ReflTransGen (Links.Step i cur own) s.links s'.links := by
  cases c with
  | exec tid call argl args =>
    simp only [perform] at he
    split at he
    · rename_i hfresh
      cases he
      have hfree : s.ptcb tid = none := by simpa using hfresh.2
      cases ht : s.tree.exec cur with
      | none => rw [sysExec_none ht, links_ret_self hi]
      | some r =>
        have hl := sysExec_links ht tid call argl args
        cases call with
        | none => rw [links_ret_self (hi.same hl), hl, Option.elim]
        | some task =>
          rw [links_ret_self (hi.start hl), hl]
          exact .single (.start r.1 tid hfree rfl rfl)
    · cases he
  | createThread tid task argl args =>
    simp only [perform] at he
    split at he
    · rename_i hfresh
      cases he
      have hfree : s.ptcb tid = none := by simpa using hfresh.2
      have hl := links_startThread s cur tid task argl args
      rw [links_ret_self (hi.start hl), hl]
      exact .single (.start cur tid hfree rfl rfl)
    · cases he
  | threadJoin tid => exact sysThreadJoin_links hinv hi he
  | threadDetach tid =>
    cases he
    exact sysThreadDetach_links hi
  | threadExit exitval => exact .single (sysThreadExit_links hi he)
  | exit exitval => exact sysExit_links hi he
  | waitChild cpid =>
    simp only [perform, sysWaitChild] at he
    split at he
    · cases he
      rw [waitForSpecificChild_links hi]
    · rw [waitForAnyChild_links hi he]
  | file c =>
    obtain ⟨v, -, rfl⟩ := Option.map_eq_some_iff.1 he
    rw [links_setView]

theorem resume_links {w : Wait} (hinv : s.links.Inv) (hi : s.Acts i cur own (Place.waiting w true).joins)
    (he : s.resume i cur own w = some s') : ReflTransGen (Links.Step i cur own) s.links s'.links := by
  cases w with
  | specificChild child =>
    cases he
    rw [specificLoop_links hi]
  | anyChild => rw [waitForAnyChild_links hi he]
  | exitOfInit exitval => exact exitLoop_links _ hi he
  | join tid =>
    have hself : s.links.move i true (some tid) = s.links := Links.move_self hi
    have := joinLoop_links (s := s) (hself.symm ▸ hinv) hi he
    rwa [hself] at this

theorem acts_of_place {th : Thread} (hi : s.threads[i]? = some th) (hp : th.place ≠ .exited) :
    s.Acts i th.ownerPcb th.ownerPtcb th.place.joins := by
  simp [Acts, links, hi, Thread.key, hp]

/-- A step changes the links by steps of its thread, which has not exited. -/
theorem step_links {a : Action} (hinv : s.links.Inv) (hs : s.step a = some s') :
    ∃ i th, s.threads[i]? = some th ∧ th.place ≠ .exited ∧
      ReflTransGen (Links.Step i th.ownerPcb th.ownerPtcb) s.links s'.links := by
  obtain ⟨i, c, th, rfl, hi, hp, he⟩ | ⟨i, w, th, rfl, hi, hp, he⟩ := step_cases hs
  · have ha := acts_of_place hi (by simp [hp])
    rw [hp] at ha
    exact ⟨i, th, hi, by simp [hp], perform_links hinv ha he⟩
  · have ha := acts_of_place hi (by simp [hp])
    rw [hp] at ha
    exact ⟨i, th, hi, by simp [hp], resume_links hinv ha he⟩

theorem step_links_inv {a : Action} (hinv : s.links.Inv) (hs : s.step a = some s') : s'.links.Inv := by
  obtain ⟨i, th, -, -, hsteps⟩ := step_links hinv hs
  exact hinv.steps hsteps

/-- At the start there is the PTCB of the main thread of init. -/
theorem boot_links (tid : Tid) (initTask : Task) (argl : Int) (args : Args) :
    (boot tid initTask argl args).links =
      Links.start ⟨[], fun _ => none, fun _ => []⟩ initPid tid ⟨initTask, argl, args, 0, false, false, 0⟩ := by
  obtain ⟨t, t', h₁, h₂⟩ : ∃ t t', Tree.initial.exec ⟨0, by decide⟩ = some (⟨0, by decide⟩, t) ∧
      t.exec ⟨0, by decide⟩ = some (initPid, t') := ⟨_, _, rfl, rfl⟩
  have he₁ := sysExec_links (s := initial) h₁ tid none 0 none
  have htree : (initial.sysExec ⟨0, by decide⟩ tid none 0 none).2.tree = t :=
    congrArg Table.tree (sysExec_table (s := initial) h₁ tid none 0 none)
  refine (sysExec_links (htree ▸ h₂) tid (some initTask) argl args).trans ?_
  rw [Option.elim, he₁]
  rfl

theorem boot_links_inv (tid : Tid) (initTask : Task) (argl : Int) (args : Args) :
    (boot tid initTask argl args).links.Inv := by
  rw [boot_links]
  refine Links.Inv.start ?_ initPid rfl rfl rfl
  constructor <;> simp

end State

end TinyOS.Proc
