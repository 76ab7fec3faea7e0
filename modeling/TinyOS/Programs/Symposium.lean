import Mathlib.Algebra.Group.Int.Defs
import Mathlib.Algebra.Group.Nat.Defs
import TinyOS.Lib.Monitor

/-!
# The dining philosophers

`SymposiumTable_philosopher`, with the sections under `S->mx` that a philosopher runs: `arriving`, `thinking` (it
becomes hungry), `waiting` (it is back from `Cond_Wait`), `eating` (it has eaten) and `leaving`. What `think` and `eat`
burn and what `print_state` prints changes nothing.

The sum in `RIGHT` is one of `int`s. It wraps at tables of more than `2 ^ 30` philosophers, and what is read then is
elsewhere in memory.

- `tryToEat_eq`: at smaller tables, `trytoeat` looks at the two neighbours (`feed`);
- `Seated.step`: what a philosopher's place in the code says of its state, no two neighbours eat, who is hungry has a
  neighbour that eats, and who waits is hungry;
- `symposium_safe_iff`: the monitor's safety, and no needless waiting; both are lost at larger tables.
-/

namespace TinyOS.Symposium

open Monitor

variable {N : ℕ}

/-! ## The monitor -/

inductive Phil
  | notHere
  | thinking
  | hungry
  | eating
deriving DecidableEq, Repr

def left (N : ℕ) (i : ℤ) : ℤ := (i + 1).tmod N

/-- The sum wraps, and the remainder has the sign of the dividend. -/
def right (N : ℕ) (i : ℤ) : ℤ := ((i + N - 1).bmod (2 ^ 32)).tmod N

theorem toNat_lt {k : ℤ} (h : 0 ≤ k ∧ k < N) : k.toNat < N := by omega

/-- The element `k` of an array, if there is one. -/
def element (N : ℕ) (k : ℤ) : Option (Fin N) := if h : 0 ≤ k ∧ k < N then some ⟨k.toNat, toNat_lt h⟩ else none

/-- `state[k]`, where the memory around the array holds `outside`. -/
def read (outside : ℤ → Phil) (state : Fin N → Phil) (k : ℤ) : Phil := (element N k).elim (outside k) state

/-- There is no result where something is written outside the array. -/
def tryToEat (outside : ℤ → Phil) (state : Fin N → Phil) (i : ℤ) : Option ((Fin N → Phil) × List (Wake (Fin N))) :=
  if read outside state i = .hungry ∧ read outside state (left N i) ≠ .eating ∧
      read outside state (right N i) ≠ .eating then
    (element N i).map fun i => (Function.update state i .eating, [.signal i])
  else some (state, [])

/-- The section of `SymposiumTable_philosopher` that comes next; the number is the bites taken so far. -/
inductive Place
  | arriving
  | thinking (j : ℕ)
  | waiting (j : ℕ)
  | eating (j : ℕ)
  | leaving
  | gone

/-- The test of the loop on the bites. -/
def again (bites : ℤ) (j : ℕ) : Place := if j < bites then .thinking j else .leaving

/-- `while(state[i]==HUNGRY) Cond_Wait`, one round of it, and the assertion after it. -/
def untilFed (state : Fin N → Phil) (wakes : List (Wake (Fin N))) (i : Fin N) (j : ℕ) :
    Option (Outcome (Fin N) (Fin N → Phil) Place) :=
  if state i = .hungry then some ⟨state, wakes, .waiting j, some i⟩
  else if state i = .eating then some ⟨state, wakes, .eating j, none⟩
  else none

def philosopher (outside : ℤ → Phil) (bites : ℤ) (i : Fin N) :
    Place → (Fin N → Phil) → Option (Outcome (Fin N) (Fin N → Phil) Place)
  | .arriving, state => some ⟨Function.update state i .thinking, [], again bites 0, none⟩
  | .thinking j, state => do
    let r ← tryToEat outside (Function.update state i .hungry) i.val
    untilFed r.1 r.2 i j
  | .waiting j, state => untilFed state [] i j
  | .eating j, state => do
    let l ← tryToEat outside (Function.update state i .thinking) (left N i.val)
    let r ← tryToEat outside l.1 (right N i.val)
    some ⟨r.1, l.2 ++ r.2, again bites (j + 1), none⟩
  | .leaving, state => some ⟨Function.update state i .notHere, [], .gone, none⟩
  | .gone, state => some ⟨state, [], .gone, none⟩

/-- `N` philosophers at a table. -/
def table (N : ℕ) (bites : ℤ) (outside : ℤ → Phil) : Program (Fin N) (Fin N) (Fin N → Phil) Place where
  ready
    | .gone => false
    | _ => true
  sect := philosopher outside bites

/-- The table as `SymposiumTable_init` leaves it, and the runs of the philosophers from there. -/
def symposium (N : ℕ) (bites : ℤ) (outside : ℤ → Phil) :
    Lts (State (Fin N) (Fin N) (Fin N → Phil) Place) (Action (Fin N) (Fin N)) :=
  sys (table N bites outside) (fun _ => .notHere) fun _ => .arriving

/-! ## Neighbours -/

def onLeft (i : Fin N) : Fin N := ⟨(i + 1) % N, Nat.mod_lt _ i.pos⟩

def onRight (i : Fin N) : Fin N := ⟨(i + N - 1) % N, Nat.mod_lt _ i.pos⟩

theorem onRight_onLeft (i : Fin N) : onRight (onLeft i) = i := by
  apply Fin.ext
  show ((i + 1) % N + N - 1) % N = i
  have hi := i.isLt
  rcases Nat.lt_or_ge (i + 1) N with h | h
  · rw [Nat.mod_eq_of_lt h, show i.val + 1 + N - 1 = i.val + N by omega, Nat.add_mod_right, Nat.mod_eq_of_lt hi]
  · have : i.val + 1 = N := by omega
    rw [this, Nat.mod_self, show 0 + N - 1 = i.val by omega, Nat.mod_eq_of_lt hi]

theorem onLeft_onRight (i : Fin N) : onLeft (onRight i) = i := by
  apply Fin.ext
  show ((i + N - 1) % N + 1) % N = i
  have hi := i.isLt
  rcases Nat.eq_zero_or_pos i.val with h | h
  · rw [show i.val + N - 1 = N - 1 by omega, Nat.mod_eq_of_lt (show N - 1 < N by omega),
      show N - 1 + 1 = N by omega, Nat.mod_self, h]
  · rw [show i.val + N - 1 = i.val - 1 + N by omega, Nat.add_mod_right, Nat.mod_eq_of_lt (show i.val - 1 < N by omega),
      Nat.sub_add_cancel h, Nat.mod_eq_of_lt hi]

theorem onLeft_ne (hN : 2 ≤ N) (i : Fin N) : onLeft i ≠ i := by
  intro h
  have hv : (i.val + 1) % N = i.val := congrArg Fin.val h
  have hi := i.isLt
  rcases Nat.lt_or_ge (i.val + 1) N with hlt | hge
  · rw [Nat.mod_eq_of_lt hlt] at hv
    omega
  · rw [show i.val + 1 = N by omega, Nat.mod_self] at hv
    omega

/-! ## Trying to eat -/

variable {outside : ℤ → Phil} {state : Fin N → Phil} {i k : Fin N} {x : Phil}

theorem element_val (i : Fin N) : element N i.val = some i := by
  have hi := i.isLt
  rw [element, dif_pos (by omega)]
  rfl

theorem read_val (outside : ℤ → Phil) (state : Fin N → Phil) (i : Fin N) : read outside state i.val = state i := by
  rw [read, element_val]
  rfl

theorem left_val (i : Fin N) : left N i.val = (onLeft i).val := by
  have hnat : ((i.val : ℤ) + 1) = ((i.val + 1 : ℕ) : ℤ) := by omega
  rw [left, hnat, ← Int.ofNat_tmod]
  rfl

/-- The sum is an `int`. -/
theorem right_val (hN : N ≤ 2 ^ 30) (i : Fin N) : right N i.val = (onRight i).val := by
  have hi := i.isLt
  have hnat : (i.val : ℤ) + N - 1 = ((i.val + N - 1 : ℕ) : ℤ) := by omega
  have hint : ((i.val : ℤ) + N - 1).bmod (2 ^ 32) = (i.val : ℤ) + N - 1 := Int.bmod_eq_of_le (by omega) (by omega)
  rw [right, hint, hnat, ← Int.ofNat_tmod]
  rfl

/-- `trytoeat`, by the two neighbours. -/
def feed (state : Fin N → Phil) (i : Fin N) : (Fin N → Phil) × List (Wake (Fin N)) :=
  if state i = .hungry ∧ state (onLeft i) ≠ .eating ∧ state (onRight i) ≠ .eating then
    (Function.update state i .eating, [.signal i])
  else (state, [])

theorem tryToEat_eq (hN : N ≤ 2 ^ 30) (outside : ℤ → Phil) (state : Fin N → Phil) (i : Fin N) :
    tryToEat outside state i.val = some (feed state i) := by
  rw [tryToEat, left_val, right_val hN, element_val, read_val, read_val, read_val, feed]
  split <;> rfl

/-- No two neighbours eat. -/
def Apart (state : Fin N → Phil) : Prop := 2 ≤ N → ∀ i, state i = .eating → state (onLeft i) ≠ .eating

/-- If a philosopher is hungry, then a neighbour eats. -/
def Caused (state : Fin N → Phil) (i : Fin N) : Prop :=
  state i = .hungry → state (onLeft i) = .eating ∨ state (onRight i) = .eating

theorem caused_of_ne (h : state k ≠ .hungry) : Caused state k := fun hk => absurd hk h

theorem feed_cases (state : Fin N → Phil) (i : Fin N) :
    ((feed state i).1 = Function.update state i .eating ∧ (feed state i).2 = [.signal i] ∧
      state i = .hungry ∧ state (onLeft i) ≠ .eating ∧ state (onRight i) ≠ .eating) ∨
    ((feed state i).1 = state ∧ Caused state i) := by
  unfold feed
  by_cases h : state i = .hungry ∧ state (onLeft i) ≠ .eating ∧ state (onRight i) ≠ .eating
  · left
    rw [if_pos h]
    exact ⟨rfl, rfl, h⟩
  · right
    rw [if_neg h]
    refine ⟨rfl, fun hh => ?_⟩
    by_contra hn
    rw [not_or] at hn
    exact h ⟨hh, hn⟩

/-- The one that tries to eat may be given to eat, and is signalled then. -/
theorem feed_fst (state : Fin N → Phil) (i k : Fin N) :
    (feed state i).1 k = state k ∨
      state k = .hungry ∧ (feed state i).1 k = .eating ∧ .signal k ∈ (feed state i).2 := by
  rcases feed_cases state i with ⟨he, hw, hi, -⟩ | ⟨he, -⟩
  · rw [he, hw]
    by_cases hk : k = i
    · subst hk
      right
      exact ⟨hi, Function.update_self .., List.mem_singleton_self _⟩
    · left
      exact Function.update_of_ne hk ..
  · rw [he]
    left
    rfl

/-- Two tries, one after the other. -/
theorem feed_twice (state : Fin N → Phil) (i i' k : Fin N) {r r' : (Fin N → Phil) × List (Wake (Fin N))}
    (hr : r = feed state i) (hr' : r' = feed r.1 i') :
    r'.1 k = state k ∨ state k = .hungry ∧ r'.1 k = .eating ∧ .signal k ∈ r.2 ++ r'.2 := by
  subst hr hr'
  rw [List.mem_append]
  rcases feed_fst (feed state i).1 i' k with h' | ⟨hh', he', hw'⟩
  · rw [h']
    exact (feed_fst state i k).imp_right fun ⟨hh, he, hw⟩ => ⟨hh, he, .inl hw⟩
  · rcases feed_fst state i k with h | ⟨-, he, -⟩
    · exact .inr ⟨h ▸ hh', he', .inr hw'⟩
    · rw [he] at hh'
      exact Phil.noConfusion hh'

/-- Who is not hungry stays as it is, -/
theorem feed_of_ne (h : state k ≠ .hungry) : (feed state i).1 k = state k :=
  (feed_fst state i k).resolve_right fun hh => h hh.1

/-- and who eats goes on eating. -/
theorem feed_eating (h : state k = .eating) : (feed state i).1 k = .eating := by
  rw [feed_of_ne (by rw [h]; exact Phil.noConfusion), h]

theorem Apart.feed (h : Apart state) : Apart (feed state i).1 := by
  rcases feed_cases state i with ⟨he, -, -, hl, hr⟩ | ⟨he, -⟩
  · rw [he]
    intro hN k hk
    by_cases hki : k = i
    · subst hki
      rwa [Function.update_of_ne (onLeft_ne hN k)]
    · rw [Function.update_of_ne hki] at hk
      have hlk : onLeft k ≠ i := by
        rintro rfl
        rw [onRight_onLeft] at hr
        exact hr hk
      rw [Function.update_of_ne hlk]
      exact h hN k hk
  · rw [he]
    exact h

theorem Caused.feed (h : Caused state k) : Caused (feed state i).1 k := by
  intro hk
  have hh : state k = .hungry := by
    rcases feed_fst state i k with heq | ⟨hh, -⟩
    · exact heq.symm.trans hk
    · exact hh
  exact (h hh).imp feed_eating feed_eating

/-- Who has just been tried has a cause to wait. -/
theorem caused_feed_self : Caused (feed state i).1 i := by
  rcases feed_cases state i with ⟨he, -⟩ | ⟨he, hc⟩
  · rw [he]
    intro hi
    rw [Function.update_self] at hi
    exact Phil.noConfusion hi
  · rw [he]
    exact hc

theorem Apart.update (h : Apart state) (hx : x ≠ .eating) : Apart (Function.update state i x) := by
  have hold : ∀ k, Function.update state i x k = .eating → state k = .eating := by
    intro k hk
    by_cases hki : k = i
    · subst hki
      rw [Function.update_self] at hk
      exact absurd hk hx
    · rwa [Function.update_of_ne hki] at hk
  exact fun hN k hk hl => h hN k (hold k hk) (hold _ hl)

/-- A philosopher that does not stop eating takes nobody's cause away. -/
theorem Caused.update (h : Caused state k) (hk : k ≠ i) (hi : state i = .eating → onLeft k ≠ i ∧ onRight k ≠ i) :
    Caused (Function.update state i x) k := by
  have hkeep : ∀ u, (u = onLeft k ∨ u = onRight k) → state u = .eating → Function.update state i x u = .eating := by
    intro u hu he
    have hui : u ≠ i := by
      rintro rfl
      rcases hu with rfl | rfl
      · exact (hi he).1 rfl
      · exact (hi he).2 rfl
    rwa [Function.update_of_ne hui]
  intro hh
  rw [Function.update_of_ne hk] at hh
  exact (h hh).imp (hkeep _ (.inl rfl)) (hkeep _ (.inr rfl))

/-! ## The invariant -/

/-- What the place of a philosopher says of its state. -/
def Place.Agrees : Place → Phil → Prop
  | .arriving, x => x = .notHere
  | .thinking _, x => x = .thinking
  | .waiting _, x => x = .hungry ∨ x = .eating
  | .eating _, x => x = .eating
  | .leaving, x => x = .thinking
  | .gone, x => x = .notHere

theorem agrees_again (bites : ℤ) (j : ℕ) : (again bites j).Agrees .thinking := by
  unfold again
  split <;> rfl

/-- Whoever agrees with being hungry waits, and may be given to eat. -/
theorem Place.Agrees.eating {p : Place} (h : p.Agrees .hungry) : p.Agrees .eating := by
  cases p with
  | waiting j => exact .inr rfl
  | _ => exact Phil.noConfusion h

/-- The philosopher has come to take a bite. -/
def Place.Dines : Place → Prop
  | .thinking _ | .waiting _ | .eating _ => True
  | _ => False

structure Seated (s : State (Fin N) (Fin N) (Fin N → Phil) Place) : Prop where
  small : ∀ i, (s.pc i).Dines → N ≤ 2 ^ 30
  agrees : ∀ i, (s.pc i).Agrees (s.data i)
  apart : Apart s.data
  caused : ∀ i, Caused s.data i
  /-- A philosopher waits on its own condition, and is hungry. -/
  own : ∀ i k, s.Waits i k → i = k ∧ s.data k = .hungry

/-- What a section of philosopher `i` does to the others: it may give one of them to eat, which it signals. -/
def Fair (state : Fin N → Phil) (i : Fin N) (o : Outcome (Fin N) (Fin N → Phil) Place) : Prop :=
  ∀ k, k ≠ i → o.data k = state k ∨ state k = .hungry ∧ o.data k = .eating ∧ .signal k ∈ o.wakes

/-- What a section of philosopher `i` leaves behind. -/
structure Served (state : Fin N → Phil) (i : Fin N) (o : Outcome (Fin N) (Fin N → Phil) Place) : Prop where
  agrees : o.next.Agrees (o.data i)
  apart : Apart o.data
  caused : ∀ k, Caused o.data k
  wait : ∀ k, o.wait = some k → k = i ∧ o.data i = .hungry
  fair : Fair state i o

variable {bites : ℤ} {o : Outcome (Fin N) (Fin N → Phil) Place} {wakes : List (Wake (Fin N))} {j : ℕ}
  {p : Place}

theorem untilFed_eq_some (h : untilFed state wakes i j = some o) :
    o.data = state ∧ o.wakes = wakes ∧ o.next.Agrees (state i) ∧
      ∀ k, o.wait = some k → k = i ∧ state i = .hungry := by
  unfold untilFed at h
  split at h
  · rename_i hh
    obtain rfl := Option.some.inj h
    refine ⟨rfl, rfl, .inl hh, fun k hk => ⟨(Option.some.inj hk).symm, hh⟩⟩
  · split at h
    · rename_i he
      obtain rfl := Option.some.inj h
      exact ⟨rfl, rfl, he, fun k hk => nomatch hk⟩
    · cases h

/-- The assertion does not fail of who is hungry or eats. -/
theorem untilFed_ne_none (h : state i = .hungry ∨ state i = .eating) : untilFed state wakes i j ≠ none := by
  unfold untilFed
  split
  · exact Option.some_ne_none _
  · rename_i hn
    rw [if_pos (h.resolve_left hn)]
    exact Option.some_ne_none _

/-- A philosopher that arrives or leaves. -/
theorem served_quiet (hx : x ≠ .hungry ∧ x ≠ .eating) (hp : p.Agrees x) (hi : state i ≠ .eating)
    (hap : Apart state) (hc : ∀ k, Caused state k) :
    Served state i ⟨Function.update state i x, [], p, none⟩ where
  agrees := by
    show p.Agrees (Function.update state i x i)
    rwa [Function.update_self]
  apart := hap.update hx.2
  caused k := by
    by_cases hk : k = i
    · subst hk
      apply caused_of_ne
      show Function.update state k x k ≠ .hungry
      rw [Function.update_self]
      exact hx.1
    · exact (hc k).update hk fun he => absurd he hi
  wait _ hk := nomatch hk
  fair k hk := .inl (Function.update_of_ne hk ..)

theorem philosopher_thinking (hN : N ≤ 2 ^ 30) : philosopher outside bites i (.thinking j) state =
    untilFed (feed (Function.update state i .hungry) i).1 (feed (Function.update state i .hungry) i).2 i j := by
  rw [philosopher, tryToEat_eq hN]
  rfl

theorem philosopher_eating (hN : N ≤ 2 ^ 30) : philosopher outside bites i (.eating j) state =
    let l := feed (Function.update state i .thinking) (onLeft i)
    let r := feed l.1 (onRight i)
    some ⟨r.1, l.2 ++ r.2, again bites (j + 1), none⟩ := by
  rw [philosopher, left_val, right_val hN, tryToEat_eq hN]
  simp only [Option.bind_eq_bind, Option.bind_some]
  rw [tryToEat_eq hN]
  rfl

/-- A philosopher that becomes hungry. -/
theorem served_hungry (hN : N ≤ 2 ^ 30) (hi : state i = .thinking) (hap : Apart state) (hc : ∀ k, Caused state k)
    (h : philosopher outside bites i (.thinking j) state = some o) : Served state i o := by
  rw [philosopher_thinking hN] at h
  obtain ⟨hd, hw, ha, hwait⟩ := untilFed_eq_some h
  refine ⟨hd ▸ ha, hd ▸ (hap.update Phil.noConfusion).feed, fun k => ?_, hd ▸ hwait, fun k hk => ?_⟩
  · rw [hd]
    by_cases hk : k = i
    · subst hk
      exact caused_feed_self
    · refine ((hc k).update hk fun he => ?_).feed
      rw [hi] at he
      exact Phil.noConfusion he
  · rw [hd, hw]
    have hk' := feed_fst (Function.update state i .hungry) i k
    rwa [Function.update_of_ne hk] at hk'

/-- A philosopher whose turn it is again, or not yet. -/
theorem served_waiting (hap : Apart state) (hc : ∀ k, Caused state k)
    (h : philosopher outside bites i (.waiting j) state = some o) : Served state i o := by
  obtain ⟨hd, -, ha, hwait⟩ := untilFed_eq_some h
  exact ⟨hd ▸ ha, hd ▸ hap, fun k => hd ▸ hc k, hd ▸ hwait, fun k _ => .inl (by rw [hd])⟩

/-- A philosopher that has eaten: its neighbours are the ones that may have waited for it. -/
theorem served_eating (hN : N ≤ 2 ^ 30) (hap : Apart state) (hc : ∀ k, Caused state k)
    (h : philosopher outside bites i (.eating j) state = some o) : Served state i o := by
  rw [philosopher_eating hN] at h
  obtain rfl := Option.some.inj h
  have hi : Function.update state i .thinking i = .thinking := Function.update_self ..
  have htwice := fun k => feed_twice (Function.update state i .thinking) (onLeft i) (onRight i) k rfl rfl
  refine ⟨?_, (hap.update Phil.noConfusion).feed.feed, fun k => ?_, (fun k hk => nomatch hk), fun k hk => ?_⟩
  · rcases htwice i with he | ⟨hh, -⟩
    · have hag := agrees_again bites (j + 1)
      rw [← he.trans hi] at hag
      exact hag
    · rw [hi] at hh
      exact Phil.noConfusion hh
  · show Caused (feed (feed (Function.update state i .thinking) (onLeft i)).1 (onRight i)).1 k
    by_cases hr : k = onRight i
    · subst hr
      exact caused_feed_self
    by_cases hl : k = onLeft i
    · subst hl
      exact caused_feed_self.feed
    by_cases hk : k = i
    · subst hk
      refine (caused_of_ne ?_).feed.feed
      rw [hi]
      exact Phil.noConfusion
    · refine ((hc k).update hk fun _ => ⟨?_, ?_⟩).feed.feed
      · rintro rfl
        exact hr (onRight_onLeft k).symm
      · rintro rfl
        exact hl (onLeft_onRight k).symm
  · have hfair := htwice k
    rwa [Function.update_of_ne hk] at hfair

/-- Every section leaves the table in order. -/
theorem served (hN : p.Dines → N ≤ 2 ^ 30) (hag : p.Agrees (state i)) (hap : Apart state) (hc : ∀ k, Caused state k)
    (h : philosopher outside bites i p state = some o) : Served state i o := by
  cases p with
  | arriving =>
    obtain rfl := Option.some.inj h
    refine served_quiet ⟨Phil.noConfusion, Phil.noConfusion⟩ (agrees_again bites 0) (fun he => ?_) hap hc
    rw [he] at hag
    exact Phil.noConfusion hag
  | thinking j => exact served_hungry (hN trivial) hag hap hc h
  | waiting j => exact served_waiting hap hc h
  | eating j => exact served_eating (hN trivial) hap hc h
  | leaving =>
    obtain rfl := Option.some.inj h
    refine served_quiet ⟨Phil.noConfusion, Phil.noConfusion⟩ rfl (fun he => ?_) hap hc
    rw [he] at hag
    exact Phil.noConfusion hag
  | gone =>
    obtain rfl := Option.some.inj h
    exact ⟨hag, hap, hc, (fun k hk => nomatch hk), fun k _ => .inl rfl⟩

/-- A philosopher dines on only if it takes a bite at all. -/
theorem dines_next (hb : N ≤ 2 ^ 30 ∨ bites ≤ 0) (hp : p.Dines → N ≤ 2 ^ 30)
    (h : philosopher outside bites i p state = some o) : o.next.Dines → N ≤ 2 ^ 30 := by
  intro hd
  rcases hb with hN | hb
  · exact hN
  · cases p with
    | arriving =>
      obtain rfl := Option.some.inj h
      have hagain : again bites 0 = .leaving := if_neg (by omega)
      have hd : (again bites 0).Dines := hd
      rw [hagain] at hd
      exact absurd hd id
    | leaving | gone =>
      obtain rfl := Option.some.inj h
      exact absurd hd id
    | thinking j | waiting j | eating j => exact hp trivial

variable {s s' : State (Fin N) (Fin N) (Fin N → Phil) Place}

theorem Seated.section (h : Seated s) (hb : N ≤ 2 ^ 30 ∨ bites ≤ 0) (hwf : Wf s)
    (hrun : s.CanRun (table N bites outside) i) (ho : philosopher outside bites i (s.pc i) s.data = some o) :
    Seated (s.after i o) := by
  have hs := served (h.small i) (h.agrees i) h.apart h.caused ho
  refine ⟨fun k => ?_, fun k => ?_, hs.apart, hs.caused, fun k k' hk => ?_⟩
  · show (Function.update s.pc i o.next k).Dines → N ≤ 2 ^ 30
    by_cases hki : k = i
    · subst hki
      rw [Function.update_self]
      exact dines_next hb (h.small k) ho
    · rw [Function.update_of_ne hki]
      exact h.small k
  · show (Function.update s.pc i o.next k).Agrees (o.data k)
    by_cases hki : k = i
    · subst hki
      rw [Function.update_self]
      exact hs.agrees
    · rw [Function.update_of_ne hki]
      rcases hs.fair k hki with he | ⟨hh, he, -⟩
      · rw [he]
        exact h.agrees k
      · rw [he]
        exact Place.Agrees.eating (hh ▸ h.agrees k)
  · rcases waits_after.1 hk with hk | ⟨rfl, hw⟩
    · have hold := ((wakeAll_suffix s.waitset o.wakes k').map Prod.fst).subset hk
      obtain ⟨rfl, hh⟩ := h.own k k' hold
      have hki : k ≠ i := by
        rintro rfl
        exact hrun.2 k hold
      refine ⟨rfl, ?_⟩
      rcases hs.fair k hki with he | ⟨-, -, hw⟩
      · exact he.trans hh
      · have hnil : wakeAll s.waitset o.wakes k = [] :=
          wakeAll_of_signal (hwf.nodup k) (fun x hx => (h.own x.1 k (List.mem_map_of_mem hx)).1) hw
        rw [hnil] at hk
        exact absurd hk List.not_mem_nil
    · obtain ⟨rfl, hh⟩ := hs.wait k' hw
      exact ⟨rfl, hh⟩

theorem seated_of_reaches (hb : N ≤ 2 ^ 30 ∨ bites ≤ 0) (h : (symposium N bites outside).Reaches s) : Seated s := by
  refine (Reaches.rule ?_ (fun s i o hwf hs hrun ho => hs.section hb hwf hrun ho) (fun s s' hs hd hp hw => ?_) h).2
  · exact ⟨fun _ hd => absurd hd id, fun _ => rfl, fun _ _ he => Phil.noConfusion he, fun _ he => Phil.noConfusion he,
      fun _ _ hk => absurd hk List.not_mem_nil⟩
  · refine ⟨fun i => ?_, fun i => ?_, hd ▸ hs.apart, hd ▸ hs.caused, fun i k hk => hd ▸ hs.own i k (hw i k hk)⟩
    · rw [hp]
      exact hs.small i
    · rw [hd, hp]
      exact hs.agrees i

/-! ## The monitor is safe, and nobody waits without cause -/

def Neighbours (i k : Fin N) : Prop := k = onLeft i ∨ k = onRight i

instance (i k : Fin N) : Decidable (Neighbours i k) := inferInstanceAs (Decidable (k = onLeft i ∨ k = onRight i))

/-- What the monitor is for. -/
structure Safe (outside : ℤ → Phil) (bites : ℤ) (s : State (Fin N) (Fin N) (Fin N → Phil) Place) : Prop where
  apart : 2 ≤ N → ∀ i k, Neighbours i k → ¬(s.data i = .eating ∧ s.data k = .eating)
  /-- Nobody is hungry without cause, -/
  caused : ∀ i, s.data i = .hungry → ∃ k, Neighbours i k ∧ s.data k = .eating
  /-- and who eats has left the waitset. -/
  woken : ∀ i, s.data i = .eating → ¬s.Waits i i
  /-- No assertion fails, and nothing is written outside `state[]`. -/
  asserted : ∀ i, s.CanRun (table N bites outside) i → philosopher outside bites i (s.pc i) s.data ≠ none

theorem Seated.neighbours_apart (h : Seated s) (hN : 2 ≤ N) (hik : Neighbours i k) :
    ¬(s.data i = .eating ∧ s.data k = .eating) := by
  rintro ⟨hi, hk⟩
  rcases hik with rfl | rfl
  · exact h.apart hN i hi hk
  · refine h.apart hN (onRight i) hk ?_
    rwa [onLeft_onRight]

theorem Seated.hungry_caused (h : Seated s) (hi : s.data i = .hungry) : ∃ k, Neighbours i k ∧ s.data k = .eating := by
  rcases h.caused i hi with hl | hr
  · exact ⟨onLeft i, .inl rfl, hl⟩
  · exact ⟨onRight i, .inr rfl, hr⟩

theorem Seated.philosopher_ne_none (h : Seated s) (outside : ℤ → Phil) (bites : ℤ) (i : Fin N) :
    philosopher outside bites i (s.pc i) s.data ≠ none := by
  have hag := h.agrees i
  have hsmall := h.small i
  cases hp : s.pc i with
  | thinking j =>
    rw [hp] at hsmall
    rw [philosopher_thinking (hsmall trivial)]
    apply untilFed_ne_none
    have ht := feed_fst (Function.update s.data i .hungry) i i
    rw [Function.update_self] at ht
    exact ht.imp_right fun ht => ht.2.1
  | waiting j =>
    rw [hp] at hag
    exact untilFed_ne_none hag
  | eating j =>
    rw [hp] at hsmall
    rw [philosopher_eating (hsmall trivial)]
    exact Option.some_ne_none _
  | _ => exact Option.some_ne_none _

theorem Seated.safe (h : Seated s) (outside : ℤ → Phil) (bites : ℤ) : Safe outside bites s where
  apart hN _ _ hik := h.neighbours_apart hN hik
  caused _ hi := h.hungry_caused hi
  woken i hi hw := Phil.noConfusion ((h.own i i hw).2.symm.trans hi)
  asserted i _ := h.philosopher_ne_none outside bites i

/-! ## Tables that are too large -/

/-- The `int` has wrapped, so the index is not that of a neighbour. -/
theorem right_last (hN : 2 ^ 30 < N) (hint : N < 2 ^ 31) : right N (N - 1) ≤ 0 := by
  have hwrap : ((N : ℤ) - 1 + N - 1).bmod (2 ^ 32) = -(2 ^ 32 + 2 - 2 * N : ℤ) := by
    rw [← Int.sub_bmod_right, Int.bmod_eq_of_le (by omega) (by omega)]
    omega
  rw [right, hwrap, Int.neg_tmod]
  have hnonneg : 0 ≤ (2 ^ 32 + 2 - 2 * N : ℤ).tmod N := Int.tmod_nonneg _ (by omega)
  omega

/-- The test of `trytoeat` for philosopher `i`, when it has become hungry. -/
def Fed (outside : ℤ → Phil) (state : Fin N → Phil) (i : Fin N) : Prop :=
  read outside (Function.update state i .hungry) (left N i.val) ≠ .eating ∧
    read outside (Function.update state i .hungry) (right N i.val) ≠ .eating

instance (outside : ℤ → Phil) (state : Fin N → Phil) (i : Fin N) : Decidable (Fed outside state i) :=
  inferInstanceAs (Decidable (_ ∧ _))

theorem tryToEat_hungry (outside : ℤ → Phil) (state : Fin N → Phil) (i : Fin N) :
    tryToEat outside (Function.update state i .hungry) i.val =
      some (if Fed outside state i then (Function.update state i .eating, [.signal i])
        else (Function.update state i .hungry, [])) := by
  rw [tryToEat, read_val, Function.update_self, element_val]
  by_cases hf : Fed outside state i
  · rw [if_pos ⟨rfl, hf⟩, if_pos hf, Option.map_some, Function.update_idem]
  · rw [if_neg fun h => hf h.2, if_neg hf]

theorem philosopher_hungry (outside : ℤ → Phil) (bites : ℤ) (state : Fin N → Phil) (i : Fin N) (j : ℕ) :
    ∃ o, philosopher outside bites i (.thinking j) (Function.update state i .thinking) = some o ∧
      o.data = Function.update state i (if Fed outside state i then .eating else .hungry) := by
  have htry := tryToEat_hungry outside (Function.update state i .thinking) i
  have hfed : Fed outside (Function.update state i .thinking) i ↔ Fed outside state i := by
    unfold Fed
    rw [Function.update_idem]
  rw [philosopher, htry]
  by_cases hf : Fed outside state i
  · rw [if_pos (hfed.2 hf), if_pos hf, Function.update_idem]
    simp [untilFed]
  · rw [if_neg (mt hfed.1 hf), if_neg hf, Function.update_idem]
    simp [untilFed]

theorem reaches_after (h : (symposium N bites outside).Reaches s) (hrun : s.CanRun (table N bites outside) i)
    (ho : philosopher outside bites i (s.pc i) s.data = some o) : (symposium N bites outside).Reaches (s.after i o) :=
  h.step (a := .run i) (run_eq_some.2 ⟨hrun, o, ho, rfl⟩)

/-- A philosopher arrives, and takes its first bite or waits for it. -/
theorem sits_down (h : (symposium N bites outside).Reaches s) (hb : 0 < bites) (hp : s.pc i = .arriving)
    (hw : ∀ k, ¬s.Waits i k) : ∃ s', (symposium N bites outside).Reaches s' ∧
      s'.data = Function.update s.data i (if Fed outside s.data i then .eating else .hungry) ∧
      ∀ j, j ≠ i → s'.pc j = s.pc j ∧ ∀ k, s'.Waits j k → s.Waits j k := by
  have hagain : again bites 0 = .thinking 0 := if_pos (by omega)
  obtain ⟨s₁, hs₁⟩ : ∃ s₁, s.after i ⟨Function.update s.data i .thinking, [], .thinking 0, none⟩ = s₁ := ⟨_, rfl⟩
  have hready : s.CanRun (table N bites outside) i := ⟨by rw [hp]; rfl, hw⟩
  have h₁ : (symposium N bites outside).Reaches s₁ := by
    rw [← hs₁, ← hagain]
    exact reaches_after h hready (by rw [hp]; rfl)
  have hwaits : ∀ {j k}, s₁.Waits j k → s.Waits j k := fun hjk =>
    (waits_of_after (hs₁ ▸ hjk)).resolve_right fun hx => absurd hx.2.symm (Option.some_ne_none _)
  have hpc : s₁.pc i = .thinking 0 := by
    rw [← hs₁]
    exact Function.update_self ..
  have hready₁ : s₁.CanRun (table N bites outside) i := ⟨by rw [hpc]; rfl, fun k hk => hw k (hwaits hk)⟩
  obtain ⟨o, ho, hdata⟩ := philosopher_hungry outside bites s.data i 0
  have hdata₁ : s₁.data = Function.update s.data i .thinking := by
    rw [← hs₁]
    rfl
  refine ⟨s₁.after i o, reaches_after h₁ hready₁ (by rw [hpc, hdata₁, ho]), hdata, fun j hj => ⟨?_, fun k hk => ?_⟩⟩
  · rw [← hs₁]
    show Function.update (Function.update s.pc i _) i _ j = s.pc j
    rw [Function.update_of_ne hj, Function.update_of_ne hj]
  · exact hwaits ((waits_of_after hk).resolve_right fun hx => hj hx.1)

/-- The table before anybody arrives. -/
theorem reaches_empty (N : ℕ) (bites : ℤ) (outside : ℤ → Phil) :
    (symposium N bites outside).Reaches ⟨fun _ => .notHere, fun _ => .arriving, fun _ => []⟩ := .init rfl

/-- A philosopher that comes first has no cause to wait. -/
theorem fed_of_safe (hb : 0 < bites) (hsafe : ∀ s, (symposium N bites outside).Reaches s → Safe outside bites s)
    (i : Fin N) : Fed outside (fun _ => .notHere) i := by
  by_contra hf
  obtain ⟨s', hs', hdata, -⟩ :=
    sits_down (i := i) (reaches_empty N bites outside) hb rfl fun _ => List.not_mem_nil
  have hd : s'.data = Function.update (fun _ => .notHere) i .hungry := by
    rw [hdata, if_neg hf]
  obtain ⟨k, -, hk⟩ := (hsafe s' hs').caused i (by rw [hd, Function.update_self])
  rw [hd] at hk
  by_cases hki : k = i
  · subst hki
    rw [Function.update_self] at hk
    cases hk
  · rw [Function.update_of_ne hki] at hk
    cases hk

/-- The last two philosophers do not see each other. -/
theorem last_two_eat (hN : 2 ^ 30 < N) (hint : N < 2 ^ 31) (hb : 0 < bites) {i k : Fin N} (hi : i.val = N - 2)
    (hk : k.val = N - 1) (hfed : Fed outside (fun _ => .notHere) i) (hout : Fed outside (fun _ => .notHere) k) :
    ∃ s, (symposium N bites outside).Reaches s ∧ s.data i = .eating ∧ s.data k = .eating := by
  have hik : i ≠ k := fun he => by
    rw [he, hk] at hi
    omega
  obtain ⟨s₁, h₁, hd₁, hother⟩ :=
    sits_down (i := i) (reaches_empty N bites outside) hb rfl fun _ => List.not_mem_nil
  rw [if_pos hfed] at hd₁
  obtain ⟨hpc, hwaits⟩ := hother k (Ne.symm hik)
  obtain ⟨s₂, h₂, hd₂, -⟩ := sits_down (i := k) h₁ hb hpc fun x hx => List.not_mem_nil (hwaits x hx)
  -- neither index is that of `i`
  have hread : ∀ {x : ℤ}, x ≤ 0 → read outside (Function.update s₁.data k .hungry) x =
      read outside (Function.update (fun _ => .notHere) k .hungry) x := by
    intro x hx
    unfold read
    cases he : element N x with
    | none => rfl
    | some u =>
      have hu : u ≠ i := by
        rintro rfl
        unfold element at he
        split at he
        · have hval : x.toNat = u.val := congrArg Fin.val (Option.some.inj he)
          omega
        · cases he
      show Function.update s₁.data k .hungry u = Function.update (fun _ => Phil.notHere) k .hungry u
      by_cases huk : u = k
      · rw [huk, Function.update_self, Function.update_self]
      · rw [Function.update_of_ne huk, Function.update_of_ne huk, hd₁, Function.update_of_ne hu]
  have hlast : (k.val : ℤ) = N - 1 := by omega
  have hfed₂ : Fed outside s₁.data k := by
    have hl : left N k.val ≤ 0 := by
      rw [hlast, left, Int.sub_add_cancel, Int.tmod_self]
    have hr : right N k.val ≤ 0 := by
      rw [hlast]
      exact right_last hN hint
    unfold Fed
    rw [hread hl, hread hr]
    exact hout
  refine ⟨s₂, h₂, ?_, ?_⟩
  · rw [hd₂, Function.update_of_ne hik, hd₁, Function.update_self]
  · rw [hd₂, Function.update_self, if_pos hfed₂]

/-! ## The monitor is safe, and nobody waits without cause -/

/-- **Up to `2 ^ 30` philosophers.** At a larger table, and if they take a bite at all, either two neighbours eat or one
waits without cause, whatever there is in memory around `state[]`. -/
theorem symposium_safe_iff (N : ℕ) (hint : N < 2 ^ 31) (bites : ℤ) (outside : ℤ → Phil) :
    (∀ s, (symposium N bites outside).Reaches s → Safe outside bites s) ↔ N ≤ 2 ^ 30 ∨ bites ≤ 0 := by
  constructor
  · intro hsafe
    by_contra hn
    obtain ⟨hN, hb⟩ : 2 ^ 30 < N ∧ 0 < bites := by omega
    have hfed := fed_of_safe hb hsafe
    have hi : N - 2 < N := by omega
    have hk : N - 1 < N := by omega
    obtain ⟨s, hs, heat⟩ := last_two_eat hN hint hb (i := ⟨N - 2, hi⟩) (k := ⟨N - 1, hk⟩) rfl rfl (hfed _) (hfed _)
    refine (hsafe s hs).apart (by omega) _ _ (.inl (Fin.ext ?_)) heat
    show N - 1 = (N - 2 + 1) % N
    rw [Nat.mod_eq_of_lt (by omega)]
    omega
  · exact fun hb s hs => (seated_of_reaches hb hs).safe outside bites

/-- Philosophers 2 ^ 30 - 1 and 2 ^ 30, who are neighbours, eat at the same time. -/
theorem neighbours_both_eat : ∃ s, (symposium (2 ^ 30 + 1) 1 fun _ => .notHere).Reaches s ∧
    ∃ i k, Neighbours i k ∧ s.data i = .eating ∧ s.data k = .eating := by
  have hfed : ∀ i : Fin (2 ^ 30 + 1), Fed (fun _ => .notHere) (fun _ => .notHere) i := by
    have hread : ∀ (i : Fin (2 ^ 30 + 1)) (x : ℤ),
        read (fun _ => .notHere) (Function.update (fun _ => .notHere) i .hungry) x ≠ .eating := by
      intro i x
      unfold read
      cases element (2 ^ 30 + 1) x with
      | none => exact Phil.noConfusion
      | some u =>
        show Function.update (fun _ => Phil.notHere) i .hungry u ≠ .eating
        by_cases hu : u = i
        · rw [hu, Function.update_self]
          exact Phil.noConfusion
        · rw [Function.update_of_ne hu]
          exact Phil.noConfusion
    exact fun i => ⟨hread i _, hread i _⟩
  have hi : 2 ^ 30 - 1 < 2 ^ 30 + 1 := by decide
  have hk : 2 ^ 30 < 2 ^ 30 + 1 := by decide
  obtain ⟨s, hs, hei, hek⟩ := last_two_eat (N := 2 ^ 30 + 1) (by decide) (by decide) Int.one_pos
    (i := ⟨2 ^ 30 - 1, hi⟩) (k := ⟨2 ^ 30, hk⟩) rfl rfl (hfed _) (hfed _)
  refine ⟨s, hs, ⟨2 ^ 30 - 1, hi⟩, ⟨2 ^ 30, hk⟩, .inl (Fin.ext ?_), hei, hek⟩
  show 2 ^ 30 = (2 ^ 30 - 1 + 1) % (2 ^ 30 + 1)
  decide

/-- Two philosophers that take a bite each. -/
theorem symposium_safe_iff_two :
    (∀ s, (symposium 2 1 fun _ => .eating).Reaches s → Safe (fun _ => .eating) 1 s) ↔ 2 ≤ 2 ^ 30 ∨ (1 : ℤ) ≤ 0 :=
  symposium_safe_iff 2 (by decide) 1 fun _ => .eating

end TinyOS.Symposium
