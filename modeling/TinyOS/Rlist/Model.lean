import Mathlib.Algebra.Group.Nat.Defs
import Mathlib.Logic.Function.Basic
import Mathlib.Tactic.Common

/-!
# Resource lists

The rings of `rlnode`s of `util.h`, for nodes of any type `P` with keys of any type `V`. Every list operation is made
of `rl_splice`, and `rl_splice` of two exchanges of link fields, which may be the same fields.

A loop takes a number of rounds that it may do; `none` means that it did not end within them.
-/

namespace TinyOS.Rlist

variable {P V : Type}

/-- The rlnodes of a memory: the key and the links of each. -/
@[ext] structure Nodes (P V : Type) where
  obj : P → V
  prev : P → P
  next : P → P

/-- The address of a link field. -/
inductive Link (P : Type)
  | prev (p : P)
  | next (p : P)
  deriving DecidableEq, Repr

/-- What a link field holds. -/
def Nodes.load (h : Nodes P V) : Link P → P
  | .prev p => h.prev p
  | .next p => h.next p

variable [DecidableEq P]

def Nodes.store (h : Nodes P V) : Link P → P → Nodes P V
  | .prev p, q => { h with prev := Function.update h.prev p q }
  | .next p, q => { h with next := Function.update h.next p q }

/-! ## Nodes -/

def rlnodeNew (h : Nodes P V) (p : P) : Nodes P V := (h.store (.next p) p).store (.prev p) p

def rlnodeInit (h : Nodes P V) (p : P) (ptr : V) : Nodes P V :=
  let h := rlnodeNew h p
  { h with obj := Function.update h.obj p ptr }

def rlnodeSwap (h : Nodes P V) (p q : Link P) : Nodes P V :=
  let temp := h.load p
  let h := h.store p (h.load q)
  h.store q temp

def rlSplice (h : Nodes P V) (a b : P) : P × Nodes P V :=
  let h := rlnodeSwap h (.prev (h.next a)) (.prev (h.next b))
  let h := rlnodeSwap h (.next a) (.next b)
  (b, h)

/-! ## Lists -/

def rlistRemove (h : Nodes P V) (a : P) : P × Nodes P V := (a, (rlSplice h a (h.prev a)).2)

def isRlistEmpty (h : Nodes P V) (a : P) : Bool := a = h.next a

def rlistPushFront (h : Nodes P V) (list node : P) : Nodes P V := (rlSplice h list node).2

def rlistPushBack (h : Nodes P V) (list node : P) : Nodes P V := (rlSplice h (h.prev list) node).2

def rlistPopFront (h : Nodes P V) (list : P) : P × Nodes P V := rlSplice h list (h.next list)

def rlistPopBack (h : Nodes P V) (list : P) : P × Nodes P V := rlSplice h list (h.prev list)

def rlistAppend (h : Nodes P V) (ldest lsrc : P) : Nodes P V :=
  let h := rlistPushBack h ldest lsrc
  (rlistRemove h lsrc).2

def rlistPrepend (h : Nodes P V) (ldest lsrc : P) : Nodes P V :=
  let h := rlistPushFront h ldest lsrc
  (rlistRemove h lsrc).2

/-! ## Walks along a ring -/

/-- The loop of `rlist_len`; `count` is an `unsigned int`. -/
def lenLoop (h : Nodes P V) (list : P) : Nat → P → Nat → Option Nat
  | 0, _, _ => none
  | fuel + 1, p, count => if p ≠ list then lenLoop h list fuel (h.next p) ((count + 1) % 2 ^ 32) else some count

def rlistLen (fuel : Nat) (h : Nodes P V) (list : P) : Option Nat := lenLoop h list fuel (h.next list) 0

/-- The loop of `rlist_equal`. -/
def equalLoop [DecidableEq V] (h : Nodes P V) (L1 L2 : P) : Nat → P → P → Option Bool
  | 0, _, _ => none
  | fuel + 1, i1, i2 =>
    if i1 ≠ L1 then
      if i2 = L2 ∨ h.obj i1 ≠ h.obj i2 then some false else equalLoop h L1 L2 fuel (h.next i1) (h.next i2)
    else some (i2 = L2)

def rlistEqual [DecidableEq V] (fuel : Nat) (h : Nodes P V) (L1 L2 : P) : Option Bool :=
  equalLoop h L1 L2 fuel (h.next L1) (h.next L2)

/-- The loop of `rlist_find`. -/
def findLoop [DecidableEq V] (h : Nodes P V) (list : P) (key : V) (fail : Option P) : Nat → P → Option (Option P)
  | 0, _ => none
  | fuel + 1, i =>
    if i ≠ list then
      if h.obj i = key then some (some i) else findLoop h list key fail fuel (h.next i)
    else some fail

/-- `fail` and the result may be `NULL` (`none` under `some`). -/
def rlistFind [DecidableEq V] (fuel : Nat) (h : Nodes P V) (list : P) (key : V) (fail : Option P) :
    Option (Option P) :=
  findLoop h list key fail fuel (h.next list)

/-- The loop of `rlist_reverse`, which tests at its end. -/
def reverseLoop (l : P) : Nat → Nodes P V → P → Option (Nodes P V)
  | 0, _, _ => none
  | fuel + 1, h, p =>
    let h := rlnodeSwap h (.prev p) (.next p)
    let p := h.next p
    if p ≠ l then reverseLoop l fuel h p else some h

def rlistReverse (fuel : Nat) (h : Nodes P V) (l : P) : Option (Nodes P V) := reverseLoop l fuel h l

/-- The loop of `rlist_select`; `pred` may read the keys. -/
def selectLoop (Lsrc Ldest : P) (pred : (P → V) → P → Bool) : Nat → Nodes P V → P → Option (Nodes P V)
  | 0, _, _ => none
  | fuel + 1, h, I =>
    if h.next I ≠ Lsrc then
      if pred h.obj (h.next I) then
        let (p, h) := rlistRemove h (h.next I)
        selectLoop Lsrc Ldest pred fuel (rlistPushBack h Ldest p) I
      else selectLoop Lsrc Ldest pred fuel h (h.next I)
    else some h

def rlistSelect (fuel : Nat) (h : Nodes P V) (Lsrc Ldest : P) (pred : (P → V) → P → Bool) : Option (Nodes P V) :=
  selectLoop Lsrc Ldest pred fuel h Lsrc

end TinyOS.Rlist
