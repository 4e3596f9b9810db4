/- Module: Mewa/TypeDb/Relation
   digest: Tag masks and the scoped relation map with its lists of weighted elements. -/

import Mathlib.Data.Rat.Defs
import Mathlib.Algebra.Order.Ring.Rat
import Mathlib.Data.Rat.Floor
import Mewa.Lib.Result
import Mewa.Scope.Structs

set_option autoImplicit false
set_option relaxedAutoImplicit false

namespace Mewa

open Mewa.Lib

/-- A set of the tags 1 to 32, one bit for each. -/
structure TagMask where
  mask : BitVec 32
  deriving DecidableEq, Repr

namespace TagMask

def minTag : Int := 1

def maxTag : Int := 32

def matchAll : TagMask := ⟨0xffffffff#32⟩

def matchNothing : TagMask := ⟨0#32⟩

def tagValFromTag (tag : Int) : Nat := (tag - 1).toNat

def tagFromTagVal (tagval : Nat) : Int := tagval + 1

/-- The tag value is the number of a bit, below 32 for every tag that passed the check. -/
def matchesTag (m : TagMask) (tagval : Nat) : Bool := m.mask &&& (1#32 <<< tagval) != 0#32

end TagMask

/-- A number with four digits after the point, as "%.4f" prints it. -/
def formatWeight (weight : ℚ) : String :=
  let scaled := |weight| * 10000
  let low := scaled.floor
  let rest := scaled - low
  let digits : Int :=
    if rest < 1 / 2 then low else if rest > 1 / 2 then low + 1 else
      if low % 2 = 0 then low else low + 1
  let frac := toString (digits % 10000).toNat
  (if weight < 0 then "-" else "") ++ toString (digits / 10000) ++ "." ++
    String.ofList (List.replicate (4 - frac.length) '0') ++ frac

/-- An element of the lists of a relation map: a related node with its value. -/
structure ListElement (κ V : Type) where
  related : κ
  value : V
  weight : ℚ
  next : Option Nat
  tagval : Nat

structure ResultElement (κ V : Type) where
  right : κ
  value : V
  weight : ℚ
  tagval : Nat
  deriving DecidableEq, Repr

/-- The relation map: a scoped map from a left node to the index of its first list element. -/
structure ScopedRelationMap (κ V : Type) [LinearOrder κ] where
  map : ScopedMap κ Int
  list : List (ListElement κ V)

namespace ScopedRelationMap

variable {κ V : Type} [LinearOrder κ]

def empty : ScopedRelationMap κ V := ⟨ScopedMap.empty (-1), []⟩

/-- A list index as a link, negative for none. -/
def linkOf (li : Int) : Option Nat := if li ≥ 0 then some li.toNat else none

/-- The loop of `set` that runs to the end of a list: none if the element is there already,
    otherwise the index of the last element, if there is one. -/
def findLast [DecidableEq V] (list : List (ListElement κ V)) (right : κ) (value : V)
    (tagval : Nat) : Nat → Option Nat → Option Nat → Except Failure (Option (Option Nat))
  | _, none, prev_li => .ok (some prev_li)
  | 0, some _, _ => .error .outOfFuel
  | fuel + 1, some li, _ =>
    match list[li]? with
    | none => .error .outOfRange
    | some le =>
      if le.related = right ∧ tagval = le.tagval then
        if le.value = value then .ok none
        else .error (.thrown ⟨.DuplicateDefinition, "", 0⟩)
      else findLast list right value tagval fuel le.next (some li)

def set [DecidableEq V] (scope : Scope) (left right : κ) (value : V) (tag : Int) (weight : ℚ)
    (rel : ScopedRelationMap κ V) : ScopedRelationMap κ V × Except Failure Unit :=
  if tag > TagMask.maxTag ∨ tag < TagMask.minTag then
    (rel, .error (.thrown ⟨.BadRelationTag, toString tag, 0⟩))
  else if weight < 0 then
    (rel, .error (.thrown ⟨.BadRelationWeight, formatWeight weight, 0⟩))
  else
    let tagval := TagMask.tagValFromTag tag
    let newlistindex := rel.list.length
    match rel.map.getOrSet scope left (newlistindex : Int) with
    | (map, .error e) => ({ rel with map := map }, .error e)
    | (map, .ok li) =>
      match findLast rel.list right value tagval rel.list.length (linkOf li) none with
      | .error e => ({ rel with map := map }, .error e)
      | .ok none => ({ rel with map := map }, .ok ())
      | .ok (some prev_li) =>
        let pushed := rel.list ++ [⟨right, value, weight, none, tagval⟩]
        let linked := match prev_li with
          | none => pushed
          | some li => pushed.modify li fun le => { le with next := some newlistindex }
        (⟨map, linked⟩, .ok ())

/-- The inner loop of `get` along one list. A node that is in the result already is left out. -/
def collectList (list : List (ListElement κ V)) (selectTags : TagMask) :
    Nat → Option Nat → List (ResultElement κ V) → Except Failure (List (ResultElement κ V))
  | _, none, rt => .ok rt
  | 0, some _, _ => .error .outOfFuel
  | fuel + 1, some li, rt =>
    match list[li]? with
    | none => .error .outOfRange
    | some le =>
      let rt := if selectTags.matchesTag le.tagval ∧ ∀ e ∈ rt, e.right ≠ le.related
        then rt ++ [⟨le.related, le.value, le.weight, le.tagval⟩] else rt
      collectList list selectTags fuel le.next rt

/-- The related nodes with a selected tag, from the innermost scope around the step outwards. -/
def get (step : Int) (key : κ) (selectTags : TagMask) (rel : ScopedRelationMap κ V) :
    Except Failure (List (ResultElement κ V)) := do
  let range ← rel.map.match_range step key
  range.foldlM (fun rt node =>
    collectList rel.list selectTags rel.list.length (linkOf node.2) rt) []

end ScopedRelationMap

end Mewa
