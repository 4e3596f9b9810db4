/- Module: Mewa/Automaton/First
   digest: Nullable nonterminals, FIRST sets, and the handles of the sets that follow. -/

import Mewa.Automaton.Structs
import Mewa.Lib.Result

set_option autoImplicit false
set_option relaxedAutoImplicit false

namespace Mewa

open Mewa.Lib

/-- An internal error of the table builder. -/
def logicError {α : Type} : Except Failure α :=
  .error (.thrown ⟨.LogicError, "automaton.cpp", 0⟩)

/-! The nullable nonterminals. The loop ends when a round over the productions adds nothing. -/

def nullableStep (state : FlatSet Int × Bool) (prod : ProductionDef) : FlatSet Int × Bool :=
  if prod.right.all fun nd => nd.type = .NonTerminal && decide (nd.index ∈ state.1) then
    (state.1.insert prod.left.index, state.2 || decide (prod.left.index ∉ state.1))
  else state

def nullableLoop (prodlist : List ProductionDef) : Nat → FlatSet Int → Except Failure (FlatSet Int)
  | 0, _ => .error .outOfFuel
  | fuel + 1, rt =>
    let (rt, changed) := prodlist.foldl nullableStep (rt, false)
    if changed then nullableLoop prodlist fuel rt else .ok rt

def getNullableNonterminalSet (fuel : Nat) (prodlist : List ProductionDef) :
    Except Failure (FlatSet Int) :=
  nullableLoop prodlist fuel SortedSet.empty

/-! The FIRST sets, where the terminal 0 stands for the empty string. -/

abbrev FirstSetMap := SortedMap Int (FlatSet Int)

/-- Insertion into the FIRST set of a nonterminal, and if it added something. -/
def insertFirst (left : Int) (elems : List Int) (state : FirstSetMap × Bool) :
    FirstSetMap × Bool :=
  let old := (state.1.find left).getD SortedSet.empty
  let new := old.insertAll elems
  (state.1.set left new, state.2 || decide (old.elems.length < new.elems.length))

/-- The loop along a right side. The second result says if it came to the end. -/
def firstOfRight (left : Int) (nullable : FlatSet Int) :
    List ProductionNodeDef → FirstSetMap × Bool → (FirstSetMap × Bool) × Bool
  | [], state => (state, true)
  | nd :: rest, state =>
    match nd.type with
    | .Terminal => (insertFirst left [nd.index] state, false)
    | .NonTerminal =>
      let state := match state.1.find nd.index with
        | some elems => insertFirst left elems.elems state
        | none => ((insertFirst left [] state).1, true)
      if nd.index ∈ nullable then firstOfRight left nullable rest state else (state, false)
    | .Unresolved => (state, false)

def firstStep (nullable : FlatSet Int) (state : (FirstSetMap × Bool) × FlatSet Int)
    (prod : ProductionDef) : (FirstSetMap × Bool) × FlatSet Int :=
  match firstOfRight prod.left.index nullable prod.right state.1 with
  | (map, false) => (map, state.2)
  | (map, true) =>
    (insertFirst prod.left.index [0] map, state.2.insert prod.left.index)

def firstLoop (prodlist : List ProductionDef) (nullable : FlatSet Int) :
    Nat → FirstSetMap → FlatSet Int → Except Failure (FirstSetMap × FlatSet Int)
  | 0, _, _ => .error .outOfFuel
  | fuel + 1, rt, verify =>
    let ((rt, changed), verify) := prodlist.foldl (firstStep nullable) ((rt, false), verify)
    if changed then firstLoop prodlist nullable fuel rt verify else .ok (rt, verify)

def getNonTerminalFirstSetMap (fuel : Nat) (prodlist : List ProductionDef)
    (nullable : FlatSet Int) : Except Failure FirstSetMap := do
  let (rt, verify) ← firstLoop prodlist nullable fuel SortedMap.empty SortedSet.empty
  if verify ≠ nullable then logicError else .ok rt

/-- The FIRST set of the rest of a right side, and if the loop came to its end. -/
def getLr1FirstSet (firstMap : FirstSetMap) (nullable : FlatSet Int) :
    List ProductionNodeDef → FlatSet Int → FlatSet Int × Bool
  | [], rt => (rt, true)
  | nd :: rest, rt =>
    match nd.type with
    | .Terminal => (rt.insert nd.index, false)
    | .NonTerminal =>
      match firstMap.find nd.index with
      | some elems =>
        if nd.index ∈ nullable then
          getLr1FirstSet firstMap nullable rest (rt.insertAll elems.elems)
        else (rt.insertAll elems.elems, false)
      | none => getLr1FirstSet firstMap nullable rest rt
    | .Unresolved => getLr1FirstSet firstMap nullable rest rt

@[ext] structure FollowKey where
  prodindex : Nat
  prodpos : Nat
  deriving DecidableEq, Repr

instance : LinearOrder FollowKey :=
  LinearOrder.lift' (fun k => toLex (k.prodindex, k.prodpos)) fun _ _ h =>
    FollowKey.ext (congrArg Prod.fst (toLex.injective h)) (congrArg Prod.snd (toLex.injective h))

/-- The terminals after an element of a production, and if those after the production follow too. -/
structure FollowHandle where
  handle : Nat
  inherit : Bool
  deriving DecidableEq, Repr

/-- The sets of terminals by their handles, with the sets that follow the nonterminals of the
    productions, and the unions calculated so far. -/
structure FollowMap where
  nodeMap : SortedMap FollowKey FollowHandle
  joinMap : SortedMap (Nat ×ₗ Nat) Nat
  followMap : IntSetHandleMap

namespace FollowMap

/-- The entry for one element of a production. -/
def initNode (firstMap : FirstSetMap) (nullable : FlatSet Int) (prodindex : Nat)
    (prod : ProductionDef) (fm : FollowMap) (prodpos : Nat) : Except Failure FollowMap :=
  match prod.nodeAt prodpos with
  | some ⟨.NonTerminal, _⟩ =>
    let (first, inherit) :=
      getLr1FirstSet firstMap nullable (prod.right.drop (prodpos + 1)) SortedSet.empty
    let (followMap, handle) := fm.followMap.get first
    match fm.nodeMap.insertNew ⟨prodindex, prodpos⟩ ⟨handle, inherit⟩ with
    | (nodeMap, none) => .ok { fm with nodeMap := nodeMap, followMap := followMap }
    | (_, some _) => logicError
  | _ => .ok fm

def initProduction (firstMap : FirstSetMap) (nullable : FlatSet Int) (fm : FollowMap)
    (prod : ProductionDef × Nat) : Except Failure FollowMap :=
  (List.range prod.1.right.length).foldlM (initNode firstMap nullable prod.2 prod.1) fm

/-- The handle 0 stands for the end of the input alone. -/
def init (prodlist : List ProductionDef) (firstMap : FirstSetMap) (nullable : FlatSet Int) :
    Except Failure FollowMap :=
  prodlist.zipIdx.foldlM (initProduction firstMap nullable)
    ⟨SortedMap.empty, SortedMap.empty, ((⟨[], 0⟩ : IntSetHandleMap).get (SortedSet.ofList [0])).1⟩

def get (fm : FollowMap) (key : FollowKey) : Except Failure FollowHandle :=
  match fm.nodeMap.find key with
  | none => logicError
  | some handle => .ok handle

def join (fm : FollowMap) (handle1 handle2 : Nat) : Except Failure (FollowMap × Nat) :=
  if fm.followMap.size ≥ Limits.MaxTerminal - 1 then
    .error (.thrown ⟨.ComplexityLR1FollowSetsInGrammarDef, "", 0⟩)
  else
    match fm.joinMap.find (toLex (handle1, handle2)) with
    | some handle => .ok (fm, handle)
    | none => do
      let (followMap, handle) ← fm.followMap.join handle1 handle2
      .ok ({ fm with
        joinMap := fm.joinMap.set (toLex (handle1, handle2)) handle
        followMap := followMap }, handle)

def content (fm : FollowMap) (handle : Nat) : Except Failure (FlatSet Int) :=
  fm.followMap.content handle

end FollowMap

end Mewa
