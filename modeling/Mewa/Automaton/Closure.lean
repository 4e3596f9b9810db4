/- Module: Mewa/Automaton/Closure
   digest: The closures of states without and with the sets of terminals that follow. -/

import Mewa.Automaton.First

set_option autoImplicit false
set_option relaxedAutoImplicit false

namespace Mewa

open Mewa.Lib

/-- The node of a production behind the position of an item, none for a completed item. -/
def nodeOf (prodlist : List ProductionDef) (item : TransitionItem) : Option ProductionNode := do
  (← prodlist[item.prodindex]?).nodeAt item.prodpos

def leftOf (prodlist : List ProductionDef) (item : TransitionItem) : Except Failure Int :=
  match prodlist[item.prodindex]? with
  | none => .error .outOfRange
  | some prod => .ok prod.left.index

def collectStartNonterminals (prodlist : List ProductionDef) :
    Nat → FlatSet Int → Int → Except Failure (FlatSet Int)
  | 0, _, _ => .error .outOfFuel
  | fuel + 1, result, nonterminal =>
    if nonterminal ∈ result then .ok result
    else
      (equal_range prodlist nonterminal).foldlM (fun result prodindex =>
        match nodeOf prodlist ⟨prodindex, 0, 0⟩ with
        | some ⟨.NonTerminal, index⟩ => collectStartNonterminals prodlist fuel result index
        | _ => .ok result) (result.insert nonterminal)

def collectStartsOfItem (fuel : Nat) (prodlist : List ProductionDef) (result : FlatSet Int)
    (item : TransitionItem) : Except Failure (FlatSet Int) :=
  match nodeOf prodlist item with
  | some ⟨.NonTerminal, index⟩ => collectStartNonterminals prodlist fuel result index
  | _ => .ok result

def getLr0TransitionStateClosure (fuel : Nat) (prodlist : List ProductionDef)
    (ts : TransitionState) : Except Failure TransitionState := do
  let nonterminals ← ts.unpack.foldlM (collectStartsOfItem fuel prodlist) SortedSet.empty
  .ok (nonterminals.elems.foldl (fun rt nonterminal =>
    (equal_range prodlist nonterminal).foldl (fun rt prodindex => rt.insert ⟨prodindex, 0, 0⟩) rt)
      ts)

/-- The sets that follow the nonterminals in a state, with the sets of the whole build. -/
abbrev FollowState := FollowMap × SortedMap Int Nat

/-- [1] The sets that follow the left sides of the items of the kernel. -/
def inheritKernel (prodlist : List ProductionDef) (state : FollowState) (item : TransitionItem) :
    Except Failure FollowState := do
  let left ← leftOf prodlist item
  match state.2.find left with
  | none => .ok (state.1, state.2.set left item.follow)
  | some follow => do
    let (fm, follow) ← state.1.join item.follow follow
    .ok (fm, state.2.set left follow)

/-- [2] The FIRST set of what comes behind a nonterminal of an item. -/
def addFirst (prodlist : List ProductionDef) (state : FollowState) (item : TransitionItem) :
    Except Failure FollowState :=
  match nodeOf prodlist item with
  | some ⟨.NonTerminal, index⟩ => do
    let entry ← state.1.get ⟨item.prodindex, item.prodpos⟩
    match state.2.find index with
    | none => .ok (state.1, state.2.set index entry.handle)
    | some known => do
      let (fm, follow) ← state.1.join entry.handle known
      .ok (fm, state.2.set index follow)
  | _ => .ok state

/-- [3] What follows the left side of an item follows the nonterminal before a nullable rest too. -/
def inheritFollow (prodlist : List ProductionDef) (state : FollowState × Bool)
    (item : TransitionItem) : Except Failure (FollowState × Bool) :=
  match nodeOf prodlist item with
  | some ⟨.NonTerminal, index⟩ => do
    let entry ← state.1.1.get ⟨item.prodindex, item.prodpos⟩
    let left ← leftOf prodlist item
    if entry.inherit then
      match state.1.2.find index, state.1.2.find left with
      | some inherited, some inheriting => do
        let (fm, follow) ← state.1.1.join inherited inheriting
        if inherited ≠ follow then .ok ((fm, state.1.2.set index follow), true)
        else .ok ((fm, state.1.2), state.2)
      | _, _ => .ok state
    else .ok state
  | _ => .ok state

/-- The loop of [3] until nothing changes. -/
def inheritLoop (prodlist : List ProductionDef) (items : List TransitionItem) :
    Nat → FollowState → Except Failure FollowState
  | 0, _ => .error .outOfFuel
  | fuel + 1, state => do
    let (state, changed) ← items.foldlM (inheritFollow prodlist) (state, false)
    if changed then inheritLoop prodlist items fuel state else .ok state

/-- [4] The item with the set that follows its left side. -/
def assignFollow (prodlist : List ProductionDef) (follows : SortedMap Int Nat)
    (rt : TransitionState) (item : TransitionItem) : Except Failure TransitionState := do
  let left ← leftOf prodlist item
  match follows.find left with
  | none => .error .outOfRange
  | some follow => .ok (rt.insert { item with follow := follow })

def getLr1TransitionStateClosure (fuel : Nat) (prodlist : List ProductionDef) (fm : FollowMap)
    (ts : TransitionState) : Except Failure (FollowMap × TransitionState) := do
  let lr0closure ← getLr0TransitionStateClosure fuel prodlist ts
  let state ← ts.unpack.foldlM (inheritKernel prodlist) (fm, SortedMap.empty)
  let state ← lr0closure.unpack.foldlM (addFirst prodlist) state
  let (fm, follows) ← inheritLoop prodlist lr0closure.unpack fuel state
  let rt ← lr0closure.unpack.foldlM (assignFollow prodlist follows) {}
  .ok (fm, rt)

end Mewa
