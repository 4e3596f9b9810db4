/- Module: Mewa/Automaton/States
   digest: The states reached by goto, their numbers, and the merge of states with one core. -/

import Mewa.Automaton.Closure

set_option autoImplicit false
set_option relaxedAutoImplicit false

namespace Mewa

open Mewa.Lib

/-- The order in which the entries of a hash table are visited, which is not specified. -/
structure HashOrder (α : Type) where
  visit : List α → List α
  perm : ∀ l, (visit l).Perm l

namespace HashOrder

def insertion {α : Type} : HashOrder α := ⟨id, List.Perm.refl⟩

def reversed {α : Type} : HashOrder α := ⟨List.reverse, List.reverse_perm⟩

end HashOrder

def joinSamePosition : List TransitionItem → TransitionItem → FollowMap →
    Except Failure (FollowMap × TransitionItem × List TransitionItem)
  | [], item, fm => .ok (fm, item, [])
  | item2 :: rest, item, fm =>
    if item2.prodindex ≠ item.prodindex ∨ item2.prodpos ≠ item.prodpos then
      .ok (fm, item, item2 :: rest)
    else do
      let (fm, joinedFollow) ← fm.join item2.follow item.follow
      joinSamePosition rest { item with follow := joinedFollow } fm

/-- The loop over the groups of items with the same position. -/
def mergeLoop : Nat → List TransitionItem → FollowMap → TransitionState →
    Except Failure (FollowMap × TransitionState)
  | _, [], fm, newstate => .ok (fm, newstate)
  | 0, _ :: _, _, _ => .error .outOfFuel
  | fuel + 1, item :: rest, fm, newstate => do
    let (fm, item, rest) ← joinSamePosition rest item fm
    mergeLoop fuel rest fm (newstate.insert item)

def mergeTransitionStateFollow (fm : FollowMap) (state : TransitionState) :
    Except Failure (FollowMap × TransitionState) :=
  mergeLoop state.unpack.length state.unpack fm {}

def joinLr1TransitionStates (fm : FollowMap) (s1 s2 : TransitionState) :
    Except Failure (FollowMap × TransitionState) :=
  mergeTransitionStateFollow fm (s1.join s2)

def getLr0TransitionStateFromLr1State (ts : TransitionState) : TransitionState :=
  ts.unpack.foldl (fun rt item => rt.insert { item with follow := 0 }) {}

def collectGotoNodes (prodlist : List ProductionDef) (state : TransitionState) :
    FlatSet ProductionNode :=
  SortedSet.ofList (state.unpack.filterMap (nodeOf prodlist))

abbrev CalculateClosure (σ : Type) := σ → TransitionState → Except Failure (σ × TransitionState)

def calculateClosureLr0 (fuel : Nat) (prodlist : List ProductionDef) : CalculateClosure Unit :=
  fun _ state => do .ok ((), ← getLr0TransitionStateClosure fuel prodlist state)

def calculateClosureLr1 (fuel : Nat) (prodlist : List ProductionDef) :
    CalculateClosure FollowMap := getLr1TransitionStateClosure fuel prodlist

section Explore

variable {σ : Type}

def gotoKernel (prodlist : List ProductionDef) (state : TransitionState) (gto : ProductionNode) :
    TransitionState :=
  state.unpack.foldl (fun rt item =>
    if nodeOf prodlist item = some gto then rt.insert { item with prodpos := item.prodpos + 1 }
    else rt) {}

def getGotoState (prodlist : List ProductionDef) (calculateClosure : CalculateClosure σ) (s : σ)
    (state : TransitionState) (gto : ProductionNode) : Except Failure (σ × TransitionState) :=
  calculateClosure s (gotoKernel prodlist state gto)

/-- The states with their numbers, in the order in which they were found. -/
abbrev StateAssignments := List (TransitionState × Int)

def numberOf (assignments : StateAssignments) (state : TransitionState) : Option Int :=
  (assignments.find? fun e => e.1 = state).map Prod.snd

/-- One goto of a state: the new state is numbered, unless it is known. -/
def assignGoto (prodlist : List ProductionDef) (calculateClosure : CalculateClosure σ)
    (state : TransitionState) (ctx : σ × StateAssignments × List TransitionState)
    (gto : ProductionNode) : Except Failure (σ × StateAssignments × List TransitionState) := do
  let (s, newState) ← getGotoState prodlist calculateClosure ctx.1 state gto
  if newState.empty then logicError
  else
    match numberOf ctx.2.1 newState with
    | some _ => .ok (s, ctx.2.1, ctx.2.2)
    | none =>
      .ok (s, ctx.2.1 ++ [(newState, (ctx.2.1.length : Int) + 1)], ctx.2.2 ++ [newState])

/-- The loop over the states found, which appends the new ones to those still to be visited. -/
def assignmentLoop (prodlist : List ProductionDef) (calculateClosure : CalculateClosure σ) :
    Nat → σ → StateAssignments → List TransitionState → Except Failure (σ × StateAssignments)
  | _, s, rt, [] => .ok (s, rt)
  | 0, _, _, _ :: _ => .error .outOfFuel
  | fuel + 1, s, rt, state :: statestk => do
    let (s, rt, newstates) ← (collectGotoNodes prodlist state).elems.foldlM
      (assignGoto prodlist calculateClosure state) (s, rt, [])
    assignmentLoop prodlist calculateClosure fuel s rt (statestk ++ newstates)

def getAutomatonStateAssignments (fuel : Nat) (prodlist : List ProductionDef)
    (calculateClosure : CalculateClosure σ) (s : σ) : Except Failure (σ × StateAssignments) := do
  let (s, start) ← calculateClosure s (({} : TransitionState).insert ⟨0, 0, 0⟩)
  assignmentLoop prodlist calculateClosure fuel s [(start, 1)] [start]

end Explore

def isAcceptState (prodlist : List ProductionDef) (state : TransitionState) : Bool :=
  state.unpack.any fun item =>
    decide (item.prodindex = 0 ∧ item.follow = 0) &&
      (prodlist.head?).any fun prod => item.prodpos = prod.right.length

/-- One state with lookaheads joined into the merged state with its core. -/
def mergeLr1State (lr0statemap : StateAssignments)
    (ctx : FollowMap × SortedMap Int TransitionState) (st : TransitionState × Int) :
    Except Failure (FollowMap × SortedMap Int TransitionState) :=
  match numberOf lr0statemap (getLr0TransitionStateFromLr1State st.1) with
  | none => .error .outOfRange
  | some stateidx => do
    let (fm, joined) ←
      joinLr1TransitionStates ctx.1 ((ctx.2.find stateidx).getD {}) st.1
    .ok (fm, ctx.2.set stateidx joined)

def calculateLalr1StateMap (order : HashOrder (TransitionState × Int))
    (lr0statemap lr1statemap : StateAssignments) (fm : FollowMap) :
    Except Failure (FollowMap × SortedMap Int TransitionState) :=
  (order.visit lr1statemap).foldlM (mergeLr1State lr0statemap) (fm, SortedMap.empty)

/-- The kernels of the merged states with their numbers. -/
abbrev TransitionItemGotoMap := List (FlatSet Nat × Int)

def gotoNumber (map : TransitionItemGotoMap) (key : FlatSet Nat) : Option Int :=
  (map.find? fun e => e.1 = key).map Prod.snd

def kernelKey (state : TransitionState) : FlatSet Nat :=
  SortedSet.ofList ((state.unpack.filter fun item => item.prodpos > 0).map fun item =>
    ({ item with follow := 0 } : TransitionItem).packed)

def insertKernel (rt : TransitionItemGotoMap) (st : Int × TransitionState) :
    Except Failure TransitionItemGotoMap :=
  match gotoNumber rt (kernelKey st.2) with
  | some _ => logicError
  | none => .ok (rt ++ [(kernelKey st.2, st.1)])

def calculateLalr1TransitionItemGotoMap (lalr1States : SortedMap Int TransitionState) :
    Except Failure TransitionItemGotoMap :=
  lalr1States.entries.foldlM insertKernel []

end Mewa
