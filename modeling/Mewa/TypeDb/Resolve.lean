/- Module: Mewa/TypeDb/Resolve
   digest: The resolving of a name in the contexts that some types can be reduced to. -/

import Mewa.TypeDb.Derive

set_option autoImplicit false
set_option relaxedAutoImplicit false

namespace Mewa

open Mewa.Lib

namespace ReduStack

/-- The loop of `collectResultWithRootIndex` over the path that ends at an index. A start holds the
    root index in the place of its constructor. -/
def collectWithRoot (ar : ReduStack) :
    Nat → Option Nat → Int → Except Failure (Int × List ReduStackElem)
  | _, none, rootIndex => .ok (rootIndex, [])
  | 0, some _, _ => .error .outOfFuel
  | fuel + 1, some index, rootIndex =>
    match ar[index]? with
    | none => .error .outOfRange
    | some ee =>
      if ee.prev.isSome then do
        let (rootIndex, rest) ← collectWithRoot ar fuel ee.prev rootIndex
        .ok (rootIndex, ee :: rest)
      else collectWithRoot ar fuel ee.prev ee.constructor

def collectResultWithRootIndex (ar : ReduStack) (rootIndex : Int) (index : Nat) :
    Except Failure (Int × List TypeConstructorPair) := do
  let (rootIndex, result) ← collectWithRoot ar ar.length (some index) rootIndex
  .ok (rootIndex, result.reverse.map fun ee => ⟨ee.type, ee.constructor⟩)

end ReduStack

structure ResolveResult where
  reductions : List TypeConstructorPair := []
  items : List Int := []
  rootIndex : Int := -1
  contextType : Int := -1
  conflictType : Int := -1
  weightsum : ℚ := 0
  deriving DecidableEq, Repr

namespace TypeDatabase

/-- The arguments of a search for a name that do not change. `epsilon` is the distance up to which
    two weights count as equal. -/
structure ResolveArgs where
  step : Int
  nameid : Int
  selectTags : TagMask
  epsilon : ℚ

/-- The contexts of the query are the starts of the search, a type listed twice is one of them. The
    root index is stored as constructor. -/
def pushContext (db : TypeDatabase) (state : ReduStack × List ReduQueueElem)
    (context : Int × Nat) : Except Failure (ReduStack × List ReduQueueElem) :=
  if ¬ db.validHandle 0 context.1 then throw .InvalidHandle (toString context.1) else
  match state.1.pushNonDuplicateStart context.1 (context.2 + 1) with
  | (stack, none) => .ok (stack, state.2)
  | (stack, some index) => .ok (stack, ReduQueueElem.push ⟨0, index⟩ state.2)

/-- One follow element of a path: a new path, unless its type is on the path already. -/
def pushReduction (qe : ReduQueueElem) (elem : ReduStackElem)
    (state : ReduStack × List ReduQueueElem) (redu : ResultElement Int Int) :
    Except Failure (ReduStack × List ReduQueueElem) := do
  let (stack, index) ← state.1.pushIfNew redu.right redu.value qe.index (elem.pathlen + 1)
  match index with
  | none => .ok (stack, state.2)
  | some index => .ok (stack, ReduQueueElem.push ⟨qe.weight + redu.weight, index⟩ state.2)

/-- The search loop. After the first match it goes on to look for an alternative one. -/
def resolveLoop (db : TypeDatabase) (args : ResolveArgs) :
    Nat → ReduStack → List ReduQueueElem → ResolveResult → Bool → Except Failure ResolveResult
  | _, _, [], rt, _ => .ok rt
  | 0, _, _ :: _, _, _ => .error .outOfFuel
  | fuel + 1, stack, qe :: queue, rt, alt_searchstate =>
    if alt_searchstate ∧ qe.weight > rt.weightsum + args.epsilon then .ok rt else
    match stack[qe.index]? with
    | none => .error .outOfRange
    | some elem => do
      let typerecidx ← db.typeTable.get args.step ⟨elem.type, args.nameid⟩
      if typerecidx ≠ 0 ∧ alt_searchstate then .ok { rt with conflictType := elem.type }
      else do
        let (rt, alt_searchstate) ←
          if typerecidx ≠ 0 then do
            let (rootIndex, reductions) ← stack.collectResultWithRootIndex rt.rootIndex qe.index
            let items ← db.collectResultItems db.typerecMap.length typerecidx
            pure ({ rt with weightsum := qe.weight, contextType := elem.type,
                            rootIndex := rootIndex, reductions := reductions, items := items }, true)
          else pure (rt, alt_searchstate)
        let redulist ← db.reduTable.get args.step elem.type args.selectTags
        let (stack, queue) ← redulist.foldlM (pushReduction qe elem) (stack, queue)
        resolveLoop db args fuel stack queue rt alt_searchstate

def resolveType (db : TypeDatabase) (fuel : Nat) (epsilon : ℚ) (step : Int)
    (contextTypes : List Int) (name : String) (selectTags : TagMask) :
    Except Failure ResolveResult := do
  let nameid ← db.identMap.lookup name
  if nameid = 0 then .ok {} else
    let (stack, queue) ← contextTypes.zipIdx.foldlM db.pushContext ([], [])
    db.resolveLoop ⟨step, nameid, selectTags, epsilon⟩ fuel stack queue {} false

end TypeDatabase

end Mewa
