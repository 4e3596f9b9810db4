/- Module: Mewa/TypeDb/Derive
   digest: The derivation of a type: the stack of paths, the priority queue and the search. -/

import Mewa.TypeDb.Structs

set_option autoImplicit false
set_option relaxedAutoImplicit false

namespace Mewa

open Mewa.Lib

/-- A type on a path, linked to the one before it. -/
structure ReduStackElem where
  type : Int
  constructor : Int
  prev : Option Nat
  pathlen : Int
  deriving DecidableEq, Repr

abbrev ReduStack := List ReduStackElem

namespace ReduStack

/-- The new stack and the index of the element pushed, or none for -1. -/
def pushNonDuplicateStart (ar : ReduStack) (type constructor : Int) : ReduStack × Option Nat :=
  if ar.any fun ee => ee.type = type then (ar, none)
  else (ar ++ [⟨type, constructor, none, 0⟩], some ar.length)

/-- The loop of `pushIfNew` over the path that ends at an index. -/
def occurs (ar : ReduStack) (type : Int) : Nat → Option Nat → Except Failure Bool
  | _, none => .ok false
  | 0, some _ => .error .outOfFuel
  | fuel + 1, some index =>
    match ar[index]? with
    | none => .error .outOfRange
    | some ee => if ee.type = type then .ok true else occurs ar type fuel ee.prev

def pushIfNew (ar : ReduStack) (type constructor : Int) (prev : Nat) (pathlen : Int) :
    Except Failure (ReduStack × Option Nat) := do
  if ← occurs ar type ar.length (some prev) then .ok (ar, none)
  else .ok (ar ++ [⟨type, constructor, some prev, pathlen⟩], some ar.length)

/-- The elements of the path that ends at an index, without its start and from the end. -/
def collect (ar : ReduStack) : Nat → Option Nat → Except Failure (List ReduStackElem)
  | _, none => .ok []
  | 0, some _ => .error .outOfFuel
  | fuel + 1, some index =>
    match ar[index]? with
    | none => .error .outOfRange
    | some ee => do
      let rest ← collect ar fuel ee.prev
      .ok (if ee.prev.isSome then ee :: rest else rest)

def collectResult (ar : ReduStack) (index : Nat) : Except Failure (List TypeConstructorPair) := do
  let result ← collect ar ar.length (some index)
  .ok (result.reverse.map fun ee => ⟨ee.type, ee.constructor⟩)

def collectConflictPath (ar : ReduStack) (index : Nat) : Except Failure (List Int) := do
  let result ← collect ar ar.length (some index)
  .ok (result.reverse.map ReduStackElem.type)

end ReduStack

structure ReduQueueElem where
  weight : ℚ
  index : Nat
  deriving DecidableEq, Repr

namespace ReduQueueElem

/-- The order of the queue: by weight, and by index for equal weights. -/
def less (a b : ReduQueueElem) : Bool :=
  if a.weight = b.weight then a.index < b.index else a.weight < b.weight

/-- The priority queue is kept as the list of its elements from the least one upwards. -/
def push (qe : ReduQueueElem) : List ReduQueueElem → List ReduQueueElem
  | [] => [qe]
  | b :: queue => if less qe b then qe :: b :: queue else b :: push qe queue

end ReduQueueElem

structure DeriveResult where
  reductions : List TypeConstructorPair := []
  conflictPath : List Int := []
  weightsum : ℚ := 0
  defined : Bool := false
  deriving DecidableEq, Repr

namespace TypeDatabase

/-- The arguments of a derivation that do not change. `epsilon` is the distance up to which two
    weights count as equal. -/
structure DeriveArgs where
  step : Int
  toType : Int
  selectTags : TagMask
  selectTagsCount : TagMask
  maxCount : Int
  epsilon : ℚ

/-- One follow element of a path: a new path, unless it counts too many edges or its type is on
    the path already. -/
def pushFollow (args : DeriveArgs) (qe : ReduQueueElem) (elem : ReduStackElem)
    (state : ReduStack × List ReduQueueElem) (redu : ResultElement Int Int) :
    Except Failure (ReduStack × List ReduQueueElem) := do
  let pathlen := if args.selectTagsCount.matchesTag redu.tagval then elem.pathlen + 1
    else elem.pathlen
  if pathlen ≤ args.maxCount then
    let (stack, index) ← state.1.pushIfNew redu.right redu.value qe.index pathlen
    match index with
    | none => .ok (stack, state.2)
    | some index => .ok (stack, ReduQueueElem.push ⟨qe.weight + redu.weight, index⟩ state.2)
  else .ok state

/-- The search loop. After the first result it goes on to look for an alternative one. -/
def deriveLoop (db : TypeDatabase) (args : DeriveArgs) :
    Nat → ReduStack → List ReduQueueElem → DeriveResult → Bool → Except Failure DeriveResult
  | _, _, [], rt, _ => .ok rt
  | 0, _, _ :: _, _, _ => .error .outOfFuel
  | fuel + 1, stack, qe :: queue, rt, alt_searchstate =>
    if alt_searchstate ∧ qe.weight > rt.weightsum + args.epsilon then .ok rt else
    match stack[qe.index]? with
    | none => .error .outOfRange
    | some elem =>
      if elem.type = args.toType ∧ alt_searchstate then do
        let conflictPath ← stack.collectConflictPath qe.index
        .ok { rt with conflictPath := conflictPath }
      else do
        let (rt, alt_searchstate) ←
          if elem.type = args.toType then do
            let reductions ← stack.collectResult qe.index
            pure ({ rt with defined := true, weightsum := qe.weight, reductions := reductions },
              true)
          else pure (rt, alt_searchstate)
        let redulist ← db.reduTable.get args.step elem.type args.selectTags
        let (stack, queue) ← redulist.foldlM (pushFollow args qe elem) (stack, queue)
        deriveLoop db args fuel stack queue rt alt_searchstate

/-- The bound on the counted edges, where -1 stands for no bound but that of an integer. -/
def countLimit (maxCount : Int) : Int := if maxCount = -1 then maxInt else maxCount

def deriveType (db : TypeDatabase) (fuel : Nat) (epsilon : ℚ) (step toType fromType : Int)
    (selectTags selectTagsCount : TagMask) (maxCount : Int) : Except Failure DeriveResult :=
  if ¬ db.validHandle 1 fromType then throw .InvalidHandle (toString fromType)
  else if ¬ db.validHandle 0 toType then throw .InvalidHandle (toString toType)
  else if countLimit maxCount < 0 then throw .InvalidBoundary (toString maxCount)
  else
    match ReduStack.pushNonDuplicateStart [] fromType 0 with
    | (_, none) => .error .outOfRange
    | (stack, some index) =>
      deriveLoop db ⟨step, toType, selectTags, selectTagsCount, countLimit maxCount, epsilon⟩ fuel
        stack [⟨0, index⟩] {} false

end TypeDatabase

end Mewa
