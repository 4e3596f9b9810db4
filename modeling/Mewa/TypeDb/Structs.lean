/- Module: Mewa/TypeDb/Structs
   digest: The type database: types, their records, objects and reductions. -/

import Mewa.Ident.Key
import Mewa.TypeDb.Relation

set_option autoImplicit false
set_option relaxedAutoImplicit false

namespace Mewa

open Mewa.Lib

/-- The identifier map as the list of its identifiers, numbered from 1. A string stands for the
    sequence of its bytes, one character for each. -/
structure IdentMap where
  inv : List String
  deriving DecidableEq, Repr

namespace IdentMap

/-- The part of a string that its key holds. There is none if the block of the key is too small. -/
def key (str : String) : Except Failure String := do
  let key ← Ident.IdentKey.create (Ident.bytesOf str)
  return String.ofList (str.toList.take key.size)

/-- The number of a key or 0 if it is unknown. -/
def find (map : IdentMap) (key : String) : Int :=
  match map.inv.findIdx? (· == key) with
  | some i => i + 1
  | none => 0

/-- The number of a key, a new one if it is unknown. -/
def enter (map : IdentMap) (key : String) : IdentMap × Int :=
  match map.inv.findIdx? (· == key) with
  | some i => (map, i + 1)
  | none => (⟨map.inv ++ [key]⟩, map.inv.length + 1)

def lookup (map : IdentMap) (str : String) : Except Failure Int := do
  return map.find (← key str)

def get (map : IdentMap) (str : String) : Except Failure (IdentMap × Int) := do
  return map.enter (← key str)

end IdentMap

@[ext] structure TypeDef where
  contextType : Int
  ident : Int
  deriving DecidableEq, Repr

instance : LinearOrder TypeDef :=
  LinearOrder.lift' (fun d => toLex (d.contextType, d.ident)) fun _ _ h =>
    TypeDef.ext (congrArg Prod.fst (toLex.injective h)) (congrArg Prod.snd (toLex.injective h))

structure TypeConstructorPair where
  type : Int
  constructor : Int
  deriving DecidableEq, Repr

structure TypeRecord where
  scope : Scope
  constructor : Int
  parameterlen : Nat
  parameter : Nat
  next : Nat
  inv : TypeDef
  deriving DecidableEq, Repr

structure TypeDatabase where
  objidMap : SortedMap Int Nat
  objAr : List (ScopedInstance Int)
  typeTable : ScopedMap TypeDef Int
  reduTable : ScopedRelationMap Int Int
  identMap : IdentMap
  parameterMap : List TypeConstructorPair
  typerecMap : List TypeRecord

namespace TypeDatabase

/-- The database after its construction: the object table has one unused element. -/
def empty : TypeDatabase where
  objidMap := SortedMap.empty
  objAr := [ScopedInstance.empty (-1)]
  typeTable := ScopedMap.empty 0
  reduTable := ScopedRelationMap.empty
  identMap := ⟨[]⟩
  parameterMap := []
  typerecMap := []

def maxNofParameter : Nat := 32768

def maxInt : Int := 2147483647

def throw {α : Type} (code : ErrorCode) (arg : String := "") : Except Failure α :=
  .error (.thrown ⟨code, arg, 0⟩)

/-- The handles of types are 1 to the number of type records, and 0 stands for no type. -/
def validHandle (db : TypeDatabase) (low type : Int) : Prop :=
  low ≤ type ∧ type ≤ db.typerecMap.length

instance (db : TypeDatabase) (low type : Int) : Decidable (db.validHandle low type) :=
  inferInstanceAs (Decidable (low ≤ type ∧ type ≤ db.typerecMap.length))

/-- The name of a type with the names of its contexts and parameters. -/
def typeToString (db : TypeDatabase) (sep : String) : Nat → Int → Except Failure String
  | 0, _ => .error .outOfFuel
  | fuel + 1, type =>
    if type = 0 then .ok "" else
    if ¬ db.validHandle 0 type then throw .InvalidHandle else
    match db.typerecMap[(type - 1).toNat]? with
    | none => .error .outOfRange
    | some record => do
      let context ← if record.inv.contextType = 0 then pure "" else do
        pure ((← typeToString db sep fuel record.inv.contextType) ++ sep)
      let name := context ++ (db.identMap.inv[(record.inv.ident - 1).toNat]?).getD ""
      if record.parameterlen = 0 then pure name else do
        let parameters ← (List.range record.parameterlen).mapM fun pi =>
          match db.parameterMap[record.parameter + pi - 1]? with
          | none => .error .outOfRange
          | some p => typeToString db sep fuel p.type
        pure (name ++ "(" ++ ",".intercalate parameters ++ ")")

def setObjectInstance (name : String) (scope : Scope) (handle : Int) (db : TypeDatabase) :
    TypeDatabase × Except Failure Unit :=
  if handle ≤ 0 then (db, throw .InvalidHandle (toString handle)) else
  match db.identMap.get name with
  | .error e => (db, .error e)
  | .ok (identMap, objid) =>
  let (objidMap, known) := db.objidMap.insertNew objid db.objAr.length
  let objAr := match known with
    | none => db.objAr ++ [ScopedInstance.empty (-1)]
    | some _ => db.objAr
  let index := known.getD db.objAr.length
  let db := { db with identMap := identMap, objidMap := objidMap, objAr := objAr }
  match objAr[index]? with
  | none => (db, .error .outOfRange)
  | some access =>
    let (access', result) := access.set scope handle
    ({ db with objAr := objAr.set index access' }, result)

def compareParameterSignature (db : TypeDatabase) (parameter : List TypeConstructorPair)
    (param2 paramlen2 : Nat) : Except Failure Bool :=
  if parameter.length ≠ paramlen2 then .ok false else
  (parameter.zipIdx).foldlM (fun same p =>
    if same then
      match db.parameterMap[param2 + p.2 - 1]? with
      | none => .error .outOfRange
      | some q => .ok (p.1.type = q.type)
    else .ok false) true

/-- The type of a list with a parameter signature, or 0, and the last one visited before it. -/
def findTypeWithSignature (db : TypeDatabase) (parameter : List TypeConstructorPair) :
    Nat → Nat → Nat → Except Failure (Nat × Nat)
  | _, 0, lastListIndex => .ok (0, lastListIndex)
  | 0, _ + 1, _ => .error .outOfFuel
  | fuel + 1, tri + 1, lastListIndex =>
    match db.typerecMap[tri]? with
    | none => .error .outOfRange
    | some tr => do
      if ← db.compareParameterSignature parameter tr.parameter tr.parameterlen then
        .ok (tri + 1, lastListIndex)
      else findTypeWithSignature db parameter fuel tr.next (tri + 1)

/-- The types of a list linked by their records, from the one it starts with. -/
def collectResultItems (db : TypeDatabase) : Nat → Int → Except Failure (List Int)
  | fuel, typerecidx =>
    if typerecidx > 0 then
      match fuel with
      | 0 => .error .outOfFuel
      | fuel + 1 =>
        match db.typerecMap[(typerecidx - 1).toNat]? with
        | none => .error .outOfRange
        | some record => do
          let items ← db.collectResultItems fuel record.next
          .ok (typerecidx :: items)
    else .ok []

/-- The overload of the search for a signature that takes a list of types compares no more. -/
def getType (scope : Scope) (contextType : Int) (name : String) (parameter : List Int)
    (db : TypeDatabase) : TypeDatabase × Except Failure Int :=
  if ¬ db.validHandle 0 contextType then (db, throw .InvalidHandle (toString contextType)) else
  match db.identMap.get name with
  | .error e => (db, .error e)
  | .ok (identMap, ident) =>
  let db := { db with identMap := identMap }
  (db, do
    let typerec ← db.typeTable.getDef scope ⟨contextType, ident⟩
    if typerec ≠ 0 then
      let (tri, _) ← db.findTypeWithSignature (parameter.map fun type => ⟨type, 0⟩)
        db.typerecMap.length typerec.toNat 0
      pure tri
    else pure 0)

def getTypes (scope : Scope) (contextType : Int) (name : String) (db : TypeDatabase) :
    TypeDatabase × Except Failure (List Int) :=
  if ¬ db.validHandle 0 contextType then (db, throw .InvalidHandle (toString contextType)) else
  match db.identMap.get name with
  | .error e => (db, .error e)
  | .ok (identMap, ident) =>
  let db := { db with identMap := identMap }
  (db, do
    let tri ← db.typeTable.getDef scope ⟨contextType, ident⟩
    db.collectResultItems db.typerecMap.length tri)

def defineType (scope : Scope) (contextType : Int) (name : String) (constructor : Int)
    (parameter : List TypeConstructorPair) (db : TypeDatabase) :
    TypeDatabase × Except Failure Int :=
  if parameter.length ≥ maxNofParameter then
    (db, throw .TooManyTypeArguments (toString parameter.length))
  else if (db.parameterMap.length + parameter.length : Int) ≥ maxInt then
    (db, throw .CompiledSourceTooComplex)
  else if constructor < 0 then (db, throw .InvalidHandle (toString constructor))
  else if ¬ db.validHandle 0 contextType then (db, throw .InvalidHandle (toString contextType))
  else
    let parameteridx := if parameter.isEmpty then 0 else db.parameterMap.length + 1
    let typerec := db.typerecMap.length + 1
    match db.identMap.get name with
    | .error e => (db, .error e)
    | .ok (identMap, ident) =>
    let typeDef : TypeDef := ⟨contextType, ident⟩
    let (typeTable, result) := db.typeTable.getOrSet scope typeDef (typerec : Int)
    let db := { db with
      parameterMap := db.parameterMap ++ parameter
      identMap := identMap
      typerecMap := db.typerecMap ++
        [⟨scope, constructor, parameter.length, parameteridx, 0, typeDef⟩]
      typeTable := typeTable }
    match result with
    | .error e => (db, .error e)
    | .ok prev_typerec =>
      if prev_typerec = 0 then (db, .ok typerec) else
      match db.findTypeWithSignature parameter db.typerecMap.length prev_typerec.toNat 0 with
      | .error e => (db, .error e)
      | .ok (tri, lastListIndex) =>
        if tri ≠ 0 then (db, .ok (-1))
        else if lastListIndex = 0 then (db, throw .LogicError "typedb.cpp")
        else
          let typerecMap := db.typerecMap.modify (lastListIndex - 1) fun tr =>
            { tr with next := typerec }
          ({ db with typerecMap := typerecMap }, .ok typerec)

def defineTypeAs (scope : Scope) (contextType : Int) (name : String) (type : Int)
    (db : TypeDatabase) : TypeDatabase × Except Failure Int :=
  if ¬ db.validHandle 0 contextType then (db, throw .InvalidHandle (toString contextType))
  else if ¬ db.validHandle 1 type then (db, throw .InvalidHandle (toString type))
  else
    match db.identMap.get name with
    | .error e => (db, .error e)
    | .ok (identMap, ident) =>
    let (typeTable, result) := db.typeTable.set scope ⟨contextType, ident⟩ type
    ({ db with identMap := identMap, typeTable := typeTable },
      result.map fun isNew => if isNew then type else 0)

/-- The bound on the iterations is needed for the text of one error only. -/
def defineReduction (fuel : Nat) (scope : Scope) (toType fromType constructor : Int) (tag : Int)
    (weight : ℚ) (db : TypeDatabase) : TypeDatabase × Except Failure Unit :=
  if constructor < 0 then (db, throw .InvalidHandle (toString constructor))
  else if ¬ db.validHandle 0 toType then (db, throw .InvalidHandle (toString toType))
  else if ¬ db.validHandle 1 fromType then (db, throw .InvalidHandle (toString fromType))
  else if toType = fromType then
    match db.typeToString " " fuel toType with
    | .error e => (db, .error e)
    | .ok nam => (db, throw .InvalidReductionDefinition (nam ++ " <- " ++ nam))
  else
    let (reduTable, result) := db.reduTable.set scope fromType toType constructor tag weight
    ({ db with reduTable := reduTable }, result)

end TypeDatabase

end Mewa
