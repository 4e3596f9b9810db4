/- Module: Mewa/Scope/Structs
   digest: Scopes, the inverse tree of up-values and the scoped containers built on it. -/

import Mathlib.Order.Basic
import Mathlib.Data.Prod.Lex
import Mathlib.Data.Int.Order.Basic
import Mewa.Error
import Mewa.Lib.Sorted

set_option autoImplicit false
set_option relaxedAutoImplicit false

namespace Mewa

open Mewa.Lib

/-- The upper bound of a scope without end. -/
def maxStep : Int := 2147483647

@[ext] structure Scope where
  start : Int
  stop : Int
  deriving DecidableEq, Repr

namespace Scope

/-- The constructor from two numbers: a negative start counts as 0, a negative end as no end. -/
def ofSteps (start_ end_ : Int) : Scope :=
  ⟨if start_ ≥ 0 then start_ else 0, if end_ ≥ 0 then end_ else maxStep⟩

def contains (s o : Scope) : Bool := o.start ≥ s.start && o.stop ≤ s.stop

def containsStep (s : Scope) (step : Int) : Bool := step ≥ s.start && step < s.stop

def tostring (s : Scope) : String :=
  if s.stop = maxStep then "[" ++ toString s.start ++ ",INF]"
  else "[" ++ toString s.start ++ "," ++ toString s.stop ++ "]"

/-- A smaller scope lies inside a bigger one. -/
instance : PartialOrder Scope where
  le s t := t.start ≤ s.start ∧ s.stop ≤ t.stop
  le_refl s := ⟨le_rfl, le_rfl⟩
  le_trans s t u hst htu := ⟨htu.1.trans hst.1, hst.2.trans htu.2⟩
  le_antisymm s t hst hts := Scope.ext (le_antisymm hts.1 hst.1) (le_antisymm hst.2 hts.2)

theorem le_iff {s t : Scope} : s ≤ t ↔ t.start ≤ s.start ∧ s.stop ≤ t.stop := Iff.rfl

instance (s t : Scope) : Decidable (s ≤ t) := decidable_of_iff _ le_iff.symm

@[simp] theorem contains_iff {s o : Scope} : s.contains o = true ↔ o ≤ s := by
  simp [contains, le_iff]

@[simp] theorem containsStep_iff {s : Scope} {step : Int} :
    s.containsStep step = true ↔ s.start ≤ step ∧ step < s.stop := by
  simp [containsStep]

end Scope

/-- A definition in the tree, linked to the next definition whose scope encloses its own. -/
structure ScopedUpValue (V : Type) where
  scope : Scope
  value : V
  prev : Option Nat
  deriving DecidableEq, Repr

structure ScopedUpValueInvTree (V : Type) where
  ar : List (ScopedUpValue V)
  nullval : V
  deriving DecidableEq, Repr

/-- The next move of a loop: another iteration or its result. -/
inductive Loop (σ : Type) (ρ : Type)
  | next (state : σ)
  | done (result : ρ)

section Walk

variable {V : Type} {σ ρ : Type}

/-- The loop "while (ai >= 0) { body; ai = m_ar[ai].prev }" of the tree functions. -/
def whileUp (ar : List (ScopedUpValue V))
    (body : Nat → ScopedUpValue V → σ → Except Failure (Loop σ ρ)) (exit : σ → ρ) :
    Nat → Option Nat → σ → Except Failure ρ
  | _, none, state => .ok (exit state)
  | 0, some _, _ => .error .outOfFuel
  | fuel + 1, some ai, state =>
    match ar[ai]? with
    | none => .error .outOfRange
    | some uv => do
      match ← body ai uv state with
      | .next state' => whileUp ar body exit fuel uv.prev state'
      | .done result => .ok result

end Walk

namespace ScopedUpValueInvTree

variable {V : Type}

def getInnerValue (tree : ScopedUpValueInvTree V) (index : Option Nat) (step : Int) :
    Except Failure V :=
  whileUp tree.ar
    (fun _ uv (_ : Unit) =>
      .ok (if uv.scope.start ≤ step then .done uv.value else .next ()))
    (fun _ => tree.nullval) tree.ar.length index ()

/-- The index of the first definition that starts not after the step. -/
def first (tree : ScopedUpValueInvTree V) (index : Option Nat) (step : Int) :
    Except Failure (Option Nat) :=
  whileUp tree.ar
    (fun ai uv (_ : Unit) => .ok (if uv.scope.start ≤ step then .done (some ai) else .next ()))
    (fun _ => none) tree.ar.length index ()

/-- The definitions visited by iterating from an index up to the end. -/
def iterate (tree : ScopedUpValueInvTree V) (index : Option Nat) :
    Except Failure (List (Scope × V)) :=
  whileUp tree.ar (fun _ uv seen => .ok (.next (seen ++ [(uv.scope, uv.value)]))) id
    tree.ar.length index []

def nextIndex (tree : ScopedUpValueInvTree V) : Nat := tree.ar.length

def pushUpValue (tree : ScopedUpValueInvTree V) (scope : Scope) (value : V)
    (uplink : Option Nat) : ScopedUpValueInvTree V :=
  { tree with ar := tree.ar ++ [⟨scope, value, uplink⟩] }

/-- Assignment to the link of one definition. -/
def setPrev (tree : ScopedUpValueInvTree V) (ai : Nat) (prev : Option Nat) :
    ScopedUpValueInvTree V :=
  { tree with ar := tree.ar.modify ai fun uv => { uv with prev := prev } }

/-- Assignment to the value of one definition. -/
def setValue (tree : ScopedUpValueInvTree V) (ai : Nat) (value : V) : ScopedUpValueInvTree V :=
  { tree with ar := tree.ar.modify ai fun uv => { uv with value := value } }

def findUpValue (tree : ScopedUpValueInvTree V) (index : Option Nat) (scope : Scope) :
    Except Failure V :=
  whileUp tree.ar
    (fun _ uv (_ : Unit) => .ok <|
      if uv.scope.stop ≠ scope.stop then .done tree.nullval
      else if uv.scope.start = scope.start then .done uv.value
      else if uv.scope.start < scope.start then .done tree.nullval
      else .next ())
    (fun _ => tree.nullval) tree.ar.length index ()

/-- Where the loop of `insertUpValue` stops. -/
inductive Place
  | known (ai : Nat)
  | front (ai : Nat)
  | between (pred_ai ai : Nat)
  | last (pred_ai : Option Nat)
  deriving DecidableEq, Repr

def findPlace (tree : ScopedUpValueInvTree V) (index : Nat) (scope : Scope) :
    Except Failure Place :=
  whileUp tree.ar
    (fun ai uv pred_ai =>
      if scope.contains uv.scope then
        if uv.scope = scope then .ok (.done (.known ai)) else .ok (.next (some ai))
      else if !uv.scope.contains scope then
        .error (.thrown ⟨.ScopeHierarchyError, uv.scope.tostring ++ " <-> " ++ scope.tostring, 0⟩)
      else match pred_ai with
        | none => .ok (.done (.front ai))
        | some pred => .ok (.done (.between pred ai)))
    .last tree.ar.length (some index) none

/-- The result of `insertUpValue`: the tree and the head index after it, the index of the new
    definition or none for -1, and the value of an already known definition. -/
structure Inserted (V : Type) where
  tree : ScopedUpValueInvTree V
  index : Nat
  newindex : Option Nat
  oldval : Option V

/-- `overwrite` says that no address for the old value was passed (`oldval == nullptr`), in which
    case the value of a known definition is replaced. -/
def insertUpValue (tree : ScopedUpValueInvTree V) (index : Nat) (scope : Scope) (value : V)
    (uplink : Option Nat) (overwrite : Bool) : Except Failure (Inserted V) := do
  let newindex := tree.nextIndex
  match ← tree.findPlace index scope with
  | .known ai =>
    match tree.ar[ai]? with
    | none => .error .outOfRange
    | some uv =>
      .ok ⟨if overwrite then tree.setValue ai value else tree, index, none, some uv.value⟩
  | .front ai => .ok ⟨tree.pushUpValue scope value (some ai), newindex, some newindex, none⟩
  | .between pred_ai ai =>
    .ok ⟨(tree.pushUpValue scope value (some ai)).setPrev pred_ai (some newindex), index,
      some newindex, none⟩
  | .last none => .error .outOfRange
  | .last (some pred_ai) =>
    .ok ⟨(tree.pushUpValue scope value uplink).setPrev pred_ai (some newindex), index,
      some newindex, none⟩

def rightNeighborUpLink (tree : ScopedUpValueInvTree V) (index : Option Nat) (scope : Scope) :
    Except Failure (Option Nat) :=
  whileUp tree.ar
    (fun ai uv (_ : Unit) => .ok (if uv.scope.contains scope then .done (some ai) else .next ()))
    (fun _ => none) tree.ar.length index ()

/-- The loop of `linkLeftNeighbours`: the last definition inside the scope, unless the scope itself
    comes next. -/
def leftNeighbour (tree : ScopedUpValueInvTree V) (index : Option Nat) (scope : Scope) :
    Except Failure (Option Nat) :=
  whileUp tree.ar
    (fun ai uv pred_ai => .ok <|
      if scope = uv.scope then .done none
      else if scope.contains uv.scope then .next (some ai)
      else .done pred_ai)
    id tree.ar.length index none

def linkLeftNeighbours (tree : ScopedUpValueInvTree V) (index : Option Nat) (scope : Scope)
    (newindex : Nat) : Except Failure (ScopedUpValueInvTree V) := do
  match ← tree.leftNeighbour index scope with
  | none => .ok tree
  | some pred_ai => .ok (tree.setPrev pred_ai (some newindex))

end ScopedUpValueInvTree

/-- The key of the ordered map of a scoped map: the key of the user and the end of the scope. -/
@[ext] structure ScopedKey (κ : Type) where
  key : κ
  stop : Int
  deriving DecidableEq, Repr

namespace ScopedKey

variable {κ : Type} [LinearOrder κ]

instance : LinearOrder (ScopedKey κ) :=
  LinearOrder.lift' (fun sk => toLex (sk.key, sk.stop)) fun _ _ h =>
    ScopedKey.ext (congrArg Prod.fst (toLex.injective h)) (congrArg Prod.snd (toLex.injective h))

theorem lt_iff {a b : ScopedKey κ} :
    a < b ↔ if a.key = b.key then a.stop < b.stop else a.key < b.key := by
  have lex : a < b ↔ a.key < b.key ∨ a.key = b.key ∧ a.stop < b.stop := Prod.Lex.lt_iff
  rw [lex]
  split_ifs with h
  · simp [h]
  · simp [h]

end ScopedKey

/-- An ordered key made of a key of the user and of the end of a scope. -/
class EndKey (K : Type) (κ : outParam (Type)) [LinearOrder K] where
  pack : κ → Int → K
  key : K → κ
  stop : K → Int
  key_pack : ∀ k e, key (pack k e) = k
  stop_pack : ∀ k e, stop (pack k e) = e
  pack_key_stop : ∀ x, pack (key x) (stop x) = x
  lt_iff : ∀ k e f, pack k e < pack k f ↔ e < f
  convex : ∀ k e f x, pack k e ≤ x → x ≤ pack k f → key x = k

/-- A scoped instance has no key of the user. -/
instance : EndKey Int Unit where
  pack _ e := e
  key _ := ()
  stop e := e
  key_pack _ _ := rfl
  stop_pack _ _ := rfl
  pack_key_stop _ := rfl
  lt_iff _ _ _ := Iff.rfl
  convex _ _ _ _ _ _ := rfl

instance {κ : Type} [LinearOrder κ] : EndKey (ScopedKey κ) κ where
  pack := ScopedKey.mk
  key := ScopedKey.key
  stop := ScopedKey.stop
  key_pack _ _ := rfl
  stop_pack _ _ := rfl
  pack_key_stop _ := rfl
  lt_iff k a b := by simp [ScopedKey.lt_iff]
  convex k a b x hax hxb := by
    rcases lt_trichotomy x.key k with h | h | h
    · have : x < ScopedKey.mk k a := ScopedKey.lt_iff.mpr (by simp [h, h.ne])
      exact absurd this (not_lt.mpr hax)
    · exact h
    · have : ScopedKey.mk k b < x := ScopedKey.lt_iff.mpr (by simp [h, h.ne])
      exact absurd this (not_lt.mpr hxb)

/-- A tree of up-values with the ordered map from scope ends to its innermost definitions. -/
structure ScopeTable (K : Type) (V : Type) [LinearOrder K] where
  map : SortedMap K Nat
  invtree : ScopedUpValueInvTree V

abbrev ScopedInstance (V : Type) := ScopeTable Int V

abbrev ScopedMap (κ : Type) (V : Type) [LinearOrder κ] := ScopeTable (ScopedKey κ) V

namespace ScopeTable

variable {K : Type} {κ : Type} {V : Type} [LinearOrder K] [DecidableEq κ] [EndKey K κ]

def empty (nullval : V) : ScopeTable K V := ⟨SortedMap.empty, ⟨[], nullval⟩⟩

/-- The node found by "upper_bound", unless it belongs to another key. -/
def neighbour (key : κ) : List (K × Nat) → Option Nat
  | [] => none
  | (sk, index) :: _ => if EndKey.key sk = key then some index else none

/-- The loop over the entries from the first end above the start of a new scope to its own end. -/
def linkLeft (scope : Scope) (newindex : Nat) :
    List (K × Nat) → ScopedUpValueInvTree V → Except Failure (ScopedUpValueInvTree V)
  | [], _ => .error .outOfRange
  | (sk, index) :: rest, tree =>
    if EndKey.stop sk = scope.stop then .ok tree
    else do linkLeft scope newindex rest (← tree.linkLeftNeighbours (some index) scope newindex)

/-- The part of an insertion after the new definition was pushed. A thrown error leaves what was
    written until then. -/
def linkNew (key : κ) (scope : Scope) (newindex : Nat) (table : ScopeTable K V) :
    ScopeTable K V × Except Failure (Option V) :=
  let left := table.map.upperBound (EndKey.pack key scope.start)
  match neighbour key left with
  | none => (table, .error (.thrown ⟨.LogicError, "scope.hpp", 0⟩))
  | some _ =>
    match linkLeft scope newindex left table.invtree with
    | .error e => (table, .error e)
    | .ok tree => ({ table with invtree := tree }, .ok none)

/-- The common body of the functions that define a value in a scope. The result is the value of an
    already known definition of the same scope, if there is one. -/
def insertScope (key : κ) (scope : Scope) (value : V) (overwrite : Bool)
    (table : ScopeTable K V) : ScopeTable K V × Except Failure (Option V) :=
  let sk : K := EndKey.pack key scope.stop
  match table.invtree.rightNeighborUpLink (neighbour key (table.map.upperBound sk)) scope with
  | .error e => (table, .error e)
  | .ok uplink =>
    match table.map.insertNew sk table.invtree.nextIndex with
    | (map, none) =>
      linkNew key scope table.invtree.nextIndex
        ⟨map, table.invtree.pushUpValue scope value uplink⟩
    | (map, some index) =>
      match table.invtree.insertUpValue index scope value uplink overwrite with
      | .error e => (⟨map, table.invtree⟩, .error e)
      | .ok ⟨tree, _, none, oldval⟩ => (⟨map, tree⟩, .ok oldval)
      | .ok ⟨tree, index', some newindex, _⟩ =>
        linkNew key scope newindex ⟨map.set sk index', tree⟩

/-- The innermost value at a step, for the tables of both kinds. -/
def innerValue (key : κ) (step : Int) (table : ScopeTable K V) : Except Failure V :=
  match neighbour key (table.map.upperBound (EndKey.pack key step)) with
  | none => .ok table.invtree.nullval
  | some index => table.invtree.getInnerValue (some index) step

/-- The definitions between the two iterators "first" and "end" at a step. -/
def matchRange (key : κ) (step : Int) (table : ScopeTable K V) :
    Except Failure (List (Scope × V)) := do
  match neighbour key (table.map.upperBound (EndKey.pack key step)) with
  | none => .ok []
  | some index => table.invtree.iterate (← table.invtree.first (some index) step)

/-- The value of exactly one scope, for the tables of both kinds. -/
def valueOf (key : κ) (scope : Scope) (table : ScopeTable K V) : Except Failure V :=
  match table.map.find (EndKey.pack key scope.stop) with
  | none => .ok table.invtree.nullval
  | some index => table.invtree.findUpValue (some index) scope

end ScopeTable

namespace ScopedInstance

variable {V : Type}

abbrev empty (nullval : V) : ScopedInstance V := ScopeTable.empty nullval

def set (scope : Scope) (value : V) (inst : ScopedInstance V) :
    ScopedInstance V × Except Failure Unit :=
  let (inst', result) := inst.insertScope () scope value true
  (inst', result.map fun _ => ())

def get (step : Int) (inst : ScopedInstance V) : Except Failure V := inst.innerValue () step

def getThis (scope : Scope) (inst : ScopedInstance V) : Except Failure V := inst.valueOf () scope

end ScopedInstance

namespace ScopedMap

variable {κ : Type} {V : Type} [LinearOrder κ]

abbrev empty (nullval : V) : ScopedMap κ V := ScopeTable.empty nullval

/-- The result says whether the definition is new. -/
def set (scope : Scope) (key : κ) (value : V) (map : ScopedMap κ V) :
    ScopedMap κ V × Except Failure Bool :=
  let (map', result) := map.insertScope key scope value false
  (map', result.map Option.isNone)

/-- The result is the value of an already known definition or the null value. -/
def getOrSet (scope : Scope) (key : κ) (value : V) (map : ScopedMap κ V) :
    ScopedMap κ V × Except Failure V :=
  let (map', result) := map.insertScope key scope value false
  (map', result.map fun oldval => oldval.getD map.invtree.nullval)

def get (step : Int) (key : κ) (map : ScopedMap κ V) : Except Failure V :=
  map.innerValue key step

def getDef (scope : Scope) (key : κ) (map : ScopedMap κ V) : Except Failure V :=
  map.valueOf key scope

def match_range (step : Int) (key : κ) (map : ScopedMap κ V) :
    Except Failure (List (Scope × V)) := map.matchRange key step

end ScopedMap

end Mewa
