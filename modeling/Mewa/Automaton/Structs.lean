/- Module: Mewa/Automaton/Structs
   digest: Productions, packed transition items, states, interned sets and the tables. -/

import Mathlib.Data.Prod.Lex
import Mathlib.Data.Int.Order.Basic
import Mathlib.Order.Basic
import Mewa.Error
import Mewa.Lib.Sorted

set_option autoImplicit false
set_option relaxedAutoImplicit false

namespace Mewa

open Mewa.Lib

/-! The widths of the packed fields and the limits that follow from them. -/

namespace Limits

def ShiftState : Nat := 12
def MaxState : Nat := 2 ^ ShiftState
def ShiftProductionLength : Nat := 4
def MaxProductionLength : Nat := 2 ^ ShiftProductionLength
def MaskProductionLength : Nat := MaxProductionLength - 1
def ShiftNofProductions : Nat := 9
def MaxNofProductions : Nat := 2 ^ ShiftNofProductions
def ShiftNonterminal : Nat := 8
def MaxNonterminal : Nat := 2 ^ ShiftNonterminal
def ShiftTerminal : Nat := 10
def MaxTerminal : Nat := 2 ^ ShiftTerminal
def MaskTerminal : Nat := MaxTerminal - 1
def ShiftPriority : Nat := 5
def MaxPriority : Nat := 2 ^ ShiftPriority

end Limits

/-- The kind of an element of a production. -/
inductive NodeType
  | Unresolved
  | NonTerminal
  | Terminal
  deriving DecidableEq, Repr

namespace NodeType

def rank : NodeType → Nat
  | Unresolved => 0
  | NonTerminal => 1
  | Terminal => 2

theorem rank_injective : Function.Injective rank := by
  intro a b h
  cases a <;> cases b <;> simp_all [rank]

end NodeType

@[ext] structure ProductionNode where
  type : NodeType := .Unresolved
  index : Int := 0
  deriving DecidableEq, Repr

instance : LinearOrder ProductionNode :=
  LinearOrder.lift' (fun n => toLex (n.type.rank, n.index)) fun _ _ h =>
    ProductionNode.ext (NodeType.rank_injective (congrArg Prod.fst (toLex.injective h)))
      (congrArg Prod.snd (toLex.injective h))

/-- An element of a production as it is written: by an identifier or as a string. -/
structure ProductionNodeDef extends ProductionNode where
  name : String
  symbol : Bool
  deriving DecidableEq, Repr

namespace ProductionNodeDef

def defineAsTerminal (nd : ProductionNodeDef) (index : Int) : ProductionNodeDef :=
  { nd with type := .Terminal, index := index }

def defineAsNonTerminal (nd : ProductionNodeDef) (index : Int) : ProductionNodeDef :=
  { nd with type := .NonTerminal, index := index }

def tostring (nd : ProductionNodeDef) : String :=
  if nd.symbol then nd.name else "\"" ++ nd.name ++ "\""

end ProductionNodeDef

inductive Assoziativity
  | Undefined
  | Left
  | Right
  deriving DecidableEq, Repr

structure Priority where
  value : Int := 0
  assoziativity : Assoziativity := .Undefined
  deriving DecidableEq, Repr

namespace Priority

def defined (p : Priority) : Bool := p.value ≠ 0 || p.assoziativity ≠ .Undefined

def tostring (p : Priority) : String :=
  match p.assoziativity with
  | .Undefined => toString p.value
  | .Left => "L" ++ toString p.value
  | .Right => "R" ++ toString p.value

end Priority

inductive ScopeFlag
  | NoScope
  | Step
  | Scope
  deriving DecidableEq, Repr

namespace ScopeFlag

def name : ScopeFlag → String
  | NoScope => ""
  | Step => "step"
  | Scope => "scope"

end ScopeFlag

structure ProductionDef where
  left : ProductionNodeDef
  right : List ProductionNodeDef
  priority : Priority
  callidx : Nat := 0
  scope : ScopeFlag := .NoScope
  line : Int
  deriving DecidableEq, Repr

namespace ProductionDef

def head_tostring (prod : ProductionDef) : String :=
  if prod.priority.defined then prod.left.name ++ "/" ++ prod.priority.tostring
  else prod.left.name

def element_range_tostring (nodes : List ProductionNodeDef) : String :=
  " ".intercalate (nodes.map ProductionNodeDef.tostring)

/-- The production as text, by which duplicates are found. -/
def prodstring (prod : ProductionDef) : String :=
  prod.head_tostring ++ " = " ++ element_range_tostring prod.right

/-- The production as text with a dot at a position. -/
def prodstringAt (prod : ProductionDef) (pos : Nat) : String :=
  let prev := element_range_tostring (prod.right.take pos)
  let post := element_range_tostring (prod.right.drop pos)
  prod.head_tostring ++ " = " ++ (if prev.isEmpty then "." else prev ++ " .") ++
    (if post.isEmpty then "" else " " ++ post)

def callstring (prod : ProductionDef) : String :=
  if prod.scope ≠ .NoScope ∧ prod.callidx ≠ 0 then
    " (" ++ prod.scope.name ++ ":" ++ toString prod.callidx ++ ")"
  else if prod.scope ≠ .NoScope then " (" ++ prod.scope.name ++ ")"
  else if prod.callidx ≠ 0 then " (" ++ toString prod.callidx ++ ")"
  else ""

def tostring (prod : ProductionDef) : String := prod.prodstring ++ prod.callstring

def tostringAt (prod : ProductionDef) (pos : Nat) : String :=
  prod.prodstringAt pos ++ prod.callstring

def prefix_tostring (prod : ProductionDef) (pos : Nat) : String :=
  prod.head_tostring ++ " = " ++ element_range_tostring (prod.right.take pos) ++ " ..."

/-- The element at a position of the right side, none for its end. -/
def nodeAt (prod : ProductionDef) (pos : Nat) : Option ProductionNode :=
  (prod.right[pos]?).map ProductionNodeDef.toProductionNode

end ProductionDef

/-- The productions with a left side. The table of the source gives them in an unspecified order,
    here they come in the order of their numbers. -/
def equal_range (prodlist : List ProductionDef) (leftindex : Int) : List Nat :=
  (List.range prodlist.length).filter fun prodindex =>
    (prodlist[prodindex]?).any fun prod => prod.left.index = leftindex

/-- A position in a production with the handle of a set of terminals that may follow it. -/
@[ext] structure TransitionItem where
  prodindex : Nat
  prodpos : Nat
  follow : Nat
  deriving DecidableEq, Repr

namespace TransitionItem

def packed (item : TransitionItem) : Nat :=
  item.prodindex <<< (Limits.ShiftProductionLength + Limits.ShiftTerminal) |||
    item.prodpos <<< Limits.ShiftTerminal ||| item.follow

def unpack (pkg : Nat) : TransitionItem where
  prodindex := pkg >>> (Limits.ShiftProductionLength + Limits.ShiftTerminal)
  prodpos := (pkg >>> Limits.ShiftTerminal) &&& Limits.MaskProductionLength
  follow := pkg &&& Limits.MaskTerminal

end TransitionItem

abbrev FlatSet (α : Type) [LinearOrder α] := SortedSet α

structure TransitionState where
  packedElements : FlatSet Nat := SortedSet.empty
  deriving DecidableEq

namespace TransitionState

def insert (state : TransitionState) (item : TransitionItem) : TransitionState :=
  ⟨state.packedElements.insert item.packed⟩

def join (state o : TransitionState) : TransitionState :=
  ⟨state.packedElements.insertAll o.packedElements.elems⟩

def empty (state : TransitionState) : Bool := state.packedElements.isEmpty

def unpack (state : TransitionState) : List TransitionItem :=
  state.packedElements.elems.map TransitionItem.unpack

end TransitionState

/-- Sets of terminals numbered in the order of their first use. -/
structure IntSetHandleMap where
  inv : List (FlatSet Int)
  startidx : Nat
  deriving DecidableEq

namespace IntSetHandleMap

/-- The handle of a set, a new one if the set is not there yet. -/
def get (map : IntSetHandleMap) (elem : FlatSet Int) : IntSetHandleMap × Nat :=
  match map.inv.findIdx? (· = elem) with
  | some i => (map, i + map.startidx)
  | none => ({ map with inv := map.inv ++ [elem] }, map.inv.length + map.startidx)

def content (map : IntSetHandleMap) (handle : Nat) : Except Failure (FlatSet Int) :=
  match map.inv[handle - map.startidx]? with
  | none => .error .outOfRange
  | some elem => .ok elem

def join (map : IntSetHandleMap) (handle1 handle2 : Nat) :
    Except Failure (IntSetHandleMap × Nat) := do
  let newelem ← map.content handle1
  let add ← map.content handle2
  .ok (map.get (newelem.insertAll add.elems))

def size (map : IntSetHandleMap) : Nat := map.inv.length + map.startidx

end IntSetHandleMap

@[ext] structure ActionKey where
  state : Int
  terminal : Int
  deriving DecidableEq, Repr

instance : LinearOrder ActionKey :=
  LinearOrder.lift' (fun k => toLex (k.state, k.terminal)) fun _ _ h =>
    ActionKey.ext (congrArg Prod.fst (toLex.injective h)) (congrArg Prod.snd (toLex.injective h))

inductive ActionType
  | Shift
  | Reduce
  | Accept
  deriving DecidableEq, Repr

/-- An action: `value` is the next state of a shift and the nonterminal of the other ones. -/
structure Action where
  type : ActionType
  scopeflag : ScopeFlag
  value : Int
  call : Nat
  count : Nat
  deriving DecidableEq, Repr

namespace Action

def accept (nonterminal : Int) (scopeflag : ScopeFlag) (call count : Nat) : Action :=
  ⟨.Accept, scopeflag, nonterminal, call, count⟩

def shift (follow_state : Int) : Action := ⟨.Shift, .NoScope, follow_state, 0, 0⟩

def reduce (nonterminal : Int) (scopeflag : ScopeFlag) (call count : Nat) : Action :=
  ⟨.Reduce, scopeflag, nonterminal, call, count⟩

end Action

@[ext] structure GotoKey where
  state : Int
  nonterminal : Int
  deriving DecidableEq, Repr

instance : LinearOrder GotoKey :=
  LinearOrder.lift' (fun k => toLex (k.state, k.nonterminal)) fun _ _ h =>
    GotoKey.ext (congrArg Prod.fst (toLex.injective h)) (congrArg Prod.snd (toLex.injective h))

inductive ArgumentType
  | NoArg
  | StringArg
  | ReferenceArg
  deriving DecidableEq, Repr

/-- A function with its argument, to be called for the node of a production. -/
structure Call where
  function : String
  arg : String
  argtype : ArgumentType
  deriving DecidableEq, Repr

end Mewa
