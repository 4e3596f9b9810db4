/- Module: Mewa/Generated/Packed
   digest: The tables of an automaton are read as they were written, in whatever order Lua goes
   through their rows. -/

import Mewa.Lib.Bits
import Mewa.Generated.Tostring
import Mewa.Compiler.Internal
import Mewa.Grammar.Called

set_option autoImplicit false
set_option relaxedAutoImplicit false

namespace Mewa

open Mewa.Lib

namespace Limits

def MaxCall : Nat := 2 ^ ShiftCall
def MaskCall : Nat := MaxCall - 1
def MaskState : Nat := MaxState - 1
def ShiftActionType : Nat := 2
def MaskActionType : Nat := 2 ^ ShiftActionType - 1
def MaskScopeFlag : Nat := 2 ^ ShiftScopeFlag - 1

end Limits

/-! The keys and values that a number stands for. -/

open Limits Grammar in
def ActionKey.unpack (pkg : Int) : ActionKey :=
  ⟨wrapShort (pkg >>> ShiftTerminal), wrapShort (Int.land pkg MaskTerminal)⟩

def ActionType.ofCode : Int → Option ActionType
  | 0 => some .Shift
  | 1 => some .Reduce
  | 2 => some .Accept
  | _ => none

def ScopeFlag.ofCode : Int → Option ScopeFlag
  | 0 => some .NoScope
  | 1 => some .Step
  | 2 => some .Scope
  | _ => none

open Limits in
/-- A type or a flag that has no name is left out. -/
def Action.unpack (pkg : Int) : Option Action := do
  some ⟨
    ← ActionType.ofCode (Int.land
      (pkg >>> (ShiftProductionLength + ShiftCall + ShiftState + ShiftScopeFlag)) MaskActionType),
    ← ScopeFlag.ofCode (Int.land
      (pkg >>> (ShiftProductionLength + ShiftCall + ShiftState)) MaskScopeFlag),
    Int.land (pkg >>> (ShiftProductionLength + ShiftCall)) MaskState,
    (Int.land (pkg >>> ShiftProductionLength) MaskCall).toNat,
    (Int.land pkg MaskProductionLength).toNat⟩

open Limits Grammar in
def GotoKey.unpack (pkg : Int) : GotoKey :=
  ⟨wrapShort (pkg >>> ShiftTerminal), wrapShort (Int.land pkg MaskTerminal)⟩

def Goto.unpack (pkg : Int) : Option Int := some (Grammar.wrapShort pkg)

/-! The loading of a table. -/

def badKey {α : Type} (location : String) : Except Failure α :=
  .error (.thrown ⟨.BadKeyInGeneratedLuaTable, location, 0⟩)

section Table

variable {κ ν : Type} [LinearOrder κ] (unpackKey : Int → κ) (unpackVal : Int → Option ν)
  (tableName : String)

def parsePackedRow (rt : SortedMap κ ν) (row : (Int × Int) × Nat) :
    Except Failure (SortedMap κ ν) :=
  let packedkey := Grammar.wrapInt row.1.1
  let packedval := Grammar.wrapInt row.1.2
  if packedkey ≤ 0 then badKey (Lexer.atRow tableName row.2)
  else if packedval ≤ 0 then Lexer.badValue (Lexer.atRow tableName row.2)
  else
    match unpackVal packedval with
    | none => .error .outOfRange
    | some val =>
      match rt.insertNew (unpackKey packedkey) val with
      | (rt, none) => .ok rt
      | (_, some _) => Lexer.badValue (Lexer.atRow tableName row.2)

/-- The rows come in the order in which Lua goes through them. -/
def parsePackedTable (rows : List (Int × Int)) : Except Failure (SortedMap κ ν) :=
  (rows.zipIdx 1).foldlM (parsePackedRow unpackKey unpackVal tableName) SortedMap.empty

end Table

/-- The table of a constructor: of two fields with the same key the later one stays. -/
def luaTable (fields : List (Int × Int)) : SortedMap Int Int :=
  fields.foldl (fun table field => table.set field.1 field.2) SortedMap.empty

/-! Numbers that are in range come back. -/

theorem wrapShort_eq {value : Int} (low : 0 ≤ value) (high : value < 2 ^ 15) :
    Grammar.wrapShort value = value := by
  unfold Grammar.wrapShort
  omega

theorem wrapInt_eq {value : Int} (low : 0 ≤ value) (high : value < 2 ^ 31) :
    Grammar.wrapInt value = value := by
  unfold Grammar.wrapInt
  omega

structure KeyFits (state symbol : Int) : Prop where
  positive : 1 ≤ state
  state : state < (Limits.MaxState : Nat)
  zero : 0 ≤ symbol
  symbol : symbol < (Limits.MaxTerminal : Nat)

theorem KeyFits.packed {state symbol : Int} (fits : KeyFits state symbol) :
    let pkg := Int.lor (state * 2 ^ Limits.ShiftTerminal) symbol
    0 < pkg ∧ pkg < 2 ^ 31 ∧ Grammar.wrapShort (pkg >>> Limits.ShiftTerminal) = state ∧
      Grammar.wrapShort (Int.land pkg Limits.MaskTerminal) = symbol := by
  intro pkg
  obtain ⟨positive, small, zero, low⟩ := fits
  have small : state < 4096 := small
  have low : symbol < 2 ^ 10 := low
  have eq : pkg = state * 2 ^ 10 + symbol := lor_shifted (by omega) zero low
  have upper : pkg >>> (10 : Nat) = state := by
    rw [Int.shiftRight_eq_div_pow, eq]
    omega
  have lower : Int.land pkg Limits.MaskTerminal = symbol := by
    have masked := land_mask (show 0 ≤ pkg by omega) 10
    rw [show Int.land pkg Limits.MaskTerminal = pkg % 2 ^ 10 from masked, eq]
    omega
  refine ⟨by omega, by omega, ?_, ?_⟩
  · show Grammar.wrapShort (pkg >>> (10 : Nat)) = state
    rw [upper]
    exact wrapShort_eq (by omega) (by omega)
  · rw [lower]
    exact wrapShort_eq zero (by omega)

structure Action.Fits (action : Action) : Prop where
  positive : 1 ≤ action.value
  value : action.value < (Limits.MaxState : Nat)
  call : action.call < Limits.MaxCall
  count : action.count < Limits.MaxProductionLength

theorem ActionType.ofCode_code (type : ActionType) : ofCode type.code = some type := by
  cases type <;> rfl

theorem ActionType.code_bounds (type : ActionType) : 0 ≤ type.code ∧ type.code ≤ 2 := by
  cases type <;> decide

theorem ScopeFlag.ofCode_code (flag : ScopeFlag) : ofCode flag.code = some flag := by
  cases flag <;> rfl

theorem ScopeFlag.code_bounds (flag : ScopeFlag) : 0 ≤ flag.code ∧ flag.code ≤ 2 := by
  cases flag <;> decide

theorem Action.packed_eq {action : Action} (fits : action.Fits) :
    action.packed = (((action.type.code * 4 + action.scopeflag.code) * 4096 + action.value) * 1024 +
      action.call) * 16 + action.count := by
  obtain ⟨positive, value, call, count⟩ := fits
  have value : action.value < 4096 := value
  have call : action.call < 1024 := call
  have count : action.count < 16 := count
  have type := action.type.code_bounds
  have flag := action.scopeflag.code_bounds
  have types : Int.lor (action.type.code * 2 ^ 28) (action.scopeflag.code * 2 ^ 26) =
      (action.type.code * 4 + action.scopeflag.code) * 2 ^ 26 := by
    rw [lor_shifted type.1 (by omega) (by omega)]
    omega
  have values : Int.lor ((action.type.code * 4 + action.scopeflag.code) * 2 ^ 26)
      (action.value * 2 ^ 14) =
      ((action.type.code * 4 + action.scopeflag.code) * 4096 + action.value) * 2 ^ 14 := by
    rw [lor_shifted (by omega) (by omega) (by omega)]
    omega
  have calls : Int.lor (((action.type.code * 4 + action.scopeflag.code) * 4096 + action.value) *
      2 ^ 14) ((action.call : Int) * 2 ^ 4) =
      (((action.type.code * 4 + action.scopeflag.code) * 4096 + action.value) * 1024 +
        action.call) * 2 ^ 4 := by
    rw [lor_shifted (by omega) (by omega) (by omega)]
    omega
  show Int.lor (Int.lor (Int.lor (Int.lor (action.type.code * 2 ^ 28)
    (action.scopeflag.code * 2 ^ 26)) (action.value * 2 ^ 14)) ((action.call : Int) * 2 ^ 4))
    action.count = _
  rw [types, values, calls, lor_shifted (by omega) (by omega) (by omega)]
  omega

theorem Action.packed_bounds {action : Action} (fits : action.Fits) :
    0 < action.packed ∧ action.packed < 2 ^ 31 := by
  have eq := packed_eq fits
  obtain ⟨positive, value, call, count⟩ := fits
  have value : action.value < 4096 := value
  have call : action.call < 1024 := call
  have count : action.count < 16 := count
  have type := action.type.code_bounds
  have flag := action.scopeflag.code_bounds
  omega

theorem Action.unpack_packed {action : Action} (fits : action.Fits) :
    unpack action.packed = some action := by
  have eq := packed_eq fits
  have bounds := packed_bounds fits
  obtain ⟨positive, value, call, count⟩ := fits
  have value : action.value < 4096 := value
  have call : action.call < 1024 := call
  have count : action.count < 16 := count
  have type := action.type.code_bounds
  have flag := action.scopeflag.code_bounds
  -- the field of some bits above others
  have field (k n : Nat) : Int.land (action.packed >>> k) ((2 ^ n - 1 : Nat) : Int) =
      action.packed / 2 ^ k % 2 ^ n := by
    rw [Int.shiftRight_eq_div_pow]
    have positive : 0 ≤ action.packed / ((2 ^ k : Nat) : Int) :=
      Int.ediv_nonneg (by omega) (Int.natCast_nonneg _)
    rw [land_mask positive]
    push_cast
    rfl
  have types : Int.land (action.packed >>> (28 : Nat)) ((2 ^ 2 - 1 : Nat) : Int) = action.type.code := by
    rw [field, eq]
    omega
  have flags : Int.land (action.packed >>> (26 : Nat)) ((2 ^ 2 - 1 : Nat) : Int) =
      action.scopeflag.code := by
    rw [field, eq]
    omega
  have values : Int.land (action.packed >>> (14 : Nat)) ((2 ^ 12 - 1 : Nat) : Int) = action.value := by
    rw [field, eq]
    omega
  have calls : Int.land (action.packed >>> (4 : Nat)) ((2 ^ 10 - 1 : Nat) : Int) = action.call := by
    rw [field, eq]
    omega
  have counts : Int.land action.packed ((2 ^ 4 - 1 : Nat) : Int) = action.count := by
    rw [land_mask (by omega), eq]
    omega
  show (do
    some (⟨← ActionType.ofCode (Int.land (action.packed >>> (28 : Nat)) ((2 ^ 2 - 1 : Nat) : Int)),
      ← ScopeFlag.ofCode (Int.land (action.packed >>> (26 : Nat)) ((2 ^ 2 - 1 : Nat) : Int)),
      Int.land (action.packed >>> (14 : Nat)) ((2 ^ 12 - 1 : Nat) : Int),
      (Int.land (action.packed >>> (4 : Nat)) ((2 ^ 10 - 1 : Nat) : Int)).toNat,
      (Int.land action.packed ((2 ^ 4 - 1 : Nat) : Int)).toNat⟩ : Action)) = _
  rw [types, flags, values, calls, counts, ActionType.ofCode_code, ScopeFlag.ofCode_code]
  rfl

/-! A table whose entries are in range. -/

theorem find_luaTable {fields : List (Int × Int)}
    (apart : fields.Pairwise fun f g => f.1 ≠ g.1) (k v : Int) :
    (luaTable fields).find k = some v ↔ (k, v) ∈ fields := by
  rw [luaTable, SortedMap.find_foldl_set apart fun f _ => SortedMap.find_empty f.1,
    SortedMap.find_empty]
  simp

theorem perm_luaTable {fields : List (Int × Int)}
    (apart : fields.Pairwise fun f g => f.1 ≠ g.1) : (luaTable fields).entries.Perm fields := by
  apply (List.perm_ext_iff_of_nodup (luaTable fields).nodup_entries ?_).mpr
  · intro field
    rw [← SortedMap.find_eq_some, find_luaTable apart]
  · exact apart.imp fun differ same => differ (congrArg Prod.fst same)

section Packing

variable {κ ν : Type} [LinearOrder κ] {unpackKey : Int → κ} {unpackVal : Int → Option ν}
  {packKey : κ → Int} {packVal : ν → Int} {tableName : String}

/-- An entry whose numbers are in range and come back. -/
structure Packs (unpackKey : Int → κ) (unpackVal : Int → Option ν) (packKey : κ → Int)
    (packVal : ν → Int) (e : κ × ν) : Prop where
  key : 0 < packKey e.1 ∧ packKey e.1 < 2 ^ 31
  val : 0 < packVal e.2 ∧ packVal e.2 < 2 ^ 31
  unpack_key : unpackKey (packKey e.1) = e.1
  unpack_val : unpackVal (packVal e.2) = some e.2

theorem parsePackedRow_of_packs {rt : SortedMap κ ν} {e : κ × ν}
    (packs : Packs unpackKey unpackVal packKey packVal e) (fresh : rt.find e.1 = none) (n : Nat) :
    parsePackedRow unpackKey unpackVal tableName rt ((packKey e.1, packVal e.2), n) =
      .ok (rt.set e.1 e.2) := by
  have key := wrapInt_eq (Int.le_of_lt packs.key.1) packs.key.2
  have val := wrapInt_eq (Int.le_of_lt packs.val.1) packs.val.2
  have some_key := packs.key.1
  have some_val := packs.val.1
  simp only [parsePackedRow, key, val, packs.unpack_key, packs.unpack_val,
    SortedMap.insertNew_of_none fresh]
  rw [if_neg (by omega), if_neg (by omega)]

theorem foldlM_parsePackedRow {l : List (κ × ν)}
    (packs : ∀ e ∈ l, Packs unpackKey unpackVal packKey packVal e)
    (apart : l.Pairwise fun e f => e.1 ≠ f.1) {rt : SortedMap κ ν}
    (fresh : ∀ e ∈ l, rt.find e.1 = none) (k : Nat) :
    ((l.map fun e => (packKey e.1, packVal e.2)).zipIdx k).foldlM
        (parsePackedRow unpackKey unpackVal tableName) rt =
      .ok (l.foldl (fun m e => m.set e.1 e.2) rt) := by
  induction l generalizing rt k with
  | nil => rfl
  | cons e l ih =>
    obtain ⟨others, apart⟩ := List.pairwise_cons.mp apart
    have fresh' : ∀ f ∈ l, (rt.set e.1 e.2).find f.1 = none := by
      intro f mem
      rw [SortedMap.find_set, if_neg (others f mem)]
      exact fresh f (List.mem_cons_of_mem e mem)
    rw [List.map_cons, List.zipIdx_cons, List.foldlM_cons,
      parsePackedRow_of_packs (packs e List.mem_cons_self) (fresh e List.mem_cons_self), ok_bind]
    exact ih (fun f mem => packs f (List.mem_cons_of_mem e mem)) apart fresh' (k + 1)

theorem parsePackedTable_eq {m : SortedMap κ ν}
    (packs : ∀ e ∈ m.entries, Packs unpackKey unpackVal packKey packVal e)
    {rows : List (Int × Int)}
    (order : rows.Perm (luaTable (m.entries.map fun e => (packKey e.1, packVal e.2))).entries) :
    parsePackedTable unpackKey unpackVal tableName rows = .ok m := by
  have keys : m.entries.Pairwise fun e f => e.1 ≠ f.1 :=
    (List.pairwise_map.mp m.sorted).imp fun less => less.ne
  have apart : (m.entries.map fun e => (packKey e.1, packVal e.2)).Pairwise
      fun f g => f.1 ≠ g.1 := by
    rw [List.pairwise_map]
    refine keys.imp_of_mem fun {e f} mem mem' differ same => differ ?_
    have same : packKey e.1 = packKey f.1 := same
    rw [← (packs e mem).unpack_key, ← (packs f mem').unpack_key, same]
  have rows_perm := order.trans (perm_luaTable apart)
  -- the entries in the order of the rows
  obtain ⟨l, perm, rfl⟩ : ∃ l : List (κ × ν), l.Perm m.entries ∧
      rows = l.map fun e => (packKey e.1, packVal e.2) := by
    have written : List.Forall₂ (fun row e => row = (packKey e.1, packVal e.2))
        (m.entries.map fun e => (packKey e.1, packVal e.2)) m.entries := by
      rw [List.forall₂_map_left_iff]
      exact List.forall₂_same.mpr fun e _ => rfl
    obtain ⟨l, same, perm⟩ := List.perm_comp_forall₂ rows_perm written
    refine ⟨l, perm, ?_⟩
    rw [← List.forall₂_map_right_iff, List.forall₂_eq_eq_eq] at same
    exact same
  have read := @foldlM_parsePackedRow _ _ _ unpackKey unpackVal packKey packVal tableName l
    (fun e mem => packs e (perm.mem_iff.mp mem))
    (perm.symm.pairwise keys fun differ => differ.symm) SortedMap.empty
    (fun e _ => SortedMap.find_empty e.1) 1
  rw [parsePackedTable, read]
  apply congrArg Except.ok
  apply SortedMap.eq_of_find_eq
  intro key
  ext val
  rw [SortedMap.find_foldl_set (perm.symm.pairwise keys fun differ => differ.symm)
    (fun e _ => SortedMap.find_empty e.1), SortedMap.find_empty, perm.mem_iff,
    SortedMap.find_eq_some]
  simp

end Packing

/-! The tables that are built. -/

section Built

open Compiler

variable {engine : PatternEngine} {source : GrammarSource} {langdef : LanguageDef}
  {lalr : LalrStates} {fuel : Nat} {order : HashOrder (TransitionState × Int)}
  {warnings warnings' : List Error} {automaton : Automaton} {b : BuildState}

theorem terminal_bounds {langdef : LanguageDef} (complexity : checkComplexity langdef = .ok ())
    {terminal : Int} {name : String} (named : getLexemName langdef.lexer terminal = .ok name) :
    0 ≤ terminal ∧ terminal < (Limits.MaxTerminal : Nat) := by
  have few : langdef.lexer.namelist.length < Limits.MaxTerminal := by
    rw [checkComplexity] at complexity
    split at complexity
    · cases complexity
    split at complexity
    · cases complexity
    · rename_i few
      exact not_le.mp few
  rw [getLexemName] at named
  split at named
  · rw [Lexer.lexemName] at named
    split at named
    · cases named
    · rename_i inside
      omega
  · rename_i zero
    have zero : terminal = 0 := not_not.mp zero
    have some_room : 0 < Limits.MaxTerminal := by decide
    omega

theorem production_of_candidate {state : TransitionState}
    {input : BuildInput} {terminal : Int} {action : Action}
    (candidate : Candidate input state terminal action) :
    (∃ key next, gotoNumber input.gotoMap key = some next ∧ action = .shift next) ∨
      ∃ prod ∈ input.prodlist, action = prod.reduceAction ∨ action = prod.acceptAction := by
  cases candidate with
  | shift mem node number => exact Or.inl ⟨_, _, number, rfl⟩
  | @reduce item prod elems mem completed content contains =>
    obtain ⟨here, -⟩ := Option.filter_eq_some_iff.mp completed
    exact Or.inr ⟨prod, List.mem_of_getElem? here, Or.inl rfl⟩
  | @accept prod zero accepts head =>
    exact Or.inr ⟨prod, List.mem_of_head? head, Or.inr rfl⟩

theorem Built.action_fits
    (built : Built fuel engine order source warnings automaton warnings' langdef lalr b)
    (fit : FollowSetsFit langdef.prodlist) {key : ActionKey} {action : Action}
    (found : automaton.actions.find key = some action) :
    KeyFits key.state key.terminal ∧ action.Fits := by
  have drives := drives_of_built built fit
  obtain ⟨state, there, candidate⟩ := drives.actions key action found
  obtain ⟨name, named⟩ := getLexemName_of_entry drives found
  rw [built.lexer] at named
  have terminal := terminal_bounds built.complexity named
  have number := drives.exact.number there
  obtain ⟨numbers, calls⟩ := numbers_of_parseLanguageDef built.parsed
  have few : langdef.prodlist.length < 512 := by
    have complexity := built.complexity
    rw [checkComplexity] at complexity
    split at complexity
    · cases complexity
    · rename_i few
      exact not_le.mp few
  refine ⟨⟨number.1, number.2, terminal.1, terminal.2⟩, ?_⟩
  rcases production_of_candidate candidate with ⟨kernel, next, goto, rfl⟩ | ⟨prod, mem, made⟩
  · obtain ⟨state', found', -⟩ := (drives.exact.kernel kernel next).mp goto
    have number' := drives.exact.number found'
    have no_call : 0 < Limits.MaxCall := by decide
    have no_count : 0 < Limits.MaxProductionLength := by decide
    exact ⟨number'.1, number'.2, no_call, no_count⟩
  · obtain ⟨positive, nonterminal, call⟩ := numbers prod mem
    have nonterminal : prod.left.index < 256 := nonterminal
    have short := drives.short prod mem
    have value : action.value = prod.left.index := by rcases made with rfl | rfl <;> rfl
    have call_eq : action.call = prod.callidx := by rcases made with rfl | rfl <;> rfl
    have count : action.count = prod.right.length := by rcases made with rfl | rfl <;> rfl
    refine ⟨?_, ?_, ?_, ?_⟩
    · rw [value]
      exact positive
    · show action.value < 4096
      omega
    · show action.call < 1024
      omega
    · rw [count]
      exact short

theorem Built.goto_fits
    (built : Built fuel engine order source warnings automaton warnings' langdef lalr b)
    (fit : FollowSetsFit langdef.prodlist) {key : GotoKey} {next : Int}
    (found : automaton.gotos.find key = some next) :
    KeyFits key.state key.nonterminal ∧ 1 ≤ next ∧ next < (Limits.MaxState : Nat) := by
  have drives := drives_of_built built fit
  obtain ⟨state, there, node, kind, index, ⟨item, mem, at_item⟩, goto⟩ := drives.gotos key next found
  have number := drives.exact.number there
  obtain ⟨state', found', -⟩ := (drives.exact.kernel _ next).mp goto
  have h := wellFormed_of_parseLanguageDef built.parsed
  obtain ⟨numbers, -⟩ := numbers_of_parseLanguageDef built.parsed
  obtain ⟨prod, positive, small⟩ : ∃ prod : ProductionDef, 1 ≤ prod.left.index ∧
      prod.left.index < 256 ∧ prod.left.index = key.nonterminal := by
    have resolved := (nodeOf_inv h at_item).2
    unfold nodeOf ProductionDef.nodeAt at at_item
    obtain ⟨prod, at_index, at_pos⟩ := Option.bind_eq_some_iff.mp at_item
    obtain ⟨element, at_element, rfl⟩ := Option.map_eq_some_iff.mp at_pos
    have nonterminal : element.type = .NonTerminal := by
      cases type : element.type with
      | Unresolved => exact absurd type resolved
      | NonTerminal => rfl
      | Terminal => exact absurd type kind
    obtain ⟨-, prod', mem', same⟩ := h.nonterminal prod (List.mem_of_getElem? at_index) element
      (List.mem_of_getElem? at_element) nonterminal
    have bounds := numbers prod' mem'
    exact ⟨prod', bounds.positive, bounds.nonterminal, same.trans index⟩
  refine ⟨⟨number.1, number.2, ?_, ?_⟩, drives.exact.number found'⟩
  · omega
  · show key.nonterminal < 1024
    omega

/-- The tables of a built automaton are read as they are, in whatever order Lua goes through the
    rows that were printed. -/
theorem tables_reloaded {module : LuaModule} {actionRows gotoRows : List (Int × Int)}
    (made : Automaton.build fuel engine order source warnings {} = ((automaton, warnings'), .ok ()))
    (parsed : parseLanguageDef engine source = .ok langdef) (fit : FollowSetsFit langdef.prodlist)
    (printed : automaton.tostring = .ok module)
    (actions : actionRows.Perm (luaTable module.action).entries)
    (gotos : gotoRows.Perm (luaTable module.gto).entries) :
    parsePackedTable ActionKey.unpack Action.unpack "action" actionRows = .ok automaton.actions ∧
      parsePackedTable GotoKey.unpack Goto.unpack "gto" gotoRows = .ok automaton.gotos := by
  obtain ⟨langdef', lalr, b, built⟩ := built_of_build made
  obtain rfl := Except.ok.inj (parsed.symm.trans built.parsed)
  have action_rows : module.action =
      automaton.actions.entries.map fun e => (e.1.packed, e.2.packed) := by
    obtain ⟨lexer, -, printed⟩ := bind_eq_ok.mp printed
    obtain ⟨call, -, printed⟩ := bind_eq_ok.mp printed
    obtain rfl := Except.ok.inj printed
    rfl
  have gto_rows : module.gto = automaton.gotos.entries.map fun e => (e.1.packed, e.2) := by
    obtain ⟨lexer, -, printed⟩ := bind_eq_ok.mp printed
    obtain ⟨call, -, printed⟩ := bind_eq_ok.mp printed
    obtain rfl := Except.ok.inj printed
    rfl
  rw [action_rows] at actions
  rw [gto_rows] at gotos
  constructor
  · refine parsePackedTable_eq (fun e mem => ?_) actions
    obtain ⟨key, action⟩ := built.action_fits fit (SortedMap.find_eq_some.mpr mem)
    obtain ⟨positive, small, state, terminal⟩ := key.packed
    exact ⟨⟨positive, small⟩, Action.packed_bounds action, ActionKey.ext state terminal,
      Action.unpack_packed action⟩
  · have packs : ∀ e ∈ automaton.gotos.entries,
        Packs GotoKey.unpack Goto.unpack GotoKey.packed id e := by
      intro e mem
      obtain ⟨key, positive', small'⟩ := built.goto_fits fit (SortedMap.find_eq_some.mpr mem)
      obtain ⟨positive, small, state, nonterminal⟩ := key.packed
      have small' : e.2 < 4096 := small'
      have short : Grammar.wrapShort e.2 = e.2 := wrapShort_eq (by omega) (by omega)
      refine ⟨⟨positive, small⟩, ⟨?_, ?_⟩, GotoKey.ext state nonterminal, congrArg some short⟩
      · show 0 < e.2
        omega
      · show e.2 < 2 ^ 31
        omega
    exact parsePackedTable_eq packs gotos

theorem tables_reloaded_sum :
    ∃ module : LuaModule, (Sample.automaton Sample.sumLexems).tostring = .ok module ∧
      parsePackedTable ActionKey.unpack Action.unpack "action" (luaTable module.action).entries =
        .ok (Sample.automaton Sample.sumLexems).actions ∧
      parsePackedTable GotoKey.unpack Goto.unpack "gto" (luaTable module.gto).entries =
        .ok (Sample.automaton Sample.sumLexems).gotos := by
  have written : (Sample.automaton Sample.sumLexems).tostring.toOption.isSome = true := by
    decide +kernel
  obtain ⟨module, printed⟩ := Option.isSome_iff_exists.mp written
  have printed := toOption_eq_some.mp printed
  obtain ⟨langdef, buildable, -⟩ := Sample.exists_buildable_sum
  exact ⟨module, printed, tables_reloaded Sample.build_sum buildable.parsed buildable.fit printed
    (.refl _) (.refl _)⟩

end Built

end Mewa
