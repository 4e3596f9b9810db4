/- Module: Mewa/Automaton/Rules
   digest: The productions as rules over symbols, packed items, and the cores of states. -/

import Mewa.Automaton.States
import Mewa.Grammar.Wellformed
import Mewa.Lib.Items

set_option autoImplicit false
set_option relaxedAutoImplicit false

namespace Mewa

open Mewa.Lib

/-! Packed items. -/

namespace TransitionItem

/-- The position and the handle of an item have room in the packed item. -/
def Fits (item : TransitionItem) : Prop :=
  item.prodpos < Limits.MaxProductionLength ∧ item.follow < Limits.MaxTerminal

theorem packed_eq {item : TransitionItem} (fits : item.Fits) :
    item.packed = (item.prodindex * 16 + item.prodpos) * 1024 + item.follow := by
  obtain ⟨pos, follow⟩ := fits
  have pos : item.prodpos < 16 := pos
  have follow : item.follow < 2 ^ 10 := follow
  have low : item.prodpos <<< 10 ||| item.follow = item.prodpos * 1024 + item.follow := by
    rw [← Nat.shiftLeft_add_eq_or_of_lt follow, Nat.shiftLeft_eq]
  have small : item.prodpos * 1024 + item.follow < 2 ^ 14 := by omega
  show item.prodindex <<< 14 ||| item.prodpos <<< 10 ||| item.follow = _
  rw [Nat.or_assoc, low, ← Nat.shiftLeft_add_eq_or_of_lt small, Nat.shiftLeft_eq]
  omega

theorem unpack_eq (pkg : Nat) :
    unpack pkg = ⟨pkg / 1024 / 16, pkg / 1024 % 16, pkg % 1024⟩ := by
  have pos : (pkg >>> 10) &&& 15 = pkg / 1024 % 16 := by
    rw [Nat.shiftRight_eq_div_pow]
    exact Nat.and_two_pow_sub_one_eq_mod (pkg / 2 ^ 10) 4
  have follow : pkg &&& 1023 = pkg % 1024 := Nat.and_two_pow_sub_one_eq_mod pkg 10
  have index : pkg >>> 14 = pkg / 1024 / 16 := by
    rw [Nat.shiftRight_eq_div_pow]
    omega
  show (⟨pkg >>> 14, (pkg >>> 10) &&& 15, pkg &&& 1023⟩ : TransitionItem) = _
  rw [pos, follow, index]

theorem fits_unpack (pkg : Nat) : (unpack pkg).Fits := by
  rw [unpack_eq]
  exact ⟨Nat.mod_lt _ (by decide), Nat.mod_lt _ (by decide)⟩

theorem unpack_packed {item : TransitionItem} (fits : item.Fits) : unpack item.packed = item := by
  rw [packed_eq fits, unpack_eq]
  obtain ⟨pos, follow⟩ := fits
  have pos : item.prodpos < 16 := pos
  have follow : item.follow < 1024 := follow
  ext <;> simp <;> omega

theorem packed_unpack (pkg : Nat) : (unpack pkg).packed = pkg := by
  rw [packed_eq (fits_unpack pkg), unpack_eq]
  simp only
  omega

end TransitionItem

namespace TransitionState

theorem mem_unpack {state : TransitionState} {item : TransitionItem} :
    item ∈ state.unpack ↔ item.Fits ∧ item.packed ∈ state.packedElements := by
  unfold unpack
  rw [List.mem_map]
  constructor
  · rintro ⟨pkg, mem, rfl⟩
    rw [TransitionItem.packed_unpack]
    exact ⟨TransitionItem.fits_unpack pkg, mem⟩
  · intro ⟨fits, mem⟩
    exact ⟨item.packed, mem, TransitionItem.unpack_packed fits⟩

@[simp] theorem unpack_empty : ({} : TransitionState).unpack = [] := rfl

theorem mem_unpack_insert {state : TransitionState} {item new : TransitionItem}
    (fits : new.Fits) : item ∈ (state.insert new).unpack ↔ item = new ∨ item ∈ state.unpack := by
  rw [mem_unpack, mem_unpack, insert, SortedSet.mem_insert]
  constructor
  · intro ⟨room, mem⟩
    rcases mem with same | old
    · left
      rw [← TransitionItem.unpack_packed room, same, TransitionItem.unpack_packed fits]
    · exact Or.inr ⟨room, old⟩
  · rintro (rfl | ⟨room, old⟩)
    · exact ⟨fits, Or.inl rfl⟩
    · exact ⟨room, Or.inr old⟩

theorem mem_unpack_join {s t : TransitionState} {item : TransitionItem} :
    item ∈ (s.join t).unpack ↔ item ∈ s.unpack ∨ item ∈ t.unpack := by
  rw [mem_unpack, mem_unpack, mem_unpack, join, SortedSet.mem_insertAll, ← SortedSet.mem_def]
  tauto

theorem ext_unpack {s t : TransitionState} (h : ∀ item, item ∈ s.unpack ↔ item ∈ t.unpack) :
    s = t := by
  have same : s.packedElements = t.packedElements := by
    refine SortedSet.eq_of_mem_iff fun pkg => ?_
    have at_pkg := h (TransitionItem.unpack pkg)
    rw [mem_unpack, mem_unpack, TransitionItem.packed_unpack] at at_pkg
    have fits := TransitionItem.fits_unpack pkg
    tauto
  cases s
  cases t
  exact congrArg TransitionState.mk same

/-- A position that is in a state with some handle. -/
def Core (state : TransitionState) (prodindex prodpos : Nat) : Prop :=
  ∃ item ∈ state.unpack, item.prodindex = prodindex ∧ item.prodpos = prodpos

end TransitionState

/-! The productions as rules. -/

def symbolOf (nd : ProductionNode) : Symbol Int Int :=
  if nd.type = .Terminal then .terminal nd.index else .nonterminal nd.index

def ruleOf (prod : ProductionDef) : ContextFreeRule Int Int :=
  ⟨prod.left.index, prod.right.map fun nd => symbolOf nd.toProductionNode⟩

theorem symbolOf_injective {nd nd' : ProductionNode} (resolved : nd.type ≠ .Unresolved)
    (resolved' : nd'.type ≠ .Unresolved) (h : symbolOf nd = symbolOf nd') : nd = nd' := by
  obtain ⟨type, index⟩ := nd
  obtain ⟨type', index'⟩ := nd'
  cases type <;> cases type' <;> simp_all [symbolOf]

/-- The rules of well formed productions, with the first production as the start. -/
def productionsOf (prodlist : List ProductionDef) {lexer : Lexer}
    (h : WellFormed prodlist lexer) : Productions (Fin prodlist.length) Int Int where
  rule p := ruleOf prodlist[p]
  start := ⟨0, by
    obtain ⟨prod, first, -⟩ := h.first
    exact (List.getElem?_eq_some_iff.mp first).1⟩
  start_unique := by
    intro p same
    obtain ⟨prod, first, index⟩ := h.first
    obtain ⟨bound, rfl⟩ := List.getElem?_eq_some_iff.mp first
    have zero := h.unique p prodlist[p] (List.getElem?_eq_getElem p.isLt) (same.trans index)
    exact Fin.ext zero
  start_fresh := by
    intro p mem
    obtain ⟨prod, first, index⟩ := h.first
    obtain ⟨bound, rfl⟩ := List.getElem?_eq_some_iff.mp first
    obtain ⟨nd, hnd, symbol⟩ := List.mem_map.mp mem
    unfold symbolOf at symbol
    split at symbol
    · simp at symbol
    · rename_i not_terminal
      have in_list := List.getElem_mem p.isLt
      have kind : nd.type = .NonTerminal := by
        cases type : nd.type with
        | Unresolved => exact absurd type (h.resolved _ in_list nd hnd)
        | NonTerminal => rfl
        | Terminal => exact absurd type not_terminal
      have same : nd.index = prodlist[0].left.index := Symbol.nonterminal.inj symbol
      exact (h.nonterminal _ in_list nd hnd kind).1 (same.trans index)

section Nodes

variable {prodlist : List ProductionDef} {lexer : Lexer} (h : WellFormed prodlist lexer)

theorem nodeOf_eq {p : Fin prodlist.length} {item : TransitionItem} (index : item.prodindex = p) :
    (nodeOf prodlist item).map symbolOf =
      ((productionsOf prodlist h).rule p).output[item.prodpos]? := by
  unfold nodeOf ProductionDef.nodeAt productionsOf ruleOf
  simp [index, List.getElem?_map, Function.comp_def]

include h in
theorem nodeOf_inv {item : TransitionItem} {nd : ProductionNode}
    (node : nodeOf prodlist item = some nd) :
    item.prodindex < prodlist.length ∧ nd.type ≠ .Unresolved := by
  unfold nodeOf at node
  obtain ⟨prod, at_index, node⟩ := Option.bind_eq_some_iff.mp node
  unfold ProductionDef.nodeAt at node
  obtain ⟨element, at_pos, rfl⟩ := Option.map_eq_some_iff.mp node
  exact ⟨(List.getElem?_eq_some_iff.mp at_index).1,
    h.resolved prod (List.mem_of_getElem? at_index) element (List.mem_of_getElem? at_pos)⟩

theorem nodeOf_eq_some_iff {p : Fin prodlist.length} {item : TransitionItem}
    (index : item.prodindex = p) {nd : ProductionNode} (resolved : nd.type ≠ .Unresolved) :
    nodeOf prodlist item = some nd ↔
      ((productionsOf prodlist h).rule p).output[item.prodpos]? = some (symbolOf nd) := by
  rw [← nodeOf_eq h index]
  constructor
  · intro node
    rw [node]
    rfl
  · intro symbol
    obtain ⟨nd', node, same⟩ := Option.map_eq_some_iff.mp symbol
    rw [node, symbolOf_injective (nodeOf_inv h node).2 resolved same]

end Nodes

end Mewa
