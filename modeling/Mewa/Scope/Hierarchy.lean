/- Module: Mewa/Scope/Hierarchy
   digest: The builder that restores the hierarchy of scopes from the chains of their definitions. -/

import Mewa.Scope.Copied
import Mewa.Scope.Runs

set_option autoImplicit false
set_option relaxedAutoImplicit false

namespace Mewa

open Mewa.Lib Mewa.Lib.Forest Definition

variable {V : Type}

/-- The scope of the root of every tree. -/
def Scope.all : Scope := ⟨0, maxStep⟩

/-- The order of scopes by "ScopeCompare". -/
def Scope.order (s : Scope) : Int ×ₗ Int := toLex (s.stop, s.start)

theorem Scope.order_inj {s t : Scope} : s.order = t.order ↔ s = t := by
  constructor
  · intro same
    have pair := toLex.injective same
    exact Scope.ext (congrArg Prod.snd pair) (congrArg Prod.fst pair)
  · exact congrArg Scope.order

theorem find_set_order (m : SortedMap (Int ×ₗ Int) Nat) (s t : Scope) (n : Nat) :
    (m.set s.order n).find t.order = if s = t then some n else m.find t.order := by
  rw [SortedMap.find_set]
  simp only [Scope.order_inj]

theorem Scope.ofSteps_le_all {start_ end_ : Int} (bound : end_ ≤ maxStep) :
    Scope.ofSteps start_ end_ ≤ Scope.all := by
  unfold Scope.ofSteps Scope.all
  rw [Scope.le_iff]
  constructor
  · show 0 ≤ if start_ ≥ 0 then start_ else 0
    split <;> omega
  · show (if end_ ≥ 0 then end_ else maxStep) ≤ maxStep
    split <;> omega

structure ScopeHierarchyTreeNode (V : Type) where
  scope : Scope
  value : V
  deriving DecidableEq, Repr

structure ScopeHierarchyTreeBuilder (V : Type) where
  tree : Tree (ScopeHierarchyTreeNode V)
  scope2nodeidxMap : SortedMap (Int ×ₗ Int) Nat
  nullval : V

namespace ScopeHierarchyTreeBuilder

def ofNullval (nullval : V) : ScopeHierarchyTreeBuilder V :=
  ⟨Tree.ofRoot ⟨Scope.all, nullval⟩, (SortedMap.empty.insertNew Scope.all.order 1).1, nullval⟩

/-- The loop along a chain up to the first known scope: the tree with the value of the root, the
    scopes on the way, the last one first, and the index of the known one. -/
def climb [DecidableEq V] (builder : ScopeHierarchyTreeBuilder V) :
    List (Scope × V) → List (Scope × V) →
      Except Failure (Tree (ScopeHierarchyTreeNode V) × List (Scope × V) × Nat)
  | [], stk => .ok (builder.tree, stk, 1)
  | (scope, value) :: rest, stk =>
    match builder.scope2nodeidxMap.find scope.order with
    | none => climb builder rest ((scope, value) :: stk)
    | some ndidx => do
      let node ← builder.tree.node ndidx
      if node.item.value ≠ value then
        if ndidx = 1 ∧ node.item.value = builder.nullval then
          .ok (builder.tree.setItem ndidx { node.item with value := value }, stk, ndidx)
        else .error (.thrown ⟨.LogicError, "scope.hpp", 0⟩)
      else .ok (builder.tree, stk, ndidx)

/-- The loop over the stack: each scope becomes the child of the one before. -/
def descend : List (Scope × V) → Nat → ScopeHierarchyTreeBuilder V →
    Except Failure (ScopeHierarchyTreeBuilder V)
  | [], _, builder => .ok builder
  | (scope, value) :: stk, ndidx, builder => do
    let (tree, ndidx) ← builder.tree.addChild ndidx ⟨scope, value⟩
    let (scope2nodeidxMap, _) := builder.scope2nodeidxMap.insertNew scope.order ndidx
    descend stk ndidx ⟨tree, scope2nodeidxMap, builder.nullval⟩

/-- The definitions from one iterator to the other are inserted. -/
def insert [DecidableEq V] (chain : List (Scope × V)) (builder : ScopeHierarchyTreeBuilder V) :
    Except Failure (ScopeHierarchyTreeBuilder V) := do
  let (tree, stk, ndidx) ← builder.climb chain []
  descend stk ndidx { builder with tree := tree }

end ScopeHierarchyTreeBuilder

def ScopedInstance.getTree [DecidableEq V] (inst : ScopedInstance V) :
    Except Failure (Tree (ScopeHierarchyTreeNode V)) := do
  let treeBuilder ← inst.map.entries.foldlM (fun treeBuilder mi => do
      treeBuilder.insert (← inst.invtree.iterate (some mi.2)))
    (ScopeHierarchyTreeBuilder.ofNullval inst.invtree.nullval)
  .ok treeBuilder.tree

/-- The tree shows every scope of a set once, and the root, under the smallest of them around it,
    with an item that is right for the scope. -/
structure IsScopeTree {I : Type} (S : Set Scope) (Right : Scope → I → Prop)
    (t : Tree (ScopeHierarchyTreeNode I)) : Prop where
  root : ∃ node, t.node 1 = .ok node ∧ node.item.scope = Scope.all
  scopes : ∀ s, (∃ i node, t.node i = .ok node ∧ node.item.scope = s) ↔ s = Scope.all ∨ s ∈ S
  once : ∀ i j node node', t.node i = .ok node → t.node j = .ok node' →
    node.item.scope = node'.item.scope → i = j
  siblings : ∀ i node, t.node i = .ok node →
    ∃ cs, Tree.Siblings t.ar node.chld cs ∧ cs.Nodup ∧ ∀ c, c ∈ cs ↔ t.ChildOf i c
  top : ∀ p, ¬ t.ChildOf p 1
  parent : ∀ i node, t.node i = .ok node → i ≠ 1 → ∃ p parent, t.node p = .ok parent ∧
    t.ChildOf p i ∧ (∀ q, t.ChildOf q i → q = p) ∧
    IsParent (insert Scope.all S) node.item.scope (some parent.item.scope)
  reached : ∀ i node, t.node i = .ok node → Relation.ReflTransGen t.ChildOf 1 i
  items : ∀ i node, t.node i = .ok node → Right node.item.scope node.item.value

/-! The properties of a tree as properties of its edges. -/

section Edges

variable {I J : Type} {S : Set Scope}

/-- The root has the biggest scope, another node a scope right below that of its parent. -/
def UnderParent (S : Set Scope) : Option Scope × Scope → Prop
  | (none, s) => s = Scope.all
  | (some p, s) => IsParent (insert Scope.all S) s (some p)

structure Hierarchy (S : Set Scope) (es : List (Option Scope × Scope)) : Prop where
  nodup : (es.map Prod.snd).Nodup
  mem_iff : ∀ s, s ∈ es.map Prod.snd ↔ s = Scope.all ∨ s ∈ S
  parents : ∀ e ∈ es, UnderParent S e

theorem Hierarchy.perm {es es' : List (Option Scope × Scope)} (hierarchy : Hierarchy S es)
    (perm : es'.Perm es) : Hierarchy S es' where
  nodup := (perm.map Prod.snd).nodup_iff.mpr hierarchy.nodup
  mem_iff s := ((perm.map Prod.snd).mem_iff).trans (hierarchy.mem_iff s)
  parents e mem := hierarchy.parents e (perm.mem_iff.mp mem)

def scopeEdges (nodes : List (Nat × ScopeHierarchyTreeNode I)) : List (Option Scope × Scope) :=
  Tree.edges (nodes.map fun e => (e.1, e.2.scope))

theorem scopeEdges_scopes (nodes : List (Nat × ScopeHierarchyTreeNode I)) :
    (scopeEdges nodes).map Prod.snd = nodes.map fun e => e.2.scope := by
  unfold scopeEdges Tree.edges
  rw [List.map_map, List.map_map]
  rfl

theorem mem_scopeEdges {nodes : List (Nat × ScopeHierarchyTreeNode I)} {k p : Nat}
    {item : ScopeHierarchyTreeNode I} (here : nodes[k]? = some (p, item)) :
    ((Tree.parentItem nodes p).map ScopeHierarchyTreeNode.scope, item.scope) ∈
      scopeEdges nodes := by
  unfold scopeEdges
  rw [Tree.edges_map]
  refine List.mem_map.mpr ⟨(Tree.parentItem nodes p, item), ?_, rfl⟩
  exact List.mem_map.mpr ⟨(p, item), List.mem_of_getElem? here, rfl⟩

theorem isScopeTree_of_linked {t : Tree (ScopeHierarchyTreeNode I)}
    {nodes : List (Nat × ScopeHierarchyTreeNode I)} {Right : Scope → I → Prop}
    (linked : t.Linked nodes) (hierarchy : Hierarchy S (scopeEdges nodes))
    (items : ∀ e ∈ nodes, Right e.2.scope e.2.value) : IsScopeTree S Right t := by
  have nodup := hierarchy.nodup
  have mem_iff := hierarchy.mem_iff
  rw [scopeEdges_scopes] at nodup mem_iff
  have entry : ∀ {i : Nat} {node : TreeNode (ScopeHierarchyTreeNode I)}, t.node i = .ok node →
      ∃ k p, i = k + 1 ∧ nodes[k]? = some (p, node.item) := by
    intro i node here
    obtain ⟨k, rfl, at_k⟩ := Tree.node_ok here
    obtain ⟨p, entry⟩ := linked.of_node at_k
    exact ⟨k, p, rfl, entry⟩
  have node_at : ∀ {k p : Nat} {item : ScopeHierarchyTreeNode I}, nodes[k]? = some (p, item) →
      ∃ node, t.node (k + 1) = .ok node ∧ node.item = item := by
    intro k p item here
    obtain ⟨node, at_k, same⟩ := linked.node_of here
    exact ⟨node, (Tree.node_succ t).mpr at_k, same⟩
  obtain ⟨rootItem, first⟩ := linked.root
  rw [List.head?_eq_getElem?] at first
  refine ⟨?_, ?_, ?_, ?_, ?_, ?_, ?_, ?_⟩
  · obtain ⟨node, here, same⟩ := node_at first
    refine ⟨node, here, ?_⟩
    rw [same]
    exact hierarchy.parents _ (mem_scopeEdges first)
  · intro s
    rw [← mem_iff]
    constructor
    · rintro ⟨i, node, here, rfl⟩
      obtain ⟨k, p, -, at_k⟩ := entry here
      exact List.mem_map.mpr ⟨_, List.mem_of_getElem? at_k, rfl⟩
    · intro mem
      obtain ⟨⟨p, item⟩, member, rfl⟩ := List.mem_map.mp mem
      obtain ⟨k, at_k⟩ := List.getElem?_of_mem member
      obtain ⟨node, here, rfl⟩ := node_at at_k
      exact ⟨k + 1, node, here, rfl⟩
  · intro i j node node' here here' same
    obtain ⟨k, p, rfl, at_k⟩ := entry here
    obtain ⟨l, q, rfl, at_l⟩ := entry here'
    have bound := (List.getElem?_eq_some_iff.mp at_k).1
    congr 1
    refine (List.getElem?_inj (by simpa using bound) nodup).mp ?_
    rw [List.getElem?_map, List.getElem?_map, at_k, at_l]
    exact congrArg some same
  · intro i node here
    obtain ⟨k, rfl, at_k⟩ := Tree.node_ok here
    refine ⟨_, linked.children k node at_k, Tree.childrenOf_nodup nodes (k + 1), fun c => ?_⟩
    rw [linked.childOf_iff]
    exact (and_iff_right (Nat.succ_pos k)).symm
  · intro p child
    obtain ⟨positive, mem⟩ := linked.childOf_iff.mp child
    have := linked.parent_before positive mem
    omega
  · intro i node here other
    obtain ⟨k, p, rfl, at_k⟩ := entry here
    obtain ⟨k, rfl⟩ : ∃ m, k = m + 1 := ⟨k - 1, by omega⟩
    obtain ⟨positive, before⟩ := linked.parents k p node.item at_k
    obtain ⟨q, rfl⟩ : ∃ q, p = q + 1 := ⟨p - 1, by omega⟩
    have bound := (List.getElem?_eq_some_iff.mp at_k).1
    obtain ⟨⟨pp, parent⟩, at_q⟩ : ∃ e, nodes[q]? = some e :=
      ⟨_, List.getElem?_eq_getElem (show q < nodes.length by omega)⟩
    obtain ⟨parentNode, parent_here, rfl⟩ := node_at at_q
    have child : k + 1 + 1 ∈ Tree.childrenOf nodes (q + 1) :=
      Tree.mem_childrenOf.mpr ⟨k + 1, node.item, rfl, at_k⟩
    refine ⟨q + 1, parentNode, parent_here, linked.childOf_iff.mpr ⟨positive, child⟩,
      fun r child' => Tree.childrenOf_unique (linked.childOf_iff.mp child').2 child, ?_⟩
    have edge := hierarchy.parents _ (mem_scopeEdges at_k)
    simp only [Tree.parentItem, at_q, Option.map_some] at edge
    exact edge
  · intro i node here
    obtain ⟨k, rfl, at_k⟩ := Tree.node_ok here
    exact linked.reached (List.getElem?_eq_some_iff.mp at_k).1
  · intro i node here
    obtain ⟨k, p, -, at_k⟩ := entry here
    exact items _ (List.mem_of_getElem? at_k)

end Edges

end Mewa
