/- Module: Mewa/TypeDb/ScopeTrees
   digest: The trees of the three scoped containers show every definition at the node of its scope. -/

import Mewa.Scope.ListMap
import Mewa.TypeDb.Elements

set_option autoImplicit false
set_option relaxedAutoImplicit false

namespace Mewa

open Mewa.Lib Mewa.Lib.Forest Definition RelationCall

variable {κ V : Type}

structure TreeNodeElement (κ V : Type) where
  relation : κ × κ
  value : V
  weight : ℚ
  tag : Int
  deriving DecidableEq

namespace ScopedRelationMap

/-- The loop along one list. -/
def expandList (list : List (ListElement κ V)) (left : κ) :
    Nat → Option Nat → List (TreeNodeElement κ V) → Except Failure (List (TreeNodeElement κ V))
  | _, none, rt => .ok rt
  | 0, some _, _ => .error .outOfFuel
  | fuel + 1, some li, rt =>
    match list[li]? with
    | none => .error .outOfRange
    | some le =>
      expandList list left fuel le.next
        (rt ++ [⟨(left, le.related), le.value, le.weight, TagMask.tagFromTagVal le.tagval⟩])

variable [LinearOrder κ]

def translateItem (rel : ScopedRelationMap κ V) (node : ScopeHierarchyTreeNode (List (κ × Int))) :
    Except Failure (ScopeHierarchyTreeNode (List (TreeNodeElement κ V))) := do
  let value ← node.value.foldlM (fun rt kv =>
    expandList rel.list kv.1 rel.list.length (linkOf kv.2) rt) []
  .ok ⟨node.scope, value⟩

def getTree (rel : ScopedRelationMap κ V) :
    Except Failure (Tree (ScopeHierarchyTreeNode (List (TreeNodeElement κ V)))) := do
  let listIndexTree ← ScopedMap.getTree rel.map
  listIndexTree.translate rel.translateItem

end ScopedRelationMap

def RelationCall.treeElement (c : RelationCall κ V) : TreeNodeElement κ V :=
  ⟨(c.left, c.right), c.value, c.weight, c.tag⟩

section Elements

variable [LinearOrder κ] {added : List (RelationCall κ V)} {heads : List (Definition κ Int)}
  {rel : ScopedRelationMap κ V}

omit [LinearOrder κ] in
theorem expandList_eq {list : List (ListElement κ V)} {start : Option Nat}
    {l : List (RelationCall κ V × Nat)} (threads : Threads list start l) {left : κ}
    (own : ∀ p ∈ l, p.1.left = left ∧ p.1.Valid) {fuel : Nat} (enough : l.length ≤ fuel)
    (rt : List (TreeNodeElement κ V)) :
    ScopedRelationMap.expandList list left fuel start rt =
      .ok (rt ++ l.map fun p => p.1.treeElement) := by
  induction threads generalizing fuel rt with
  | nil =>
    rw [List.map_nil, List.append_nil]
    cases fuel <;> rfl
  | @cons c i next l node _ ih =>
    obtain ⟨fuel, rfl⟩ : ∃ n, fuel = n + 1 := ⟨fuel - 1, by simp at enough; omega⟩
    obtain ⟨left_eq, valid⟩ := own _ List.mem_cons_self
    have tag : TagMask.tagFromTagVal (TagMask.tagValFromTag c.tag) = c.tag := by
      have low : (1 : Int) ≤ c.tag := valid.1
      unfold TagMask.tagFromTagVal TagMask.tagValFromTag
      omega
    have here : (⟨(left, (c.element next).related), (c.element next).value,
        (c.element next).weight, TagMask.tagFromTagVal (c.element next).tagval⟩ :
          TreeNodeElement κ V) = c.treeElement := by
      rw [← left_eq]
      show (⟨(c.left, c.right), c.value, c.weight,
        TagMask.tagFromTagVal (TagMask.tagValFromTag c.tag)⟩ : TreeNodeElement κ V) = _
      rw [tag]
      rfl
    unfold ScopedRelationMap.expandList
    rw [node]
    simp only [here]
    rw [show (c.element next).next = next from rfl,
      ih (fun p mem => own p (List.mem_cons_of_mem _ mem)) (by simpa using enough)]
    simp

def elementsAt (added : List (RelationCall κ V)) (s : Scope) (l : List (κ × Int)) :
    List (TreeNodeElement κ V) :=
  l.flatMap fun kv => (elementsOf added kv.1 s).map fun p => p.1.treeElement

theorem Stores.expand (stores : Stores added heads rel) {s : Scope} {l : List (κ × Int)}
    (all : ∀ kv ∈ l, ⟨kv.1, s, kv.2⟩ ∈ heads) (rt : List (TreeNodeElement κ V)) :
    l.foldlM (fun rt kv => ScopedRelationMap.expandList rel.list kv.1 rel.list.length
        (ScopedRelationMap.linkOf kv.2) rt) rt =
      .ok (rt ++ elementsAt added s l) := by
  induction l generalizing rt with
  | nil => exact congrArg Except.ok (List.append_nil rt).symm
  | cons kv l ih =>
    obtain ⟨low, threads⟩ := stores.threads _ (all kv List.mem_cons_self)
    have link : ScopedRelationMap.linkOf kv.2 = some kv.2.toNat := if_pos low
    have enough : (elementsOf added kv.1 s).length ≤ rel.list.length := by
      rw [stores.length]
      exact elementsOf_length_le added kv.1 s
    have own : ∀ p ∈ elementsOf added kv.1 s, p.1.left = kv.1 ∧ p.1.Valid := by
      intro p mem
      obtain ⟨here, left, -⟩ := mem_elementsOf.mp mem
      exact ⟨left, stores.valid _ (List.mem_of_getElem? here)⟩
    rw [List.foldlM_cons, link, expandList_eq threads own enough, ok_bind,
      ih fun kv' mem => all kv' (List.mem_cons_of_mem _ mem)]
    simp [elementsAt]

theorem Stores.elementsAt_all (stores : Stores added heads rel) {s : Scope} {l : List (κ × Int)}
    (nodup : l.Nodup) (mem_iff : ∀ k v, (k, v) ∈ l ↔ ⟨k, s, v⟩ ∈ heads) :
    (elementsAt added s l).Nodup ∧
      ∀ x, x ∈ elementsAt added s l ↔ ∃ c ∈ added, c.scope = s ∧ x = c.treeElement := by
  constructor
  · refine List.nodup_flatMap.mpr ⟨fun kv mem => ?_, nodup.imp_of_mem ?_⟩
    · refine List.pairwise_map.mpr ((elementsOf_increasing added kv.1 s).imp_of_mem ?_)
      intro p q mem_p mem_q less same
      obtain ⟨at_p, left_p, scope_p⟩ := mem_elementsOf.mp mem_p
      obtain ⟨at_q, left_q, scope_q⟩ := mem_elementsOf.mp mem_q
      have right : p.1.right = q.1.right := congrArg (fun e => e.relation.2) same
      have tag : p.1.tag = q.1.tag := congrArg TreeNodeElement.tag same
      have equal := stores.distinct at_p at_q
        ⟨scope_p.trans scope_q.symm, left_p.trans left_q.symm, right, tag⟩
      omega
    · intro a b mem_a mem_b other x mem mem'
      obtain ⟨p, mem_p, rfl⟩ := List.mem_map.mp mem
      obtain ⟨q, mem_q, same⟩ := List.mem_map.mp mem'
      obtain ⟨-, left_p, -⟩ := mem_elementsOf.mp mem_p
      obtain ⟨-, left_q, -⟩ := mem_elementsOf.mp mem_q
      have lefts : q.1.left = p.1.left := congrArg (fun e => e.relation.1) same
      have keys : a.1 = b.1 := left_p.symm.trans (lefts.symm.trans left_q)
      obtain ⟨i, at_i⟩ := List.getElem?_of_mem ((mem_iff a.1 a.2).mp mem_a)
      obtain ⟨j, at_j⟩ := List.getElem?_of_mem ((mem_iff b.1 b.2).mp mem_b)
      obtain rfl := stores.represents.distinct i j _ _ at_i at_j keys rfl
      have values := congrArg Definition.value (Option.some.inj (at_i.symm.trans at_j))
      exact other (Prod.ext keys values)
  · intro x
    unfold elementsAt
    rw [List.mem_flatMap]
    constructor
    · rintro ⟨kv, -, mem⟩
      obtain ⟨p, mem_p, rfl⟩ := List.mem_map.mp mem
      obtain ⟨here, -, scope⟩ := mem_elementsOf.mp mem_p
      exact ⟨p.1, List.mem_of_getElem? here, scope, rfl⟩
    · rintro ⟨c, mem, rfl, rfl⟩
      obtain ⟨h, mem_h, key, scope⟩ := stores.covered c mem
      obtain ⟨i, at_i⟩ := List.getElem?_of_mem mem
      refine ⟨(h.key, h.value), (mem_iff _ _).mpr (scope ▸ mem_h), ?_⟩
      exact List.mem_map.mpr ⟨(c, i), mem_elementsOf.mpr ⟨at_i, key.symm, rfl⟩, rfl⟩

theorem Stores.head_scopes (stores : Stores added heads rel) :
    {s | ∃ d ∈ heads, d.scope = s} = {s | ∃ c ∈ added, c.scope = s} := by
  ext s
  constructor
  · rintro ⟨d, mem, rfl⟩
    obtain ⟨-, threads⟩ := stores.threads d mem
    cases elements : elementsOf added d.key d.scope with
    | nil =>
      rw [elements] at threads
      cases threads
    | cons p l =>
      have mem_p : p ∈ elementsOf added d.key d.scope := by
        rw [elements]
        exact List.mem_cons_self
      obtain ⟨here, -, scope⟩ := mem_elementsOf.mp mem_p
      exact ⟨p.1, List.mem_of_getElem? here, scope⟩
  · rintro ⟨c, mem, rfl⟩
    obtain ⟨d, mem_d, -, scope⟩ := stores.covered c mem
    exact ⟨d, mem_d, scope⟩

theorem Stores.getTree (stores : Stores added heads rel)
    (laminar : Laminar {s | ∃ c ∈ added, c.scope = s})
    (bounds : ∀ c ∈ added, c.scope ≤ Scope.all) :
    ∃ t nodes, rel.getTree = .ok t ∧ t.Linked nodes ∧
      Hierarchy {s | ∃ c ∈ added, c.scope = s} (scopeEdges nodes) ∧
      ∀ e ∈ nodes, e.2.value.Nodup ∧
        ∀ x, x ∈ e.2.value ↔ ∃ c ∈ added, c.scope = e.2.scope ∧ x = c.treeElement := by
  have bounds' : ∀ d ∈ heads, d.scope ≤ Scope.all := by
    intro d mem
    have member : d.scope ∈ {s | ∃ d ∈ heads, d.scope = s} := ⟨d, mem, rfl⟩
    rw [stores.head_scopes] at member
    obtain ⟨c, mem_c, same⟩ := member
    rw [← same]
    exact bounds c mem_c
  obtain ⟨tree, nodes, runs, linked, hierarchy, items⟩ :=
    stores.represents.mapTree (by rw [stores.head_scopes]; exact laminar) bounds'
  rw [stores.head_scopes] at hierarchy
  have translates : ∀ e ∈ nodes, rel.translateItem e.2 =
      .ok ⟨e.2.scope, elementsAt added e.2.scope e.2.value⟩ := by
    intro e mem
    have all := stores.expand (fun kv mem_kv => ((items e mem).2 kv.1 kv.2).mp mem_kv) []
    simp only [ScopedRelationMap.translateItem, all, ok_bind, List.nil_append]
  obtain ⟨rt, nodes', run, linked', hierarchy', from_old⟩ := linked.translate_hierarchy
    (f := fun item => ⟨item.scope, elementsAt added item.scope item.value⟩)
    hierarchy translates fun _ => rfl
  refine ⟨rt, nodes', ?_, linked', hierarchy', fun e' mem => ?_⟩
  · simp only [ScopedRelationMap.getTree, runs, ok_bind, run]
  · obtain ⟨e, mem_e, same⟩ := from_old e' mem
    obtain ⟨nodup, mem_iff⟩ := items e mem_e
    rw [same]
    exact stores.elementsAt_all nodup mem_iff

end Elements

/-- A scope made by the constructor from two numbers of type int. -/
def Scope.Constructed (s : Scope) : Prop :=
  ∃ start_ end_, start_ ≤ maxStep ∧ end_ ≤ maxStep ∧ s = Scope.ofSteps start_ end_

theorem Scope.Constructed.le_all {s : Scope} (constructed : s.Constructed) : s ≤ Scope.all := by
  obtain ⟨start_, end_, -, bound, rfl⟩ := constructed
  exact Scope.ofSteps_le_all bound

/-- Non-empty scopes, pairwise nested or disjoint. -/
structure Nested (scopes : List Scope) : Prop where
  constructed : ∀ s ∈ scopes, s.Constructed
  nonEmpty : ∀ s ∈ scopes, s.start < s.stop
  noOverlap : ∀ s ∈ scopes, ∀ t ∈ scopes, ¬ s.Overlaps t

theorem Nested.wellScoped {defs : List (Definition κ V)}
    (nested : Nested (defs.map Definition.scope)) : WellScoped defs :=
  ⟨fun _ mem => nested.nonEmpty _ (List.mem_map.mpr ⟨_, mem, rfl⟩),
    fun _ mem _ mem' _ => nested.noOverlap _ (List.mem_map.mpr ⟨_, mem, rfl⟩) _
      (List.mem_map.mpr ⟨_, mem', rfl⟩)⟩

theorem Nested.laminar {scopes : List Scope} (nested : Nested scopes) {S : Set Scope}
    (sub : ∀ s ∈ S, s ∈ scopes) : Laminar S :=
  ⟨fun s mem => nested.nonEmpty s (sub s mem),
    fun s mem t mem' => nested.noOverlap s (sub s mem) t (sub t mem')⟩

theorem mem_of_added [DecidableEq κ] {calls : List (RelationCall κ V)} {c : RelationCall κ V}
    (mem : c ∈ calls.foldl addTo []) : c ∈ calls := by
  induction calls using List.reverseRecOn with
  | nil => exact mem
  | append_singleton calls new ih =>
    rw [List.foldl_append, List.foldl_cons, List.foldl_nil] at mem
    unfold addTo at mem
    split at mem
    · rcases List.mem_append.mp mem with old | last
      · exact List.mem_append_left _ (ih old)
      · exact List.mem_append_right _ last
    · exact List.mem_append_left _ (ih mem)

theorem scope_mem_defined_last (defs : List (Definition Unit V)) (s : Scope) :
    s ∈ scopesOf (defs.foldl (define true) []) () ↔ s ∈ defs.map Definition.scope := by
  constructor
  · rintro ⟨d, mem, -, rfl⟩
    obtain ⟨before, after, split, -⟩ := (mem_defined_last _ d).mp mem
    rw [split]
    simp
  · intro mem
    obtain ⟨c, mem_c, rfl⟩ := List.mem_map.mp mem
    obtain ⟨d, last, same⟩ := exists_lastOf mem_c
    exact ⟨d, (mem_defined_last _ d).mpr last, rfl, same.2⟩

theorem scope_mem_defined_first [DecidableEq κ] (defs : List (Definition κ V)) (s : Scope) :
    (∃ d ∈ defs.foldl (define false) [], d.scope = s) ↔ s ∈ defs.map Definition.scope := by
  constructor
  · rintro ⟨d, mem, rfl⟩
    obtain ⟨before, after, split, -⟩ := (mem_defined_first _ d).mp mem
    rw [split]
    simp
  · intro mem
    obtain ⟨c, mem_c, rfl⟩ := List.mem_map.mp mem
    obtain ⟨d, first, same⟩ := exists_firstOf mem_c
    exact ⟨d, (mem_defined_first _ d).mpr first, same.2⟩

/-- The trees of a scoped instance, of a scoped map and of a relation map after any calls show
    every scope once, under the smallest scope around it, with all that was defined in it. -/
theorem scopeTrees_complete [LinearOrder κ] [DecidableEq V] (nullval : V)
    (sets : List (Scope × V)) (calls : List (MapCall κ V)) (relations : List (RelationCall κ V))
    (nestedSets : Nested (sets.map Prod.fst))
    (nestedCalls : Nested (calls.map fun c => c.definition.scope))
    (nestedRelations : Nested (relations.map RelationCall.scope)) :
    (∃ t, ((ScopedInstance.empty nullval).runSets sets).1.getTree = .ok t ∧
      IsScopeTree {s | s ∈ sets.map Prod.fst} (fun s v =>
        LastOf (sets.map setDefinition) ⟨(), s, v⟩ ∨ s ∉ sets.map Prod.fst ∧ v = nullval) t) ∧
    (∃ t, ScopedMap.getTree ((ScopedMap.empty nullval).runCalls calls).1 = .ok t ∧
      IsScopeTree {s | s ∈ calls.map fun c => c.definition.scope} (fun s l => l.Nodup ∧
        ∀ k v, (k, v) ∈ l ↔ FirstOf (calls.map MapCall.definition) ⟨k, s, v⟩) t) ∧
    ∃ t, (ScopedRelationMap.empty.runSets relations).1.getTree = .ok t ∧
      IsScopeTree {s | ∃ c ∈ relations.foldl addTo [], c.scope = s} (fun s l => l.Nodup ∧
        ∀ x, x ∈ l ↔ ∃ c ∈ relations.foldl addTo [], c.scope = s ∧ x = c.treeElement) t := by
  refine ⟨?_, ?_, ?_⟩
  · have scopes_eq : (sets.map setDefinition).map Definition.scope = sets.map Prod.fst := by
      rw [List.map_map]
      rfl
    have wellScoped : WellScoped (sets.map setDefinition) :=
      Nested.wellScoped (by rw [scopes_eq]; exact nestedSets)
    obtain ⟨represents, null, -⟩ := runSets_represents sets [] (ScopedInstance.empty nullval)
      (represents_empty nullval) (by simpa using wellScoped)
    rw [List.nil_append] at represents
    have defined : ∀ s v, DefinedIn ((sets.map setDefinition).foldl (define true) []) s v ↔
        LastOf (sets.map setDefinition) ⟨(), s, v⟩ := fun s v => mem_defined_last _ _
    have scopes : scopesOf ((sets.map setDefinition).foldl (define true) []) () =
        {s | s ∈ sets.map Prod.fst} := by
      ext s
      rw [Set.mem_ofPred_eq, ← scopes_eq]
      exact scope_mem_defined_last _ s
    obtain ⟨t, nodes, runs, linked, hierarchy, values⟩ := represents.getTree (by
      rw [scopes]
      exact fun s mem => (nestedSets.constructed s mem).le_all)
    rw [scopes] at hierarchy values
    refine ⟨t, runs, isScopeTree_of_linked linked hierarchy fun e mem => ?_⟩
    rcases values e mem with own | ⟨root, outside, value⟩
    · exact Or.inl ((defined _ _).mp own)
    · exact Or.inr ⟨by rw [root]; exact outside, value.trans null⟩
  · have scopes_eq : (calls.map MapCall.definition).map Definition.scope =
        calls.map fun c => c.definition.scope := by
      rw [List.map_map]
      rfl
    have wellScoped : WellScoped (calls.map MapCall.definition) :=
      Nested.wellScoped (by rw [scopes_eq]; exact nestedCalls)
    obtain ⟨represents, -⟩ := runCalls_represents calls [] (ScopedMap.empty nullval)
      (represents_empty nullval) (by simpa using wellScoped)
    rw [List.nil_append] at represents
    have scopes : {s | ∃ d ∈ (calls.map MapCall.definition).foldl (define false) [],
        d.scope = s} = {s | s ∈ calls.map fun c => c.definition.scope} := by
      ext s
      rw [Set.mem_ofPred_eq, Set.mem_ofPred_eq, ← scopes_eq]
      exact scope_mem_defined_first _ s
    obtain ⟨t, nodes, runs, linked, hierarchy, items⟩ := represents.mapTree
      (nestedCalls.laminar (by rw [scopes]; exact fun s mem => mem))
      (fun d mem => by
        have member : d.scope ∈ {s | ∃ d ∈ (calls.map MapCall.definition).foldl (define false) [],
          d.scope = s} := ⟨d, mem, rfl⟩
        rw [scopes] at member
        exact (nestedCalls.constructed _ member).le_all)
    rw [scopes] at hierarchy
    refine ⟨t, runs, isScopeTree_of_linked linked hierarchy fun e mem => ?_⟩
    obtain ⟨nodup, mem_iff⟩ := items e mem
    exact ⟨nodup, fun k v => (mem_iff k v).trans (mem_defined_first _ _)⟩
  · have scopes_eq : (relations.map RelationCall.definition).map Definition.scope =
        relations.map RelationCall.scope := by
      rw [List.map_map]
      rfl
    obtain ⟨⟨heads, stores, -⟩, -⟩ := runSets_stores relations [] ScopedRelationMap.empty []
      stores_empty (fun d mem => by simp at mem)
      (by rw [List.nil_append]; exact Nested.wellScoped (by rw [scopes_eq]; exact nestedRelations))
    rw [List.nil_append] at stores
    have member : ∀ c ∈ relations.foldl addTo [], c.scope ∈ relations.map RelationCall.scope :=
      fun c mem => List.mem_map.mpr ⟨c, mem_of_added mem, rfl⟩
    obtain ⟨t, nodes, runs, linked, hierarchy, items⟩ := stores.getTree
      (nestedRelations.laminar (by rintro s ⟨c, mem, rfl⟩; exact member c mem))
      (fun c mem => (nestedRelations.constructed _ (member c mem)).le_all)
    exact ⟨t, runs, isScopeTree_of_linked linked hierarchy items⟩

theorem constructed_of_bounds {s : Scope} (low : 0 ≤ s.start) (high : s.start ≤ maxStep)
    (low' : 0 ≤ s.stop) (high' : s.stop ≤ maxStep) : s.Constructed := by
  refine ⟨s.start, s.stop, high, high', ?_⟩
  unfold Scope.ofSteps
  rw [if_pos low, if_pos low']

theorem scopeTrees_complete_nested :
    let sets : List (Scope × Nat) := [(⟨2, 5⟩, 1), (⟨0, maxStep⟩, 2), (⟨3, 4⟩, 3), (⟨2, 5⟩, 4)]
    let calls : List (MapCall Int Nat) :=
      [.set ⟨2, 5⟩ 7 1, .getOrSet ⟨0, 10⟩ 8 2, .set ⟨2, 5⟩ 7 3, .set ⟨3, 4⟩ 8 4]
    let relations : List (RelationCall Int Nat) :=
      [⟨⟨0, 10⟩, 1, 2, 7, 1, 0⟩, ⟨⟨2, 5⟩, 3, 2, 8, 2, 1⟩, ⟨⟨0, 10⟩, 1, 3, 9, 1, 0⟩]
    (∃ t, ((ScopedInstance.empty 0).runSets sets).1.getTree = .ok t ∧
      IsScopeTree {s | s ∈ sets.map Prod.fst} (fun s v =>
        LastOf (sets.map setDefinition) ⟨(), s, v⟩ ∨ s ∉ sets.map Prod.fst ∧ v = 0) t) ∧
    (∃ t, ScopedMap.getTree ((ScopedMap.empty 0).runCalls calls).1 = .ok t ∧
      IsScopeTree {s | s ∈ calls.map fun c => c.definition.scope} (fun s l => l.Nodup ∧
        ∀ k v, (k, v) ∈ l ↔ FirstOf (calls.map MapCall.definition) ⟨k, s, v⟩) t) ∧
    ∃ t, (ScopedRelationMap.empty.runSets relations).1.getTree = .ok t ∧
      IsScopeTree {s | ∃ c ∈ relations.foldl addTo [], c.scope = s} (fun s l => l.Nodup ∧
        ∀ x, x ∈ l ↔ ∃ c ∈ relations.foldl addTo [], c.scope = s ∧ x = c.treeElement) t := by
  have bounded : ∀ scopes : List Scope, (∀ s ∈ scopes, (0 ≤ s.start ∧ s.start ≤ maxStep) ∧
      0 ≤ s.stop ∧ s.stop ≤ maxStep) → ∀ s ∈ scopes, s.Constructed := fun scopes all s mem =>
    constructed_of_bounds (all s mem).1.1 (all s mem).1.2 (all s mem).2.1 (all s mem).2.2
  exact scopeTrees_complete 0 [(⟨2, 5⟩, 1), (⟨0, maxStep⟩, 2), (⟨3, 4⟩, 3), (⟨2, 5⟩, 4)]
    [.set ⟨2, 5⟩ 7 1, .getOrSet ⟨0, 10⟩ 8 2, .set ⟨2, 5⟩ 7 3, .set ⟨3, 4⟩ 8 4]
    [⟨⟨0, 10⟩, 1, 2, 7, 1, 0⟩, ⟨⟨2, 5⟩, 3, 2, 8, 2, 1⟩, ⟨⟨0, 10⟩, 1, 3, 9, 1, 0⟩]
    ⟨bounded _ (by decide), by decide, by decide⟩ ⟨bounded _ (by decide), by decide, by decide⟩
    ⟨bounded _ (by decide), by decide, by decide⟩

end Mewa
