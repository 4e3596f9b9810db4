/- Module: Mewa/Scope/ListMap
   digest: Lists of values for each scope, their tree, and the tree of a scoped map. -/

import Mathlib.Data.Finset.Insert
import Mathlib.Data.Finset.Dedup
import Mewa.Scope.Builder

set_option autoImplicit false
set_option relaxedAutoImplicit false

namespace Mewa

open Mewa.Lib Mewa.Lib.Forest Definition

variable {I κ V : Type}

def Scope.ofOrder (k : Int ×ₗ Int) : Scope := ⟨(ofLex k).2, (ofLex k).1⟩

@[simp] theorem Scope.ofOrder_order (s : Scope) : Scope.ofOrder s.order = s := rfl

@[simp] theorem Scope.order_ofOrder (k : Int ×ₗ Int) : (Scope.ofOrder k).order = k := rfl

/-- The values collected for each scope, each value once. -/
structure ScopeListMap (I : Type) where
  map : SortedMap (Int ×ₗ Int) Nat
  valueAr : List (List I)
  valueSets : List (Finset I)

namespace ScopeListMap

variable [DecidableEq I]

def empty : ScopeListMap I := ⟨SortedMap.empty, [], []⟩

/-- The value is added to the list of an index, unless it is there. -/
def insertAt (index : Nat) (value : I) (m : ScopeListMap I) : Except Failure (ScopeListMap I) :=
  match m.valueSets[index - 1]? with
  | none => .error .outOfRange
  | some set =>
    if value ∈ set then .ok m
    else .ok ⟨m.map, m.valueAr.modify (index - 1) fun l => l ++ [value],
      m.valueSets.set (index - 1) (Insert.insert value set)⟩

def insert (scope : Scope) (value : I) (m : ScopeListMap I) : Except Failure (ScopeListMap I) :=
  match m.map.insertNew scope.order (m.valueAr.length + 1) with
  | (map, none) =>
    insertAt (m.valueAr.length + 1) value ⟨map, m.valueAr ++ [[]], m.valueSets ++ [∅]⟩
  | (map, some index) => insertAt index value { m with map := map }

def setIndex (inst : ScopedInstance Nat) (kv : (Int ×ₗ Int) × Nat) :
    Except Failure (ScopedInstance Nat) :=
  match inst.set (Scope.ofOrder kv.1) kv.2 with
  | (inst', .ok _) => .ok inst'
  | (_, .error e) => .error e

/-- The list of an index in place of it. The root may have none. -/
def translateItem (m : ScopeListMap I) (node : ScopeHierarchyTreeNode Nat) :
    Except Failure (ScopeHierarchyTreeNode (List I)) :=
  if node.value = 0 then .ok ⟨node.scope, []⟩
  else
    match m.valueAr[node.value - 1]? with
    | none => .error .outOfRange
    | some l => .ok ⟨node.scope, l⟩

def getTree (m : ScopeListMap I) : Except Failure (Tree (ScopeHierarchyTreeNode (List I))) := do
  let scopedInstance ← m.map.entries.foldlM setIndex (ScopedInstance.empty 0)
  let tree ← scopedInstance.getTree
  tree.translate m.translateItem

end ScopeListMap

/-- The definitions on the chain of an entry are inserted with their key. -/
def ScopedMap.insertChain [LinearOrder κ] [DecidableEq V] (map : ScopedMap κ V)
    (lists : ScopeListMap (κ × V)) (mi : ScopedKey κ × Nat) :
    Except Failure (ScopeListMap (κ × V)) := do
  let visited ← map.invtree.iterate (some mi.2)
  visited.foldlM (fun lists ii => lists.insert ii.1 (mi.1.key, ii.2)) lists

/-- The tree of all definitions of a map, as pairs of a key and a value. -/
def ScopedMap.getTree [LinearOrder κ] [DecidableEq V] (map : ScopedMap κ V) :
    Except Failure (Tree (ScopeHierarchyTreeNode (List (κ × V)))) := do
  let scopeKeyValueListMap ← map.map.entries.foldlM map.insertChain ScopeListMap.empty
  scopeKeyValueListMap.getTree

theorem Tree.Linked.translate_hierarchy {J : Type} {S : Set Scope}
    {t : Tree (ScopeHierarchyTreeNode I)} {nodes : List (Nat × ScopeHierarchyTreeNode I)}
    (linked : t.Linked nodes) (hierarchy : Hierarchy S (scopeEdges nodes))
    {f : ScopeHierarchyTreeNode I → ScopeHierarchyTreeNode J}
    {g : ScopeHierarchyTreeNode I → Except Failure (ScopeHierarchyTreeNode J)}
    (translates : ∀ e ∈ nodes, g e.2 = .ok (f e.2)) (kept : ∀ item, (f item).scope = item.scope) :
    ∃ rt nodes', t.translate g = .ok rt ∧ rt.Linked nodes' ∧ Hierarchy S (scopeEdges nodes') ∧
      ∀ e' ∈ nodes', ∃ e ∈ nodes, e'.2 = f e.2 := by
  obtain ⟨rt, nodes', runs, linked', perm⟩ := linked.translate translates
  refine ⟨rt, nodes', runs, linked', hierarchy.perm ?_, fun e' mem => ?_⟩
  · unfold scopeEdges
    rw [Tree.edges_map, Tree.edges_map]
    refine (perm.map _).trans (List.Perm.of_eq ?_)
    rw [List.map_map]
    refine List.map_congr_left fun e _ => ?_
    show ((e.1.map f).map ScopeHierarchyTreeNode.scope, (f e.2).scope) =
      (e.1.map ScopeHierarchyTreeNode.scope, e.2.scope)
    rw [Option.map_map, kept]
    congr 2
    funext item
    exact kept item
  · have edge := (perm.map Prod.snd).mem_iff.mp
      (List.mem_map.mpr ⟨_, List.mem_map.mpr ⟨e', mem, rfl⟩, rfl⟩)
    obtain ⟨_, mem_edge, same⟩ := List.mem_map.mp edge
    obtain ⟨_, mem_old, rfl⟩ := List.mem_map.mp mem_edge
    obtain ⟨e, mem_e, rfl⟩ := List.mem_map.mp mem_old
    exact ⟨e, mem_e, same.symm⟩

/-! The lists after any insertions. -/

section Collects

open ScopeListMap

variable [DecidableEq I]

structure Collects (inserted : List (Scope × I)) (m : ScopeListMap I) : Prop where
  list : ∀ (s : Scope) i, m.map.find s.order = some i → 0 < i ∧ ∃ l, m.valueAr[i - 1]? = some l ∧
    l.Nodup ∧ ∀ v, v ∈ l ↔ (s, v) ∈ inserted
  sets : m.valueSets = m.valueAr.map List.toFinset
  distinct : ∀ (s t : Scope) i, m.map.find s.order = some i → m.map.find t.order = some i → s = t
  covered : ∀ s v, (s, v) ∈ inserted → ∃ i, m.map.find s.order = some i
  inhabited : ∀ (s : Scope) i, m.map.find s.order = some i → ∃ v, (s, v) ∈ inserted

variable {inserted : List (Scope × I)} {m : ScopeListMap I}

theorem collects_empty : Collects ([] : List (Scope × I)) ScopeListMap.empty where
  list s i found := by simp [ScopeListMap.empty] at found
  sets := rfl
  distinct s t i found := by simp [ScopeListMap.empty] at found
  covered := by simp
  inhabited s i found := by simp [ScopeListMap.empty] at found

theorem insertAt_eq {index : Nat} {value : I} {l : List I}
    (sets : m.valueSets = m.valueAr.map List.toFinset)
    (here : m.valueAr[index - 1]? = some l) (nodup : l.Nodup) :
    ∃ m' l', m.insertAt index value = .ok m' ∧ m'.map = m.map ∧
      m'.valueSets = m'.valueAr.map List.toFinset ∧
      m'.valueAr = m.valueAr.set (index - 1) l' ∧ l'.Nodup ∧
      ∀ v, v ∈ l' ↔ v ∈ l ∨ v = value := by
  have set : m.valueSets[index - 1]? = some l.toFinset := by
    rw [sets, List.getElem?_map, here]
    rfl
  by_cases known : value ∈ l
  · refine ⟨m, l, ?_, rfl, sets, ?_, nodup, fun v => ?_⟩
    · simp only [ScopeListMap.insertAt, set, List.mem_toFinset, known, if_true]
    · apply List.ext_getElem?
      intro j
      rw [List.getElem?_set]
      split
      · rename_i same
        subst same
        rw [here, if_pos (List.getElem?_eq_some_iff.mp here).1]
      · rfl
    · constructor
      · exact Or.inl
      · rintro (mem | rfl)
        · exact mem
        · exact known
  · have appended : m.valueAr.modify (index - 1) (fun l => l ++ [value]) =
        m.valueAr.set (index - 1) (l ++ [value]) := by
      apply List.ext_getElem?
      intro j
      rw [List.getElem?_modify, List.getElem?_set]
      by_cases same : index - 1 = j
      · subst same
        rw [here, if_pos rfl, if_pos (List.getElem?_eq_some_iff.mp here).1]
        simp
      · simp [same]
    refine ⟨⟨m.map, m.valueAr.modify (index - 1) fun l => l ++ [value],
      m.valueSets.set (index - 1) (Insert.insert value l.toFinset)⟩, l ++ [value], ?_, rfl, ?_,
      appended, ?_, fun v => by simp⟩
    · simp only [ScopeListMap.insertAt, set, List.mem_toFinset, known, if_false]
    · simp only [appended]
      rw [sets, List.map_set]
      congr 1
      ext v
      simp
    · rw [List.nodup_append]
      refine ⟨nodup, List.nodup_singleton _, fun a mem b last => ?_⟩
      rw [List.mem_singleton.mp last]
      rintro rfl
      exact known mem

theorem Collects.written (collects : Collects inserted m) {s : Scope} {value : I} {index : Nat}
    (positive : 0 < index) {m' : ScopeListMap I} {l' : List I}
    (map : ∀ t : Scope, m'.map.find t.order = if s = t then some index else m.map.find t.order)
    (sets : m'.valueSets = m'.valueAr.map List.toFinset)
    (own : m'.valueAr[index - 1]? = some l') (nodup : l'.Nodup)
    (mem_iff : ∀ v, v ∈ l' ↔ (s, v) ∈ inserted ∨ v = value)
    (others : ∀ (t : Scope) i, t ≠ s → m.map.find t.order = some i →
      i ≠ index ∧ m'.valueAr[i - 1]? = m.valueAr[i - 1]?) :
    Collects (inserted ++ [(s, value)]) m' where
  list t i found := by
    rw [map] at found
    split at found
    · rename_i same
      subst same
      obtain rfl := Option.some.inj found
      refine ⟨positive, l', own, nodup, fun v => ?_⟩
      rw [mem_iff]
      simp
    · rename_i other
      obtain ⟨low, l, here, nodup_l, mem⟩ := collects.list t i found
      refine ⟨low, l, ?_, nodup_l, fun v => ?_⟩
      · rw [(others t i (Ne.symm other) found).2, here]
      · rw [mem]
        simp [Ne.symm other]
  sets := sets
  distinct t u i found found' := by
    rw [map] at found found'
    split at found
    · rename_i same
      obtain rfl := Option.some.inj found
      split at found'
      · rename_i same'
        rw [← same, ← same']
      · rename_i other
        exact absurd rfl (others u _ (Ne.symm other) found').1
    · rename_i other
      split at found'
      · obtain rfl := Option.some.inj found'
        exact absurd rfl (others t _ (Ne.symm other) found).1
      · exact collects.distinct t u i found found'
  covered t v mem := by
    rw [map]
    split
    · exact ⟨index, rfl⟩
    · rename_i other
      rcases List.mem_append.mp mem with old | last
      · exact collects.covered t v old
      · exact absurd (congrArg Prod.fst (List.mem_singleton.mp last)).symm other
  inhabited t i found := by
    rw [map] at found
    split at found
    · rename_i same
      subst same
      exact ⟨value, by simp⟩
    · obtain ⟨v, mem⟩ := collects.inhabited t i found
      exact ⟨v, List.mem_append_left _ mem⟩

theorem Collects.insert (collects : Collects inserted m) (s : Scope) (value : I) :
    ∃ m', m.insert s value = .ok m' ∧ Collects (inserted ++ [(s, value)]) m' := by
  cases found : m.map.find s.order with
  | none =>
    -- a new list at the end
    have absent : ∀ v, (s, v) ∉ inserted := by
      intro v mem
      obtain ⟨i, known⟩ := collects.covered s v mem
      rw [found] at known
      simp at known
    obtain ⟨grown, grows⟩ : ∃ grown : ScopeListMap I,
        grown = ⟨m.map.set s.order (m.valueAr.length + 1), m.valueAr ++ [[]],
          m.valueSets ++ [∅]⟩ := ⟨_, rfl⟩
    have grown_sets : grown.valueSets = grown.valueAr.map List.toFinset := by
      rw [grows]
      simp [collects.sets]
    have here : grown.valueAr[m.valueAr.length + 1 - 1]? = some [] := by
      rw [grows]
      simp
    obtain ⟨m', l', runs, map, sets, ar, nodup, mem_iff⟩ :=
      @insertAt_eq I _ grown (m.valueAr.length + 1) value [] grown_sets here List.nodup_nil
    refine ⟨m', ?_, collects.written (Nat.succ_pos m.valueAr.length) (fun t => ?_) sets ?_ nodup (fun v => ?_)
      fun t i _ known => ?_⟩
    · simp only [ScopeListMap.insert, SortedMap.insertNew_of_none found]
      rw [← grows]
      exact runs
    · rw [map, grows]
      exact find_set_order _ _ _ _
    · rw [ar, grows]
      simp
    · rw [mem_iff]
      simp [absent]
    · obtain ⟨low, l, at_i, -⟩ := collects.list t i known
      have bound := (List.getElem?_eq_some_iff.mp at_i).1
      refine ⟨by omega, ?_⟩
      rw [ar, grows, List.getElem?_set_ne (by omega), List.getElem?_append_left bound]
  | some index =>
    obtain ⟨low, l, here, nodup_l, mem⟩ := collects.list s index found
    obtain ⟨m', l', runs, map, sets, ar, nodup, mem_iff⟩ :=
      @insertAt_eq I _ m index value l collects.sets here nodup_l
    refine ⟨m', ?_, collects.written low (fun t => ?_) sets ?_ nodup (fun v => ?_)
      fun t i other known => ?_⟩
    · simp only [ScopeListMap.insert, SortedMap.insertNew_of_some found]
      exact runs
    · rw [map]
      split
      · rename_i same
        rw [← same, found]
      · rfl
    · rw [ar, List.getElem?_set_self (List.getElem?_eq_some_iff.mp here).1]
    · rw [mem_iff, mem]
    · obtain ⟨low', -⟩ := collects.list t i known
      have apart : i ≠ index := by
        rintro rfl
        exact other (collects.distinct t s i known found)
      refine ⟨apart, ?_⟩
      rw [ar, List.getElem?_set_ne (by omega)]

theorem Collects.insertAll (collects : Collects inserted m) (l : List (Scope × I)) :
    ∃ m', l.foldlM (fun m e => m.insert e.1 e.2) m = .ok m' ∧ Collects (inserted ++ l) m' := by
  induction l generalizing inserted m with
  | nil => exact ⟨m, rfl, by simpa using collects⟩
  | cons e l ih =>
    obtain ⟨m₁, runs, collects₁⟩ := collects.insert e.1 e.2
    obtain ⟨m', run, collects'⟩ := ih collects₁
    refine ⟨m', ?_, by simpa using collects'⟩
    rw [List.foldlM_cons, runs]
    exact run

end Collects

/-! The tree of the lists. -/

section Trees

open ScopeListMap

theorem foldlM_setIndex (entries : List ((Int ×ₗ Int) × Nat)) (inst : ScopedInstance Nat)
    (results : (inst.runSets (entries.map fun kv => (Scope.ofOrder kv.1, kv.2))).2 =
      entries.map fun _ => .ok ()) :
    entries.foldlM setIndex inst =
      .ok (inst.runSets (entries.map fun kv => (Scope.ofOrder kv.1, kv.2))).1 := by
  induction entries generalizing inst with
  | nil => rfl
  | cons kv entries ih =>
    simp only [List.map_cons, ScopedInstance.runSets, List.cons.injEq] at results
    obtain ⟨first, rest⟩ := results
    have here : setIndex inst kv = .ok (inst.set (Scope.ofOrder kv.1) kv.2).1 := by
      unfold setIndex
      split
      · rename_i inst' u same
        rw [same]
      · rename_i inst' e same
        rw [same] at first
        simp at first
    rw [List.foldlM_cons, here, ok_bind, ih _ rest]
    rfl

variable [DecidableEq I] {inserted : List (Scope × I)} {m : ScopeListMap I}

/-- The scopes of some pairs. -/
def insertedScopes (inserted : List (Scope × I)) : Set Scope := {s | ∃ v, (s, v) ∈ inserted}

/-- An item lists each value of its scope once. -/
def ListsAll (inserted : List (Scope × I)) (s : Scope) (l : List I) : Prop :=
  l.Nodup ∧ ∀ v, v ∈ l ↔ (s, v) ∈ inserted

theorem Collects.getTree (collects : Collects inserted m)
    (laminar : Laminar (insertedScopes inserted))
    (bounds : ∀ s ∈ insertedScopes inserted, s ≤ Scope.all) :
    ∃ t nodes, m.getTree = .ok t ∧ t.Linked nodes ∧
      Hierarchy (insertedScopes inserted) (scopeEdges nodes) ∧
      ∀ e ∈ nodes, ListsAll inserted e.2.scope e.2.value := by
  obtain ⟨calls, calls_eq⟩ : ∃ calls,
      calls = m.map.entries.map fun kv => (Scope.ofOrder kv.1, kv.2) := ⟨_, rfl⟩
  -- the indices are defined once for each scope
  have mem_calls : ∀ s i, (s, i) ∈ calls ↔ m.map.find s.order = some i := by
    intro s i
    rw [calls_eq, SortedMap.find_eq_some, List.mem_map]
    constructor
    · rintro ⟨⟨k, j⟩, mem, same⟩
      obtain ⟨rfl, rfl⟩ := Prod.mk.inj same
      exact mem
    · exact fun mem => ⟨_, mem, rfl⟩
  have scopes_mem : ∀ s i, (s, i) ∈ calls → s ∈ insertedScopes inserted :=
    fun s i mem => collects.inhabited s i ((mem_calls s i).mp mem)
  have wellScoped : WellScoped (calls.map setDefinition) := by
    constructor
    · intro d mem
      obtain ⟨c, mem_c, rfl⟩ := List.mem_map.mp mem
      exact laminar.nonEmpty _ (scopes_mem c.1 c.2 mem_c)
    · intro c mem d mem' _
      obtain ⟨c, mem_c, rfl⟩ := List.mem_map.mp mem
      obtain ⟨d, mem_d, rfl⟩ := List.mem_map.mp mem'
      exact laminar.noOverlap _ (scopes_mem c.1 c.2 mem_c) _ (scopes_mem d.1 d.2 mem_d)
  obtain ⟨represents, null, results⟩ := runSets_represents calls [] (ScopedInstance.empty 0)
    (represents_empty 0) (by simpa using wellScoped)
  rw [List.nil_append] at represents
  have apart : calls.Pairwise fun a b => a.1 ≠ b.1 := by
    rw [calls_eq, List.pairwise_map]
    refine (List.pairwise_map.mp m.map.sorted).imp fun {a b} less same => ?_
    have keys : a.1 = b.1 := congrArg Scope.order same
    exact absurd less (by rw [keys]; exact lt_irrefl _)
  have defined : ∀ s i, DefinedIn ((calls.map setDefinition).foldl (define true) []) s i ↔
      m.map.find s.order = some i := by
    intro s i
    unfold DefinedIn
    rw [mem_defined_last, ← mem_calls]
    constructor
    · rintro ⟨before, after, split, -⟩
      have mem : (⟨(), s, i⟩ : Definition Unit Nat) ∈ calls.map setDefinition := by
        rw [split]
        simp
      obtain ⟨c, mem_c, same⟩ := List.mem_map.mp mem
      obtain ⟨-, rfl, rfl⟩ := Definition.mk.inj same
      exact mem_c
    · intro mem
      obtain ⟨before, after, split⟩ := List.append_of_mem mem
      refine ⟨before.map setDefinition, after.map setDefinition, by rw [split]; simp; rfl, ?_⟩
      intro c mem_c same
      obtain ⟨b, mem_b, rfl⟩ := List.mem_map.mp mem_c
      rw [split] at apart
      have tail := (List.pairwise_append.mp apart).2.1
      exact (List.pairwise_cons.mp tail).1 b mem_b same.2.symm
  have scopes_eq : scopesOf ((calls.map setDefinition).foldl (define true) []) () =
      insertedScopes inserted := by
    ext s
    constructor
    · rintro ⟨d, mem, -, rfl⟩
      have found := (defined d.scope d.value).mp mem
      exact collects.inhabited _ _ found
    · rintro ⟨v, mem⟩
      obtain ⟨i, found⟩ := collects.covered s v mem
      exact ⟨_, (defined s i).mpr found, rfl, rfl⟩
  obtain ⟨tree, nodes, runs, linked, hierarchy, values⟩ :=
    represents.getTree (by rw [scopes_eq]; exact bounds)
  rw [scopes_eq] at hierarchy values
  rw [null] at values
  -- every index has its list
  have translates : ∀ e ∈ nodes, ∃ l, m.translateItem e.2 = .ok ⟨e.2.scope, l⟩ ∧
      ListsAll inserted e.2.scope l := by
    intro e mem
    rcases values e mem with own | ⟨root, outside, zero⟩
    · obtain ⟨positive, l, here, nodup, mem_iff⟩ := collects.list _ _ ((defined _ _).mp own)
      refine ⟨l, ?_, nodup, mem_iff⟩
      simp only [ScopeListMap.translateItem, positive.ne', if_false, here]
    · have zero' : e.2.value = 0 := zero
      refine ⟨[], by simp only [ScopeListMap.translateItem, zero', if_true], List.nodup_nil,
        fun v => ?_⟩
      simp only [List.not_mem_nil, false_iff]
      intro mem'
      exact outside ⟨v, root ▸ mem'⟩
  have translates' : ∀ e ∈ nodes, m.translateItem e.2 =
      .ok ⟨e.2.scope, (m.translateItem e.2).toOption.elim [] ScopeHierarchyTreeNode.value⟩ := by
    intro e mem
    obtain ⟨l, item, -⟩ := translates e mem
    rw [item]
    rfl
  obtain ⟨rt, nodes', run, linked', hierarchy', from_old⟩ := linked.translate_hierarchy
    (f := fun item => ⟨item.scope,
      (m.translateItem item).toOption.elim [] ScopeHierarchyTreeNode.value⟩)
    hierarchy translates' fun _ => rfl
  refine ⟨rt, nodes', ?_, linked', hierarchy', fun e' mem => ?_⟩
  · have all_ok : ((ScopedInstance.empty 0).runSets
        (m.map.entries.map fun kv => (Scope.ofOrder kv.1, kv.2))).2 =
        m.map.entries.map fun _ => .ok () := by
      rw [calls_eq, List.map_map] at results
      rw [← calls_eq]
      rw [← calls_eq] at results
      exact results
    simp only [ScopeListMap.getTree, foldlM_setIndex _ _ all_ok, ok_bind]
    rw [← calls_eq, runs, ok_bind, run]
  · obtain ⟨e, mem_e, same⟩ := from_old e' mem
    obtain ⟨l, item, all⟩ := translates e mem_e
    rw [same]
    simp only [item]
    exact all

end Trees

/-! The tree of a scoped map. -/

section MapTrees

variable [LinearOrder κ] [DecidableEq V] {defs : List (Definition κ V)} {map : ScopedMap κ V}

theorem Represents.collects (represents : Represents defs map)
    {entries : List (ScopedKey κ × Nat)} (sub : ∀ e ∈ entries, e ∈ map.map.entries)
    {inserted : List (Scope × κ × V)} {m : ScopeListMap (κ × V)} (start : Collects inserted m) :
    ∃ m' inserted', entries.foldlM map.insertChain m = .ok m' ∧
      Collects inserted' m' ∧ (∀ x ∈ inserted, x ∈ inserted') ∧
      (∀ x ∈ inserted', x ∈ inserted ∨ ⟨x.2.1, x.1, x.2.2⟩ ∈ defs) ∧
      ∀ e ∈ entries, ∀ d ∈ defs, d.key = e.1.key → d.scope.stop = e.1.stop →
        (d.scope, d.key, d.value) ∈ inserted' := by
  induction entries generalizing inserted m with
  | nil => exact ⟨m, inserted, rfl, start, fun x mem => mem, fun x mem => Or.inl mem, by simp⟩
  | cons e entries ih =>
    obtain ⟨chain, visited, -, -, defined, own⟩ := represents.upChain (sub e List.mem_cons_self)
    have key_eq : EndKey.key e.1 = e.1.key := rfl
    have stop_eq : EndKey.stop e.1 = e.1.stop := rfl
    obtain ⟨m₁, runs, collects₁⟩ := start.insertAll (chain.map fun x => (x.1, e.1.key, x.2))
    rw [List.foldlM_map] at runs
    obtain ⟨m', inserted', run, collects', kept, only, all⟩ :=
      ih (fun e mem => sub e (List.mem_cons_of_mem _ mem)) collects₁
    refine ⟨m', inserted', ?_, collects', fun x mem => kept x (List.mem_append_left _ mem),
      fun x mem => ?_, fun e' mem d mem_d key stop => ?_⟩
    · rw [List.foldlM_cons]
      simp only [ScopedMap.insertChain, visited, ok_bind, runs]
      exact run
    · rcases only x mem with old | here
      · rcases List.mem_append.mp old with old | new
        · exact Or.inl old
        · obtain ⟨y, mem_y, rfl⟩ := List.mem_map.mp new
          exact Or.inr (defined y mem_y)
      · exact Or.inr here
    · rcases List.mem_cons.mp mem with rfl | mem
      · have member : d.scope ∈ scopesOf defs (EndKey.key e'.1) := ⟨d, mem_d, key, rfl⟩
        obtain ⟨y, mem_y, same⟩ := List.mem_map.mp (own d.scope member stop)
        obtain ⟨i, at_i⟩ := List.getElem?_of_mem mem_d
        obtain ⟨j, at_j⟩ := List.getElem?_of_mem (defined y mem_y)
        obtain rfl := represents.distinct i j _ _ at_i at_j key same.symm
        have equal := Option.some.inj (at_i.symm.trans at_j)
        refine kept _ (List.mem_append_right _ (List.mem_map.mpr ⟨y, mem_y, ?_⟩))
        rw [equal]
        rfl
      · exact all e' mem d mem_d key stop

theorem Represents.mapTree (represents : Represents defs map)
    (laminar : Laminar {s | ∃ d ∈ defs, d.scope = s})
    (bounds : ∀ d ∈ defs, d.scope ≤ Scope.all) :
    ∃ t nodes, ScopedMap.getTree map = .ok t ∧ t.Linked nodes ∧
      Hierarchy {s | ∃ d ∈ defs, d.scope = s} (scopeEdges nodes) ∧
      ∀ e ∈ nodes, e.2.value.Nodup ∧
        ∀ k v, (k, v) ∈ e.2.value ↔ ⟨k, e.2.scope, v⟩ ∈ defs := by
  obtain ⟨m, inserted, runs, collects, -, only, all⟩ :=
    represents.collects (fun e mem => mem) (collects_empty : Collects ([] : List (Scope × κ × V)) _)
  have mem_inserted : ∀ s k v, (s, k, v) ∈ inserted ↔ ⟨k, s, v⟩ ∈ defs := by
    intro s k v
    constructor
    · intro mem
      exact (only _ mem).resolve_left (by simp)
    · intro mem
      obtain ⟨i, found⟩ := represents.heads.covered _ mem
      exact all _ (SortedMap.find_eq_some.mp found) _ mem rfl rfl
  have scopes_eq : insertedScopes inserted = {s | ∃ d ∈ defs, d.scope = s} := by
    ext s
    constructor
    · rintro ⟨⟨k, v⟩, mem⟩
      exact ⟨_, (mem_inserted s k v).mp mem, rfl⟩
    · rintro ⟨d, mem, rfl⟩
      exact ⟨(d.key, d.value), (mem_inserted _ _ _).mpr mem⟩
  obtain ⟨t, nodes, run, linked, hierarchy, items⟩ := collects.getTree
    (by rw [scopes_eq]; exact laminar)
    (by rw [scopes_eq]; rintro s ⟨d, mem, rfl⟩; exact bounds d mem)
  rw [scopes_eq] at hierarchy
  refine ⟨t, nodes, ?_, linked, hierarchy, fun e mem => ?_⟩
  · simp only [ScopedMap.getTree, runs, ok_bind, run]
  · obtain ⟨nodup, mem_iff⟩ := items e mem
    refine ⟨nodup, fun k v => ?_⟩
    rw [mem_iff]
    exact mem_inserted _ k v

end MapTrees

end Mewa
