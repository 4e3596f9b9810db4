/- Module: Mewa/TypeDb/TypeTree
   digest: The tree of the type definitions lists the first type of every key and scope only. -/

import Mewa.TypeDb.Defined
import Mewa.TypeDb.ScopeTrees

set_option autoImplicit false
set_option relaxedAutoImplicit false

namespace Mewa

open Mewa.Lib Mewa.Lib.Forest Definition

namespace TypeDatabase

/-- The types of the table, without the types that their records lead to. -/
def getTypeDefinitionTree (db : TypeDatabase) :
    Except Failure (Tree (ScopeHierarchyTreeNode (List Int))) := do
  let tree ← ScopedMap.getTree db.typeTable
  tree.translate fun node => .ok ⟨node.scope, node.value.map Prod.snd⟩

/-- The handle is listed once, at the node of its scope. -/
def ListsOnce (t : Tree (ScopeHierarchyTreeNode (List Int))) (d : TypeEntry) : Prop :=
  ∃ i node, t.node i = .ok node ∧ node.item.scope = d.scope ∧
    node.item.value.count d.handle = 1 ∧
    ∀ j node', t.node j = .ok node' → d.handle ∈ node'.item.value → j = i

/-- The call defines a type under a name that fits into the block of its key. -/
def Call.DefinesType : Call → Prop
  | defineType _ _ name _ _ => NameFits name
  | _ => False

instance (c : Call) : Decidable c.DefinesType :=
  match c with
  | .defineType _ _ name _ _ => inferInstanceAs (Decidable (NameFits name))
  | .setObjectInstance _ _ _ => inferInstanceAs (Decidable False)
  | .defineTypeAs _ _ _ _ => inferInstanceAs (Decidable False)
  | .defineReduction _ _ _ _ _ _ _ => inferInstanceAs (Decidable False)
  | .getType _ _ _ _ => inferInstanceAs (Decidable False)
  | .getTypes _ _ _ => inferInstanceAs (Decidable False)

def AllReturn (db : TypeDatabase) : List Call → Prop
  | [] => True
  | c :: cs => (c.entry db).isSome ∧ AllReturn (c.run db) cs

instance (db : TypeDatabase) : (cs : List Call) → Decidable (db.AllReturn cs)
  | [] => inferInstanceAs (Decidable True)
  | c :: cs =>
    have : Decidable ((c.run db).AllReturn cs) := instDecidableAllReturn (c.run db) cs
    inferInstanceAs (Decidable (_ ∧ _))

theorem AllReturn.definitions {db : TypeDatabase} {cs : List Call} (all : db.AllReturn cs) :
    (db.returned cs).map TypeEntry.definition = cs.filterMap Call.nested := by
  induction cs generalizing db with
  | nil => rfl
  | cons c cs ih =>
    obtain ⟨own, rest⟩ := all
    obtain ⟨d, entry⟩ := Option.isSome_iff_exists.mp own
    have nested : c.nested = some d.definition := by
      cases c with
      | defineType scope contextType name constructor parameter =>
        simp only [Call.entry] at entry
        split at entry
        · split_ifs at entry
          obtain rfl := Option.some.inj entry
          rfl
        · simp at entry
      | _ => simp [Call.entry] at entry
    simp only [returned, entry, Option.toList_some, List.singleton_append, List.map_cons,
      List.filterMap_cons, nested, ih rest]

namespace Keeps

variable {defs : List TypeEntry} {heads : List (Definition TypeDef Int)} {db : TypeDatabase}

theorem head_first (keeps : Keeps defs heads db) {h : Definition TypeDef Int} (mem : h ∈ heads) :
    ∃ d name, db.identMap.Knows h.key.ident name ∧
      (overloadsOf defs h.scope h.key.contextType name).head? = some d ∧ d.handle = h.value := by
  obtain ⟨positive, name, knows, list⟩ := keeps.lists h mem
  obtain ⟨rest, split⟩ := list.head positive.ne'
  obtain ⟨d, ds, parts, handle, -⟩ := List.map_eq_cons_iff.mp split
  exact ⟨d, name, knows, by rw [parts]; rfl, handle⟩

theorem head_entry (keeps : Keeps defs heads db) {h : Definition TypeDef Int} (mem : h ∈ heads)
    {d : TypeEntry} (mem_d : d ∈ defs) (value : h.value = d.handle) :
    db.identMap.Knows h.key.ident d.name ∧ h.scope = d.scope ∧
      h.key.contextType = d.contextType ∧
      (overloadsOf defs d.scope d.contextType d.name).head? = some d := by
  obtain ⟨e, name, knows, first, handle⟩ := keeps.head_first mem
  have mem_e := List.mem_of_mem_head? first
  obtain ⟨mem_defs, scope, context, names⟩ := mem_overloadsOf.mp mem_e
  obtain rfl := keeps.entry_eq mem_defs mem_d (handle.trans value)
  rw [scope, context, names]
  exact ⟨knows, rfl, rfl, first⟩

theorem entry_head (keeps : Keeps defs heads db) {d : TypeEntry} (mem : d ∈ defs)
    (first : (overloadsOf defs d.scope d.contextType d.name).head? = some d) :
    ∃ h ∈ heads, h.scope = d.scope ∧ h.value = d.handle := by
  obtain ⟨h, mem_h, scope, context, knows⟩ := keeps.covered d mem
  obtain ⟨e, name, knows', first', handle⟩ := keeps.head_first mem_h
  rw [scope, context, ← knows.name_eq knows', first] at first'
  obtain rfl := Option.some.inj first'
  exact ⟨h, mem_h, scope, handle.symm⟩

theorem head_unique (keeps : Keeps defs heads db) {h h' : Definition TypeDef Int}
    (mem : h ∈ heads) (mem' : h' ∈ heads) (value : h.value = h'.value) : h = h' := by
  obtain ⟨d, name, knows, first, handle⟩ := keeps.head_first mem
  obtain ⟨mem_d, scope_d, context_d, name_d⟩ := mem_overloadsOf.mp (List.mem_of_mem_head? first)
  obtain ⟨own, scope, context, -⟩ := keeps.head_entry mem mem_d handle.symm
  obtain ⟨own', scope', context', -⟩ := keeps.head_entry mem' mem_d (value.symm.trans handle.symm)
  have ident := own.ident_eq keeps.names own'
  obtain ⟨i, at_i⟩ := List.getElem?_of_mem mem
  obtain ⟨j, at_j⟩ := List.getElem?_of_mem mem'
  have key : h.key = h'.key := TypeDef.ext (context.trans context'.symm) ident
  obtain rfl := keeps.represents.distinct i j h h' at_i at_j key (scope.trans scope'.symm)
  exact Option.some.inj (at_i.symm.trans at_j)

theorem typeTree (keeps : Keeps defs heads db)
    (laminar : Laminar {s | ∃ d ∈ heads, d.scope = s})
    (bounds : ∀ d ∈ heads, d.scope ≤ Scope.all) :
    ∃ t, db.getTypeDefinitionTree = .ok t ∧
      IsScopeTree {s | ∃ d ∈ heads, d.scope = s} (fun s l => l.Nodup ∧
        ∀ v, v ∈ l ↔ ∃ h ∈ heads, h.scope = s ∧ h.value = v) t := by
  obtain ⟨tree, nodes, runs, linked, hierarchy, items⟩ :=
    keeps.represents.mapTree laminar bounds
  obtain ⟨rt, nodes', run, linked', hierarchy', from_old⟩ := linked.translate_hierarchy
    (f := fun node => ⟨node.scope, node.value.map Prod.snd⟩)
    (g := fun node => .ok ⟨node.scope, node.value.map Prod.snd⟩) hierarchy (fun _ _ => rfl)
    fun _ => rfl
  refine ⟨rt, ?_, isScopeTree_of_linked linked' hierarchy' fun e' mem => ?_⟩
  · simp only [getTypeDefinitionTree, runs, ok_bind, run]
  · obtain ⟨e, mem_e, same⟩ := from_old e' mem
    obtain ⟨nodup, mem_iff⟩ := items e mem_e
    rw [same]
    refine ⟨?_, fun v => ?_⟩
    · refine List.pairwise_map.mpr (nodup.imp_of_mem fun {a b} mem_a mem_b other same' => ?_)
      have equal := keeps.head_unique ((mem_iff a.1 a.2).mp mem_a) ((mem_iff b.1 b.2).mp mem_b)
        same'
      exact other (Prod.ext (congrArg Definition.key equal) same')
    · constructor
      · intro mem_v
        obtain ⟨kv, mem_kv, rfl⟩ := List.mem_map.mp mem_v
        exact ⟨_, (mem_iff kv.1 kv.2).mp mem_kv, rfl, rfl⟩
      · rintro ⟨h, mem_h, scope, rfl⟩
        refine List.mem_map.mpr ⟨(h.key, h.value), (mem_iff _ _).mpr ?_, rfl⟩
        rw [← scope]
        exact mem_h

theorem listsOnce_iff (keeps : Keeps defs heads db) {S : Set Scope}
    {t : Tree (ScopeHierarchyTreeNode (List Int))}
    (shows : IsScopeTree S (fun s l => l.Nodup ∧
      ∀ v, v ∈ l ↔ ∃ h ∈ heads, h.scope = s ∧ h.value = v) t)
    (scopes : ∀ h ∈ heads, h.scope ∈ S) {d : TypeEntry} (mem : d ∈ defs) :
    ListsOnce t d ↔ (overloadsOf defs d.scope d.contextType d.name).head? = some d := by
  constructor
  · rintro ⟨i, node, here, -, once, -⟩
    have listed : d.handle ∈ node.item.value := List.count_pos_iff.mp (by omega)
    obtain ⟨h, mem_h, -, value⟩ := ((shows.items i node here).2 d.handle).mp listed
    exact (keeps.head_entry mem_h mem value).2.2.2
  · intro first
    obtain ⟨h, mem_h, scope, value⟩ := keeps.entry_head mem first
    obtain ⟨i, node, here, same⟩ := (shows.scopes d.scope).mpr (Or.inr (scope ▸ scopes h mem_h))
    obtain ⟨nodup, mem_iff⟩ := shows.items i node here
    have listed : d.handle ∈ node.item.value :=
      (mem_iff d.handle).mpr ⟨h, mem_h, scope.trans same.symm, value⟩
    refine ⟨i, node, here, same, List.count_eq_one_of_mem nodup listed, ?_⟩
    intro j node' here' listed'
    obtain ⟨h', mem_h', scope', value'⟩ := ((shows.items j node' here').2 d.handle).mp listed'
    obtain rfl := keeps.head_unique mem_h mem_h' (value.trans value'.symm)
    exact shows.once j i node' node here' here (scope'.symm.trans (scope.trans same.symm))

end Keeps

theorem all_first_iff {defs : List TypeEntry}
    (increasing : defs.Pairwise fun c d => c.handle < d.handle) :
    (∀ d ∈ defs, (overloadsOf defs d.scope d.contextType d.name).head? = some d) ↔
      defs.Pairwise fun c d => ¬ c.definition.Same d.definition := by
  constructor
  · intro first
    refine increasing.imp_of_mem fun {c d} mem_c mem_d less same => ?_
    have key : c.HasKey d.scope d.contextType d.name :=
      ⟨same.2, congrArg Prod.fst same.1, congrArg Prod.snd same.1⟩
    have own := first c mem_c
    rw [key.1, key.2.1, key.2.2, first d mem_d] at own
    rw [Option.some.inj own] at less
    exact lt_irrefl _ less
  · intro apart d mem
    have mem_own : d ∈ overloadsOf defs d.scope d.contextType d.name :=
      mem_overloadsOf.mpr ⟨mem, rfl, rfl, rfl⟩
    have sub : (overloadsOf defs d.scope d.contextType d.name).Sublist defs :=
      List.filter_sublist
    cases split : overloadsOf defs d.scope d.contextType d.name with
    | nil =>
      rw [split] at mem_own
      simp at mem_own
    | cons e es =>
      rw [split] at mem_own sub
      have key : e.HasKey d.scope d.contextType d.name :=
        (mem_overloadsOf.mp (by rw [split]; exact List.mem_cons_self)).2
      rcases List.mem_cons.mp mem_own with rfl | later
      · rfl
      · have other := (List.pairwise_cons.mp (apart.sublist sub)).1 d later
        exact absurd ⟨Prod.ext key.2.1 key.2.2, key.1⟩ other

/-- The tree lists every type whose handle was returned once, at the node of its scope, if no two
    calls define the same name with the same context type in the same scope. -/
theorem typesListed_iff (cs : List Call) (types : ∀ c ∈ cs, c.DefinesType)
    (returns : empty.AllReturn cs)
    (nested : Nested ((cs.filterMap Call.nested).map Definition.scope)) :
    (∃ t, (empty.calls cs).getTypeDefinitionTree = .ok t ∧
      ∀ d ∈ empty.returned cs, ListsOnce t d) ↔
    (cs.filterMap Call.nested).Pairwise fun c d => ¬ c.Same d := by
  have plain : ∀ c ∈ cs, c.Plain := by
    intro c mem
    have type := types c mem
    cases c with
    | defineType scope contextType name constructor parameter => exact type
    | _ => exact absurd type id
  obtain ⟨heads, keeps⟩ := keeps_returned cs plain nested.wellScoped
  have scope_of : ∀ h ∈ heads, h.scope ∈ (cs.filterMap Call.nested).map Definition.scope := by
    intro h mem
    obtain ⟨d, name, -, first, -⟩ := keeps.head_first mem
    obtain ⟨mem_d, scope, -⟩ := mem_overloadsOf.mp (List.mem_of_mem_head? first)
    rw [← returns.definitions, List.map_map]
    exact List.mem_map.mpr ⟨d, mem_d, scope⟩
  obtain ⟨t, runs, shows⟩ := keeps.typeTree
    (nested.laminar (by rintro s ⟨h, mem, rfl⟩; exact scope_of h mem))
    (fun h mem => (nested.constructed _ (scope_of h mem)).le_all)
  rw [← returns.definitions, List.pairwise_map, ← all_first_iff keeps.increasing]
  constructor
  · rintro ⟨t', runs', once⟩ d mem
    obtain rfl := Except.ok.inj (runs.symm.trans runs')
    exact (keeps.listsOnce_iff shows (fun h mem => ⟨h, mem, rfl⟩) mem).mp (once d mem)
  · intro first
    exact ⟨t, runs, fun d mem =>
      (keeps.listsOnce_iff shows (fun h mem => ⟨h, mem, rfl⟩) mem).mpr (first d mem)⟩

/-- Two names in three scopes. -/
def namedTypes : List Call :=
  [.defineType ⟨0, 10⟩ 0 "f" 1 [], .defineType ⟨2, 5⟩ 0 "f" 3 [⟨1, 6⟩],
    .defineType ⟨2, 5⟩ 0 "g" 4 [], .defineType ⟨3, 4⟩ 1 "f" 4 [⟨1, 7⟩]]

/-- Two types of one name in one scope, with other parameters. -/
def overloadedTypes : List Call :=
  [.defineType ⟨0, 10⟩ 0 "f" 1 [], .defineType ⟨0, 10⟩ 0 "f" 2 [⟨1, 5⟩]]

private theorem nested_of_bounds {scopes : List Scope}
    (bounds : ∀ s ∈ scopes, (0 ≤ s.start ∧ s.start ≤ maxStep) ∧ 0 ≤ s.stop ∧ s.stop ≤ maxStep)
    (nonEmpty : ∀ s ∈ scopes, s.start < s.stop)
    (noOverlap : ∀ s ∈ scopes, ∀ t ∈ scopes, ¬ s.Overlaps t) : Nested scopes :=
  ⟨fun s mem => constructed_of_bounds (bounds s mem).1.1 (bounds s mem).1.2 (bounds s mem).2.1
    (bounds s mem).2.2, nonEmpty, noOverlap⟩

theorem typesListed_named :
    (∃ t, (empty.calls namedTypes).getTypeDefinitionTree = .ok t ∧
      ∀ d ∈ empty.returned namedTypes, ListsOnce t d) ↔
    (namedTypes.filterMap Call.nested).Pairwise fun c d => ¬ c.Same d :=
  typesListed_iff namedTypes (by decide) (by decide +kernel)
    (nested_of_bounds (by decide) (by decide) (by decide))

/-- An overload is missing in the tree. -/
theorem overload_unlisted :
    (∀ c ∈ overloadedTypes, c.DefinesType) ∧ empty.AllReturn overloadedTypes ∧
    Nested ((overloadedTypes.filterMap Call.nested).map Definition.scope) ∧
    ¬ ∃ t, (empty.calls overloadedTypes).getTypeDefinitionTree = .ok t ∧
      ∀ d ∈ empty.returned overloadedTypes, ListsOnce t d := by
  refine ⟨by decide, by decide +kernel, nested_of_bounds (by decide) (by decide) (by decide), ?_⟩
  rintro ⟨t, runs, once⟩
  have tree : (empty.calls overloadedTypes).getTypeDefinitionTree.toOption.any fun t =>
      t.ar.all fun node => decide (2 ∉ node.item.value) := by decide +kernel
  have second : (empty.returned overloadedTypes).any fun d => decide (d.handle = 2) := by
    decide +kernel
  obtain ⟨d, mem, handle⟩ := List.any_eq_true.mp second
  obtain ⟨i, node, here, -, count, -⟩ := once d mem
  rw [runs] at tree
  obtain ⟨k, -, at_k⟩ := Tree.node_ok here
  have absent := List.all_eq_true.mp tree node (List.mem_of_getElem? at_k)
  have listed : d.handle ∈ node.item.value := List.count_pos_iff.mp (by omega)
  rw [decide_eq_true_eq.mp handle] at listed
  exact decide_eq_true_eq.mp absent listed

end TypeDatabase

end Mewa
