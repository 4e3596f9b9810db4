/- Module: Mewa/Scope/Ordered
   digest: A translated tree is traversed in the order of the original one. -/

import Mewa.Scope.Copied

set_option autoImplicit false
set_option relaxedAutoImplicit false

namespace Mewa

open Mewa.Lib

namespace Tree

variable {α β : Type}

/-- The loop from an iterator to the end, which reads the items with their depths. -/
def traversalFrom (t : Tree α) : Nat → DepthfirstIterator → Except Failure (List (α × Nat))
  | fuel, it =>
    if it.position = t.endIterator.position then .ok []
    else
      match fuel with
      | 0 => .error .outOfFuel
      | fuel + 1 => do
        let node ← t.deref it.position
        let rest ← traversalFrom t fuel (← t.skip it)
        .ok ((node.item, it.depth) :: rest)

def traversal (t : Tree α) : Except Failure (List (α × Nat)) :=
  t.traversalFrom t.ar.length t.beginIterator

/-- A sequence of calls that add children, by the numbers of the parents and the new items. -/
def addChildren (t : Tree α) (calls : List (Nat × α)) : Except Failure (Tree α) :=
  calls.foldlM (fun t call => do
    let (t, _) ← t.addChild call.1 call.2
    .ok t) t

/-! The order of the children in a copy. -/

section Order

variable {nodes : List (Nat × α)} {nodes' : List (Nat × β)} {f : α → β} {origin all : List Nat}

def parentOf (nodes : List (Nat × α)) (c : Nat) : Option Nat := nodes[c - 1]?.map Prod.fst

theorem childrenOf_eq_filter (nodes : List (Nat × α)) (p : Nat) :
    childrenOf nodes p =
      (List.range' 1 nodes.length).filter fun c => parentOf nodes c = some p := by
  induction nodes using List.reverseRecOn with
  | nil => rfl
  | append_singleton nodes e ih =>
    obtain ⟨q, item⟩ := e
    have old : (List.range' 1 nodes.length).filter
        (fun c => parentOf (nodes ++ [(q, item)]) c = some p) =
        (List.range' 1 nodes.length).filter fun c => parentOf nodes c = some p := by
      apply List.filter_congr
      intro c mem
      have bound := List.mem_range'_1.mp mem
      unfold parentOf
      rw [List.getElem?_append_left (by omega)]
    have new : parentOf (nodes ++ [(q, item)]) (nodes.length + 1) = some q := by
      unfold parentOf
      rw [Nat.add_sub_cancel, List.getElem?_concat_length]
      rfl
    rw [childrenOf_snoc, ih, List.length_append, List.length_singleton, List.range'_1_concat,
      List.filter_append, old, Nat.add_comm 1, List.filter_singleton, new]
    congr 1
    simp

theorem flatMap_of_mem {g : Nat → List Nat} {o : Nat} (nodup : all.Nodup) (mem : o ∈ all) :
    (all.flatMap fun q => if q = o then g q else []) = g o := by
  induction all with
  | nil => cases mem
  | cons q all ih =>
    obtain ⟨fresh, nodup⟩ := List.nodup_cons.mp nodup
    rw [List.flatMap_cons]
    by_cases same : q = o
    · subst same
      have nothing : (all.flatMap fun q' => if q' = q then g q' else []) = [] := by
        apply List.flatMap_eq_nil_iff.mpr
        intro q' mem'
        have other : q' ≠ q := by
          rintro rfl
          exact fresh mem'
        exact if_neg other
      rw [if_pos rfl, nothing, List.append_nil]
    · rw [if_neg same, List.nil_append]
      exact ih nodup ((List.mem_cons.mp mem).resolve_left fun here => same here.symm)

/-- The number of the node that a node of the copy comes from. -/
def source (origin : List Nat) (c : Nat) : Nat := origin.getD (c - 1) 0

theorem CopiedBy.source_eq (copied : CopiedBy f nodes nodes' origin) {c : Nat}
    (mem : c ∈ List.range' 1 nodes'.length) : origin[c - 1]? = some (source origin c) := by
  have bound := List.mem_range'_1.mp mem
  have length := copied.length
  have here := List.getElem?_eq_getElem (show c - 1 < origin.length by omega)
  unfold source
  rw [List.getD_eq_getElem?_getD, here, Option.getD_some]

theorem CopiedBy.source_numbers (copied : CopiedBy f nodes nodes' origin) :
    (List.range' 1 nodes'.length).map (source origin) = origin := by
  apply List.ext_getElem?
  intro j
  rw [List.getElem?_map]
  by_cases inside : j < nodes'.length
  · rw [List.getElem?_range' inside]
    have here := copied.source_eq (c := 1 + 1 * j) (List.mem_range'_1.mpr (by omega))
    rw [Option.map_some, ← here]
    congr 1
    omega
  · rw [List.getElem?_eq_none (by simpa using inside),
      List.getElem?_eq_none (by rw [copied.length]; omega)]
    rfl

theorem CopiedBy.children (copied : CopiedBy f nodes nodes' (1 :: all.flatMap (childrenOf nodes)))
    (nodup : (1 :: all.flatMap (childrenOf nodes)).Nodup) (nodup_all : all.Nodup)
    (root : ∃ item, nodes.head? = some (0, item)) {k o : Nat} (mem : o ∈ all) (positive : 0 < o)
    (here : (1 :: all.flatMap (childrenOf nodes))[k]? = some o) :
    (childrenOf nodes' (k + 1)).map (source (1 :: all.flatMap (childrenOf nodes))) =
      childrenOf nodes o := by
  generalize same : 1 :: all.flatMap (childrenOf nodes) = origin at *
  have parents : ∀ c ∈ List.range' 1 nodes'.length,
      (decide (parentOf nodes' c = some (k + 1))) =
        decide (parentOf nodes (source origin c) = some o) := by
    intro c mem_c
    obtain ⟨p, item, p', old, new, cases⟩ := copied.node (c - 1) _ (copied.source_eq mem_c)
    rw [decide_eq_decide]
    unfold parentOf
    rw [old, new]
    simp only [Option.map_some, Option.some.injEq]
    rcases cases with ⟨rfl, rfl⟩ | ⟨b, rfl, -, at_b⟩
    · constructor
      · intro zero
        cases zero
      · intro zero
        omega
    · constructor
      · intro place
        obtain rfl : b = k := by omega
        exact Option.some.inj (at_b.symm.trans here)
      · rintro rfl
        have bound_b := (List.getElem?_eq_some_iff.mp at_b).1
        rw [(List.getElem?_inj bound_b nodup).mp (at_b.trans here.symm)]
  have below : ∀ q, (childrenOf nodes q).filter (fun x => parentOf nodes x = some o) =
      if q = o then childrenOf nodes q else [] := by
    intro q
    by_cases own : q = o
    · subst own
      rw [if_pos rfl, List.filter_eq_self]
      intro x mem_x
      rw [childrenOf_eq_filter] at mem_x
      exact (List.mem_filter.mp mem_x).2
    · rw [if_neg own, List.filter_eq_nil_iff]
      intro x mem_x
      rw [childrenOf_eq_filter] at mem_x
      have parent := of_decide_eq_true (List.mem_filter.mp mem_x).2
      rw [parent]
      simpa using own
  have root_parent : parentOf nodes 1 = some 0 := by
    obtain ⟨item, first⟩ := root
    rw [List.head?_eq_getElem?] at first
    unfold parentOf
    rw [Nat.sub_self, first]
    rfl
  calc (childrenOf nodes' (k + 1)).map (source origin)
      = ((List.range' 1 nodes'.length).filter fun c =>
          decide (parentOf nodes (source origin c) = some o)).map (source origin) := by
        rw [childrenOf_eq_filter, List.filter_congr parents]
    _ = origin.filter fun x => parentOf nodes x = some o := by
        conv_rhs => rw [← copied.source_numbers]
        rw [List.filter_map]
        rfl
    _ = childrenOf nodes o := by
        rw [← same, List.filter_cons, List.filter_flatMap]
        simp only [below]
        rw [flatMap_of_mem nodup_all mem, root_parent]
        have other : ¬ (0 : Nat) = o := by omega
        simp [other]

theorem CopiedBy.visits (copied : CopiedBy f nodes nodes' (1 :: all.flatMap (childrenOf nodes)))
    {t : Tree α} {rt : Tree β} (linked : Linked t nodes) (linked' : Linked rt nodes')
    (perm_all : all.Perm (List.range' 1 nodes.length))
    (perm : (1 :: all.flatMap (childrenOf nodes)).Perm (List.range' 1 nodes.length))
    {visits : List (Nat × Nat)} (order : VisitsFrom (childrenOf nodes') 0 [1] visits) :
    VisitsFrom (childrenOf nodes) 0 [1]
      (visits.map fun v => (source (1 :: all.flatMap (childrenOf nodes)) v.1, v.2)) := by
  have nodup := perm.nodup_iff.mpr List.nodup_range'
  have nodup_all := perm_all.nodup_iff.mpr List.nodup_range'
  have first : [1].map (source (1 :: all.flatMap (childrenOf nodes))) = [1] := rfl
  rw [← first]
  refine order.map (P := fun c => c ∈ List.range' 1 nodes'.length) ?_ ?_ ?_
  · intro c mem
    have some_root := linked'.some_root
    rw [List.mem_singleton.mp mem, List.mem_range'_1]
    omega
  · intro p mem c child
    have rank := linked'.rank_lt p c child
    rw [List.mem_range'_1]
    omega
  · intro p mem
    have bound := List.mem_range'_1.mp mem
    have here := copied.source_eq mem
    have in_all := perm_all.mem_iff.mpr (perm.mem_iff.mp (List.mem_of_getElem? here))
    have positive := (List.mem_range'_1.mp (perm_all.mem_iff.mp in_all)).1
    have children := copied.children nodup nodup_all linked.root in_all positive here
    rw [Nat.sub_add_cancel (by omega)] at children
    exact children

theorem CopiedBy.item (copied : CopiedBy f nodes nodes' origin)
    (positive : ∀ o ∈ origin, 0 < o) {c : Nat} (mem : c ∈ List.range' 1 nodes'.length) :
    parentItem nodes' c = (parentItem nodes (source origin c)).map f := by
  have bound := List.mem_range'_1.mp mem
  have here := copied.source_eq mem
  have above := positive _ (List.mem_of_getElem? here)
  obtain ⟨p, item, p', old, new, -⟩ := copied.node (c - 1) _ here
  obtain ⟨k, rfl⟩ : ∃ k, c = k + 1 := ⟨c - 1, by omega⟩
  obtain ⟨j, number⟩ : ∃ j, source origin (k + 1) = j + 1 :=
    ⟨source origin (k + 1) - 1, by omega⟩
  rw [number, Nat.add_sub_cancel] at old
  rw [Nat.add_sub_cancel] at new
  rw [number]
  simp only [parentItem, old, new, Option.map_some]

end Order

/-! The items read by the iterator. -/

section Items

variable {t : Tree α} {nodes : List (Nat × α)} {visits : List (Nat × Nat)}

theorem Walk.traversal {it last : DepthfirstIterator} (walk : Walk t it visits last)
    (linked : Linked t nodes) (inside : ∀ v ∈ visits, v.1 ∈ List.range' 1 nodes.length)
    (stop : last.position = t.endIterator.position) :
    ∃ l, t.traversalFrom visits.length it = .ok l ∧
      l.map (fun e => (some e.1, e.2)) = visits.map fun v => (parentItem nodes v.1, v.2) := by
  induction walk with
  | nil it =>
    refine ⟨[], ?_, rfl⟩
    unfold traversalFrom
    rw [if_pos stop]
  | @cons it it' last visits skipped _ ih =>
    obtain ⟨l, runs, items⟩ := ih (fun v mem => inside v (List.mem_cons_of_mem _ mem)) stop
    have bound := List.mem_range'_1.mp (inside _ List.mem_cons_self)
    have size := linked.size
    obtain ⟨⟨p, item⟩, at_place⟩ : ∃ e, nodes[it.position]? = some e :=
      ⟨_, List.getElem?_eq_getElem (by omega)⟩
    obtain ⟨node, here, rfl⟩ := linked.node_of at_place
    have on_way : it.position ≠ t.endIterator.position := by
      show it.position ≠ t.ar.length
      omega
    refine ⟨(node.item, it.depth) :: l, ?_, ?_⟩
    · unfold traversalFrom
      rw [if_neg on_way]
      simp only [List.length_cons, deref_ok here, skipped, runs, ok_bind]
    · have read : parentItem nodes (it.position + 1) = some node.item := by
        show nodes[it.position]?.map Prod.snd = _
        rw [at_place]
        rfl
      simp only [List.map_cons, items, read]

theorem Linked.traversal (linked : Linked t nodes) (alone : t.RootAlone) :
    ∃ visits l, Traverses t nodes visits ∧ t.traversal = .ok l ∧
      l.map (fun e => (some e.1, e.2)) = visits.map fun v => (parentItem nodes v.1, v.2) := by
  obtain ⟨visits, traverses, walk⟩ := linked.traverses alone
  have inside : ∀ v ∈ visits, v.1 ∈ List.range' 1 nodes.length := fun v mem =>
    traverses.once.mem_iff.mp (List.mem_map.mpr ⟨v, mem, rfl⟩)
  obtain ⟨l, runs, items⟩ := walk.traversal linked inside rfl
  refine ⟨visits, l, traverses, ?_, items⟩
  have count : visits.length = t.ar.length := by
    rw [linked.size]
    simpa using traverses.once.length_eq
  unfold Tree.traversal
  rw [← count]
  exact runs

theorem addChildren_linked (linked : Linked t nodes) (alone : t.RootAlone)
    {calls : List (Nat × α)} (existing : ∀ (k : Nat) p item, calls[k]? = some (p, item) →
      0 < p ∧ p ≤ nodes.length + k) :
    ∃ t', t.addChildren calls = .ok t' ∧ Linked t' (nodes ++ calls) ∧ t'.RootAlone := by
  induction calls generalizing t nodes with
  | nil => exact ⟨t, rfl, by simpa using linked, alone⟩
  | cons call calls ih =>
    obtain ⟨p, item⟩ := call
    have first := existing 0 p item rfl
    obtain ⟨i, rfl⟩ : ∃ i, p = i + 1 := ⟨p - 1, by omega⟩
    have inside : i < nodes.length := by omega
    obtain ⟨t', added, linked'⟩ := linked.addChild inside item
    have rest : ∀ (k : Nat) p item', calls[k]? = some (p, item') →
        0 < p ∧ p ≤ (nodes ++ [(i + 1, item)]).length + k := by
      intro k p item' here
      have bound := existing (k + 1) p item' here
      rw [List.length_append, List.length_singleton]
      omega
    obtain ⟨last, runs, linked_last, alone_last⟩ :=
      ih linked' (alone.addChild linked inside added) rest
    refine ⟨last, ?_, by simpa using linked_last, alone_last⟩
    unfold addChildren
    rw [List.foldlM_cons]
    simp only [added, ok_bind]
    exact runs

theorem Linked.translate_traversal (linked : Linked t nodes) (alone : t.RootAlone) (f : α → β)
    {l : List (α × Nat)} (runs : t.traversal = .ok l) :
    ∃ rt nodes' visits', t.translate (fun item => .ok (f item)) = .ok rt ∧
      Traverses rt nodes' visits' ∧ rt.traversal = .ok (l.map fun e => (f e.1, e.2)) := by
  obtain ⟨rt, nodes', all, translated, linked', alone', copied, perm_all, perm⟩ :=
    linked.translate_copied (f := f) (g := fun item => .ok (f item)) fun _ _ => rfl
  obtain ⟨visits, l', traverses, runs', items⟩ := linked.traversal alone
  obtain rfl := Except.ok.inj (runs.symm.trans runs')
  obtain ⟨visits', l'', traverses', runs'', items'⟩ := linked'.traversal alone'
  refine ⟨rt, nodes', visits', translated, traverses', ?_⟩
  have same_visits := (copied.visits linked linked' perm_all perm traverses'.order).unique
    traverses.order
  have positive : ∀ o ∈ 1 :: all.flatMap (childrenOf nodes), 0 < o :=
    fun o mem => (List.mem_range'_1.mp (perm.mem_iff.mp mem)).1
  have items_source : ∀ v ∈ visits', (parentItem nodes' v.1, v.2) =
      ((parentItem nodes (source (1 :: all.flatMap (childrenOf nodes)) v.1)).map f, v.2) := by
    intro v mem
    have inside : v.1 ∈ List.range' 1 nodes'.length :=
      traverses'.once.mem_iff.mp (List.mem_map.mpr ⟨v, mem, rfl⟩)
    rw [copied.item positive inside]
  have read : l''.map (fun e => (some e.1, e.2)) =
      (l.map fun e => (f e.1, e.2)).map fun e => (some e.1, e.2) := by
    calc l''.map (fun e => (some e.1, e.2))
        = visits'.map fun v =>
            ((parentItem nodes (source (1 :: all.flatMap (childrenOf nodes)) v.1)).map f, v.2) := by
          rw [items']
          exact List.map_congr_left items_source
      _ = (visits.map fun v => (parentItem nodes v.1, v.2)).map fun e => (e.1.map f, e.2) := by
          rw [← same_visits, List.map_map, List.map_map]
          rfl
      _ = (l.map fun e => (f e.1, e.2)).map fun e => (some e.1, e.2) := by
          rw [← items, List.map_map, List.map_map]
          rfl
  have pairs : Function.Injective fun e : β × Nat => (some e.1, e.2) := by
    rintro ⟨a, d⟩ ⟨b, e⟩ same
    simpa using same
  rw [runs'', pairs.list_map read]

/-- Every tree built by adding children is traversed in preorder, and translated trees are
    traversed in the same order. -/
theorem addChildren_traversed (root : α) (calls : List (Nat × α))
    (existing : ∀ (k : Nat) p item, calls[k]? = some (p, item) → 0 < p ∧ p ≤ k + 1) :
    ∃ t visits l, (ofRoot root).addChildren calls = .ok t ∧
      Traverses t ((0, root) :: calls) visits ∧ t.traversal = .ok l ∧
      l.map (fun e => (some e.1, e.2)) =
        visits.map (fun v => (parentItem ((0, root) :: calls) v.1, v.2)) ∧
      ∀ (β : Type) (f : α → β), ∃ rt nodes' visits',
        t.translate (fun item => .ok (f item)) = .ok rt ∧ Traverses rt nodes' visits' ∧
        rt.traversal = .ok (l.map fun e => (f e.1, e.2)) := by
  have known : ∀ (k : Nat) p item, calls[k]? = some (p, item) →
      0 < p ∧ p ≤ [(0, root)].length + k := by
    intro k p item here
    have bound := existing k p item here
    rw [List.length_singleton]
    omega
  obtain ⟨t, built, linked, alone⟩ :=
    addChildren_linked (linked_ofRoot root) (rootAlone_ofRoot root) known
  obtain ⟨visits, l, traverses, runs, items⟩ := linked.traversal alone
  exact ⟨t, visits, l, built, traverses, runs, items,
    fun β f => linked.translate_traversal alone f runs⟩

theorem addChildren_traversed_nested :
    ∃ t visits l, (ofRoot 10).addChildren [(1, 11), (2, 12), (1, 13)] = .ok t ∧
      Traverses t [(0, 10), (1, 11), (2, 12), (1, 13)] visits ∧ t.traversal = .ok l ∧
      l.map (fun e => (some e.1, e.2)) =
        visits.map (fun v => (parentItem [(0, 10), (1, 11), (2, 12), (1, 13)] v.1, v.2)) ∧
      ∀ (β : Type) (f : Nat → β), ∃ rt nodes' visits',
        t.translate (fun item => .ok (f item)) = .ok rt ∧ Traverses rt nodes' visits' ∧
        rt.traversal = .ok (l.map fun e => (f e.1, e.2)) := by
  apply addChildren_traversed 10 [(1, 11), (2, 12), (1, 13)]
  intro k p item here
  match k with
  | 0 => obtain ⟨rfl, -⟩ := Prod.mk.inj (Option.some.inj here); decide
  | 1 => obtain ⟨rfl, -⟩ := Prod.mk.inj (Option.some.inj here); decide
  | 2 => obtain ⟨rfl, -⟩ := Prod.mk.inj (Option.some.inj here); decide
  | k + 3 => simp at here

example : ((ofRoot 10).addChildren [(1, 11), (2, 12), (1, 13)]).bind traversal =
    .ok [(10, 0), (11, 1), (12, 2), (13, 1)] := by rfl

end Items

end Tree

end Mewa
