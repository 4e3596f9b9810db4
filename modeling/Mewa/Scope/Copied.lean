/- Module: Mewa/Scope/Copied
   digest: A translated tree has the same nodes under the same parents, with other items. -/

import Mathlib.Data.List.Perm.Basic
import Mathlib.Data.List.Perm.Subperm
import Mathlib.Data.List.Nodup
import Mathlib.Data.Option.Basic
import Mewa.Scope.Traversal

set_option autoImplicit false
set_option relaxedAutoImplicit false

namespace Mewa

open Mewa.Lib

namespace Tree

variable {α β : Type}

/-- The item of the parent of a node, none for the root. -/
def parentItem (nodes : List (Nat × α)) : Nat → Option α
  | 0 => none
  | p + 1 => nodes[p]?.map Prod.snd

/-- The nodes with the items of their parents in place of the numbers. -/
def edges (nodes : List (Nat × α)) : List (Option α × α) :=
  nodes.map fun e => (parentItem nodes e.1, e.2)

section Edges

theorem parentItem_append (nodes added : List (Nat × α)) {p : Nat} (inside : p ≤ nodes.length) :
    parentItem (nodes ++ added) p = parentItem nodes p := by
  cases p with
  | zero => rfl
  | succ p =>
    show (nodes ++ added)[p]?.map Prod.snd = nodes[p]?.map Prod.snd
    rw [List.getElem?_append_left inside]

theorem edges_snoc {nodes : List (Nat × α)} (before : ∀ e ∈ nodes, e.1 ≤ nodes.length) {p : Nat}
    (inside : p ≤ nodes.length) (item : α) :
    edges (nodes ++ [(p, item)]) = edges nodes ++ [(parentItem nodes p, item)] := by
  unfold edges
  rw [List.map_append, List.map_singleton, parentItem_append _ _ inside]
  congr 1
  refine List.map_congr_left fun e mem => ?_
  rw [parentItem_append _ _ (before e mem)]

theorem edges_map (g : α → β) (nodes : List (Nat × α)) :
    edges (nodes.map fun e => (e.1, g e.2)) =
      (edges nodes).map fun e => (e.1.map g, g e.2) := by
  unfold edges
  rw [List.map_map, List.map_map]
  refine List.map_congr_left fun e _ => ?_
  show (parentItem (nodes.map fun e => (e.1, g e.2)) e.1, g e.2) =
    ((parentItem nodes e.1).map g, g e.2)
  congr 1
  cases e.1 with
  | zero => rfl
  | succ p =>
    show ((nodes.map fun e => (e.1, g e.2))[p]?).map Prod.snd = (nodes[p]?.map Prod.snd).map g
    rw [List.getElem?_map, Option.map_map, Option.map_map]
    rfl

theorem Linked.parents_le {t : Tree α} {nodes : List (Nat × α)} (linked : Linked t nodes) :
    ∀ e ∈ nodes, e.1 ≤ nodes.length := by
  rintro ⟨p, item⟩ mem
  obtain ⟨k, at_k⟩ := List.getElem?_of_mem mem
  have bound := (List.getElem?_eq_some_iff.mp at_k).1
  cases k with
  | zero =>
    obtain ⟨root, first⟩ := linked.root
    rw [List.head?_eq_getElem?, at_k] at first
    have same := congrArg Prod.fst (Option.some.inj first)
    simp only at same
    omega
  | succ k =>
    have := linked.parents k p item at_k
    simp only
    omega

end Edges

section Translate

variable {t : Tree α} {nodes : List (Nat × α)} {f : α → β} {g : α → Except Failure β}

/-- The nodes of a copy are those of the given numbers, in this order. -/
def CopyOf (f : α → β) (nodes : List (Nat × α)) (nodes' : List (Nat × β)) (origin : List Nat) :
    Prop :=
  (edges nodes').map some =
    origin.map fun o => (edges nodes)[o - 1]?.map fun e => (e.1.map f, f e.2)

/-- The node with a place in the copy has the parent with the place of the parent. -/
structure CopiedBy (f : α → β) (nodes : List (Nat × α)) (nodes' : List (Nat × β))
    (origin : List Nat) : Prop where
  length : origin.length = nodes'.length
  node : ∀ (k : Nat) o, origin[k]? = some o → ∃ p item p', nodes[o - 1]? = some (p, item) ∧
    nodes'[k]? = some (p', f item) ∧
    (p = 0 ∧ p' = 0 ∨ ∃ b, p' = b + 1 ∧ 0 < p ∧ origin[b]? = some p)

theorem CopiedBy.copyOf {nodes' : List (Nat × β)} {origin : List Nat}
    (copy : CopiedBy f nodes nodes' origin) : CopyOf f nodes nodes' origin := by
  unfold CopyOf edges
  apply List.ext_getElem?
  intro k
  simp only [List.getElem?_map]
  cases here : origin[k]? with
  | none =>
    have outside : nodes'[k]? = none := by
      rw [List.getElem?_eq_none_iff] at here ⊢
      rw [← copy.length]
      exact here
    rw [outside]
    rfl
  | some o =>
    obtain ⟨p, item, p', old, new, parents⟩ := copy.node k o here
    rw [Option.map_some, old, new]
    simp only [Option.map_some, Option.some.injEq, Prod.mk.injEq, and_true]
    rcases parents with ⟨rfl, rfl⟩ | ⟨b, rfl, positive, at_b⟩
    · rfl
    · obtain ⟨q, parent, q', old', new', -⟩ := copy.node b p at_b
      obtain ⟨p, rfl⟩ : ∃ n, p = n + 1 := ⟨p - 1, by omega⟩
      rw [Nat.add_sub_cancel] at old'
      simp only [parentItem, old', new', Option.map_some]

theorem CopiedBy.addChild {nodes' : List (Nat × β)} {origin : List Nat}
    (copy : CopiedBy f nodes nodes' origin) {a b i : Nat} {item : α} (positive : 0 < a)
    (at_b : origin[b]? = some a) (child : nodes[i]? = some (a, item)) :
    CopiedBy f nodes (nodes' ++ [(b + 1, f item)]) (origin ++ [i + 1]) := by
  have length := copy.length
  have inside := (List.getElem?_eq_some_iff.mp at_b).1
  refine ⟨by simp [length], fun k o here => ?_⟩
  rcases Nat.lt_trichotomy k origin.length with below | last | above
  · rw [List.getElem?_append_left below] at here
    obtain ⟨p, old, p', at_o, at_k, parents⟩ := copy.node k o here
    refine ⟨p, old, p', at_o, ?_, ?_⟩
    · rw [List.getElem?_append_left (by omega), at_k]
    · refine parents.imp_right fun ⟨b', same, positive', at_b'⟩ => ⟨b', same, positive', ?_⟩
      rw [List.getElem?_append_left (List.getElem?_eq_some_iff.mp at_b').1, at_b']
  · subst last
    rw [List.getElem?_concat_length] at here
    obtain rfl := Option.some.inj here
    refine ⟨a, item, b + 1, child, ?_, Or.inr ⟨b, rfl, positive, ?_⟩⟩
    · rw [length, List.getElem?_concat_length]
    · rw [List.getElem?_append_left inside, at_b]
  · rw [List.getElem?_eq_none (by simp; omega)] at here
    cases here

theorem translateChildren_copies (linked : Linked t nodes)
    (translates : ∀ e ∈ nodes, g e.2 = .ok (f e.2)) {a b c : Nat} {cs : List Nat}
    (siblings : Siblings t.ar c cs) (own : ∀ d ∈ cs, d ∈ childrenOf nodes a) (positive : 0 < a)
    {fuel : Nat} (enough : cs.length ≤ fuel) {rt : Tree β} {nodes' : List (Nat × β)}
    {origin : List Nat} (linked' : Linked rt nodes') (alone : rt.RootAlone)
    (copy : CopiedBy f nodes nodes' origin) (at_b : origin[b]? = some a)
    (stack : List (Nat × Nat)) :
    ∃ (rt' : Tree β) (nodes'' : List (Nat × β)) (added : List (Nat × Nat)),
      translateChildren g t (b + 1) fuel c (rt, stack) = .ok (rt', added.reverse ++ stack) ∧
      added.map Prod.fst = cs ∧ Linked rt' nodes'' ∧ rt'.RootAlone ∧
      CopiedBy f nodes nodes'' (origin ++ cs) ∧
      ∀ e ∈ added, ∃ k, e.2 = k + 1 ∧ (origin ++ cs)[k]? = some e.1 := by
  induction siblings generalizing fuel rt nodes' origin stack with
  | nil =>
    refine ⟨rt, nodes', [], ?_, rfl, linked', alone, by simpa using copy, by simp⟩
    cases fuel <;> rfl
  | @cons i node cs here rest ih =>
    obtain ⟨fuel, rfl⟩ : ∃ n, fuel = n + 1 := ⟨fuel - 1, by simp at enough; omega⟩
    obtain ⟨k, item, same, child⟩ := mem_childrenOf.mp (own _ List.mem_cons_self)
    obtain rfl : i = k := by omega
    obtain ⟨node', node_eq, rfl⟩ := linked.node_of child
    obtain rfl := Option.some.inj (here.symm.trans node_eq)
    have bound := (List.getElem?_eq_some_iff.mp at_b).1
    rw [copy.length] at bound
    obtain ⟨rt', added_child, linked''⟩ := linked'.addChild bound (f node.item)
    have copy' := copy.addChild positive at_b child
    have at_b' : (origin ++ [i + 1])[b]? = some a := by
      rw [List.getElem?_append_left (List.getElem?_eq_some_iff.mp at_b).1, at_b]
    obtain ⟨final, nodes'', added, runs, numbers, linked_final, alone_final, copy_final, placed⟩ :=
      ih (fun d mem => own d (List.mem_cons_of_mem _ mem)) (by simpa using enough) linked''
        (alone.addChild linked' bound added_child) copy' at_b'
        ((i + 1, nodes'.length + 1) :: stack)
    rw [List.append_assoc, List.singleton_append] at copy_final placed
    refine ⟨final, nodes'', (i + 1, nodes'.length + 1) :: added, ?_, by simp [numbers],
      linked_final, alone_final, copy_final, ?_⟩
    · have item := translates _ (List.mem_of_getElem? child)
      simp only [translateChildren, (node_succ t).mpr here, ok_bind, item, added_child, runs]
      simp
    · intro e mem
      rcases List.mem_cons.mp mem with rfl | mem
      · exact ⟨nodes'.length, rfl, by rw [← copy.length]; simp⟩
      · exact placed e mem

theorem Linked.origin_nodup (linked : Linked t nodes) {done : List Nat} (nodup : done.Nodup)
    (positive : ∀ q ∈ done, 0 < q) : (1 :: done.flatMap (childrenOf nodes)).Nodup := by
  refine List.nodup_cons.mpr ⟨fun mem => ?_, List.nodup_flatMap.mpr ⟨fun q _ =>
    childrenOf_nodup nodes q, nodup.imp fun {p q} other c mem mem' =>
      other (childrenOf_unique mem mem')⟩⟩
  obtain ⟨q, mem_q, child⟩ := List.mem_flatMap.mp mem
  have before := linked.parent_before (positive q mem_q) child
  have := positive q mem_q
  omega

theorem Linked.origin_inside (linked : Linked t nodes) {done : List Nat}
    (positive : ∀ q ∈ done, 0 < q) :
    ∀ o ∈ 1 :: done.flatMap (childrenOf nodes), o ∈ List.range' 1 nodes.length := by
  intro o mem
  rw [List.mem_range'_1]
  rcases List.mem_cons.mp mem with rfl | mem
  · obtain ⟨root, first⟩ := linked.root
    have := List.length_pos_of_mem (List.mem_of_mem_head? first)
    omega
  · obtain ⟨q, mem_q, child⟩ := List.mem_flatMap.mp mem
    have before := linked.parent_before (positive q mem_q) child
    rw [linked.size] at before
    omega

theorem Linked.childrenOf_length_le (linked : Linked t nodes) (p : Nat) :
    (childrenOf nodes p).length ≤ t.ar.length := by
  rw [linked.size]
  unfold childrenOf
  rw [List.length_map]
  refine (List.length_filter_le _ _).trans ?_
  rw [List.length_zipIdx]

theorem Linked.origin_all (linked : Linked t nodes) {done : List Nat} (nodup : done.Nodup)
    (positive : ∀ q ∈ done, 0 < q)
    (closed : done.Perm (1 :: done.flatMap (childrenOf nodes))) :
    (1 :: done.flatMap (childrenOf nodes)).Perm (List.range' 1 nodes.length) := by
  refine (List.perm_ext_iff_of_nodup (linked.origin_nodup nodup positive)
    List.nodup_range').mpr fun o => ⟨linked.origin_inside positive o, fun mem => ?_⟩
  · obtain ⟨low, high⟩ := List.mem_range'_1.mp mem
    obtain ⟨k, rfl⟩ : ∃ k, o = k + 1 := ⟨o - 1, by omega⟩
    clear low mem
    induction k using Nat.strong_induction_on with
    | _ k ih =>
      cases k with
      | zero => exact List.mem_cons_self
      | succ k =>
        obtain ⟨⟨p, item⟩, at_k⟩ : ∃ e, nodes[k + 1]? = some e :=
          ⟨_, List.getElem?_eq_getElem (by omega)⟩
        obtain ⟨positive_p, before⟩ := linked.parents k p item at_k
        obtain ⟨q, rfl⟩ : ∃ q, p = q + 1 := ⟨p - 1, by omega⟩
        have mem := closed.mem_iff.mpr (ih q (by omega) (by omega))
        refine List.mem_cons_of_mem _ (List.mem_flatMap.mpr ⟨q + 1, mem, ?_⟩)
        exact mem_childrenOf.mpr ⟨k + 1, item, rfl, at_k⟩

theorem translateLoop_copies (linked : Linked t nodes)
    (translates : ∀ e ∈ nodes, g e.2 = .ok (f e.2)) {done : List Nat} (nodup : done.Nodup)
    (positive : ∀ q ∈ done, 0 < q) {stack : List (Nat × Nat)}
    (known : (done ++ stack.map Prod.fst).Perm (1 :: done.flatMap (childrenOf nodes)))
    {rt : Tree β} {nodes' : List (Nat × β)} (linked' : Linked rt nodes') (alone : rt.RootAlone)
    (copy : CopiedBy f nodes nodes' (1 :: done.flatMap (childrenOf nodes)))
    (placed : ∀ e ∈ stack, ∃ k, e.2 = k + 1 ∧
      (1 :: done.flatMap (childrenOf nodes))[k]? = some e.1) {fuel : Nat}
    (enough : nodes.length ≤ fuel + done.length) :
    ∃ (rt' : Tree β) (nodes'' : List (Nat × β)) (all : List Nat),
      translateLoop g t fuel (rt, stack) = .ok rt' ∧ Linked rt' nodes'' ∧
      rt'.RootAlone ∧ CopiedBy f nodes nodes'' (1 :: all.flatMap (childrenOf nodes)) ∧
      all.Perm (List.range' 1 nodes.length) ∧
      (1 :: all.flatMap (childrenOf nodes)).Perm (List.range' 1 nodes.length) := by
  have origin_nodup := linked.origin_nodup nodup positive
  induction fuel generalizing done stack rt nodes' with
  | zero =>
    cases stack with
    | nil =>
      have closed : done.Perm (1 :: done.flatMap (childrenOf nodes)) := by simpa using known
      have every := linked.origin_all nodup positive closed
      exact ⟨rt, nodes', done, rfl, linked', alone, copy, closed.trans every, every⟩
    | cons e stack =>
      -- more nodes than there are would be known
      have inside : done ++ e.1 :: stack.map Prod.fst ⊆ List.range' 1 nodes.length :=
        fun o mem => linked.origin_inside positive o (known.mem_iff.mp mem)
      have distinct : (done ++ e.1 :: stack.map Prod.fst).Nodup :=
        known.nodup_iff.mpr origin_nodup
      have count := (distinct.subperm inside).length_le
      simp only [List.length_append, List.length_cons, List.length_range'] at count
      omega
  | succ fuel ih =>
    cases stack with
    | nil =>
      have closed : done.Perm (1 :: done.flatMap (childrenOf nodes)) := by simpa using known
      have every := linked.origin_all nodup positive closed
      exact ⟨rt, nodes', done, rfl, linked', alone, copy, closed.trans every, every⟩
    | cons e stack =>
      obtain ⟨k, number, at_k⟩ := placed e List.mem_cons_self
      obtain ⟨a, b⟩ := e
      simp only at number at_k
      subst number
      have distinct : (done ++ a :: stack.map Prod.fst).Nodup :=
        known.nodup_iff.mpr origin_nodup
      have own : a ∈ List.range' 1 nodes.length :=
        linked.origin_inside positive a (List.mem_of_getElem? at_k)
      rw [List.mem_range'_1] at own
      obtain ⟨i, rfl⟩ : ∃ i, a = i + 1 := ⟨a - 1, by omega⟩
      have here := List.getElem?_eq_getElem (show i < t.ar.length by rw [linked.size]; omega)
      obtain ⟨rt', nodes'', added, runs, numbers, linked'', alone', copy', placed'⟩ :=
        translateChildren_copies linked translates (linked.children i _ here) (fun d mem => mem)
          (by omega) (linked.childrenOf_length_le (i + 1)) linked' alone copy at_k stack
      have origin_eq : 1 :: (done ++ [i + 1]).flatMap (childrenOf nodes) =
          1 :: done.flatMap (childrenOf nodes) ++ childrenOf nodes (i + 1) := by
        simp
      have nodup' : (done ++ [i + 1]).Nodup := by
        refine List.Nodup.sublist ?_ distinct
        exact List.Sublist.append_left (List.singleton_sublist.mpr List.mem_cons_self) done
      have positive' : ∀ q ∈ done ++ [i + 1], 0 < q := by
        intro q mem
        rcases List.mem_append.mp mem with old | last
        · exact positive q old
        · rw [List.mem_singleton.mp last]
          omega
      have known' : (done ++ [i + 1] ++ (added.reverse ++ stack).map Prod.fst).Perm
          (1 :: (done ++ [i + 1]).flatMap (childrenOf nodes)) := by
        rw [origin_eq, List.map_append, List.map_reverse, numbers, List.append_assoc,
          List.singleton_append]
        have swapped : ((childrenOf nodes (i + 1)).reverse ++ stack.map Prod.fst).Perm
            (stack.map Prod.fst ++ childrenOf nodes (i + 1)) :=
          List.perm_append_comm.trans ((List.reverse_perm _).append_left _)
        refine ((swapped.cons (i + 1)).append_left done).trans ?_
        rw [← List.cons_append, ← List.append_assoc]
        exact known.append_right _
      obtain ⟨final, nodes_final, all, result⟩ := ih nodup' positive' known' linked'' alone'
        (by rw [origin_eq]; exact copy') (fun e mem => by
          rw [origin_eq]
          rcases List.mem_append.mp mem with new | old
          · exact placed' e (List.mem_reverse.mp new)
          · obtain ⟨k', number', at_k'⟩ := placed e (List.mem_cons_of_mem _ old)
            refine ⟨k', number', ?_⟩
            rw [List.getElem?_append_left (List.getElem?_eq_some_iff.mp at_k').1, at_k'])
        (by rw [List.length_append, List.length_singleton]; omega)
        (linked.origin_nodup nodup' positive')
      refine ⟨final, nodes_final, all, ?_, result.2⟩
      simp only [translateLoop, (node_succ t).mpr here, ok_bind, runs, result.1]

theorem Linked.translate_copied (linked : Linked t nodes)
    (translates : ∀ e ∈ nodes, g e.2 = .ok (f e.2)) :
    ∃ (rt : Tree β) (nodes' : List (Nat × β)) (all : List Nat), t.translate g = .ok rt ∧ Linked rt nodes' ∧ rt.RootAlone ∧
      CopiedBy f nodes nodes' (1 :: all.flatMap (childrenOf nodes)) ∧
      all.Perm (List.range' 1 nodes.length) ∧
      (1 :: all.flatMap (childrenOf nodes)).Perm (List.range' 1 nodes.length) := by
  obtain ⟨item, first⟩ := linked.root
  rw [List.head?_eq_getElem?] at first
  obtain ⟨root, here, rfl⟩ := linked.node_of first
  have copy : CopiedBy f nodes [(0, f root.item)] (1 :: [].flatMap (childrenOf nodes)) := by
    refine ⟨rfl, fun k o at_k => ?_⟩
    cases k with
    | zero =>
      obtain rfl := Option.some.inj at_k
      exact ⟨0, root.item, 0, first, rfl, Or.inl ⟨rfl, rfl⟩⟩
    | succ k => simp at at_k
  have placed : ∀ e ∈ [((1 : Nat), (1 : Nat))], ∃ k, e.2 = k + 1 ∧
      (1 :: [].flatMap (childrenOf nodes))[k]? = some e.1 := by
    intro e mem
    rw [List.mem_singleton.mp mem]
    exact ⟨0, rfl, rfl⟩
  have enough : nodes.length ≤ t.ar.length + ([] : List Nat).length := by
    rw [linked.size]
    exact Nat.le_refl _
  obtain ⟨rt, nodes', all, runs, result⟩ := translateLoop_copies linked translates
    List.nodup_nil (by simp) (by simp) (linked_ofRoot (f root.item))
    (rootAlone_ofRoot (f root.item)) copy placed enough
  refine ⟨rt, nodes', all, ?_, result⟩
  have item := translates _ (List.mem_of_getElem? first)
  simp only [Tree.translate, (node_succ t).mpr here, ok_bind, item, runs]

theorem Linked.translate (linked : Linked t nodes)
    (translates : ∀ e ∈ nodes, g e.2 = .ok (f e.2)) :
    ∃ rt nodes', t.translate g = .ok rt ∧ Linked rt nodes' ∧
      (edges nodes').Perm ((edges nodes).map fun e => (e.1.map f, f e.2)) := by
  obtain ⟨rt, nodes', all, runs, linked', -, copied, -, every⟩ :=
    linked.translate_copied translates
  refine ⟨rt, nodes', runs, linked', ?_⟩
  apply (List.map_perm_map_iff (Option.some_injective _)).mp
  rw [copied.copyOf]
  refine (every.map _).trans (List.Perm.of_eq ?_)
  apply List.ext_getElem?
  intro k
  simp only [List.getElem?_map, edges]
  by_cases inside : k < nodes.length
  · simp [inside]
  · simp [inside]

end Translate

end Tree

end Mewa
