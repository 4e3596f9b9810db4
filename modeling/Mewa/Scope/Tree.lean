/- Module: Mewa/Scope/Tree
   digest: Trees as arrays of nodes linked to their first child and their next sibling. -/

import Mewa.Error
import Mewa.Lib.Result
import Mathlib.Data.List.Range
import Mathlib.Logic.Relation

set_option autoImplicit false
set_option relaxedAutoImplicit false

namespace Mewa

open Mewa.Lib

/-- A node with the numbers of its next sibling and of its first child, 0 for none. -/
structure TreeNode (α : Type) where
  item : α
  next : Nat
  chld : Nat
  deriving DecidableEq, Repr

def TreeNode.ofItem {α : Type} (item : α) : TreeNode α := ⟨item, 0, 0⟩

/-- The nodes are numbered from 1, the root. For a first child there is the number of the last
    sibling. -/
structure Tree (α : Type) where
  ar : List (TreeNode α)
  lastar : List Nat
  deriving DecidableEq, Repr

namespace Tree

variable {α β : Type}

def ofRoot (rootNode : α) : Tree α := ⟨[TreeNode.ofItem rootNode], [0]⟩

def logicError {γ : Type} : Except Failure γ := .error (.thrown ⟨.LogicError, "tree.hpp", 0⟩)

def node (t : Tree α) (idx : Nat) : Except Failure (TreeNode α) :=
  match idx with
  | 0 => logicError
  | i + 1 =>
    match t.ar[i]? with
    | none => .error .outOfRange
    | some node => .ok node

def setItem (idx : Nat) (item : α) (t : Tree α) : Tree α :=
  { t with ar := t.ar.modify (idx - 1) fun node => { node with item := item } }

def addSibling (nodeidx : Nat) (item : α) (t : Tree α) : Except Failure (Tree α × Nat) :=
  match nodeidx with
  | 0 => logicError
  | i + 1 =>
    let newindex := t.ar.length + 1
    let lastar := t.lastar ++ [0]
    match lastar[i]? with
    | none => .error .outOfRange
    -- a sibling of the root
    | some 0 => logicError
    | some (last + 1) =>
      let ar := t.ar ++ [TreeNode.ofItem item]
      .ok (⟨ar.modify last fun node => { node with next := newindex }, lastar.set i newindex⟩,
        newindex)

def addChild (nodeidx : Nat) (item : α) (t : Tree α) : Except Failure (Tree α × Nat) :=
  match nodeidx with
  | 0 => logicError
  | i + 1 =>
    match t.ar[i]? with
    | none => .error .outOfRange
    | some parent =>
      if parent.chld = 0 then
        let newindex := t.ar.length + 1
        let ar := t.ar ++ [TreeNode.ofItem item]
        .ok (⟨ar.modify i fun node => { node with chld := newindex }, t.lastar ++ [newindex]⟩,
          newindex)
      else t.addSibling parent.chld item

/-- The loop over the children of a node: they are added to the copy and to the stack. -/
def translateChildren (translate : α → Except Failure β) (t : Tree α) (rt_ndidx : Nat) :
    Nat → Nat → Tree β × List (Nat × Nat) → Except Failure (Tree β × List (Nat × Nat))
  | _, 0, st => .ok st
  | 0, _ + 1, _ => .error .outOfFuel
  | fuel + 1, chld + 1, (rt, stack) => do
    let child ← t.node (chld + 1)
    let (rt, rt_chld) ← rt.addChild rt_ndidx (← translate child.item)
    translateChildren translate t rt_ndidx fuel child.next (rt, (chld + 1, rt_chld) :: stack)

/-- The nodes on the stack, the last one first, with their numbers in the copy. -/
def translateLoop (translate : α → Except Failure β) (t : Tree α) :
    Nat → Tree β × List (Nat × Nat) → Except Failure (Tree β)
  | _, (rt, []) => .ok rt
  | 0, (_, _ :: _) => .error .outOfFuel
  | fuel + 1, (rt, (tree_ndidx, rt_ndidx) :: stack) => do
    let parent ← t.node tree_ndidx
    let st ← translateChildren translate t rt_ndidx t.ar.length parent.chld (rt, stack)
    translateLoop translate t fuel st

/-- A copy of the structure with other items. -/
def translate (translate : α → Except Failure β) (t : Tree α) : Except Failure (Tree β) := do
  let root ← t.node 1
  translateLoop translate t t.ar.length (ofRoot (← translate root.item), [(1, 1)])

/-- The children of a node are the first one and the siblings behind it. -/
inductive ChildOf (t : Tree α) : Nat → Nat → Prop
  | first {p : Nat} {parent : TreeNode α} : t.node p = .ok parent → parent.chld ≠ 0 →
      ChildOf t p parent.chld
  | next {p c : Nat} {child : TreeNode α} : ChildOf t p c → t.node c = .ok child →
      child.next ≠ 0 → ChildOf t p child.next

/-! A tree as the list of its nodes with the numbers of their parents. -/

def childrenOf (nodes : List (Nat × α)) (p : Nat) : List Nat :=
  ((nodes.zipIdx 1).filter fun e => e.1.1 = p).map Prod.snd

inductive Siblings (ar : List (TreeNode α)) : Nat → List Nat → Prop
  | nil : Siblings ar 0 []
  | cons {i : Nat} {node : TreeNode α} {cs : List Nat} : ar[i]? = some node →
      Siblings ar node.next cs → Siblings ar (i + 1) ((i + 1) :: cs)

/-- A tree links the nodes of a list to their parents. The first node is the root, the others come
    after their parents. -/
structure Linked (t : Tree α) (nodes : List (Nat × α)) : Prop where
  items : t.ar.map TreeNode.item = nodes.map Prod.snd
  length : t.lastar.length = nodes.length
  root : ∃ item, nodes.head? = some (0, item)
  parents : ∀ k p item, nodes[k + 1]? = some (p, item) → 0 < p ∧ p ≤ k + 1
  children : ∀ i node, t.ar[i]? = some node → Siblings t.ar node.chld (childrenOf nodes (i + 1))
  last : ∀ p first rest, 0 < p → childrenOf nodes p = first :: rest →
    t.lastar[first - 1]? = (first :: rest).getLast?

section Children

variable {nodes : List (Nat × α)}

theorem mem_childrenOf {p c : Nat} : c ∈ childrenOf nodes p ↔
    ∃ k item, c = k + 1 ∧ nodes[k]? = some (p, item) := by
  unfold childrenOf
  simp only [List.mem_map, List.mem_filter, List.mem_zipIdx_iff_le_and_getElem?_sub,
    decide_eq_true_eq]
  constructor
  · rintro ⟨⟨⟨q, item⟩, i⟩, ⟨⟨low, here⟩, same⟩, rfl⟩
    simp only at low here same
    exact ⟨i - 1, item, by omega, same ▸ here⟩
  · rintro ⟨k, item, rfl, here⟩
    exact ⟨⟨⟨p, item⟩, k + 1⟩, ⟨⟨by simp, by simpa using here⟩, rfl⟩, rfl⟩

theorem childrenOf_nodup (nodes : List (Nat × α)) (p : Nat) : (childrenOf nodes p).Nodup := by
  unfold childrenOf
  refine List.Nodup.sublist (List.filter_sublist.map Prod.snd) ?_
  rw [List.zipIdx_map_snd]
  exact List.nodup_range'

theorem childrenOf_snoc (nodes : List (Nat × α)) (q : Nat) (item : α) (p : Nat) :
    childrenOf (nodes ++ [(q, item)]) p =
      childrenOf nodes p ++ if q = p then [nodes.length + 1] else [] := by
  unfold childrenOf
  rw [List.zipIdx_append, List.filter_append, List.map_append]
  by_cases same : q = p
  · simp [same, Nat.add_comm]
  · simp [same]

theorem childrenOf_unique {p q c : Nat} (hp : c ∈ childrenOf nodes p)
    (hq : c ∈ childrenOf nodes q) : p = q := by
  obtain ⟨k, item, rfl, here⟩ := mem_childrenOf.mp hp
  obtain ⟨k', item', same, here'⟩ := mem_childrenOf.mp hq
  obtain rfl : k = k' := by omega
  exact congrArg Prod.fst (Option.some.inj (here.symm.trans here'))

end Children

section Chains

variable {ar ar' : List (TreeNode α)} {c : Nat} {cs : List Nat}

theorem Siblings.of_next (h : Siblings ar c cs)
    (same : ∀ i node, i + 1 ∈ cs → ar[i]? = some node →
      ∃ node', ar'[i]? = some node' ∧ node'.next = node.next) : Siblings ar' c cs := by
  induction h with
  | nil => exact .nil
  | cons here _ ih =>
    obtain ⟨node', here', next⟩ := same _ _ List.mem_cons_self here
    refine .cons here' ?_
    rw [next]
    exact ih fun i node mem => same i node (List.mem_cons_of_mem _ mem)

theorem Siblings.link {n last : Nat} {added : TreeNode α} (h : Siblings ar c (cs ++ [last + 1]))
    (distinct : (cs ++ [last + 1]).Nodup) (new : ar'[n]? = some added) (ends : added.next = 0)
    (linked : ∀ node, ar[last]? = some node → ∃ node', ar'[last]? = some node' ∧
      node'.next = n + 1)
    (same : ∀ i node, i ≠ last → ar[i]? = some node → ∃ node', ar'[i]? = some node' ∧
      node'.next = node.next) :
    Siblings ar' c (cs ++ [last + 1] ++ [n + 1]) := by
  induction cs generalizing c with
  | nil =>
    cases h with
    | cons here rest =>
      obtain ⟨node', here', next⟩ := linked _ here
      refine .cons here' ?_
      rw [next]
      refine .cons new ?_
      rw [ends]
      exact .nil
  | cons d cs ih =>
    cases h with
    | @cons i node _ here rest =>
      rw [List.cons_append] at distinct
      obtain ⟨fresh, distinct⟩ := List.nodup_cons.mp distinct
      have other : i ≠ last := by
        rintro rfl
        exact fresh (by simp)
      obtain ⟨node', here', next⟩ := same i node other here
      refine .cons here' ?_
      rw [next]
      exact ih rest distinct

theorem Siblings.head (h : Siblings ar c cs) : c = cs.headD 0 := by
  cases h <;> rfl

end Chains

namespace Linked

variable {t : Tree α} {nodes : List (Nat × α)}

theorem size (linked : Linked t nodes) : t.ar.length = nodes.length := by
  simpa using congrArg List.length linked.items

theorem node_of (linked : Linked t nodes) {k p : Nat} {item : α}
    (h : nodes[k]? = some (p, item)) : ∃ node, t.ar[k]? = some node ∧ node.item = item := by
  have at_k := congrArg (fun l => l[k]?) linked.items
  simp only [List.getElem?_map, h, Option.map_some] at at_k
  exact Option.map_eq_some_iff.mp at_k

theorem of_node (linked : Linked t nodes) {k : Nat} {node : TreeNode α}
    (h : t.ar[k]? = some node) : ∃ p, nodes[k]? = some (p, node.item) := by
  have at_k := congrArg (fun l => l[k]?) linked.items
  simp only [List.getElem?_map, h, Option.map_some] at at_k
  obtain ⟨⟨p, item⟩, here, same⟩ := Option.map_eq_some_iff.mp at_k.symm
  exact ⟨p, by rw [here]; exact congrArg (fun item => some (p, item)) same⟩

end Linked

theorem linked_ofRoot (item : α) : Linked (ofRoot item) [(0, item)] where
  items := rfl
  length := rfl
  root := ⟨item, rfl⟩
  parents := by simp
  children := by
    intro i node here
    obtain rfl : i = 0 := by
      have bound := (List.getElem?_eq_some_iff.mp here).1
      simp only [ofRoot, List.length_singleton] at bound
      omega
    obtain rfl := Option.some.inj here
    exact .nil
  last := by
    intro p first rest positive split
    have mem : first ∈ childrenOf [(0, item)] p := by rw [split]; exact List.mem_cons_self
    obtain ⟨k, item', -, here⟩ := mem_childrenOf.mp mem
    have bound := (List.getElem?_eq_some_iff.mp here).1
    obtain rfl : k = 0 := by simpa using bound
    have same := congrArg Prod.fst (Option.some.inj here)
    simp only at same
    omega

/-! A child is added. -/

section AddChild

theorem getElem?_added (l : List (TreeNode α)) (new : TreeNode α) (f : TreeNode α → TreeNode α)
    {i : Nat} (inside : i < l.length) (j : Nat) :
    ((l ++ [new]).modify i f)[j]? =
      if j = i then l[j]?.map f else if j = l.length then some new else l[j]? := by
  rw [List.getElem?_modify]
  by_cases here : j = i
  · subst here
    rw [if_pos rfl, List.getElem?_append_left inside]
    simp
  · rw [if_neg here]
    have other : i ≠ j := Ne.symm here
    by_cases last : j = l.length
    · subst last
      simp [other]
    · rw [if_neg last]
      rcases Nat.lt_or_ge j l.length with below | above
      · simp [List.getElem?_append_left below, other]
      · rw [List.getElem?_eq_none (by simp; omega), List.getElem?_eq_none (by omega)]
        rfl

theorem map_item_added (l : List (TreeNode α)) (item : α) (f : TreeNode α → TreeNode α)
    (kept : ∀ node, (f node).item = node.item) {i : Nat} (inside : i < l.length) :
    ((l ++ [TreeNode.ofItem item]).modify i f).map TreeNode.item =
      l.map TreeNode.item ++ [item] := by
  apply List.ext_getElem?
  intro j
  rw [List.getElem?_map, getElem?_added l _ f inside]
  split
  · rename_i here
    subst here
    rw [List.getElem?_append_left (by simpa using inside), List.getElem?_map, Option.map_map]
    congr 1
    funext node
    exact kept node
  · split
    · rename_i last
      subst last
      simp [TreeNode.ofItem]
    · rename_i other last
      rcases Nat.lt_or_ge j l.length with below | above
      · rw [List.getElem?_append_left (by simpa using below), List.getElem?_map]
      · rw [List.getElem?_eq_none (by omega), List.getElem?_eq_none (by simp; omega)]
        rfl

variable {t : Tree α} {nodes : List (Nat × α)} {i : Nat}

theorem Linked.no_children (linked : Linked t nodes) {p : Nat} (above : nodes.length < p) :
    childrenOf nodes p = [] := by
  apply List.eq_nil_iff_forall_not_mem.mpr
  intro c mem
  obtain ⟨k, item, -, here⟩ := mem_childrenOf.mp mem
  have bound := (List.getElem?_eq_some_iff.mp here).1
  cases k with
  | zero =>
    obtain ⟨root, first⟩ := linked.root
    rw [List.head?_eq_getElem?] at first
    have same := congrArg Prod.fst (Option.some.inj (here.symm.trans first))
    simp only at same
    omega
  | succ k =>
    have := linked.parents k p item here
    omega

theorem Linked.parents_snoc (linked : Linked t nodes) (inside : i < nodes.length) (item : α) :
    (∃ root, (nodes ++ [(i + 1, item)]).head? = some (0, root)) ∧
    ∀ k p item', (nodes ++ [(i + 1, item)])[k + 1]? = some (p, item') → 0 < p ∧ p ≤ k + 1 := by
  obtain ⟨root, first⟩ := linked.root
  refine ⟨⟨root, by rw [List.head?_append, first]; rfl⟩, fun k p item' here => ?_⟩
  rw [List.getElem?_append] at here
  split at here
  · exact linked.parents k p item' here
  · rename_i outside
    have bound := (List.getElem?_eq_some_iff.mp here).1
    rw [List.length_singleton] at bound
    have last : k + 1 = nodes.length := by omega
    rw [last, Nat.sub_self] at here
    have same := congrArg Prod.fst (Option.some.inj here)
    simp only at same
    omega

theorem Linked.addFirst (linked : Linked t nodes) (inside : i < nodes.length) (item : α)
    (none_yet : childrenOf nodes (i + 1) = []) :
    Linked ⟨(t.ar ++ [TreeNode.ofItem item]).modify i fun node => { node with chld := t.ar.length + 1 },
      t.lastar ++ [t.ar.length + 1]⟩ (nodes ++ [(i + 1, item)]) := by
  have size := linked.size
  have bound : i < t.ar.length := by omega
  have at_index := getElem?_added t.ar (TreeNode.ofItem item)
    (fun node => { node with chld := t.ar.length + 1 }) bound
  have kept : ∀ (j : Nat) node, t.ar[j]? = some node → ∃ node',
      ((t.ar ++ [TreeNode.ofItem item]).modify i fun node =>
        { node with chld := t.ar.length + 1 })[j]? = some node' ∧ node'.next = node.next := by
    intro j node here
    have below := (List.getElem?_eq_some_iff.mp here).1
    rw [at_index, here]
    split
    · exact ⟨_, rfl, rfl⟩
    · rw [if_neg (by omega)]
      exact ⟨_, rfl, rfl⟩
  obtain ⟨root, parents⟩ := linked.parents_snoc inside item
  refine ⟨?_, by simp [linked.length], root, parents, ?_, ?_⟩
  · rw [List.map_append, ← linked.items]
    exact map_item_added t.ar item (fun node => { node with chld := t.ar.length + 1 })
      (fun _ => rfl) bound
  · intro j node here
    rw [childrenOf_snoc]
    rw [at_index] at here
    by_cases own : j = i
    · subst own
      rw [if_pos rfl] at here
      obtain ⟨old, -, rfl⟩ := Option.map_eq_some_iff.mp here
      rw [none_yet, if_pos rfl, List.nil_append, ← size]
      have new : ((t.ar ++ [TreeNode.ofItem item]).modify j fun node =>
          { node with chld := t.ar.length + 1 })[t.ar.length]? = some (TreeNode.ofItem item) := by
        rw [at_index, if_neg (by omega), if_pos rfl]
      exact .cons new .nil
    · rw [if_neg own] at here
      rw [if_neg (by omega), List.append_nil]
      split at here
      · rename_i last
        obtain rfl := Option.some.inj here
        rw [linked.no_children (by omega)]
        exact .nil
      · exact (linked.children j node here).of_next fun i' node' _ here' => kept i' node' here'
  · intro p first rest positive split
    rw [childrenOf_snoc] at split
    by_cases own : i + 1 = p
    · subst own
      rw [none_yet, if_pos rfl, List.nil_append] at split
      obtain ⟨rfl, rfl⟩ := List.cons.inj split
      simp [← linked.length, linked.length ▸ size]
    · rw [if_neg own, List.append_nil] at split
      have old := linked.last p first rest positive split
      have mem : first ∈ childrenOf nodes p := by rw [split]; exact List.mem_cons_self
      obtain ⟨k, item', rfl, here⟩ := mem_childrenOf.mp mem
      have below := (List.getElem?_eq_some_iff.mp here).1
      rw [List.getElem?_append_left (by rw [linked.length]; simpa using below), old]

theorem Linked.addNext (linked : Linked t nodes) (inside : i < nodes.length) (item : α)
    {first last : Nat} {rest : List Nat} (split : childrenOf nodes (i + 1) = first :: rest)
    (ends : (first :: rest).getLast? = some (last + 1)) :
    Linked ⟨(t.ar ++ [TreeNode.ofItem item]).modify last
        fun node => { node with next := t.ar.length + 1 },
      (t.lastar ++ [0]).set (first - 1) (t.ar.length + 1)⟩ (nodes ++ [(i + 1, item)]) := by
  have size := linked.size
  have own_last : last + 1 ∈ childrenOf nodes (i + 1) := by
    rw [split]
    exact List.mem_of_getLast? ends
  have own_first : first ∈ childrenOf nodes (i + 1) := by
    rw [split]
    exact List.mem_cons_self
  obtain ⟨k, _, same_last, here_last⟩ := mem_childrenOf.mp own_last
  obtain ⟨k', _, same_first, here_first⟩ := mem_childrenOf.mp own_first
  have below_last := (List.getElem?_eq_some_iff.mp here_last).1
  have below_first := (List.getElem?_eq_some_iff.mp here_first).1
  have bound : last < t.ar.length := by omega
  have at_index := getElem?_added t.ar (TreeNode.ofItem item)
    (fun node => { node with next := t.ar.length + 1 }) bound
  -- only the last child has another sibling than before
  have kept : ∀ (j : Nat) node, j ≠ last → t.ar[j]? = some node → ∃ node',
      ((t.ar ++ [TreeNode.ofItem item]).modify last fun node =>
        { node with next := t.ar.length + 1 })[j]? = some node' ∧ node'.next = node.next := by
    intro j node other here
    have below := (List.getElem?_eq_some_iff.mp here).1
    rw [at_index, if_neg other, if_neg (by omega), here]
    exact ⟨_, rfl, rfl⟩
  obtain ⟨root, parents⟩ := linked.parents_snoc inside item
  refine ⟨?_, by simp [linked.length], root, parents, ?_, ?_⟩
  · rw [List.map_append, ← linked.items]
    exact map_item_added t.ar item (fun node => { node with next := t.ar.length + 1 })
      (fun _ => rfl) bound
  · intro j node here
    obtain ⟨old, here_old, same_chld⟩ | ⟨rfl, rfl⟩ :
        (∃ old, t.ar[j]? = some old ∧ node.chld = old.chld) ∨
          j = t.ar.length ∧ node = TreeNode.ofItem item := by
      rw [at_index] at here
      split at here
      · obtain ⟨old, here_old, rfl⟩ := Option.map_eq_some_iff.mp here
        exact Or.inl ⟨old, here_old, rfl⟩
      · split at here
        · rename_i new
          exact Or.inr ⟨new, (Option.some.inj here).symm⟩
        · exact Or.inl ⟨node, here, rfl⟩
    · have siblings := linked.children j old here_old
      rw [childrenOf_snoc, same_chld]
      by_cases own : j = i
      · subst own
        have nodup := childrenOf_nodup nodes (j + 1)
        obtain ⟨front, parts⟩ := List.getLast?_eq_some_iff.mp ends
        rw [split, parts] at siblings nodup
        rw [if_pos rfl, split, parts, ← size]
        have new : ((t.ar ++ [TreeNode.ofItem item]).modify last fun node =>
            { node with next := t.ar.length + 1 })[t.ar.length]? =
              some (TreeNode.ofItem item) := by
          rw [at_index, if_neg (by omega), if_pos rfl]
        refine siblings.link nodup new rfl (fun node' here' => ?_) kept
        rw [at_index, if_pos rfl, here']
        exact ⟨_, rfl, rfl⟩
      · rw [if_neg (by omega), List.append_nil]
        refine siblings.of_next fun j' node' mem here' => kept j' node' (fun same => ?_) here'
        subst same
        have := childrenOf_unique mem own_last
        omega
    · rw [childrenOf_snoc, if_neg (by omega), linked.no_children (by omega)]
      exact .nil
  · intro p first' rest' positive split'
    rw [childrenOf_snoc] at split'
    have size_last := linked.length
    by_cases own : i + 1 = p
    · subst own
      rw [if_pos rfl, split, List.cons_append] at split'
      obtain ⟨rfl, rfl⟩ := List.cons.inj split'
      rw [List.getElem?_set_self (by simp; omega), ← List.cons_append, List.getLast?_concat, size]
    · rw [if_neg own, List.append_nil] at split'
      have old := linked.last p first' rest' positive split'
      have mem : first' ∈ childrenOf nodes p := by rw [split']; exact List.mem_cons_self
      have other : first' ≠ first := fun same =>
        own (childrenOf_unique own_first (same ▸ mem))
      obtain ⟨m, _, same', here'⟩ := mem_childrenOf.mp mem
      have below := (List.getElem?_eq_some_iff.mp here').1
      rw [List.getElem?_set_ne (by omega), List.getElem?_append_left (by omega), old]

theorem Linked.addChild (linked : Linked t nodes) (inside : i < nodes.length) (item : α) :
    ∃ t', t.addChild (i + 1) item = .ok (t', nodes.length + 1) ∧
      Linked t' (nodes ++ [(i + 1, item)]) := by
  have size := linked.size
  obtain ⟨parent, here⟩ : ∃ parent, t.ar[i]? = some parent :=
    ⟨_, List.getElem?_eq_getElem (by omega)⟩
  have siblings := linked.children i parent here
  have head := siblings.head
  cases split : childrenOf nodes (i + 1) with
  | nil =>
    rw [split] at head
    refine ⟨_, ?_, linked.addFirst inside item split⟩
    simp only [Tree.addChild, here, head, List.headD_nil, if_true, size]
  | cons first rest =>
    rw [split, List.headD_cons] at head
    have mem : first ∈ childrenOf nodes (i + 1) := by rw [split]; exact List.mem_cons_self
    obtain ⟨k, _, rfl, here_first⟩ := mem_childrenOf.mp mem
    have below := (List.getElem?_eq_some_iff.mp here_first).1
    obtain ⟨last, ends⟩ : ∃ last, ((k + 1) :: rest).getLast? = some last :=
      ⟨_, List.getLast?_eq_some_getLast (List.cons_ne_nil _ _)⟩
    have mem_last : last ∈ childrenOf nodes (i + 1) := by
      rw [split]
      exact List.mem_of_getLast? ends
    obtain ⟨m, _, rfl, -⟩ := mem_childrenOf.mp mem_last
    have entry : (t.lastar ++ [0])[k]? = some (m + 1) := by
      have known := linked.last (i + 1) (k + 1) rest (by omega) split
      rw [List.getElem?_append_left (by rw [linked.length]; exact below)]
      exact known.trans ends
    refine ⟨_, ?_, linked.addNext inside item split ends⟩
    simp only [Tree.addChild, here, head, Nat.add_one_ne_zero, if_false, addSibling, entry, size,
      Nat.add_sub_cancel]

end AddChild

/-! An item is replaced. -/

section SetItem

variable {t : Tree α} {nodes : List (Nat × α)}

theorem childrenOf_map (g : α → β) (nodes : List (Nat × α)) (p : Nat) :
    childrenOf (nodes.map fun e => (e.1, g e.2)) p = childrenOf nodes p := by
  unfold childrenOf
  rw [List.zipIdx_map, List.filter_map, List.map_map]
  rfl

theorem childrenOf_congr {nodes' : List (Nat × α)}
    (same : nodes.map Prod.fst = nodes'.map Prod.fst) (p : Nat) :
    childrenOf nodes p = childrenOf nodes' p := by
  rw [← childrenOf_map (fun _ => ()) nodes, ← childrenOf_map (fun _ => ()) nodes']
  have pairs := congrArg (List.map fun p => (p, ())) same
  rw [List.map_map, List.map_map] at pairs
  exact congrArg (fun l => childrenOf l p) pairs

theorem Linked.setItem (linked : Linked t nodes) (i : Nat) (item : α) :
    Linked (t.setItem (i + 1) item) (nodes.modify i fun e => (e.1, item)) := by
  have parents : (nodes.modify i fun e => (e.1, item)).map Prod.fst = nodes.map Prod.fst := by
    apply List.ext_getElem?
    intro j
    rw [List.getElem?_map, List.getElem?_modify, List.getElem?_map]
    cases nodes[j]? with
    | none => rfl
    | some e =>
      by_cases here : i = j
      · simp [here]
      · simp [here]
  have parent_of : ∀ {j p : Nat} {item' : α},
      (nodes.modify i fun e => (e.1, item))[j]? = some (p, item') →
        ∃ item'', nodes[j]? = some (p, item'') := by
    intro j p item' here
    have at_j := congrArg (fun l => l[j]?) parents
    simp only [List.getElem?_map, here, Option.map_some] at at_j
    obtain ⟨⟨q, item''⟩, here', same⟩ := Option.map_eq_some_iff.mp at_j.symm
    exact ⟨item'', same ▸ here'⟩
  have links : ∀ (j : Nat) node, (t.setItem (i + 1) item).ar[j]? = some node →
      ∃ node', t.ar[j]? = some node' ∧ node'.next = node.next ∧ node'.chld = node.chld := by
    intro j node here
    simp only [Tree.setItem, List.getElem?_modify, Nat.add_sub_cancel] at here
    obtain ⟨node', here', rfl⟩ := Option.map_eq_some_iff.mp here
    refine ⟨node', here', ?_, ?_⟩
    · split <;> rfl
    · split <;> rfl
  refine ⟨?_, ?_, ?_, ?_, ?_, ?_⟩
  · apply List.ext_getElem?
    intro j
    have items := congrArg (fun l => l[j]?) linked.items
    simp only [List.getElem?_map] at items
    simp only [Tree.setItem, List.getElem?_map, List.getElem?_modify, Nat.add_sub_cancel]
    by_cases here : i = j
    · subst here
      cases node : t.ar[i]? with
      | none => rw [node] at items; simp [Option.map_eq_none_iff.mp items.symm]
      | some nd =>
        rw [node] at items
        obtain ⟨e, entry, -⟩ := Option.map_eq_some_iff.mp items.symm
        simp [entry]
    · simpa [here] using items
  · simp [Tree.setItem, linked.length]
  · obtain ⟨root, first⟩ := linked.root
    have head : (nodes.map Prod.fst).head? = some 0 := by rw [List.head?_map, first]; rfl
    rw [← parents, List.head?_map] at head
    obtain ⟨⟨p, item'⟩, here, rfl⟩ := Option.map_eq_some_iff.mp head
    exact ⟨item', here⟩
  · intro k p item' here
    obtain ⟨item'', here'⟩ := parent_of here
    exact linked.parents k p item'' here'
  · intro j node here
    obtain ⟨node', here', -, chld⟩ := links j node here
    rw [childrenOf_congr parents, ← chld]
    refine (linked.children j node' here').of_next fun i' nd _ at_i' => ?_
    simp only [Tree.setItem, List.getElem?_modify, at_i']
    refine ⟨_, rfl, ?_⟩
    split <;> rfl
  · intro p first rest positive split
    rw [childrenOf_congr parents] at split
    exact linked.last p first rest positive split

end SetItem

/-! The children and the parents of the nodes. -/

section Nodes

variable {t : Tree α} {nodes : List (Nat × α)}

theorem node_succ (t : Tree α) {i : Nat} {node : TreeNode α} :
    t.node (i + 1) = .ok node ↔ t.ar[i]? = some node := by
  cases here : t.ar[i]? with
  | none => simp [Tree.node, here]
  | some other => simp [Tree.node, here]

theorem node_ok {idx : Nat} {node : TreeNode α} (h : t.node idx = .ok node) :
    ∃ i, idx = i + 1 ∧ t.ar[i]? = some node := by
  cases idx with
  | zero => simp [Tree.node, logicError] at h
  | succ i => exact ⟨i, rfl, (node_succ t).mp h⟩

theorem Siblings.next_mem {ar : List (TreeNode α)} {c : Nat} {cs : List Nat}
    (h : Siblings ar c cs) {i : Nat} {node : TreeNode α} (mem : i + 1 ∈ cs)
    (here : ar[i]? = some node) (more : node.next ≠ 0) : node.next ∈ cs := by
  induction h with
  | nil => simp at mem
  | @cons j other cs node_j rest ih =>
    rcases List.mem_cons.mp mem with same | mem
    · obtain rfl : i = j := by omega
      obtain rfl := Option.some.inj (here.symm.trans node_j)
      have head := rest.head
      cases cs with
      | nil => exact absurd head more
      | cons d ds =>
        rw [head]
        exact List.mem_cons_of_mem _ List.mem_cons_self
    · exact List.mem_cons_of_mem _ (ih mem)

theorem Siblings.childOf {p c : Nat} {cs : List Nat} (h : Siblings t.ar c cs)
    (first : c ≠ 0 → t.ChildOf p c) : ∀ d ∈ cs, t.ChildOf p d := by
  induction h with
  | nil => simp
  | @cons j node cs here rest ih =>
    intro d mem
    rcases List.mem_cons.mp mem with rfl | mem
    · exact first (by omega)
    · exact ih (fun more => .next (first (by omega)) ((node_succ t).mpr here) more) d mem

theorem Linked.parent_before (linked : Linked t nodes) {p c : Nat} (positive : 0 < p)
    (mem : c ∈ childrenOf nodes p) : p < c ∧ c ≤ t.ar.length := by
  obtain ⟨k, item, rfl, at_k⟩ := mem_childrenOf.mp mem
  have bound := (List.getElem?_eq_some_iff.mp at_k).1
  rw [linked.size]
  cases k with
  | zero =>
    obtain ⟨root, first⟩ := linked.root
    rw [List.head?_eq_getElem?, at_k] at first
    have same := congrArg Prod.fst (Option.some.inj first)
    simp only at same
    omega
  | succ k =>
    have := linked.parents k p item at_k
    omega

theorem Linked.childOf_iff (linked : Linked t nodes) {p c : Nat} :
    t.ChildOf p c ↔ 0 < p ∧ c ∈ childrenOf nodes p := by
  constructor
  · intro child
    induction child with
    | first here more =>
      obtain ⟨i, rfl, at_i⟩ := node_ok here
      have head := (linked.children i _ at_i).head
      refine ⟨by omega, ?_⟩
      cases cs : childrenOf nodes (i + 1) with
      | nil =>
        rw [cs] at head
        exact absurd head more
      | cons d ds =>
        rw [cs] at head
        rw [head]
        exact List.mem_cons_self
    | @next c child _ here more ih =>
      obtain ⟨i, rfl, at_i⟩ := node_ok here
      obtain ⟨positive, mem⟩ := ih
      have before := linked.parent_before positive mem
      obtain ⟨q, rfl⟩ : ∃ q, p = q + 1 := ⟨p - 1, by omega⟩
      have at_q := List.getElem?_eq_getElem (show q < t.ar.length by omega)
      exact ⟨positive, (linked.children q _ at_q).next_mem mem at_i more⟩
  · rintro ⟨positive, mem⟩
    have before := linked.parent_before positive mem
    obtain ⟨q, rfl⟩ : ∃ q, p = q + 1 := ⟨p - 1, by omega⟩
    have at_q := List.getElem?_eq_getElem (show q < t.ar.length by omega)
    exact (linked.children q _ at_q).childOf
      (fun more => .first ((node_succ t).mpr at_q) more) c mem

theorem Linked.reached (linked : Linked t nodes) {i : Nat} (inside : i < t.ar.length) :
    Relation.ReflTransGen t.ChildOf 1 (i + 1) := by
  induction i using Nat.strong_induction_on with
  | _ i ih =>
    cases i with
    | zero => exact .refl
    | succ k =>
      obtain ⟨⟨p, item⟩, at_k⟩ : ∃ e, nodes[k + 1]? = some e :=
        ⟨_, List.getElem?_eq_getElem (by rw [← linked.size]; exact inside)⟩
      obtain ⟨positive, before⟩ := linked.parents k p item at_k
      obtain ⟨q, rfl⟩ : ∃ q, p = q + 1 := ⟨p - 1, by omega⟩
      refine .tail (ih q (by omega) (by omega)) ?_
      exact linked.childOf_iff.mpr ⟨positive, mem_childrenOf.mpr ⟨k + 1, item, rfl, at_k⟩⟩

end Nodes

end Tree

end Mewa
