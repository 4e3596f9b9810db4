/- Module: Mewa/Scope/Traversal
   digest: The depth first iterator of a tree visits its nodes in preorder. -/

import Mathlib.Data.List.Nodup
import Mewa.Lib.Preorder
import Mewa.Scope.Tree

set_option autoImplicit false
set_option relaxedAutoImplicit false

namespace Mewa

open Mewa.Lib

/-- A position in the array of the nodes and the numbers of the nodes above, the last one first.
    The bottom of the stack is the position of the end. -/
structure DepthfirstIterator where
  position : Nat
  stack : List Nat
  deriving DecidableEq, Repr

namespace DepthfirstIterator

def make (arpos arsize : Nat) : DepthfirstIterator :=
  ⟨arpos, if arpos ≠ arsize then [arsize + 1] else []⟩

def depth (it : DepthfirstIterator) : Nat := if it.stack.isEmpty then 0 else it.stack.length - 1

end DepthfirstIterator

namespace Tree

variable {α β : Type}

def deref (t : Tree α) (position : Nat) : Except Failure (TreeNode α) :=
  match t.ar[position]? with
  | none => .error .outOfRange
  | some node => .ok node

/-- The way up to the first node above with another sibling, or to the end. -/
def ascend (t : Tree α) : Nat → List Nat → Except Failure DepthfirstIterator
  | position, [] => .ok ⟨position, []⟩
  | _, back :: stack =>
    if stack.isEmpty then .ok ⟨back - 1, []⟩
    else do
      let node ← t.deref (back - 1)
      if node.next ≠ 0 then .ok ⟨node.next - 1, stack⟩ else ascend t (back - 1) stack

def skip (t : Tree α) (it : DepthfirstIterator) : Except Failure DepthfirstIterator := do
  let node ← t.deref it.position
  if node.chld ≠ 0 then .ok ⟨node.chld - 1, (it.position + 1) :: it.stack⟩
  else if node.next ≠ 0 then .ok ⟨node.next - 1, it.stack⟩
  else if it.stack.isEmpty then logicError
  else t.ascend it.position it.stack

def beginIterator (t : Tree α) : DepthfirstIterator := .make 0 t.ar.length

def endIterator (t : Tree α) : DepthfirstIterator := .make t.ar.length t.ar.length

def increments (t : Tree α) : Nat → DepthfirstIterator → Except Failure DepthfirstIterator
  | 0, it => .ok it
  | n + 1, it => do increments t n (← t.skip it)

/-! The iterator on its way. -/

section Steps

variable {t : Tree α} {nodes : List (Nat × α)}

/-- The increments from one iterator to another one, with the numbers and the depths on the way. -/
inductive Walk (t : Tree α) : DepthfirstIterator → List (Nat × Nat) → DepthfirstIterator → Prop
  | nil (it : DepthfirstIterator) : Walk t it [] it
  | cons {it it' last : DepthfirstIterator} {visits : List (Nat × Nat)} : t.skip it = .ok it' →
      Walk t it' visits last → Walk t it ((it.position + 1, it.depth) :: visits) last

theorem Walk.append {it it' last : DepthfirstIterator} {visits visits' : List (Nat × Nat)}
    (first : Walk t it visits it') (second : Walk t it' visits' last) :
    Walk t it (visits ++ visits') last := by
  induction first with
  | nil => exact second
  | cons skipped _ ih => exact .cons skipped (ih second)

theorem Walk.increments {it last : DepthfirstIterator} {visits : List (Nat × Nat)}
    (walk : Walk t it visits last) : t.increments visits.length it = .ok last := by
  induction walk with
  | nil => rfl
  | cons skipped _ ih =>
    simp only [List.length_cons, Tree.increments, skipped, ok_bind]
    exact ih

theorem Walk.visit {it last : DepthfirstIterator} {visits : List (Nat × Nat)}
    (walk : Walk t it visits last) {k : Nat} {v : Nat × Nat} (here : visits[k]? = some v) :
    ∃ it', t.increments k it = .ok it' ∧ it'.position + 1 = v.1 ∧ it'.depth = v.2 := by
  induction walk generalizing k with
  | nil => simp at here
  | @cons it _ _ _ skipped _ ih =>
    cases k with
    | zero =>
      obtain rfl := Option.some.inj here
      exact ⟨it, rfl, rfl, rfl⟩
    | succ k =>
      obtain ⟨it', moved, place⟩ := ih here
      refine ⟨it', ?_, place⟩
      simp only [Tree.increments, skipped, ok_bind]
      exact moved

theorem depth_of_length {it : DepthfirstIterator} {d : Nat} (size : it.stack.length = d + 1) :
    it.depth = d := by
  unfold DepthfirstIterator.depth
  cases stack : it.stack with
  | nil => simp [stack] at size
  | cons back rest => simpa [stack] using size

theorem deref_ok {i : Nat} {node : TreeNode α} (here : t.ar[i]? = some node) :
    t.deref i = .ok node := by
  unfold deref
  rw [here]

theorem ascend_position {stack : List Nat} (some_back : stack ≠ []) (position position' : Nat) :
    t.ascend position stack = t.ascend position' stack := by
  cases stack with
  | nil => exact absurd rfl some_back
  | cons back rest => rfl

theorem Siblings.positive {c : Nat} {cs : List Nat} (siblings : Siblings t.ar c cs)
    (some_node : cs ≠ []) : c ≠ 0 := by
  cases siblings with
  | nil => exact absurd rfl some_node
  | cons _ _ => exact Nat.succ_ne_zero _

theorem walk_siblings (linked : Linked t nodes) {d : Nat} {cs : List Nat}
    {visits : List (Nat × Nat)} (order : VisitsFrom (childrenOf nodes) d cs visits) {c : Nat}
    (siblings : Siblings t.ar c cs) {stack : List Nat} (size : stack.length = d + 1) {position : Nat}
    {last : DepthfirstIterator} (up : t.ascend position stack = .ok last) (some_node : cs ≠ []) :
    Walk t ⟨c - 1, stack⟩ visits last := by
  induction order generalizing c stack position last with
  | nil => exact absurd rfl some_node
  | @cons d head cs inner rest below after ih_inner ih_rest =>
    cases siblings with
    | @cons i node _ here behind =>
      have some_back : stack ≠ [] := by
        rintro rfl
        cases size
      -- where the iterator goes after the nodes below the first sibling
      obtain ⟨mid, goes, walk_rest⟩ : ∃ mid, (if node.next ≠ 0 then
          .ok ⟨node.next - 1, stack⟩ else t.ascend i stack) = .ok mid ∧
          Walk t mid rest last := by
        by_cases alone : cs = []
        · subst alone
          cases after
          have no_next : node.next = 0 := behind.head
          refine ⟨last, ?_, .nil last⟩
          rw [no_next, ascend_position some_back i position]
          exact up
        · have more : node.next ≠ 0 := behind.positive alone
          exact ⟨⟨node.next - 1, stack⟩, if_pos more, ih_rest behind size up alone⟩
      have below_node := linked.children i node here
      have depth : DepthfirstIterator.depth ⟨i, stack⟩ = d := depth_of_length size
      show Walk t ⟨i, stack⟩ ((i + 1, d) :: (inner ++ rest)) last
      rw [← depth]
      by_cases leaf : childrenOf nodes (i + 1) = []
      · rw [leaf] at below below_node
        cases below
        have no_child : node.chld = 0 := below_node.head
        refine .cons ?_ walk_rest
        unfold skip
        rw [deref_ok here, ok_bind]
        simpa [no_child, some_back] using goes
      · have child : node.chld ≠ 0 := below_node.positive leaf
        have back_up : t.ascend i ((i + 1) :: stack) = .ok mid := by
          show (if stack.isEmpty then _ else _) = _
          rw [if_neg (by simpa using some_back), Nat.add_sub_cancel, deref_ok here]
          exact goes
        have walk_inner := ih_inner below_node (by simp [size]) back_up leaf
        refine .cons ?_ (walk_inner.append walk_rest)
        unfold skip
        rw [deref_ok here, ok_bind, if_pos child]

end Steps

/-! A whole tree. -/

section Whole

variable {t : Tree α} {nodes : List (Nat × α)}

def RootAlone (t : Tree α) : Prop := ∃ node, t.ar[0]? = some node ∧ node.next = 0

theorem rootAlone_ofRoot (item : α) : (ofRoot item).RootAlone := ⟨_, rfl, rfl⟩

theorem Linked.root_parent (linked : Linked t nodes) {p : Nat} (positive : 0 < p) :
    1 ∉ childrenOf nodes p := by
  intro mem
  have before := linked.parent_before positive mem
  omega

theorem RootAlone.addChild (alone : t.RootAlone) (linked : Linked t nodes) {i : Nat}
    (inside : i < nodes.length) {item : α} {t' : Tree α} {n : Nat}
    (added : t.addChild (i + 1) item = .ok (t', n)) : t'.RootAlone := by
  obtain ⟨root, here, no_next⟩ := alone
  have some_root : 0 < t.ar.length := (List.getElem?_eq_some_iff.mp here).1
  have size := linked.size
  have bound : i < t.ar.length := by omega
  have parent_at := List.getElem?_eq_getElem bound
  have siblings := linked.children i _ parent_at
  simp only [Tree.addChild, parent_at] at added
  cases split : childrenOf nodes (i + 1) with
  | nil =>
    rw [split] at siblings
    have leaf : t.ar[i].chld = 0 := siblings.head
    rw [if_pos leaf] at added
    obtain ⟨rfl, -⟩ := Prod.mk.inj (Except.ok.inj added)
    unfold RootAlone
    simp only [getElem?_added t.ar _ _ bound, here]
    split
    · exact ⟨_, rfl, no_next⟩
    · rw [if_neg (by omega)]
      exact ⟨root, rfl, no_next⟩
  | cons first rest =>
    have own : first ∈ childrenOf nodes (i + 1) := split ▸ List.mem_cons_self
    obtain ⟨k, item', rfl, at_k⟩ := mem_childrenOf.mp own
    rw [split] at siblings
    have child : t.ar[i].chld = k + 1 := siblings.head
    rw [if_neg (by omega), child] at added
    have below := (List.getElem?_eq_some_iff.mp at_k).1
    have known := linked.last (i + 1) (k + 1) rest (Nat.succ_pos i) split
    obtain ⟨last, ends⟩ : ∃ last, ((k + 1) :: rest).getLast? = some last :=
      ⟨_, List.getLast?_eq_some_getLast (List.cons_ne_nil _ _)⟩
    have mem_last : last ∈ childrenOf nodes (i + 1) := split ▸ List.mem_of_getLast? ends
    obtain ⟨m, _, rfl, at_m⟩ := mem_childrenOf.mp mem_last
    have inside_m := (List.getElem?_eq_some_iff.mp at_m).1
    have entry : (t.lastar ++ [0])[k]? = some (m + 1) := by
      rw [List.getElem?_append_left (by rw [linked.length]; exact below)]
      exact known.trans ends
    -- the last child is not the root
    have other : m ≠ 0 := by
      rintro rfl
      exact linked.root_parent (Nat.succ_pos i) mem_last
    simp only [addSibling, entry] at added
    obtain ⟨rfl, -⟩ := Prod.mk.inj (Except.ok.inj added)
    unfold RootAlone
    rw [getElem?_added t.ar _ _ (by omega), if_neg (by omega), if_neg (by omega)]
    exact ⟨root, here, no_next⟩

/-- The number of parents above a node. -/
inductive Distance (nodes : List (Nat × α)) : Nat → Nat → Prop
  | root : Distance nodes 1 0
  | child {p c d : Nat} : Distance nodes p d → c ∈ childrenOf nodes p → Distance nodes c (d + 1)

structure Traverses (t : Tree α) (nodes : List (Nat × α)) (visits : List (Nat × Nat)) : Prop where
  order : VisitsFrom (childrenOf nodes) 0 [1] visits
  once : (visits.map Prod.fst).Perm (List.range' 1 nodes.length)
  distance : ∀ v ∈ visits, Distance nodes v.1 v.2
  steps : ∀ (k : Nat) v, visits[k]? = some v → ∃ it, t.increments k t.beginIterator = .ok it ∧
    it.position + 1 = v.1 ∧ it.depth = v.2 ∧ it.position ≠ t.endIterator.position
  ends : ∃ it, t.increments nodes.length t.beginIterator = .ok it ∧
    it.position = t.endIterator.position

theorem Linked.rank_lt (linked : Linked t nodes) (p c : Nat) (mem : c ∈ childrenOf nodes p) :
    p < c ∧ c ≤ nodes.length := by
  rcases Nat.eq_zero_or_pos p with rfl | positive
  · obtain ⟨k, item, rfl, here⟩ := mem_childrenOf.mp mem
    have inside := (List.getElem?_eq_some_iff.mp here).1
    omega
  · have before := linked.parent_before positive mem
    rw [linked.size] at before
    exact before

theorem count_childrenOf {x p : Nat} (mem : x ∈ childrenOf nodes p) (c : Nat) :
    (childrenOf nodes c).count x = if c = p then 1 else 0 := by
  split
  · rename_i same
    subst same
    exact List.count_eq_one_of_mem (childrenOf_nodup nodes c) mem
  · rename_i other
    exact List.count_eq_zero.mpr fun mem' => other (childrenOf_unique mem' mem)

theorem Linked.some_root (linked : Linked t nodes) : 0 < nodes.length := by
  obtain ⟨root, first⟩ := linked.root
  exact List.length_pos_of_mem (List.mem_of_mem_head? first)

theorem Linked.visited_once (linked : Linked t nodes) {visits : List (Nat × Nat)}
    (order : VisitsFrom (childrenOf nodes) 0 [1] visits) :
    (visits.map Prod.fst).Perm (List.range' 1 nodes.length) := by
  have some_root := linked.some_root
  have no_node : ∀ x, x = 0 ∨ nodes.length < x → (visits.map Prod.fst).count x = 0 := by
    intro x outside
    rw [order.count_root fun c mem => by have := linked.rank_lt c x mem; omega]
    apply List.count_eq_zero.mpr
    intro mem
    rw [List.mem_singleton] at mem
    omega
  have one : ∀ x, 0 < x → x ≤ nodes.length → (visits.map Prod.fst).count x = 1 := by
    intro x
    induction x using Nat.strong_induction_on with
    | _ x ih =>
      intro positive inside
      obtain ⟨⟨p, item⟩, here⟩ : ∃ e, nodes[x - 1]? = some e :=
        ⟨_, List.getElem?_eq_getElem (by omega)⟩
      have mem : x ∈ childrenOf nodes p := mem_childrenOf.mpr ⟨x - 1, item, by omega, here⟩
      rw [order.count_child (count_childrenOf mem)]
      by_cases first : x = 1
      · subst first
        obtain ⟨root, head⟩ := linked.root
        rw [List.head?_eq_getElem?] at head
        obtain rfl : p = 0 := congrArg Prod.fst (Option.some.inj (here.symm.trans head))
        rw [no_node 0 (Or.inl rfl)]
        rfl
      · have at_succ : nodes[x - 2 + 1]? = some (p, item) := by
          rwa [show x - 2 + 1 = x - 1 by omega]
        have parent := linked.parents (x - 2) p item at_succ
        rw [ih p (by omega) parent.1 (by omega)]
        have not_root : [1].count x = 0 := List.count_eq_zero.mpr (by simpa using first)
        omega
  apply List.perm_iff_count.mpr
  intro x
  by_cases inside : 0 < x ∧ x ≤ nodes.length
  · have mem : x ∈ List.range' 1 nodes.length := List.mem_range'_1.mpr (by omega)
    rw [one x inside.1 inside.2, List.count_eq_one_of_mem List.nodup_range' mem]
  · have outside : x ∉ List.range' 1 nodes.length := fun mem => by
      have := List.mem_range'_1.mp mem
      omega
    rw [no_node x (by omega), List.count_eq_zero.mpr outside]

theorem Linked.traverses (linked : Linked t nodes) (alone : t.RootAlone) :
    ∃ visits, Traverses t nodes visits ∧ Walk t t.beginIterator visits ⟨t.ar.length, []⟩ := by
  have size := linked.size
  have some_root := linked.some_root
  obtain ⟨visits, order⟩ := VisitsFrom.exists_of_rank (fun c => nodes.length + 1 - c)
    (fun p c mem => by have := linked.rank_lt p c mem; omega) 0 [1]
  have once := linked.visited_once order
  have count : visits.length = nodes.length := by
    simpa using once.length_eq
  obtain ⟨root, here, no_next⟩ := alone
  have siblings : Siblings t.ar 1 [1] := .cons here (no_next ▸ .nil)
  have start : t.beginIterator = ⟨0, [t.ar.length + 1]⟩ := by
    unfold beginIterator DepthfirstIterator.make
    rw [if_pos (by omega)]
  have walk : Walk t t.beginIterator visits ⟨t.ar.length, []⟩ := by
    have up : t.ascend 0 [t.ar.length + 1] = .ok ⟨t.ar.length, []⟩ := rfl
    rw [start]
    exact walk_siblings linked order siblings rfl up (List.cons_ne_nil _ _)
  have stop : t.endIterator.position = t.ar.length := rfl
  refine ⟨visits, ⟨order, once, ?_, ?_, ?_⟩, walk⟩
  · refine order.invariant (P := Distance nodes) ?_ ?_
    · intro c mem
      rw [List.mem_singleton.mp mem]
      exact .root
    · exact fun p d distance c mem => distance.child mem
  · intro k v at_k
    obtain ⟨it, moved, place, depth⟩ := walk.visit at_k
    refine ⟨it, moved, place, depth, ?_⟩
    have mem : v.1 ∈ List.range' 1 nodes.length :=
      once.mem_iff.mp (List.mem_map.mpr ⟨v, List.mem_of_getElem? at_k, rfl⟩)
    have bound := List.mem_range'_1.mp mem
    rw [stop]
    omega
  · refine ⟨⟨t.ar.length, []⟩, ?_, rfl⟩
    rw [← count]
    exact walk.increments

end Whole

end Tree

end Mewa
