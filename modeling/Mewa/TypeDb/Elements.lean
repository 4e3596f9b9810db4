/- Module: Mewa/TypeDb/Elements
   digest: The elements of a relation map after any calls in nested scopes, and what is seen of them. -/

import Mathlib.Data.List.Basic
import Mewa.Lib.Firsts
import Mewa.Scope.Runs
import Mewa.TypeDb.Relation

set_option autoImplicit false
set_option relaxedAutoImplicit false

namespace Mewa

open Mewa.Lib Definition

variable {κ V : Type}

/-- A call that relates two nodes in a scope. -/
structure RelationCall (κ V : Type) where
  scope : Scope
  left : κ
  right : κ
  value : V
  tag : Int
  weight : ℚ
  deriving DecidableEq

namespace RelationCall

def Same (c d : RelationCall κ V) : Prop :=
  c.scope = d.scope ∧ c.left = d.left ∧ c.right = d.right ∧ c.tag = d.tag

instance [DecidableEq κ] (c d : RelationCall κ V) : Decidable (c.Same d) :=
  inferInstanceAs (Decidable (_ ∧ _ ∧ _ ∧ _))

def Valid (c : RelationCall κ V) : Prop :=
  TagMask.minTag ≤ c.tag ∧ c.tag ≤ TagMask.maxTag ∧ 0 ≤ c.weight

instance (c : RelationCall κ V) : Decidable c.Valid :=
  inferInstanceAs (Decidable (_ ∧ _ ∧ _))

/-- The elements after a call: one more, unless the call throws or repeats an element. -/
def addTo [DecidableEq κ] (added : List (RelationCall κ V)) (c : RelationCall κ V) :
    List (RelationCall κ V) :=
  if c.Valid ∧ ∀ d ∈ added, ¬ d.Same c then added ++ [c] else added

def reply [DecidableEq κ] [DecidableEq V] (added : List (RelationCall κ V))
    (c : RelationCall κ V) : Except Failure Unit :=
  if c.tag > TagMask.maxTag ∨ c.tag < TagMask.minTag then
    .error (.thrown ⟨.BadRelationTag, toString c.tag, 0⟩)
  else if c.weight < 0 then .error (.thrown ⟨.BadRelationWeight, formatWeight c.weight, 0⟩)
  else if ∃ d ∈ added, d.Same c ∧ d.value ≠ c.value then
    .error (.thrown ⟨.DuplicateDefinition, "", 0⟩)
  else .ok ()

def element (c : RelationCall κ V) (next : Option Nat) : ListElement κ V :=
  ⟨c.right, c.value, c.weight, next, TagMask.tagValFromTag c.tag⟩

def result (c : RelationCall κ V) : ResultElement κ V :=
  ⟨c.right, c.value, c.weight, TagMask.tagValFromTag c.tag⟩

def selected (selectTags : TagMask) (c : RelationCall κ V) : Bool :=
  selectTags.matchesTag (TagMask.tagValFromTag c.tag)

def definition (c : RelationCall κ V) : Definition κ Unit := ⟨c.left, c.scope, ()⟩

end RelationCall

def ScopedRelationMap.runSets [LinearOrder κ] [DecidableEq V] (rel : ScopedRelationMap κ V) :
    List (RelationCall κ V) → ScopedRelationMap κ V × List (Except Failure Unit)
  | [] => (rel, [])
  | c :: calls =>
    let (rel', result) := rel.set c.scope c.left c.right c.value c.tag c.weight
    let (rel'', results) := ScopedRelationMap.runSets rel' calls
    (rel'', result :: results)

open RelationCall

/-! The lists of elements, linked through one array. -/

section Threads

/-- The elements on a list from its first link, with their indices. -/
inductive Threads (list : List (ListElement κ V)) :
    Option Nat → List (RelationCall κ V × Nat) → Prop
  | nil : Threads list none []
  | cons {c : RelationCall κ V} {i : Nat} {next : Option Nat} {l : List (RelationCall κ V × Nat)} :
      list[i]? = some (c.element next) → Threads list next l → Threads list (some i) ((c, i) :: l)

variable {list : List (ListElement κ V)} {start : Option Nat} {l : List (RelationCall κ V × Nat)}

theorem Threads.append (threads : Threads list start l) (pushed : List (ListElement κ V)) :
    Threads (list ++ pushed) start l := by
  induction threads with
  | nil => exact .nil
  | cons node _ ih =>
    refine .cons ?_ ih
    rw [List.getElem?_append_left (List.getElem?_eq_some_iff.mp node).1, node]

theorem Threads.modify (threads : Threads list start l) {li : Nat} (other : ∀ p ∈ l, p.2 ≠ li)
    (next : Option Nat) :
    Threads (list.modify li fun le => { le with next := next }) start l := by
  induction threads with
  | nil => exact .nil
  | cons node _ ih =>
    refine .cons ?_ (ih fun p mem => other p (List.mem_cons_of_mem _ mem))
    have differs := Ne.symm (other _ List.mem_cons_self)
    simpa [List.getElem?_modify, differs] using node

theorem Threads.link {c d : RelationCall κ V} {li n : Nat}
    (threads : Threads list start (l ++ [(d, li)]))
    (distinct : ((l ++ [(d, li)]).map Prod.snd).Nodup) (node : list[n]? = some (c.element none))
    (fresh : n ≠ li) :
    Threads (list.modify li fun le => { le with next := some n }) start
      (l ++ [(d, li)] ++ [(c, n)]) := by
  have last : (list.modify li fun le => { le with next := some n })[n]? =
      some (c.element none) := by
    simpa [List.getElem?_modify, Ne.symm fresh] using node
  induction l generalizing start with
  | nil =>
    cases threads with
    | cons here rest =>
      cases rest
      have own : (list.modify li fun le => { le with next := some n })[li]? =
          some (d.element (some n)) := by
        simp [here, element]
      exact .cons own (.cons last .nil)
  | cons p l ih =>
    cases threads with
    | @cons c' i next _ here rest =>
      rw [List.cons_append, List.map_cons] at distinct
      obtain ⟨differs, distinct⟩ := List.nodup_cons.mp distinct
      have other : li ≠ i := fun same => differs (by simp [same])
      have kept : (list.modify li fun le => { le with next := some n })[i]? =
          some (c'.element next) := by
        simpa [List.getElem?_modify, other] using here
      exact .cons kept (ih rest distinct)

theorem findLast_eq [LinearOrder κ] [DecidableEq V] (threads : Threads list start l) (right : κ)
    (value : V) (tagval : Nat) {fuel : Nat} (enough : l.length ≤ fuel) (prev : Option Nat) :
    ScopedRelationMap.findLast list right value tagval fuel start prev =
      match l.find? fun p => decide (p.1.right = right ∧
          tagval = TagMask.tagValFromTag p.1.tag) with
      | none => .ok (some ((l.getLast?.map Prod.snd).or prev))
      | some p => if p.1.value = value then .ok none
        else .error (.thrown ⟨.DuplicateDefinition, "", 0⟩) := by
  induction threads generalizing fuel prev with
  | nil => cases fuel <;> rfl
  | @cons c i next l node _ ih =>
    cases fuel with
    | zero => simp at enough
    | succ fuel =>
      unfold ScopedRelationMap.findLast
      rw [node]
      by_cases same : c.right = right ∧ tagval = TagMask.tagValFromTag c.tag
      · rw [List.find?_cons_of_pos (by simpa using same)]
        simp only [element, same.1, same.2, and_self, if_true]
      · rw [List.find?_cons_of_neg (by simpa using same)]
        have differs : ¬ ((c.element next).related = right ∧ tagval = (c.element next).tagval) :=
          same
        simp only [if_neg differs]
        rw [show (c.element next).next = next from rfl, ih (by simpa using enough)]
        cases l with
        | nil => simp
        | cons p l => simp [List.getLast?_cons]

theorem collectList_eq [LinearOrder κ] (threads : Threads list start l) (selectTags : TagMask)
    {fuel : Nat} (enough : l.length ≤ fuel) (rt : List (ResultElement κ V)) :
    ScopedRelationMap.collectList list selectTags fuel start rt =
      .ok ((((l.map Prod.fst).filter (selected selectTags)).map result).foldl
        (appendFirst ResultElement.right) rt) := by
  induction threads generalizing fuel rt with
  | nil => cases fuel <;> rfl
  | @cons c i next l node _ ih =>
    cases fuel with
    | zero => simp at enough
    | succ fuel =>
      unfold ScopedRelationMap.collectList
      rw [node]
      simp only
      rw [show (c.element next).next = next from rfl, ih (by simpa using enough)]
      cases tag : selected selectTags c with
      | false =>
        have unselected : ¬ (selectTags.matchesTag (c.element next).tagval = true ∧
            ∀ e ∈ rt, e.right ≠ (c.element next).related) := by
          intro h
          rw [selected] at tag
          rw [show (c.element next).tagval = TagMask.tagValFromTag c.tag from rfl, tag] at h
          simp at h
        rw [if_neg unselected, List.map_cons, List.filter_cons_of_neg (by simp [tag])]
      | true =>
        have appended : (if selectTags.matchesTag (c.element next).tagval = true ∧
              ∀ e ∈ rt, e.right ≠ (c.element next).related then
              rt ++ [⟨(c.element next).related, (c.element next).value, (c.element next).weight,
                (c.element next).tagval⟩] else rt) =
            appendFirst ResultElement.right rt c.result := by
          have tag' : selectTags.matchesTag (c.element next).tagval = true := tag
          unfold appendFirst
          by_cases fresh : ∀ e ∈ rt, e.right ≠ c.right
          · rw [if_pos ⟨tag', fresh⟩]
            exact (if_pos fresh).symm
          · rw [if_neg fun h => fresh h.2]
            exact (if_neg fresh).symm
        rw [appended, List.map_cons, List.filter_cons_of_pos tag, List.map_cons, List.foldl_cons]

end Threads

/-! The state of a relation map that stores some elements. -/

section Stores

variable [LinearOrder κ]

/-- The elements added for a left node in a scope, with their numbers. -/
def elementsOf (added : List (RelationCall κ V)) (left : κ) (scope : Scope) :
    List (RelationCall κ V × Nat) :=
  added.zipIdx.filter fun p => decide (p.1.left = left ∧ p.1.scope = scope)

/-- Every scope of a left node leads to the list of its elements in the order they were added. -/
structure Stores (added : List (RelationCall κ V)) (heads : List (Definition κ Int))
    (rel : ScopedRelationMap κ V) : Prop where
  represents : Represents heads rel.map
  wellScoped : WellScoped heads
  nullval : rel.map.invtree.nullval = -1
  length : rel.list.length = added.length
  valid : ∀ c ∈ added, c.Valid
  distinct : ∀ {i j : Nat} {c d : RelationCall κ V}, added[i]? = some c → added[j]? = some d →
    c.Same d → i = j
  threads : ∀ d ∈ heads, 0 ≤ d.value ∧
    Threads rel.list (some d.value.toNat) (elementsOf added d.key d.scope)
  covered : ∀ c ∈ added, ∃ d ∈ heads, d.key = c.left ∧ d.scope = c.scope

variable {added : List (RelationCall κ V)} {heads : List (Definition κ Int)}
  {rel : ScopedRelationMap κ V} {c : RelationCall κ V}

theorem mem_elementsOf {left : κ} {scope : Scope} {p : RelationCall κ V × Nat} :
    p ∈ elementsOf added left scope ↔
      added[p.2]? = some p.1 ∧ p.1.left = left ∧ p.1.scope = scope := by
  unfold elementsOf
  rw [List.mem_filter, decide_eq_true_eq, List.mem_zipIdx_iff_getElem?]

theorem elementsOf_snoc (added : List (RelationCall κ V)) (c : RelationCall κ V) (left : κ)
    (scope : Scope) :
    elementsOf (added ++ [c]) left scope = elementsOf added left scope ++
      if c.left = left ∧ c.scope = scope then [(c, added.length)] else [] := by
  unfold elementsOf
  rw [List.zipIdx_append, List.filter_append]
  by_cases same : c.left = left ∧ c.scope = scope
  · simp [same]
  · simp [same]

theorem elementsOf_increasing (added : List (RelationCall κ V)) (left : κ) (scope : Scope) :
    (elementsOf added left scope).Pairwise fun p q => p.2 < q.2 := by
  refine List.Pairwise.filter _ ?_
  rw [← List.pairwise_map (f := Prod.snd) (R := (· < ·)), List.zipIdx_map_snd]
  exact List.pairwise_lt_range'

theorem elementsOf_length_le (added : List (RelationCall κ V)) (left : κ) (scope : Scope) :
    (elementsOf added left scope).length ≤ added.length := by
  refine (List.length_filter_le _ _).trans ?_
  rw [List.length_zipIdx]

theorem stores_empty : Stores ([] : List (RelationCall κ V)) [] ScopedRelationMap.empty where
  represents := represents_empty (-1)
  wellScoped := ⟨by simp, by simp⟩
  nullval := rfl
  length := rfl
  valid := by simp
  distinct := by simp
  threads := by simp
  covered := by simp

theorem tagValFromTag_inj {tag tag' : Int} (low : TagMask.minTag ≤ tag)
    (low' : TagMask.minTag ≤ tag') :
    TagMask.tagValFromTag tag = TagMask.tagValFromTag tag' ↔ tag = tag' := by
  unfold TagMask.minTag at low low'
  unfold TagMask.tagValFromTag
  omega

theorem Stores.find_same (stores : Stores added heads rel) (valid : c.Valid) :
    (elementsOf added c.left c.scope).find? (fun p => decide (p.1.right = c.right ∧
        TagMask.tagValFromTag c.tag = TagMask.tagValFromTag p.1.tag)) = none ∧
      (∀ d ∈ added, ¬ d.Same c) ∨
    ∃ d i, (elementsOf added c.left c.scope).find? (fun p => decide (p.1.right = c.right ∧
        TagMask.tagValFromTag c.tag = TagMask.tagValFromTag p.1.tag)) = some (d, i) ∧
      d ∈ added ∧ d.Same c ∧ ∀ e ∈ added, e.Same c → e = d := by
  cases found : (elementsOf added c.left c.scope).find? (fun p => decide (p.1.right = c.right ∧
      TagMask.tagValFromTag c.tag = TagMask.tagValFromTag p.1.tag)) with
  | none =>
    refine Or.inl ⟨rfl, fun d mem same => ?_⟩
    obtain ⟨i, node⟩ := List.getElem?_of_mem mem
    have absent := List.find?_eq_none.mp found (d, i)
      (mem_elementsOf.mpr ⟨node, same.2.1, same.1⟩)
    exact absent (by simp [same.2.2.1, same.2.2.2])
  | some p =>
    obtain ⟨d, i⟩ := p
    obtain ⟨node, left, scope⟩ := mem_elementsOf.mp (List.mem_of_find?_eq_some found)
    have here := List.find?_some found
    simp only [decide_eq_true_eq] at here
    have mem := List.mem_of_getElem? node
    have tag := (tagValFromTag_inj valid.1 (stores.valid d mem).1).mp here.2
    have same : d.Same c := ⟨scope, left, here.1, tag.symm⟩
    refine Or.inr ⟨d, i, rfl, mem, same, fun e mem' same' => ?_⟩
    obtain ⟨j, node'⟩ := List.getElem?_of_mem mem'
    have equal : e.Same d := ⟨same'.1.trans same.1.symm, same'.2.1.trans same.2.1.symm,
      same'.2.2.1.trans same.2.2.1.symm, same'.2.2.2.trans same.2.2.2.symm⟩
    obtain rfl := stores.distinct node' node equal
    exact Option.some.inj (node'.symm.trans node)

theorem Stores.push (stores : Stores added heads rel) (valid : c.Valid)
    (fresh : ∀ d ∈ added, ¬ d.Same c) {heads' : List (Definition κ Int)}
    {rel' : ScopedRelationMap κ V} (represents : Represents heads' rel'.map)
    (wellScoped : WellScoped heads') (null : rel'.map.invtree.nullval = -1)
    (length : rel'.list.length = added.length + 1)
    (threads : ∀ d ∈ heads', 0 ≤ d.value ∧
      Threads rel'.list (some d.value.toNat) (elementsOf (added ++ [c]) d.key d.scope))
    (sub : heads ⊆ heads') (own : ∃ d ∈ heads', d.key = c.left ∧ d.scope = c.scope) :
    Stores (added ++ [c]) heads' rel' where
  represents := represents
  wellScoped := wellScoped
  nullval := null
  length := by rw [length, List.length_append, List.length_singleton]
  valid := by
    intro d mem
    rcases List.mem_append.mp mem with old | last
    · exact stores.valid d old
    · rwa [List.mem_singleton.mp last]
  distinct := by
    have cases : ∀ {i : Nat} {d : RelationCall κ V}, (added ++ [c])[i]? = some d →
        added[i]? = some d ∨ i = added.length ∧ d = c := by
      intro i d node
      rcases Nat.lt_or_ge i added.length with old | last
      · rw [List.getElem?_append_left old] at node
        exact Or.inl node
      · rw [List.getElem?_append_right last, List.getElem?_singleton] at node
        split at node
        · exact Or.inr ⟨by omega, (Option.some.inj node).symm⟩
        · simp at node
    intro i j d e node node' same
    rcases cases node with old | ⟨rfl, rfl⟩
    · rcases cases node' with old' | ⟨rfl, rfl⟩
      · exact stores.distinct old old' same
      · exact absurd same (fresh d (List.mem_of_getElem? old))
    · rcases cases node' with old' | ⟨rfl, rfl⟩
      · exact absurd ⟨same.1.symm, same.2.1.symm, same.2.2.1.symm, same.2.2.2.symm⟩
          (fresh e (List.mem_of_getElem? old'))
      · rfl
  threads := threads
  covered := by
    intro d mem
    rcases List.mem_append.mp mem with old | last
    · obtain ⟨h, mem', here⟩ := stores.covered d old
      exact ⟨h, sub mem', here⟩
    · rwa [List.mem_singleton.mp last]

theorem Stores.first (stores : Stores added heads rel) (valid : c.Valid)
    (wellScoped : WellScoped (heads ++ [⟨c.left, c.scope, (rel.list.length : Int)⟩]))
    {map : ScopedMap κ Int}
    (represents : Represents (heads ++ [⟨c.left, c.scope, (rel.list.length : Int)⟩]) map)
    (null : map.invtree.nullval = -1) (unknown : c.scope ∉ scopesOf heads c.left) :
    Stores (added ++ [c]) (heads ++ [⟨c.left, c.scope, (rel.list.length : Int)⟩])
      ⟨map, rel.list ++ [c.element none]⟩ := by
  have none_here : ∀ d ∈ added, d.left = c.left → d.scope = c.scope → False := by
    intro d mem left scope
    obtain ⟨h, mem', key, scope'⟩ := stores.covered d mem
    exact unknown ⟨h, mem', key.trans left, scope'.trans scope⟩
  refine stores.push valid (fun d mem same => none_here d mem same.2.1 same.1) represents
    wellScoped null (by simp [stores.length]) (fun d mem => ?_) (List.subset_append_left _ _)
    ⟨_, List.mem_append_right _ List.mem_cons_self, rfl, rfl⟩
  rw [elementsOf_snoc]
  rcases List.mem_append.mp mem with old | last
  · obtain ⟨low, threads⟩ := stores.threads d old
    have other : ¬ (c.left = d.key ∧ c.scope = d.scope) := fun same =>
      unknown ⟨d, old, same.1.symm, same.2.symm⟩
    rw [if_neg other, List.append_nil]
    exact ⟨low, threads.append _⟩
  · rw [List.mem_singleton.mp last]
    have empty : elementsOf added c.left c.scope = [] := by
      refine List.eq_nil_iff_forall_not_mem.mpr fun p mem => ?_
      obtain ⟨node, left, scope⟩ := mem_elementsOf.mp mem
      exact none_here _ (List.mem_of_getElem? node) left scope
    show 0 ≤ (rel.list.length : Int) ∧ Threads _ (some (rel.list.length : Int).toNat)
      (elementsOf added c.left c.scope ++ _)
    rw [empty, if_pos ⟨rfl, rfl⟩, List.nil_append, Int.toNat_natCast, ← stores.length]
    have own : (rel.list ++ [c.element none])[rel.list.length]? = some (c.element none) := by
      simp
    exact ⟨by omega, .cons own .nil⟩

theorem Stores.next (stores : Stores added heads rel) (valid : c.Valid)
    (fresh : ∀ d ∈ added, ¬ d.Same c) {h : Definition κ Int} (mem : h ∈ heads)
    (key : h.key = c.left) (scope : h.scope = c.scope) :
    ∃ li, (elementsOf added c.left c.scope).getLast?.map Prod.snd = some li ∧
      Stores (added ++ [c]) heads ⟨rel.map, (rel.list ++ [c.element none]).modify li
        fun le => { le with next := some rel.list.length }⟩ := by
  obtain ⟨-, own⟩ := stores.threads h mem
  rw [key, scope] at own
  rcases List.eq_nil_or_concat' (elementsOf added c.left c.scope) with empty | ⟨front, p, split⟩
  · rw [empty] at own
    cases own
  obtain ⟨last, li⟩ := p
  refine ⟨li, by rw [split]; simp, ?_⟩
  have member : (last, li) ∈ elementsOf added c.left c.scope := by
    rw [split]
    simp
  obtain ⟨node, left, scope'⟩ := mem_elementsOf.mp member
  have bound : li < rel.list.length := by
    rw [stores.length]
    exact (List.getElem?_eq_some_iff.mp node).1
  refine stores.push valid fresh stores.represents stores.wellScoped stores.nullval
    (by simp [stores.length]) (fun d mem' => ?_) (List.Subset.refl _) ⟨h, mem, key, scope⟩
  obtain ⟨low, threads⟩ := stores.threads d mem'
  refine ⟨low, ?_⟩
  rw [elementsOf_snoc]
  have pushed := threads.append [c.element none]
  by_cases here : c.left = d.key ∧ c.scope = d.scope
  · rw [if_pos here]
    rw [← here.1, ← here.2, split] at pushed
    rw [← here.1, ← here.2, split, ← stores.length]
    refine pushed.link ?_ (by simp) (by omega)
    rw [← split]
    refine (List.pairwise_map.mpr (elementsOf_increasing added c.left c.scope)).imp ?_
    exact fun less => less.ne
  · rw [if_neg here, List.append_nil]
    refine pushed.modify (fun p mem'' same => here ?_) _
    obtain ⟨node', left', scope''⟩ := mem_elementsOf.mp mem''
    rw [same] at node'
    obtain rfl := Option.some.inj (node.symm.trans node')
    exact ⟨left.symm.trans left', scope'.symm.trans scope''⟩

theorem Stores.set [DecidableEq V] (stores : Stores added heads rel) (c : RelationCall κ V)
    (laminar : Laminar (insert c.scope (scopesOf heads c.left))) :
    (rel.set c.scope c.left c.right c.value c.tag c.weight).2 = c.reply added ∧
      ∃ heads', Stores (c.addTo added) heads'
        (rel.set c.scope c.left c.right c.value c.tag c.weight).1 ∧
        ∀ d ∈ heads', d ∈ heads ∨ d.key = c.left ∧ d.scope = c.scope := by
  unfold ScopedRelationMap.set RelationCall.reply
  by_cases tag : c.tag > TagMask.maxTag ∨ c.tag < TagMask.minTag
  · have invalid : ¬ c.Valid := by
      unfold RelationCall.Valid
      omega
    rw [if_pos tag, if_pos tag]
    refine ⟨rfl, heads, ?_, fun d mem => Or.inl mem⟩
    rwa [RelationCall.addTo, if_neg fun h => invalid h.1]
  rw [if_neg tag, if_neg tag]
  by_cases weight : c.weight < 0
  · have invalid : ¬ c.Valid := fun h => absurd weight (not_lt.mpr h.2.2)
    rw [if_pos weight, if_pos weight]
    refine ⟨rfl, heads, ?_, fun d mem => Or.inl mem⟩
    rwa [RelationCall.addTo, if_neg fun h => invalid h.1]
  rw [if_neg weight, if_neg weight]
  have valid : c.Valid := ⟨by omega, by omega, not_lt.mp weight⟩
  obtain ⟨new, defines⟩ : ∃ new : Definition κ Int,
      new = ⟨c.left, c.scope, (rel.list.length : Int)⟩ := ⟨_, rfl⟩
  obtain ⟨map, inserted, represents, null⟩ := insertScope_define stores.represents
    (by rw [defines]; exact laminar : Laminar (insert new.scope (scopesOf heads new.key))) false
  subst defines
  have getOrSet : rel.map.getOrSet c.scope c.left (rel.list.length : Int) =
      (map, .ok ((known heads ⟨c.left, c.scope, (rel.list.length : Int)⟩).getD (-1))) := by
    simp only [ScopedMap.getOrSet, inserted, stores.nullval, Except.map]
  rw [stores.nullval] at null
  simp only [getOrSet]
  cases before : known heads ⟨c.left, c.scope, (rel.list.length : Int)⟩ with
  | none =>
    have unknown : c.scope ∉ scopesOf heads c.left := known_eq_none.mp before
    have fresh : ∀ d ∈ added, ¬ d.Same c := by
      intro d mem same
      obtain ⟨h, mem', key, scope⟩ := stores.covered d mem
      exact unknown ⟨h, mem', key.trans same.2.1, scope.trans same.1⟩
    have search : ScopedRelationMap.findLast rel.list c.right c.value
        (TagMask.tagValFromTag c.tag) rel.list.length
        (ScopedRelationMap.linkOf ((none : Option Int).getD (-1))) none = .ok (some none) := by
      cases rel.list.length <;> rfl
    have nested : WellScoped (heads ++ [⟨c.left, c.scope, (rel.list.length : Int)⟩]) :=
      stores.wellScoped.append laminar
    have stored := stores.first valid nested
      (by simpa only [define, before] using represents) null unknown
    simp only [search]
    rw [if_neg fun h => fresh _ h.choose_spec.1 h.choose_spec.2.1]
    refine ⟨rfl, _, by rw [RelationCall.addTo, if_pos ⟨valid, fresh⟩]; exact stored, ?_⟩
    intro d mem
    rcases List.mem_append.mp mem with old | last
    · exact Or.inl old
    · exact Or.inr (by rw [List.mem_singleton.mp last]; exact ⟨rfl, rfl⟩)
  | some old =>
    obtain ⟨h, mem, same, rfl⟩ := known_eq_some before
    have kept : Represents heads map := by
      simp only [define, before] at represents
      exact represents
    obtain ⟨low, threads⟩ := stores.threads h mem
    rw [same.1, same.2] at threads
    have link : ScopedRelationMap.linkOf ((some h.value).getD (-1)) = some h.value.toNat := by
      show ScopedRelationMap.linkOf h.value = _
      rw [ScopedRelationMap.linkOf, if_pos low]
    have enough : (elementsOf added c.left c.scope).length ≤ rel.list.length := by
      rw [stores.length]
      exact elementsOf_length_le added c.left c.scope
    have search := findLast_eq threads c.right c.value (TagMask.tagValFromTag c.tag) enough none
    simp only [link, search]
    have moved : ∀ {list : List (ListElement κ V)} {added' : List (RelationCall κ V)},
        Stores added' heads ⟨rel.map, list⟩ → Stores added' heads ⟨map, list⟩ := by
      intro list added' stored
      exact ⟨kept, stored.wellScoped, null, stored.length, stored.valid, stored.distinct,
        stored.threads, stored.covered⟩
    rcases stores.find_same valid with ⟨absent, fresh⟩ | ⟨d, i, found, mem', same', only⟩
    · obtain ⟨li, last, stored⟩ := stores.next valid fresh mem same.1 same.2
      simp only [absent, last, Option.or_none]
      rw [if_neg fun h => fresh _ h.choose_spec.1 h.choose_spec.2.1]
      refine ⟨rfl, heads, ?_, fun d mem => Or.inl mem⟩
      rw [RelationCall.addTo, if_pos ⟨valid, fresh⟩]
      exact moved stored
    · have unchanged : c.addTo added = added := by
        rw [RelationCall.addTo, if_neg fun h => h.2 d mem' same']
      rw [unchanged]
      simp only [found]
      by_cases equal : d.value = c.value
      · have repeated : ¬ ∃ e ∈ added, e.Same c ∧ e.value ≠ c.value := by
          rintro ⟨e, mem'', same'', differs⟩
          exact differs (only e mem'' same'' ▸ equal)
        rw [if_pos equal, if_neg repeated]
        exact ⟨rfl, heads, moved stores, fun d mem => Or.inl mem⟩
      · rw [if_neg equal, if_pos ⟨d, mem', same', equal⟩]
        exact ⟨rfl, heads, moved stores, fun d mem => Or.inl mem⟩

/-- The element is for the node, has a selected tag, and its scope covers the step. -/
def Selectable (added : List (RelationCall κ V)) (step : Int) (key : κ) (selectTags : TagMask)
    (p : RelationCall κ V × Nat) : Prop :=
  added[p.2]? = some p.1 ∧ p.1.left = key ∧ p.1.scope.containsStep step = true ∧
    p.1.selected selectTags = true

/-- The element is the first one of its right side in the innermost scope that has one. -/
structure Shown (added : List (RelationCall κ V)) (step : Int) (key : κ) (selectTags : TagMask)
    (p : RelationCall κ V × Nat) : Prop where
  selectable : Selectable added step key selectTags p
  innermost : ∀ q, Selectable added step key selectTags q → q.1.right = p.1.right →
    p.1.scope ≤ q.1.scope
  first : ∀ q, Selectable added step key selectTags q → q.1.right = p.1.right →
    q.1.scope = p.1.scope → p.2 ≤ q.2

/-- The result has every right side once, with the element shown for it, inner scopes first. -/
structure ShowsInnermost (added : List (RelationCall κ V)) (step : Int) (key : κ)
    (selectTags : TagMask) (rt : List (ResultElement κ V)) : Prop where
  once : (rt.map ResultElement.right).Nodup
  exactly : ∀ right, right ∈ rt.map ResultElement.right ↔
    ∃ q, Selectable added step key selectTags q ∧ q.1.right = right
  shown : ∃ ps : List (RelationCall κ V × Nat), rt = ps.map (fun p => p.1.result) ∧
    (∀ p, p ∈ ps ↔ Shown added step key selectTags p) ∧
    ps.Pairwise fun p q => p.1.scope ≤ q.1.scope

/-- An element comes before another one in the lists of the scopes from the inside out. -/
def Earlier (p q : RelationCall κ V × Nat) : Prop :=
  p.1.scope < q.1.scope ∨ p.1.scope = q.1.scope ∧ p.2 < q.2

omit [LinearOrder κ] in
theorem Earlier.asymm (p q : RelationCall κ V × Nat) (h : Earlier p q) : ¬ Earlier q p := by
  rintro (less | ⟨same, later⟩)
  · rcases h with less' | ⟨same', -⟩
    · exact lt_asymm less less'
    · exact less.ne same'.symm
  · rcases h with less' | ⟨-, later'⟩
    · exact less'.ne same.symm
    · omega

theorem earlier_flatMap {ds : List (Definition κ Int)} {key : κ}
    (nested : ds.Pairwise fun c d => c.scope < d.scope) :
    (ds.flatMap fun d => elementsOf added key d.scope).Pairwise Earlier := by
  induction ds with
  | nil => simp
  | cons d ds ih =>
    obtain ⟨outer, nested⟩ := List.pairwise_cons.mp nested
    rw [List.flatMap_cons]
    refine List.pairwise_append.mpr ⟨?_, ih nested, fun p mem q mem' => Or.inl ?_⟩
    · refine (elementsOf_increasing added key d.scope).imp_of_mem fun mem mem' less => ?_
      exact Or.inr ⟨(mem_elementsOf.mp mem).2.2.trans (mem_elementsOf.mp mem').2.2.symm, less⟩
    · obtain ⟨e, inside, mem''⟩ := List.mem_flatMap.mp mem'
      rw [(mem_elementsOf.mp mem).2.2, (mem_elementsOf.mp mem'').2.2]
      exact outer e inside

theorem Stores.get_eq (stores : Stores added heads rel) (step : Int) (key : κ)
    (selectTags : TagMask) :
    ∃ flat : List (RelationCall κ V × Nat), flat.Pairwise Earlier ∧
      (∀ p, p ∈ flat ↔ Selectable added step key selectTags p) ∧
      rel.get step key selectTags =
        .ok ((firsts (fun p : RelationCall κ V × Nat => p.1.right) flat).map
          fun p => p.1.result) := by
  obtain ⟨ds, covering, -, range⟩ :=
    queries_covering stores.represents (stores.wellScoped.laminar key) step
  let lists := ds.flatMap fun d => elementsOf added key d.scope
  refine ⟨lists.filter fun p => p.1.selected selectTags,
    (earlier_flatMap covering.nested).filter _, fun p => ?_, ?_⟩
  · rw [List.mem_filter, List.mem_flatMap]
    constructor
    · rintro ⟨⟨d, mem, inside⟩, tag⟩
      obtain ⟨node, left, scope⟩ := mem_elementsOf.mp inside
      obtain ⟨-, -, covers⟩ := (covering.mem_iff d).mp mem
      exact ⟨node, left, scope ▸ covers, tag⟩
    · rintro ⟨node, left, covers, tag⟩
      obtain ⟨d, mem, key_eq, scope⟩ := stores.covered p.1 (List.mem_of_getElem? node)
      refine ⟨⟨d, (covering.mem_iff d).mpr ⟨mem, key_eq.trans left, scope ▸ covers⟩, ?_⟩, tag⟩
      exact mem_elementsOf.mpr ⟨node, left, scope.symm⟩
  · have fold : ∀ (l : List (Definition κ Int)) (rt : List (ResultElement κ V)),
        (∀ d ∈ l, d ∈ heads ∧ d.key = key) →
        (l.map fun d => (d.scope, d.value)).foldlM (fun rt node =>
          ScopedRelationMap.collectList rel.list selectTags rel.list.length
            (ScopedRelationMap.linkOf node.2) rt) rt =
          .ok (((((l.flatMap fun d => elementsOf added key d.scope).map Prod.fst).filter
            (selected selectTags)).map result).foldl (appendFirst ResultElement.right) rt) := by
      intro l
      induction l with
      | nil => exact fun rt _ => rfl
      | cons d l ih =>
        intro rt inside
        obtain ⟨mem, key_eq⟩ := inside d List.mem_cons_self
        obtain ⟨low, threads⟩ := stores.threads d mem
        rw [key_eq] at threads
        have link : ScopedRelationMap.linkOf d.value = some d.value.toNat := by
          rw [ScopedRelationMap.linkOf, if_pos low]
        have enough : (elementsOf added key d.scope).length ≤ rel.list.length := by
          rw [stores.length]
          exact elementsOf_length_le added key d.scope
        rw [List.map_cons, List.foldlM_cons, link, collectList_eq threads selectTags enough,
          ok_bind, ih _ fun e mem => inside e (List.mem_cons_of_mem _ mem), List.flatMap_cons,
          List.map_append, List.filter_append, List.map_append, List.foldl_append]
    have query : rel.get step key selectTags =
        (ds.map fun d => (d.scope, d.value)).foldlM (fun rt node =>
          ScopedRelationMap.collectList rel.list selectTags rel.list.length
            (ScopedRelationMap.linkOf node.2) rt) [] := by
      have matched : rel.map.match_range step key =
          .ok (ds.map fun d => (d.scope, d.value)) := range
      rw [ScopedRelationMap.get, matched, ok_bind]
    rw [query, fold ds [] fun d mem => ⟨((covering.mem_iff d).mp mem).1,
      ((covering.mem_iff d).mp mem).2.1⟩]
    congr 1
    show firsts ResultElement.right (((lists.map Prod.fst).filter (selected selectTags)).map
      result) = _
    rw [List.filter_map, List.map_map, firsts_map]
    rfl

theorem Stores.get (stores : Stores added heads rel) (step : Int) (key : κ)
    (selectTags : TagMask) :
    ∃ rt, rel.get step key selectTags = .ok rt ∧
      ShowsInnermost added step key selectTags rt := by
  obtain ⟨flat, sorted, mem_flat, query⟩ := stores.get_eq step key selectTags
  have laminar := stores.wellScoped.laminar key
  refine ⟨_, query, ?_, fun right => ?_, _, rfl, fun p => ?_, ?_⟩
  · rw [List.map_map]
    exact firsts_nodup flat
  · rw [List.map_map]
    show right ∈ (firsts _ flat).map (fun p : RelationCall κ V × Nat => p.1.right) ↔ _
    rw [key_mem_firsts, List.mem_map]
    constructor
    · rintro ⟨p, mem, same⟩
      exact ⟨p, (mem_flat p).mp mem, same⟩
    · rintro ⟨p, here, same⟩
      exact ⟨p, (mem_flat p).mpr here, same⟩
  · rw [mem_firsts_iff sorted Earlier.asymm, mem_flat]
    constructor
    · rintro ⟨here, least⟩
      refine ⟨here, fun q other same => ?_, fun q other same scope => ?_⟩
      · rcases least q ((mem_flat q).mpr other) same with rfl | less | ⟨equal, -⟩
        · exact le_rfl
        · exact less.le
        · exact equal.le
      · rcases least q ((mem_flat q).mpr other) same with rfl | less | ⟨-, later⟩
        · exact le_rfl
        · exact absurd scope.symm less.ne
        · exact later.le
    · rintro ⟨here, innermost, first⟩
      refine ⟨here, fun q mem same => ?_⟩
      have other := (mem_flat q).mp mem
      rcases (innermost q other same).lt_or_eq with less | equal
      · exact Or.inr (Or.inl less)
      · rcases (first q other same equal.symm).lt_or_eq with later | number
        · exact Or.inr (Or.inr ⟨equal, later⟩)
        · left
          have node := here.1
          rw [number, other.1] at node
          exact Prod.ext (Option.some.inj node) number.symm
  · refine (sorted.sublist (firsts_sublist flat)).imp ?_
    rintro p q (less | ⟨equal, -⟩)
    · exact less.le
    · exact equal.le

def HeadsOf (calls : List (RelationCall κ V)) (heads : List (Definition κ Int)) : Prop :=
  ∀ d ∈ heads, ∃ c ∈ calls, d.key = c.left ∧ d.scope = c.scope

omit [LinearOrder κ] in
theorem HeadsOf.laminar {calls : List (RelationCall κ V)} (of : HeadsOf calls heads)
    (wellScoped : WellScoped ((calls ++ [c]).map definition)) :
    Laminar (insert c.scope (scopesOf heads c.left)) := by
  refine (wellScoped.laminar c.left).mono ?_
  rintro s (rfl | ⟨d, mem, key, rfl⟩)
  · exact ⟨c.definition, List.mem_map.mpr ⟨c, by simp, rfl⟩, rfl, rfl⟩
  · obtain ⟨b, mem', key', scope⟩ := of d mem
    exact ⟨b.definition, List.mem_map.mpr ⟨b, List.mem_append_left _ mem', rfl⟩,
      key'.symm.trans key, scope.symm⟩

theorem runSets_stores [DecidableEq V] (calls done : List (RelationCall κ V))
    (rel : ScopedRelationMap κ V) (heads : List (Definition κ Int))
    (stores : Stores (done.foldl addTo []) heads rel) (of : HeadsOf done heads)
    (wellScoped : WellScoped ((done ++ calls).map definition)) :
    (∃ heads', Stores ((done ++ calls).foldl addTo []) heads' (rel.runSets calls).1 ∧
      HeadsOf (done ++ calls) heads') ∧
    ∀ before c after, calls = before ++ c :: after →
      (rel.runSets calls).2[before.length]? =
        some (c.reply ((done ++ before).foldl addTo [])) := by
  induction calls generalizing done rel heads with
  | nil =>
    rw [List.append_nil]
    exact ⟨⟨heads, stores, of⟩, by simp⟩
  | cons c calls ih =>
    have split : done ++ c :: calls = (done ++ [c]) ++ calls := by simp
    rw [split] at wellScoped ⊢
    have laminar := of.laminar (c := c) (wellScoped_of_mem wellScoped fun d mem => by
      rw [List.map_append]
      exact List.mem_append_left _ mem)
    obtain ⟨replied, heads', stores', grown⟩ := stores.set c laminar
    have added : (done ++ [c]).foldl addTo [] = c.addTo (done.foldl addTo []) := by simp
    rw [← added] at stores'
    have of' : HeadsOf (done ++ [c]) heads' := by
      intro d mem
      rcases grown d mem with old | new
      · obtain ⟨b, mem', here⟩ := of d old
        exact ⟨b, List.mem_append_left _ mem', here⟩
      · exact ⟨c, by simp, new⟩
    obtain ⟨final, replies⟩ := ih (done ++ [c]) _ heads' stores' of' wellScoped
    refine ⟨final, fun before c' after same => ?_⟩
    cases before with
    | nil =>
      obtain ⟨rfl, -⟩ := List.cons.inj same
      rw [List.append_nil, ← replied]
      rfl
    | cons b before =>
      obtain ⟨rfl, later⟩ := List.cons.inj same
      rw [show done ++ c :: before = (done ++ [c]) ++ before by simp]
      exact replies before c' after later

/-- After a run in nested scopes every query shows the innermost elements that were added, and
    each call has returned or thrown what the elements before it say. -/
theorem get_visible [DecidableEq V] (calls : List (RelationCall κ V))
    (wellScoped : WellScoped (calls.map definition)) :
    let final := (ScopedRelationMap.empty : ScopedRelationMap κ V).runSets calls
    (∀ step key selectTags, ∃ rt, final.1.get step key selectTags = .ok rt ∧
      ShowsInnermost (calls.foldl addTo []) step key selectTags rt) ∧
    ∀ before c after, calls = before ++ c :: after →
      final.2[before.length]? = some (c.reply (before.foldl addTo [])) := by
  obtain ⟨⟨heads, stores, -⟩, replies⟩ := runSets_stores calls [] ScopedRelationMap.empty []
    stores_empty (fun d mem => by simp at mem) (by simpa using wellScoped)
  rw [List.nil_append] at stores
  exact ⟨stores.get, by simpa using replies⟩

end Stores

/-- An inner element hides an outer one of its right side only with a selected tag. -/
def shadowed : List (RelationCall Int Int) :=
  [⟨⟨0, 10⟩, 1, 2, 7, 1, 0⟩, ⟨⟨2, 5⟩, 1, 2, 8, 2, 1⟩, ⟨⟨0, 10⟩, 1, 3, 9, 1, 0⟩,
    ⟨⟨2, 5⟩, 1, 2, 6, 2, 0⟩]

theorem get_visible_shadowed :
    let rel := (ScopedRelationMap.empty.runSets shadowed).1
    (∃ rt, rel.get 3 1 TagMask.matchAll = .ok rt ∧
      ShowsInnermost (shadowed.foldl addTo []) 3 1 TagMask.matchAll rt) ∧
    rel.get 3 1 TagMask.matchAll = .ok [⟨2, 8, 1, 1⟩, ⟨3, 9, 0, 0⟩] ∧
    rel.get 3 1 ⟨1#32⟩ = .ok [⟨2, 7, 0, 0⟩, ⟨3, 9, 0, 0⟩] :=
  ⟨(get_visible shadowed (by decide)).1 3 1 TagMask.matchAll, by decide +kernel,
    by decide +kernel⟩

end Mewa
