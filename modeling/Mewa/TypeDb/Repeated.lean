/- Module: Mewa/TypeDb/Repeated
   digest: Which reductions are added, ignored or refused when they are defined. -/

import Mewa.Scope.Overlap
import Mewa.TypeDb.Competing

set_option autoImplicit false
set_option relaxedAutoImplicit false

namespace Mewa

open Mewa.Lib Definition RelationCall

namespace RelationCall

variable {κ V : Type} [DecidableEq κ]

/-- The scope of the call overlaps that of an element of the same left node. -/
def Overlapping (added : List (RelationCall κ V)) (c : RelationCall κ V) : Prop :=
  OverlapsDefined (added.map definition) c.definition

instance (added : List (RelationCall κ V)) (c : RelationCall κ V) :
    Decidable (c.Overlapping added) :=
  inferInstanceAs (Decidable (∃ d ∈ added.map definition, _ ∧ _))

/-- The elements after a call that refuses overlapping scopes. -/
def enter (added : List (RelationCall κ V)) (c : RelationCall κ V) : List (RelationCall κ V) :=
  if c.Overlapping added then added else c.addTo added

/-- The scope is not empty and its overlap is detected, if there is any; and an element that is
    there already with the same value has also the same weight. -/
def Regular (added : List (RelationCall κ V)) (c : RelationCall κ V) : Prop :=
  c.Valid → Admissible (added.map definition) c.definition ∧
    ∀ d ∈ added, d.Same c → d.value = c.value → d.weight = c.weight

end RelationCall

section Elements

variable {κ V : Type} [LinearOrder κ] {added : List (RelationCall κ V)}
  {heads : List (Definition κ Int)} {rel : ScopedRelationMap κ V} {c : RelationCall κ V}

theorem Stores.scopes (stores : Stores added heads rel) (key : κ) (scope : Scope) :
    (∃ h ∈ heads, h.key = key ∧ h.scope = scope) ↔
      ∃ d ∈ added.map definition, d.key = key ∧ d.scope = scope := by
  constructor
  · rintro ⟨h, mem, rfl, rfl⟩
    obtain ⟨-, threads⟩ := stores.threads h mem
    cases elements : elementsOf added h.key h.scope with
    | nil =>
      rw [elements] at threads
      cases threads
    | cons p rest =>
      have here : p ∈ elementsOf added h.key h.scope := by
        rw [elements]
        exact List.mem_cons_self
      obtain ⟨node, left, scope⟩ := mem_elementsOf.mp here
      exact ⟨p.1.definition, List.mem_map_of_mem (List.mem_of_getElem? node), left, scope⟩
  · rintro ⟨d, mem, rfl, rfl⟩
    obtain ⟨e, here, rfl⟩ := List.mem_map.mp mem
    exact stores.covered e here

theorem Stores.overlaps_iff (stores : Stores added heads rel) (value : Int) :
    OverlapsDefined heads ⟨c.left, c.scope, value⟩ ↔ c.Overlapping added := by
  constructor
  · rintro ⟨h, mem, key, overlap⟩
    obtain ⟨d, mem', key', scope⟩ := (stores.scopes c.left h.scope).mp ⟨h, mem, key, rfl⟩
    exact ⟨d, mem', key', scope.symm ▸ overlap⟩
  · rintro ⟨d, mem, key, overlap⟩
    obtain ⟨h, mem', key', scope⟩ := (stores.scopes c.left d.scope).mpr ⟨d, mem, key, rfl⟩
    exact ⟨h, mem', key', scope.symm ▸ overlap⟩

theorem Stores.detects_iff (stores : Stores added heads rel) (value : Int) :
    DetectsOverlap heads ⟨c.left, c.scope, value⟩ ↔
      DetectsOverlap (added.map definition) c.definition := by
  have exists_iff : ∀ P : Scope → Prop, (∃ h ∈ heads, h.key = c.left ∧ P h.scope) ↔
      ∃ d ∈ added.map definition, d.key = c.left ∧ P d.scope := by
    intro P
    constructor
    · rintro ⟨h, mem, key, here⟩
      obtain ⟨d, mem', key', scope⟩ := (stores.scopes c.left h.scope).mp ⟨h, mem, key, rfl⟩
      exact ⟨d, mem', key', scope.symm ▸ here⟩
    · rintro ⟨d, mem, key, here⟩
      obtain ⟨h, mem', key', scope⟩ := (stores.scopes c.left d.scope).mpr ⟨d, mem, key, rfl⟩
      exact ⟨h, mem', key', scope.symm ▸ here⟩
  exact and_congr
    (exists_iff fun s => s.stop = c.scope.stop ∧ c.scope.start ≤ s.start)
    (exists_iff fun s => c.scope.start < s.start ∧ s.start < c.scope.stop ∧
      c.scope.stop < s.stop)

theorem Stores.not_overlapping (stores : Stores added heads rel) {d : RelationCall κ V}
    (mem : d ∈ added) (same : d.Same c) : ¬ c.Overlapping added := by
  intro overlapping
  obtain ⟨h, mem', key, overlap⟩ := (stores.overlaps_iff 0).mpr overlapping
  obtain ⟨own, mem'', key', scope⟩ := stores.covered d mem
  rw [← scope.trans same.1] at overlap
  exact stores.wellScoped.2 own mem'' h mem' (key'.trans (same.2.1.trans key.symm)) overlap

theorem Stores.reply_same [DecidableEq V] (stores : Stores added heads rel) (valid : c.Valid)
    {d : RelationCall κ V} (mem : d ∈ added) (same : d.Same c) :
    c.reply added = if d.value = c.value then .ok ()
      else .error (.thrown ⟨.DuplicateDefinition, "", 0⟩) := by
  have only : ∀ e ∈ added, e.Same c → e = d := by
    intro e mem' same'
    obtain ⟨i, node⟩ := List.getElem?_of_mem mem
    obtain ⟨j, node'⟩ := List.getElem?_of_mem mem'
    have equal : e.Same d := ⟨same'.1.trans same.1.symm, same'.2.1.trans same.2.1.symm,
      same'.2.2.1.trans same.2.2.1.symm, same'.2.2.2.trans same.2.2.2.symm⟩
    obtain rfl := stores.distinct node' node equal
    exact Option.some.inj (node'.symm.trans node)
  have tag : ¬ (c.tag > TagMask.maxTag ∨ c.tag < TagMask.minTag) := by
    have := valid.1
    have := valid.2.1
    omega
  rw [reply, if_neg tag, if_neg (not_lt.mpr valid.2.2)]
  by_cases equal : d.value = c.value
  · rw [if_pos equal, if_neg]
    rintro ⟨e, mem', same', differs⟩
    rw [only e mem' same'] at differs
    exact differs equal
  · rw [if_neg equal, if_pos ⟨d, mem, same, equal⟩]

omit [LinearOrder κ] in
theorem reply_fresh [DecidableEq κ] [DecidableEq V] (valid : c.Valid)
    (fresh : ∀ d ∈ added, ¬ d.Same c) : c.reply added = .ok () := by
  have tag : ¬ (c.tag > TagMask.maxTag ∨ c.tag < TagMask.minTag) := by
    have := valid.1
    have := valid.2.1
    omega
  rw [reply, if_neg tag, if_neg (not_lt.mpr valid.2.2), if_neg]
  rintro ⟨d, mem, same, -⟩
  exact fresh d mem same

theorem Stores.laminar (stores : Stores added heads rel) (nonEmpty : c.scope.start < c.scope.stop)
    (free : ¬ c.Overlapping added) : Laminar (insert c.scope (scopesOf heads c.left)) := by
  have old := stores.wellScoped.laminar c.left
  have apart : ∀ t ∈ scopesOf heads c.left, ¬ c.scope.Overlaps t := by
    rintro t ⟨h, mem, key, rfl⟩ overlap
    exact free ((stores.overlaps_iff 0).mp ⟨h, mem, key, overlap⟩)
  refine ⟨?_, ?_⟩
  · rintro s (rfl | mem)
    · exact nonEmpty
    · exact old.nonEmpty s mem
  · rintro s (rfl | mem) t (rfl | mem')
    · exact fun h => h.1 le_rfl
    · exact apart t mem'
    · exact fun h => apart s mem ⟨h.2.1, h.1, h.2.2.2, h.2.2.1⟩
    · exact old.noOverlap s mem t mem'

namespace ScopedRelationMap

/-- The part of the definition of an element behind the checks of its tag and its weight. -/
def place [DecidableEq V] (c : RelationCall κ V) (rel : ScopedRelationMap κ V) :
    ScopedRelationMap κ V × Except Failure Unit :=
  rel.set c.scope c.left c.right c.value c.tag c.weight

theorem place_cases [DecidableEq V] (sound : rel.Sound)
    (nonEmpty : c.scope.start < c.scope.stop) :
    (rel.place c).1 = rel ∨
      (rel.place c).2 = .ok () ∧ (rel.place c).1.list.length = rel.list.length + 1 := by
  unfold place set
  split
  · exact Or.inl rfl
  split
  · exact Or.inl rfl
  have outcome := sound.table.insertScope_outcome c.left c.scope (rel.list.length : Int)
  cases result : (rel.map.insertScope c.left c.scope (rel.list.length : Int) false).2 with
  | error e =>
    have same := (outcome.failed e result).resolve_right fun empty => empty.1 nonEmpty
    simp only [ScopedMap.getOrSet, result, same]
    exact Or.inl rfl
  | ok known =>
    cases known with
    | none =>
      have search : findLast rel.list c.right c.value (TagMask.tagValFromTag c.tag)
          rel.list.length (linkOf rel.map.invtree.nullval) none = .ok (some none) := by
        rw [sound.nullval]
        cases rel.list.length <;> rfl
      have search' : findLast rel.list c.right c.value (TagMask.tagValFromTag c.tag)
          rel.list.length (linkOf ((none : Option Int).getD rel.map.invtree.nullval)) none =
            .ok (some none) := search
      simp only [ScopedMap.getOrSet, result, Except.map, search']
      exact Or.inr ⟨trivial, by simp⟩
    | some old =>
      have same := (outcome.known old result).1
      simp only [ScopedMap.getOrSet, result, same, Except.map]
      split
      · exact Or.inl rfl
      · exact Or.inl rfl
      · refine Or.inr ⟨rfl, ?_⟩
        split <;> simp

theorem findLast_fails [DecidableEq V] (list : List (ListElement κ V)) (right : κ) (value : V)
    (tagval : Nat) : ∀ (fuel : Nat) (start prev : Option Nat),
      FailsWith (fun failure => ∀ e, failure = .thrown e → e.code = .DuplicateDefinition)
        (findLast list right value tagval fuel start prev) := by
  intro fuel
  induction fuel with
  | zero =>
    intro start prev
    cases start <;> simp [findLast]
  | succ fuel ih =>
    intro start prev
    cases start with
    | none => simp [findLast]
    | some li =>
      rw [findLast]
      split
      · simp
      · split
        · split
          · simp
          · simp
        · exact ih _ _

theorem place_hierarchy_iff [DecidableEq V] (stores : Stores added heads rel) (valid : c.Valid) :
    ThrowsHierarchy (rel.place c).2 ↔ DetectsOverlap (added.map definition) c.definition := by
  rw [← stores.detects_iff (rel.list.length : Int)]
  rw [← insertScope_throws_iff stores.represents stores.wellScoped _ false]
  have tag : ¬ (c.tag > TagMask.maxTag ∨ c.tag < TagMask.minTag) := by
    have := valid.1
    have := valid.2.1
    omega
  have weight : ¬ c.weight < 0 := not_lt.mpr valid.2.2
  simp only [place, set, tag, weight, if_false, ScopedMap.getOrSet]
  cases (rel.map.insertScope c.left c.scope (rel.list.length : Int) false).2 with
  | error e =>
    simp [Except.map, ThrowsHierarchy]
  | ok known =>
    have fails := findLast_fails rel.list c.right c.value (TagMask.tagValFromTag c.tag)
      rel.list.length (linkOf (known.getD rel.map.invtree.nullval)) none
    refine iff_of_false ?_ (by simp [ThrowsHierarchy])
    rintro ⟨e, thrown, code⟩
    simp only [Except.map] at thrown
    split at thrown
    · rename_i failure failed
      obtain rfl := Except.error.inj thrown
      have := fails.kind _ failed e rfl
      rw [this] at code
      cases code
    · simp at thrown
    · simp at thrown

end ScopedRelationMap

end Elements

namespace TypeDatabase

/-- The queries of reductions show exactly these elements. -/
def ShowsReductions (db : TypeDatabase) (added : List (RelationCall Int Int)) : Prop :=
  ∀ step key selectTags, ∃ rt, db.reduTable.get step key selectTags = .ok rt ∧
    ShowsInnermost added step key selectTags rt

def Passes (db : TypeDatabase) (c : RelationCall Int Int) : Prop :=
  0 ≤ c.value ∧ db.validHandle 0 c.right ∧ db.validHandle 1 c.left ∧ c.right ≠ c.left ∧ c.Valid

/-- A definition of a reduction with these elements before it: if it throws, then nothing is
    changed; if the element is there, then it is ignored if it is equal, and refused otherwise; and
    if it is not there, then it is added, unless its scope overlaps. -/
structure DetectsRepeated (db : TypeDatabase) (added : List (RelationCall Int Int))
    (c : RelationCall Int Int) (after : TypeDatabase × Except Failure Unit) : Prop where
  atomic : ∀ e, after.2 = .error e → after.1 = db
  ignored : db.Passes c → ∀ d ∈ added, d.Same c → d.value = c.value ∧ d.weight = c.weight →
    after = (db, .ok ())
  refused : db.Passes c → ∀ d ∈ added, d.Same c → ¬ (d.value = c.value ∧ d.weight = c.weight) →
    after.2 = .error (.thrown ⟨.DuplicateDefinition, "", 0⟩)
  overlapping : db.Passes c → c.Overlapping added → ThrowsHierarchy after.2
  added : db.Passes c → (∀ d ∈ added, ¬ d.Same c) → ¬ c.Overlapping added → after.2 = .ok () ∧
    after.1 = { db with reduTable := after.1.reduTable } ∧ ShowsReductions after.1 (added ++ [c])

/-- The states after any calls whose definitions of reductions are regular, with the elements that
    were added. -/
inductive RegularRun : TypeDatabase → List (RelationCall Int Int) → Prop
  | empty : RegularRun empty []
  | call {db : TypeDatabase} {added : List (RelationCall Int Int)} (c : Call) :
      RegularRun db added → (∀ r ∈ c.reduction db, r.Regular added) →
      RegularRun (c.run db) ((c.reduction db).foldl enter added)

section Law

variable {db : TypeDatabase} {added : List (RelationCall Int Int)} {c : RelationCall Int Int}

theorem RegularRun.reached (run : RegularRun db added) : Reached db := by
  induction run with
  | empty => exact .empty
  | call c _ _ ih => exact ih.call c

theorem place_invalid (rel : ScopedRelationMap Int Int) (invalid : ¬ c.Valid) :
    ∃ e, rel.place c = (rel, .error e) := by
  unfold ScopedRelationMap.place ScopedRelationMap.set
  by_cases tag : c.tag > TagMask.maxTag ∨ c.tag < TagMask.minTag
  · exact ⟨_, if_pos tag⟩
  · rw [if_neg tag]
    by_cases weight : c.weight < 0
    · exact ⟨_, if_pos weight⟩
    · exact absurd ⟨by omega, by omega, not_lt.mp weight⟩ invalid

theorem stores_enter {heads : List (Definition Int Int)} {rel : ScopedRelationMap Int Int}
    (sound : rel.Sound) (stores : Stores added heads rel) (regular : c.Regular added) :
    ∃ heads', Stores (enter added c) heads' (rel.place c).1 := by
  by_cases valid : c.Valid
  · obtain ⟨⟨nonEmpty, free | detects⟩, -⟩ := regular valid
    · have free : ¬ c.Overlapping added := free
      obtain ⟨-, heads', stores', -⟩ := stores.set c (stores.laminar nonEmpty free)
      rw [enter, if_neg free]
      exact ⟨heads', stores'⟩
    · obtain ⟨e, thrown, -⟩ := (ScopedRelationMap.place_hierarchy_iff stores valid).mpr detects
      have overlapping : c.Overlapping added := detects.overlaps
      rcases ScopedRelationMap.place_cases sound nonEmpty with same | ⟨ok, -⟩
      · rw [same, enter, if_pos overlapping]
        exact ⟨heads, stores⟩
      · rw [thrown] at ok
        cases ok
  · obtain ⟨e, unchanged⟩ := place_invalid rel valid
    refine ⟨heads, ?_⟩
    have same : enter added c = added := by
      unfold enter addTo
      simp [valid]
    rw [unchanged, same]
    exact stores

theorem Call.reduction_cases (db : TypeDatabase) (c : Call) :
    c.reduction db = [] ∨ ∃ r, c.reduction db = [r] := by
  cases c with
  | defineReduction fuel scope toType fromType constructor tag weight =>
    unfold Call.reduction
    dsimp only
    split
    · exact Or.inl rfl
    · exact Or.inr ⟨_, rfl⟩
  | _ => exact Or.inl rfl

theorem RegularRun.stores (run : RegularRun db added) :
    ∃ heads, Stores added heads db.reduTable := by
  induction run with
  | empty => exact ⟨[], stores_empty⟩
  | @call db added c run regular ih =>
    obtain ⟨heads, stores⟩ := ih
    rw [c.reduTable_eq]
    have sound := run.reached.reduTable_sound
    rcases Call.reduction_cases db c with none | ⟨r, one⟩
    · rw [none]
      exact ⟨heads, stores⟩
    · rw [one] at regular ⊢
      exact stores_enter sound stores (regular r List.mem_cons_self)

theorem defineReduction_placed (fuel : Nat) (handles : 0 ≤ c.value ∧ db.validHandle 0 c.right ∧
      db.validHandle 1 c.left ∧ c.right ≠ c.left) :
    db.defineReduction fuel c.scope c.right c.left c.value c.tag c.weight =
      ({ db with reduTable := (db.reduTable.place c).1 }, (db.reduTable.place c).2) := by
  obtain ⟨low, right, left, differ⟩ := handles
  rw [defineReduction, if_neg (not_lt.mpr low), if_neg (not_not.mpr right),
    if_neg (not_not.mpr left), if_neg differ]
  rfl

theorem defineReduction_failed (fuel : Nat) (handles : ¬ (0 ≤ c.value ∧ db.validHandle 0 c.right ∧
      db.validHandle 1 c.left ∧ c.right ≠ c.left)) :
    ∃ e, db.defineReduction fuel c.scope c.right c.left c.value c.tag c.weight =
      (db, .error e) := by
  unfold defineReduction
  split
  · exact ⟨_, rfl⟩
  split
  · exact ⟨_, rfl⟩
  split
  · exact ⟨_, rfl⟩
  split
  · split
    · exact ⟨_, rfl⟩
    · exact ⟨_, rfl⟩
  · rename_i low right left differ
    exact absurd ⟨not_lt.mp low, not_not.mp right, not_not.mp left, differ⟩ handles

theorem defineReduction_atomic (reached : Reached db) (fuel : Nat)
    (nonEmpty : c.scope.start < c.scope.stop) {e : Failure}
    (thrown : (db.defineReduction fuel c.scope c.right c.left c.value c.tag c.weight).2 =
      .error e) :
    (db.defineReduction fuel c.scope c.right c.left c.value c.tag c.weight).1 = db := by
  by_cases handles : 0 ≤ c.value ∧ db.validHandle 0 c.right ∧ db.validHandle 1 c.left ∧
      c.right ≠ c.left
  · rw [defineReduction_placed fuel handles] at thrown ⊢
    rcases ScopedRelationMap.place_cases reached.reduTable_sound nonEmpty with same | ⟨ok, -⟩
    · show { db with reduTable := _ } = db
      rw [same]
    · rw [show (db.reduTable.place c).2 = _ from thrown] at ok
      cases ok
  · obtain ⟨e', failed⟩ := defineReduction_failed (c := c) fuel handles
    rw [failed]

theorem detects_of_regular (run : RegularRun db added) (fuel : Nat)
    (regular : db.Passes c → c.Regular added) : DetectsRepeated db added c
      (db.defineReduction fuel c.scope c.right c.left c.value c.tag c.weight) := by
  by_cases handles : 0 ≤ c.value ∧ db.validHandle 0 c.right ∧ db.validHandle 1 c.left ∧
      c.right ≠ c.left
  swap
  · obtain ⟨e, failed⟩ := defineReduction_failed (c := c) fuel handles
    have refused : ¬ db.Passes c := fun passes =>
      handles ⟨passes.1, passes.2.1, passes.2.2.1, passes.2.2.2.1⟩
    rw [failed]
    exact ⟨fun _ _ => rfl, fun h => absurd h refused, fun h => absurd h refused,
      fun h => absurd h refused, fun h => absurd h refused⟩
  have placed := defineReduction_placed fuel handles
  by_cases valid : c.Valid
  swap
  · obtain ⟨e, failed⟩ := place_invalid db.reduTable valid
    have refused : ¬ db.Passes c := fun passes => valid passes.2.2.2.2
    rw [placed, failed]
    exact ⟨fun _ _ => rfl, fun h => absurd h refused, fun h => absurd h refused,
      fun h => absurd h refused, fun h => absurd h refused⟩
  obtain ⟨handles', right, left, differ⟩ := handles
  obtain ⟨⟨nonEmpty, admitted⟩, weights⟩ := regular ⟨handles', right, left, differ, valid⟩ valid
  obtain ⟨heads, stores⟩ := run.stores
  have sound := run.reached.reduTable_sound
  refine ⟨fun e thrown => defineReduction_atomic run.reached fuel nonEmpty thrown, ?_, ?_, ?_, ?_⟩
  · intro _ d mem same equal
    have free := stores.not_overlapping mem same
    obtain ⟨replied, heads', stores', -⟩ := stores.set c (stores.laminar nonEmpty free)
    rw [stores.reply_same valid mem same, if_pos equal.1] at replied
    have kept : (db.reduTable.place c).1 = db.reduTable := by
      refine (ScopedRelationMap.place_cases sound nonEmpty).resolve_right ?_
      rintro ⟨-, longer⟩
      have length := stores'.length
      rw [addTo, if_neg fun h => h.2 d mem same, ← stores.length] at length
      have : (db.reduTable.place c).1.list.length = db.reduTable.list.length := length
      omega
    rw [placed, kept]
    exact Prod.ext rfl replied
  · intro _ d mem same differs
    have free := stores.not_overlapping mem same
    obtain ⟨replied, -⟩ := stores.set c (stores.laminar nonEmpty free)
    have value : d.value ≠ c.value := fun equal => differs ⟨equal, weights d mem same equal⟩
    rw [stores.reply_same valid mem same, if_neg value] at replied
    rw [placed]
    exact replied
  · intro _ overlapping
    rw [placed]
    refine (ScopedRelationMap.place_hierarchy_iff stores valid).mpr ?_
    exact admitted.resolve_left fun free => free overlapping
  · intro _ fresh free
    obtain ⟨replied, heads', stores', -⟩ := stores.set c (stores.laminar nonEmpty free)
    rw [reply_fresh valid fresh] at replied
    rw [addTo, if_pos ⟨valid, fresh⟩] at stores'
    rw [placed]
    exact ⟨replied, rfl, stores'.get⟩

theorem regular_of_detects (run : RegularRun db added) (fuel : Nat)
    (nonEmpty : c.scope.start < c.scope.stop) (passes : db.Passes c)
    (detects : DetectsRepeated db added c
      (db.defineReduction fuel c.scope c.right c.left c.value c.tag c.weight)) :
    c.Regular added := by
  obtain ⟨heads, stores⟩ := run.stores
  have placed := defineReduction_placed fuel
    ⟨passes.1, passes.2.1, passes.2.2.1, passes.2.2.2.1⟩
  rw [placed] at detects
  refine fun valid => ⟨⟨nonEmpty, ?_⟩, ?_⟩
  · by_cases overlapping : c.Overlapping added
    · have thrown := detects.overlapping passes overlapping
      exact Or.inr ((ScopedRelationMap.place_hierarchy_iff stores valid).mp thrown)
    · exact Or.inl overlapping
  · intro d mem same equal
    by_contra differs
    have free := stores.not_overlapping mem same
    obtain ⟨replied, -⟩ := stores.set c (stores.laminar nonEmpty free)
    rw [stores.reply_same valid mem same, if_pos equal] at replied
    have thrown := detects.refused passes d mem same fun both => differs both.2
    have returned : (db.reduTable.place c).2 = .ok () := replied
    rw [returned] at thrown
    cases thrown

/-- In every run of regular definitions every regular definition detects what it repeats, and with
    a non-empty scope only a regular one does. -/
theorem defineReduction_detects (run : RegularRun db added) (fuel : Nat)
    (c : RelationCall Int Int) :
    let after := db.defineReduction fuel c.scope c.right c.left c.value c.tag c.weight
    ((db.Passes c → c.Regular added) → DetectsRepeated db added c after) ∧
    (c.scope.start < c.scope.stop →
      (DetectsRepeated db added c after ↔ (db.Passes c → c.Regular added))) :=
  ⟨detects_of_regular run fuel, fun nonEmpty =>
    ⟨fun detects passes => regular_of_detects run fuel nonEmpty passes detects,
      detects_of_regular run fuel⟩⟩

end Law

/-- Two types and a reduction with the weight 5. -/
def weighted : List Call :=
  [.defineType ⟨0, 10⟩ 0 "A" 0 [], .defineType ⟨0, 10⟩ 0 "B" 0 [],
    .defineReduction 5 ⟨0, 10⟩ 2 1 0 1 5]

theorem regularRun_weighted : RegularRun (empty.calls weighted) [⟨⟨0, 10⟩, 1, 2, 0, 1, 5⟩] := by
  have types : RegularRun (empty.calls (weighted.take 2)) [] :=
    (RegularRun.empty.call (.defineType ⟨0, 10⟩ 0 "A" 0 []) (by simp [Call.reduction])).call
      (.defineType ⟨0, 10⟩ 0 "B" 0 []) (by simp [Call.reduction])
  refine types.call (.defineReduction 5 ⟨0, 10⟩ 2 1 0 1 5) fun r mem => ?_
  obtain rfl : r = ⟨⟨0, 10⟩, 1, 2, 0, 1, 5⟩ := List.mem_singleton.mp mem
  exact fun _ => ⟨by decide, by simp⟩

theorem defineReduction_detects_weighted : DetectsRepeated (empty.calls weighted)
    [⟨⟨0, 10⟩, 1, 2, 0, 1, 5⟩] ⟨⟨0, 10⟩, 1, 2, 3, 1, 5⟩
      ((empty.calls weighted).defineReduction 5 ⟨0, 10⟩ 2 1 3 1 5) := by
  refine (defineReduction_detects regularRun_weighted 5 ⟨⟨0, 10⟩, 1, 2, 3, 1, 5⟩).1 ?_
  exact fun _ _ => ⟨by decide, by simp⟩

/-- A reduction that differs only in its weight is ignored. A definition with an empty scope throws
    with the entry of its scope made, whose list is not there when the definition is repeated. -/
theorem other_weight_ignored :
    let db := empty.calls weighted
    let again := db.defineReduction 5 ⟨0, 10⟩ 2 1 0 1 1
    let failed := db.defineReduction 5 ⟨5, 5⟩ 1 2 0 1 1
    (again.2 = .ok () ∧ again.1.reduTable.list.length = db.reduTable.list.length ∧
      ¬ DetectsRepeated db [⟨⟨0, 10⟩, 1, 2, 0, 1, 5⟩] ⟨⟨0, 10⟩, 1, 2, 0, 1, 1⟩ again) ∧
    failed.2 = .error (.thrown ⟨.LogicError, "scope.hpp", 0⟩) ∧
      (failed.1.defineReduction 5 ⟨5, 5⟩ 1 2 0 1 1).2 = .error .outOfRange := by
  have ignored : ((empty.calls weighted).defineReduction 5 ⟨0, 10⟩ 2 1 0 1 1).2 = .ok () := by
    decide +kernel
  refine ⟨⟨ignored, by decide +kernel, fun detects => ?_⟩, by decide +kernel, by decide +kernel⟩
  have passes : (empty.calls weighted).Passes ⟨⟨0, 10⟩, 1, 2, 0, 1, 1⟩ := by
    refine ⟨by decide, by decide, by decide, by decide, by decide⟩
  have thrown := detects.refused passes ⟨⟨0, 10⟩, 1, 2, 0, 1, 5⟩ List.mem_cons_self
    ⟨rfl, rfl, rfl, rfl⟩ (by norm_num)
  rw [ignored] at thrown
  cases thrown

end TypeDatabase

end Mewa
