/- Module: Mewa/TypeDb/Competing
   digest: Several reductions between the same two types, and which one of them is used. -/

import Mathlib.Data.Set.Finite.Lemmas
import Mewa.TypeDb.Elements
import Mewa.TypeDb.Frontier

set_option autoImplicit false
set_option relaxedAutoImplicit false

namespace Mewa

open Mewa.Lib Mewa.Lib.Paths RelationCall

structure GetReductionResult where
  weight : ℚ := 0
  constructor : Int := -1
  deriving DecidableEq, Repr

def GetReductionResult.defined (rt : GetReductionResult) : Bool := rt.constructor ≥ 0

namespace TypeDatabase

/-- One turn of the loop over the reductions of a type. -/
def compareReduction (db : TypeDatabase) (fuel : Nat) (epsilon : ℚ) (toType fromType : Int)
    (rt : GetReductionResult) (redu : ResultElement Int Int) :
    Except Failure GetReductionResult :=
  if toType = redu.right then
    if rt.defined ∧ rt.weight < redu.weight - epsilon then .ok rt
    else if rt.defined ∧ rt.weight ≤ redu.weight + epsilon then do
      let toTypeStr ← db.typeToString " " fuel toType
      let fromTypeStr ← db.typeToString " " fuel fromType
      throw .AmbiguousReductionDefinitions (toTypeStr ++ " <- " ++ fromTypeStr)
    else .ok ⟨redu.weight, redu.value⟩
  else .ok rt

/-- The bound on the iterations is needed for the text of one error only. -/
def getReduction (db : TypeDatabase) (fuel : Nat) (epsilon : ℚ) (step toType fromType : Int)
    (selectTags : TagMask) : Except Failure GetReductionResult :=
  if ¬ db.validHandle 1 fromType then throw .InvalidHandle (toString fromType)
  else if ¬ db.validHandle 0 toType then throw .InvalidHandle (toString toType)
  else do
    let redulist ← db.reduTable.get step fromType selectTags
    redulist.foldlM (db.compareReduction fuel epsilon toType fromType) {}

/-- The reduction that a call defines, if it is a definition that passes the checks. -/
def Call.reduction (db : TypeDatabase) : Call → List (RelationCall Int Int)
  | .defineReduction _ scope toType fromType constructor tag weight =>
    if constructor < 0 ∨ ¬ db.validHandle 0 toType ∨ ¬ db.validHandle 1 fromType ∨
      toType = fromType then []
    else [⟨scope, fromType, toType, constructor, tag, weight⟩]
  | _ => []

/-- The states of a type database, with the reductions that were defined. -/
inductive Reduced : TypeDatabase → List (RelationCall Int Int) → Prop
  | empty : Reduced empty []
  | call {db : TypeDatabase} {cs : List (RelationCall Int Int)} (c : Call) : Reduced db cs →
      Reduced (c.run db) (cs ++ c.reduction db)

theorem Reached.reduced {db : TypeDatabase} (reached : Reached db) : ∃ cs, Reduced db cs := by
  induction reached with
  | empty => exact ⟨[], .empty⟩
  | call c _ ih =>
    obtain ⟨cs, reduced⟩ := ih
    exact ⟨_, reduced.call c⟩

theorem Call.reduTable_eq (db : TypeDatabase) (c : Call) :
    (c.run db).reduTable = (db.reduTable.runSets (c.reduction db)).1 := by
  cases c with
  | setObjectInstance name scope handle => exact setObjectInstance_reduTable db name scope handle
  | defineType scope contextType name constructor parameter =>
    exact defineType_reduTable db scope contextType name constructor parameter
  | defineTypeAs scope contextType name type =>
    exact defineTypeAs_reduTable db scope contextType name type
  | defineReduction fuel scope toType fromType constructor tag weight =>
    simp only [Call.run, TypeDatabase.defineReduction, Call.reduction]
    by_cases negative : constructor < 0
    · rw [if_pos negative, if_pos (Or.inl negative)]
      rfl
    · by_cases to_valid : db.validHandle 0 toType
      · by_cases from_valid : db.validHandle 1 fromType
        · by_cases same : toType = fromType
          · rw [if_neg negative, if_neg (not_not.mpr to_valid), if_neg (not_not.mpr from_valid),
              if_pos same, if_pos (Or.inr (Or.inr (Or.inr same)))]
            split
            · rfl
            · rfl
          · rw [if_neg negative, if_neg (not_not.mpr to_valid), if_neg (not_not.mpr from_valid),
              if_neg same, if_neg (by tauto)]
            rfl
        · rw [if_neg negative, if_neg (not_not.mpr to_valid), if_pos from_valid,
            if_pos (Or.inr (Or.inr (Or.inl from_valid)))]
          rfl
      · rw [if_neg negative, if_pos to_valid, if_pos (Or.inr (Or.inl to_valid))]
        rfl
  | getType scope contextType name parameter =>
    obtain ⟨identMap, same⟩ := getType_tables db scope contextType name parameter
    rw [Call.run, same]
    rfl
  | getTypes scope contextType name =>
    obtain ⟨identMap, same⟩ := getTypes_tables db scope contextType name
    rw [Call.run, same]
    rfl

theorem Reduced.stores {db : TypeDatabase} {cs : List (RelationCall Int Int)}
    (reduced : Reduced db cs) (wellScoped : WellScoped (cs.map RelationCall.definition)) :
    ∃ heads, Stores (cs.foldl addTo []) heads db.reduTable ∧ HeadsOf cs heads := by
  induction reduced with
  | empty => exact ⟨[], stores_empty, by simp [HeadsOf]⟩
  | @call db cs c _ ih =>
    obtain ⟨heads, stores, of⟩ := ih (wellScoped_of_mem wellScoped fun d mem => by
      rw [List.map_append]
      exact List.mem_append_left _ mem)
    rw [c.reduTable_eq]
    exact (runSets_stores _ _ _ _ stores of wellScoped).1

/-- The reductions between two types that are selected in the innermost scope that has one. -/
structure Competing (added : List (RelationCall Int Int)) (step toType fromType : Int)
    (selectTags : TagMask) (p : RelationCall Int Int × Nat) : Prop where
  selectable : Selectable added step fromType selectTags p
  right : p.1.right = toType
  innermost : ∀ q, Selectable added step fromType selectTags q → q.1.right = toType →
    p.1.scope ≤ q.1.scope

/-- The reduction with the least weight is the one that is found, two of this weight are
    ambiguous, and the searches for paths use this weight. -/
structure PrefersLeast (db : TypeDatabase) (fuel : Nat) (epsilon : ℚ)
    (added : List (RelationCall Int Int)) (step toType fromType : Int) (selectTags : TagMask) :
    Prop where
  found : ∀ p, Competing added step toType fromType selectTags p →
    (∀ q, Competing added step toType fromType selectTags q → q ≠ p →
      p.1.weight + epsilon < q.1.weight) →
    db.getReduction fuel epsilon step toType fromType selectTags =
      .ok ⟨p.1.weight, p.1.value⟩
  ambiguous : ∀ p q, Competing added step toType fromType selectTags p →
    Competing added step toType fromType selectTags q → q ≠ p →
    (∀ r, Competing added step toType fromType selectTags r → p.1.weight ≤ r.1.weight) →
    q.1.weight ≤ p.1.weight + epsilon →
    ∃ e, db.getReduction fuel epsilon step toType fromType selectTags = .error (.thrown e) ∧
      e.code = .AmbiguousReductionDefinitions
  edge : ∀ p, Competing added step toType fromType selectTags p →
    (∀ r, Competing added step toType fromType selectTags r → p.1.weight ≤ r.1.weight) →
    ∀ selectTagsCount, ∀ e ∈ db.reductionEdges step selectTags selectTagsCount fromType,
      e.target = toType → e.weight = p.1.weight

/-- The reduction that was defined first has less weight than all of the others. -/
def FirstIsLeast (epsilon : ℚ) (added : List (RelationCall Int Int)) (step toType fromType : Int)
    (selectTags : TagMask) : Prop :=
  ∀ p, Shown added step fromType selectTags p → p.1.right = toType →
    ∀ q, Competing added step toType fromType selectTags q → q ≠ p →
      p.1.weight + epsilon < q.1.weight

section Law

variable {db : TypeDatabase} {fuel : Nat} {epsilon : ℚ} {added : List (RelationCall Int Int)}
  {step toType fromType : Int} {selectTags : TagMask}

theorem Competing.of_shown {p : RelationCall Int Int × Nat}
    (shown : Shown added step fromType selectTags p) (right : p.1.right = toType) :
    Competing added step toType fromType selectTags p :=
  ⟨shown.selectable, right, fun q here same => shown.innermost q here (same.trans right.symm)⟩

theorem compareReduction_others (l : List (ResultElement Int Int))
    (others : ∀ e ∈ l, e.right ≠ toType) (rt : GetReductionResult) :
    l.foldlM (db.compareReduction fuel epsilon toType fromType) rt = .ok rt := by
  induction l generalizing rt with
  | nil => rfl
  | cons e l ih =>
    have skip : db.compareReduction fuel epsilon toType fromType rt e = .ok rt := by
      unfold compareReduction
      rw [if_neg (Ne.symm (others e List.mem_cons_self))]
    rw [List.foldlM_cons, skip, ok_bind]
    exact ih (fun e mem => others e (List.mem_cons_of_mem _ mem)) rt

theorem getReduction_shown {rt : List (ResultElement Int Int)}
    (from_valid : db.validHandle 1 fromType) (to_valid : db.validHandle 0 toType)
    (query : db.reduTable.get step fromType selectTags = .ok rt)
    (once : (rt.map ResultElement.right).Nodup) {e : ResultElement Int Int} (mem : e ∈ rt)
    (right : e.right = toType) :
    db.getReduction fuel epsilon step toType fromType selectTags = .ok ⟨e.weight, e.value⟩ := by
  unfold getReduction
  rw [if_neg (not_not.mpr from_valid), if_neg (not_not.mpr to_valid), query, ok_bind]
  obtain ⟨before, after, rfl⟩ := List.append_of_mem mem
  rw [List.map_append, List.map_cons] at once
  obtain ⟨-, last, apart⟩ := List.nodup_append.mp once
  have others_before : ∀ b ∈ before, b.right ≠ toType := fun b inside same =>
    apart b.right (List.mem_map.mpr ⟨b, inside, rfl⟩) e.right List.mem_cons_self
      (same.trans right.symm)
  have others_after : ∀ b ∈ after, b.right ≠ toType := fun b inside same =>
    (List.nodup_cons.mp last).1 (List.mem_map.mpr ⟨b, inside, same.trans right.symm⟩)
  have taken : db.compareReduction fuel epsilon toType fromType {} e =
      .ok ⟨e.weight, e.value⟩ := by
    unfold compareReduction
    rw [if_pos right.symm]
    simp [GetReductionResult.defined]
  rw [List.foldlM_append, compareReduction_others before others_before, ok_bind,
    List.foldlM_cons, taken, ok_bind, compareReduction_others after others_after]

theorem exists_least {p : RelationCall Int Int × Nat}
    (here : Competing added step toType fromType selectTags p) :
    ∃ m, Competing added step toType fromType selectTags m ∧
      ∀ q, Competing added step toType fromType selectTags q → m.1.weight ≤ q.1.weight := by
  have finite : {q | Competing added step toType fromType selectTags q}.Finite := by
    refine (List.finite_toSet added.zipIdx).subset fun q other => ?_
    exact List.mem_zipIdx_iff_getElem?.mpr other.selectable.1
  exact Set.exists_min_image _ (fun q => q.1.weight) finite ⟨p, here⟩

theorem exists_shown {rt : List (ResultElement Int Int)} {p : RelationCall Int Int × Nat}
    (shows : ShowsInnermost added step fromType selectTags rt)
    (here : Competing added step toType fromType selectTags p) :
    ∃ f, Shown added step fromType selectTags f ∧ f.1.right = toType ∧ f.1.result ∈ rt := by
  obtain ⟨ps, rfl, shown, -⟩ := shows.shown
  have mem := (shows.exactly toType).mpr ⟨p, here.selectable, here.right⟩
  rw [List.map_map] at mem
  obtain ⟨f, inside, right⟩ := List.mem_map.mp mem
  exact ⟨f, (shown f).mp inside, right, List.mem_map.mpr ⟨f, inside, rfl⟩⟩

theorem mem_reductionEdges {rt : List (ResultElement Int Int)} {selectTagsCount : TagMask}
    (query : db.reduTable.get step fromType selectTags = .ok rt) {e : Edge Int Int} :
    e ∈ db.reductionEdges step selectTags selectTagsCount fromType ↔
      ∃ redu ∈ rt, reductionEdge selectTagsCount redu = e := by
  unfold reductionEdges
  rw [query]
  exact List.mem_map

theorem prefersLeast_iff {heads : List (Definition Int Int)} (stores : Stores added heads db.reduTable)
    (distance : 0 ≤ epsilon) (from_valid : db.validHandle 1 fromType)
    (to_valid : db.validHandle 0 toType) :
    PrefersLeast db fuel epsilon added step toType fromType selectTags ↔
      FirstIsLeast epsilon added step toType fromType selectTags := by
  obtain ⟨rt, query, shows⟩ := stores.get step fromType selectTags
  -- the first one is what the lookup answers
  have answers : ∀ f, Shown added step fromType selectTags f → f.1.right = toType →
      f.1.result ∈ rt ∧ db.getReduction fuel epsilon step toType fromType selectTags =
        .ok ⟨f.1.weight, f.1.value⟩ := by
    intro f shown right
    obtain ⟨ps, rfl, mem_ps, -⟩ := shows.shown
    have mem : f.1.result ∈ ps.map fun p => p.1.result :=
      List.mem_map.mpr ⟨f, (mem_ps f).mpr shown, rfl⟩
    exact ⟨mem, getReduction_shown from_valid to_valid query shows.once mem right⟩
  have edge_of : ∀ f, Shown added step fromType selectTags f → f.1.right = toType →
      ∀ selectTagsCount, ∀ e ∈ db.reductionEdges step selectTags selectTagsCount fromType,
        e.target = toType → e.weight = f.1.weight := by
    intro f shown right selectTagsCount e mem target
    obtain ⟨redu, inside, rfl⟩ := (mem_reductionEdges query).mp mem
    have same : redu = f.1.result := List.inj_on_of_nodup_map shows.once inside
      (answers f shown right).1 (target.trans right.symm)
    rw [same]
    rfl
  constructor
  · intro prefers f shown right q other differs
    by_contra close
    have here := Competing.of_shown shown right
    obtain ⟨m, least_here, least⟩ := exists_least here
    obtain ⟨mem, result⟩ := answers f shown right
    have edge : reductionEdge TagMask.matchNothing f.1.result ∈
        db.reductionEdges step selectTags TagMask.matchNothing fromType :=
      (mem_reductionEdges query).mpr ⟨_, mem, rfl⟩
    have weight : f.1.weight = m.1.weight := prefers.edge m least_here least _ _ edge right
    have least_first : ∀ r, Competing added step toType fromType selectTags r →
        f.1.weight ≤ r.1.weight := fun r h => weight ▸ least r h
    obtain ⟨e, thrown, -⟩ := prefers.ambiguous f q here other differs least_first (not_lt.mp close)
    rw [result] at thrown
    simp at thrown
  · intro first
    refine ⟨fun p here apart => ?_, fun p q here other differs least close => ?_,
      fun p here least selectTagsCount e mem target => ?_⟩
    · obtain ⟨f, shown, right, -⟩ := exists_shown shows here
      have same : f = p := by
        by_contra differs
        have less := apart f (Competing.of_shown shown right) differs
        have less' := first f shown right p here (Ne.symm differs)
        linarith
      rw [← same]
      exact (answers f shown right).2
    · obtain ⟨f, shown, right, -⟩ := exists_shown shows here
      have least_first := least f (Competing.of_shown shown right)
      have same : f = p := by
        by_contra unequal
        have less := first f shown right p here (Ne.symm unequal)
        linarith
      have less := first f shown right q other (same ▸ differs)
      rw [same] at less
      exact absurd close (not_le.mpr less)
    · obtain ⟨f, shown, right, -⟩ := exists_shown shows here
      rw [edge_of f shown right selectTagsCount e mem target]
      have low := least f (Competing.of_shown shown right)
      by_contra differs
      have unequal : p ≠ f := fun same => differs (by rw [same])
      have less := first f shown right p here unequal
      linarith

/-- In every state whose reductions are in nested scopes, the least weight is used for two types
    if and only if the reduction that was defined first has it alone. -/
theorem getReduction_least_iff {cs : List (RelationCall Int Int)} (reduced : Reduced db cs)
    (wellScoped : WellScoped (cs.map RelationCall.definition)) (distance : 0 ≤ epsilon)
    (from_valid : db.validHandle 1 fromType) (to_valid : db.validHandle 0 toType) :
    PrefersLeast db fuel epsilon (cs.foldl addTo []) step toType fromType selectTags ↔
      FirstIsLeast epsilon (cs.foldl addTo []) step toType fromType selectTags := by
  obtain ⟨heads, stores, -⟩ := reduced.stores wellScoped
  exact prefersLeast_iff stores distance from_valid to_valid

end Law

/-- A type that reduces to another one with two weights in the same scope. -/
def rivalCalls : List Call :=
  [.defineType ⟨0, 10⟩ 0 "A" 0 [], .defineType ⟨0, 10⟩ 0 "B" 0 [],
    .defineReduction 5 ⟨0, 10⟩ 2 1 0 1 5, .defineReduction 5 ⟨0, 10⟩ 2 1 0 2 1]

def rivals : List (RelationCall Int Int) :=
  [⟨⟨0, 10⟩, 1, 2, 0, 1, 5⟩, ⟨⟨0, 10⟩, 1, 2, 0, 2, 1⟩]

theorem reduced_rivals : Reduced (empty.calls rivalCalls) rivals := by
  have reduced := (((Reduced.empty.call (.defineType ⟨0, 10⟩ 0 "A" 0 [])).call
    (.defineType ⟨0, 10⟩ 0 "B" 0 [])).call (.defineReduction 5 ⟨0, 10⟩ 2 1 0 1 5)).call
      (.defineReduction 5 ⟨0, 10⟩ 2 1 0 2 1)
  exact reduced

/-- The reduction with more weight is found, because it was defined first. -/
theorem heavier_reduction_found :
    let db := empty.calls rivalCalls
    Reduced db rivals ∧ WellScoped (rivals.map RelationCall.definition) ∧
      db.getReduction 5 (1 / 8388608) 3 2 1 TagMask.matchAll = .ok ⟨5, 0⟩ ∧
      ¬ PrefersLeast db 5 (1 / 8388608) (rivals.foldl addTo []) 3 2 1 TagMask.matchAll := by
  have result : (empty.calls rivalCalls).getReduction 5 (1 / 8388608) 3 2 1 TagMask.matchAll =
      .ok ⟨5, 0⟩ := by decide +kernel
  have added : rivals.foldl addTo [] = rivals := by decide +kernel
  refine ⟨reduced_rivals, by decide, result, fun prefers => ?_⟩
  rw [added] at prefers
  have cases : ∀ q : RelationCall Int Int × Nat, rivals[q.2]? = some q.1 →
      q = (⟨⟨0, 10⟩, 1, 2, 0, 1, 5⟩, 0) ∨ q = (⟨⟨0, 10⟩, 1, 2, 0, 2, 1⟩, 1) := by
    rintro ⟨r, i⟩ node
    match i with
    | 0 => exact Or.inl (Prod.ext (Option.some.inj node).symm rfl)
    | 1 => exact Or.inr (Prod.ext (Option.some.inj node).symm rfl)
    | i + 2 => simp [rivals] at node
  have lighter : Competing rivals 3 2 1 TagMask.matchAll (⟨⟨0, 10⟩, 1, 2, 0, 2, 1⟩, 1) := by
    refine ⟨⟨rfl, rfl, by decide, by decide⟩, rfl, fun q other _ => ?_⟩
    rcases cases q other.1 with rfl | rfl
    · exact le_rfl
    · exact le_rfl
  have found := prefers.found _ lighter fun q other differs => by
    rcases cases q other.selectable.1 with rfl | rfl
    · show (1 : ℚ) + 1 / 8388608 < 5
      norm_num
    · exact absurd rfl differs
  rw [result] at found
  exact absurd found (by decide +kernel)

theorem getReduction_least_iff_rivals :
    PrefersLeast (empty.calls rivalCalls) 5 (1 / 8388608) (rivals.foldl addTo []) 3 2 1
        TagMask.matchAll ↔
      FirstIsLeast (1 / 8388608) (rivals.foldl addTo []) 3 2 1 TagMask.matchAll :=
  getReduction_least_iff reduced_rivals (by decide) (by norm_num) (by decide) (by decide)

end TypeDatabase

end Mewa
