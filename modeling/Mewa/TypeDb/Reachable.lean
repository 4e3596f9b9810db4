/- Module: Mewa/TypeDb/Reachable
   digest: The states of the type database after any calls, and the edges its reductions give. -/

import Mewa.Scope.Sound
import Mewa.TypeDb.Derive

set_option autoImplicit false
set_option relaxedAutoImplicit false

namespace Mewa

open Mewa.Lib

variable {κ V : Type}

namespace ScopedRelationMap

variable [LinearOrder κ] {rel : ScopedRelationMap κ V}

/-- The lists run upwards, their weights are not negative, and every non-empty scope leads to
    one of them. -/
structure Sound (rel : ScopedRelationMap κ V) : Prop where
  table : SoundTable rel.map
  nullval : rel.map.invtree.nullval = -1
  next : ∀ (i : Nat) (le : ListElement κ V) (j : Nat), rel.list[i]? = some le → le.next = some j →
    i < j ∧ j < rel.list.length
  weight : ∀ le ∈ rel.list, 0 ≤ le.weight
  heads : ∀ p ∈ contents rel.map.invtree, p.1.start < p.1.stop →
    0 ≤ p.2 ∧ p.2 < rel.list.length

theorem sound_empty : Sound (empty : ScopedRelationMap κ V) where
  table := ⟨by simp [Ascending, empty, ScopeTable.empty], by simp [empty, ScopeTable.empty]⟩
  nullval := rfl
  next := by simp [empty]
  weight := by simp [empty]
  heads := by simp [empty, ScopeTable.empty, contents]

private theorem findLast_inRange [DecidableEq V] {list : List (ListElement κ V)} {right : κ}
    {value : V} {tagval : Nat} {last : Nat} :
    ∀ (fuel : Nat) (start prev : Option Nat), (∀ j, prev = some j → j < list.length) →
      findLast list right value tagval fuel start prev = .ok (some (some last)) →
      last < list.length := by
  intro fuel
  induction fuel with
  | zero =>
    intro start prev inRange h
    cases start with
    | none => exact inRange last (by simpa [findLast] using h)
    | some li => simp [findLast] at h
  | succ fuel ih =>
    intro start prev inRange h
    cases start with
    | none => exact inRange last (by simpa [findLast] using h)
    | some li =>
      simp only [findLast] at h
      cases node : list[li]? with
      | none => simp [node] at h
      | some le =>
        simp only [node] at h
        split_ifs at h with same equal
        · simp at h
        · refine ih le.next (some li) (fun j hj => ?_) h
          obtain rfl := Option.some.inj hj
          exact (List.getElem?_eq_some_iff.mp node).1

private theorem Sound.push (sound : Sound rel) {map : ScopedMap κ Int}
    (table : SoundTable map) (null : map.invtree.nullval = -1) {le : ListElement κ V}
    (unlinked : le.next = none) (weight : 0 ≤ le.weight)
    (heads : ∀ p ∈ contents map.invtree, p ∈ contents rel.map.invtree ∨
      p.2 = (rel.list.length : Int))
    (li : Option Nat) (inRange : ∀ j, li = some j → j < rel.list.length) :
    Sound ⟨map, match li with
      | none => rel.list ++ [le]
      | some li => (rel.list ++ [le]).modify li fun e =>
        { e with next := some rel.list.length }⟩ := by
  have grown (p : Scope × Int) (hp : p ∈ contents map.invtree) (nonEmpty : p.1.start < p.1.stop) :
      0 ≤ p.2 ∧ p.2 < ((rel.list.length + 1 : Nat) : Int) := by
    rcases heads p hp with hp | hp
    · have := sound.heads p hp nonEmpty
      omega
    · omega
  have next (i : Nat) (e : ListElement κ V) (j : Nat) (node : (rel.list ++ [le])[i]? = some e)
      (hnext : e.next = some j) : i < j ∧ j < rel.list.length := by
    rcases Nat.lt_or_ge i rel.list.length with hi | hi
    · rw [List.getElem?_append_left hi] at node
      exact sound.next i e j node hnext
    · rw [List.getElem?_append_right hi, List.getElem?_singleton] at node
      split_ifs at node
      obtain rfl := Option.some.inj node
      simp [unlinked] at hnext
  have weights : ∀ e ∈ rel.list ++ [le], 0 ≤ e.weight := by
    intro e he
    rcases List.mem_append.mp he with he | he
    · exact sound.weight e he
    · exact List.mem_singleton.mp he ▸ weight
  cases li with
  | none =>
    refine ⟨table, null, fun i e j node hnext => ?_, weights, fun p hp h => ?_⟩
    · have := next i e j node hnext
      simp only [List.length_append, List.length_singleton]
      omega
    · simpa using grown p hp h
  | some li =>
    have hli := inRange li rfl
    refine ⟨table, null, fun i e j node hnext => ?_, fun e he => ?_, fun p hp h => ?_⟩
    · simp only [List.getElem?_modify] at node
      obtain ⟨u, hu, rfl⟩ := Option.map_eq_some_iff.mp node
      simp only [List.length_modify, List.length_append, List.length_singleton]
      by_cases hi : li = i
      · simp only [hi, if_true] at hnext
        obtain rfl := Option.some.inj hnext
        omega
      · simp only [hi, if_false] at hnext
        have := next i u j hu hnext
        omega
    · obtain ⟨i, hi⟩ := List.getElem?_of_mem he
      simp only [List.getElem?_modify] at hi
      obtain ⟨u, hu, rfl⟩ := Option.map_eq_some_iff.mp hi
      have := weights u (List.mem_of_getElem? hu)
      split_ifs
      · exact this
      · exact this
    · simpa using grown p hp h

theorem Sound.set [DecidableEq V] (sound : Sound rel) (scope : Scope) (left right : κ) (value : V)
    (tag : Int) (weight : ℚ) : Sound (rel.set scope left right value tag weight).1 := by
  simp only [ScopedRelationMap.set]
  split_ifs with htag hweight
  · exact sound
  · exact sound
  obtain ⟨table, null, known, new, failed⟩ :=
    sound.table.insertScope_outcome left scope (rel.list.length : Int)
  simp only [ScopedMap.getOrSet]
  generalize rel.map.insertScope left scope (rel.list.length : Int) false = outcome at *
  obtain ⟨map, result⟩ := outcome
  have null' : map.invtree.nullval = -1 := null.trans sound.nullval
  cases result with
  | error e =>
    simp only [Except.map]
    refine ⟨table, null', sound.next, sound.weight, fun p hp nonEmpty => ?_⟩
    rcases failed e rfl with rfl | ⟨empty, same⟩
    · exact sound.heads p hp nonEmpty
    · rw [same] at hp
      rcases List.mem_append.mp hp with hp | hp
      · exact sound.heads p hp nonEmpty
      · obtain rfl := List.mem_singleton.mp hp
        exact absurd nonEmpty empty
  | ok oldval =>
    simp only [Except.map]
    have unlinked : ∀ j, (none : Option Nat) = some j → j < rel.list.length := by simp
    cases oldval with
    | none =>
      have start : linkOf (Option.getD none rel.map.invtree.nullval) = none := by
        simp [sound.nullval, linkOf]
      have search : findLast rel.list right value (TagMask.tagValFromTag tag) rel.list.length none
          none = .ok (some none) := by
        cases rel.list.length <;> rfl
      simp only [start, search]
      refine sound.push table null' rfl (not_lt.mp hweight) (fun p hp => ?_) none unlinked
      rw [new rfl] at hp
      rcases List.mem_append.mp hp with hp | hp
      · exact Or.inl hp
      · exact Or.inr (by rw [List.mem_singleton.mp hp])
    | some old =>
      obtain ⟨rfl, -⟩ := known old rfl
      cases search : findLast rel.list right value (TagMask.tagValFromTag tag) rel.list.length
          (linkOf (Option.getD (some old) rel.map.invtree.nullval)) none with
      | error e => simpa only [search] using sound
      | ok last =>
        cases last with
        | none => simpa only [search] using sound
        | some li =>
          simp only
          refine sound.push table null' rfl (not_lt.mp hweight) (fun p hp => Or.inl hp) li ?_
          rintro j rfl
          exact findLast_inRange _ _ _ unlinked search

/-- What the results of a query keep: distinct nodes, weights that are not negative. -/
structure GoodResult (list : List (ListElement κ V)) (rt : List (ResultElement κ V)) : Prop where
  distinct : (rt.map ResultElement.right).Nodup
  weight : ∀ e ∈ rt, 0 ≤ e.weight
  related : ∀ e ∈ rt, e.right ∈ list.map ListElement.related

omit [LinearOrder κ] in
private theorem GoodResult.append {list : List (ListElement κ V)} {rt : List (ResultElement κ V)}
    (good : GoodResult list rt) {le : ListElement κ V} (member : le ∈ list)
    (weight : 0 ≤ le.weight) (fresh : ∀ e ∈ rt, e.right ≠ le.related) :
    GoodResult list (rt ++ [⟨le.related, le.value, le.weight, le.tagval⟩]) where
  distinct := by
    rw [List.map_append]
    refine List.nodup_append.mpr ⟨good.distinct, by simp, fun a ha b hb hab => ?_⟩
    obtain ⟨e, he, rfl⟩ := List.mem_map.mp ha
    obtain rfl : b = le.related := by simpa using hb
    exact fresh e he hab
  weight e he := by
    rcases List.mem_append.mp he with he | he
    · exact good.weight e he
    · rw [List.mem_singleton.mp he]
      exact weight
  related e he := by
    rcases List.mem_append.mp he with he | he
    · exact good.related e he
    · rw [List.mem_singleton.mp he]
      exact List.mem_map.mpr ⟨le, member, rfl⟩

private theorem collectList_ok {list : List (ListElement κ V)}
    (next : ∀ (i : Nat) (le : ListElement κ V) (j : Nat), list[i]? = some le → le.next = some j →
      i < j ∧ j < list.length)
    (weight : ∀ le ∈ list, 0 ≤ le.weight) (selectTags : TagMask) :
    ∀ (fuel : Nat) (start : Option Nat) (rt : List (ResultElement κ V)),
      (∀ li, start = some li → li < list.length ∧ list.length ≤ li + fuel) →
      GoodResult list rt →
      ∃ rt', collectList list selectTags fuel start rt = .ok rt' ∧ GoodResult list rt' := by
  intro fuel
  induction fuel with
  | zero =>
    intro start rt enough good
    cases start with
    | none => exact ⟨rt, rfl, good⟩
    | some li =>
      have := enough li rfl
      omega
  | succ fuel ih =>
    intro start rt enough good
    cases start with
    | none => exact ⟨rt, rfl, good⟩
    | some li =>
      obtain ⟨hli, hfuel⟩ := enough li rfl
      have node : list[li]? = some list[li] := List.getElem?_eq_getElem hli
      have member := List.mem_of_getElem? node
      simp only [collectList, node]
      refine ih _ _ (fun j hj => ?_) ?_
      · have := next li _ j node hj
        omega
      · split_ifs with hselect
        · exact good.append member (weight _ member) hselect.2
        · exact good

theorem Sound.get_ok (sound : Sound rel) (step : Int) (key : κ) (selectTags : TagMask) :
    ∃ rt, rel.get step key selectTags = .ok rt ∧ GoodResult rel.list rt := by
  obtain ⟨range, hrange, -, around⟩ := sound.table.queries_ok key step
  have fold : ∀ (nodes : List (Scope × Int)) (rt : List (ResultElement κ V)),
      (∀ p ∈ nodes, p ∈ contents rel.map.invtree ∧ p.1.containsStep step = true) →
      GoodResult rel.list rt →
      ∃ rt', nodes.foldlM (fun rt node =>
        collectList rel.list selectTags rel.list.length (linkOf node.2) rt) rt = .ok rt' ∧
        GoodResult rel.list rt' := by
    intro nodes
    induction nodes with
    | nil => exact fun rt _ good => ⟨rt, rfl, good⟩
    | cons p nodes ih =>
      intro rt hnodes good
      obtain ⟨hp, hstep⟩ := hnodes p List.mem_cons_self
      obtain ⟨hstart, hstop⟩ := Scope.containsStep_iff.mp hstep
      have hlink := sound.heads p hp (by omega)
      obtain ⟨rt', call, good'⟩ := collectList_ok sound.next sound.weight selectTags
        rel.list.length (linkOf p.2) rt (fun li hli => by
          simp only [linkOf, ge_iff_le, hlink.1, if_true, Option.some.injEq] at hli
          omega) good
      obtain ⟨rt'', rest, good''⟩ := ih rt' (fun q hq => hnodes q (List.mem_cons_of_mem p hq)) good'
      exact ⟨rt'', by simp [List.foldlM_cons, call, rest], good''⟩
  obtain ⟨rt, call, good⟩ := fold range [] around ⟨by simp, by simp, by simp⟩
  have hget : rel.map.match_range step key = .ok range := hrange
  exact ⟨rt, by simp [ScopedRelationMap.get, hget, call], good⟩

end ScopedRelationMap

namespace TypeDatabase

/-- A call that changes the type database. The queries of types do so as well, since they enter
    the name into the map of identifiers. -/
inductive Call
  | setObjectInstance (name : String) (scope : Scope) (handle : Int)
  | defineType (scope : Scope) (contextType : Int) (name : String) (constructor : Int)
      (parameter : List TypeConstructorPair)
  | defineTypeAs (scope : Scope) (contextType : Int) (name : String) (type : Int)
  | defineReduction (fuel : Nat) (scope : Scope) (toType fromType constructor tag : Int)
      (weight : ℚ)
  | getType (scope : Scope) (contextType : Int) (name : String) (parameter : List Int)
  | getTypes (scope : Scope) (contextType : Int) (name : String)

/-- The database after a call, whether the call returned or threw. -/
def Call.run (db : TypeDatabase) : Call → TypeDatabase
  | setObjectInstance name scope handle => (db.setObjectInstance name scope handle).1
  | defineType scope contextType name constructor parameter =>
    (db.defineType scope contextType name constructor parameter).1
  | defineTypeAs scope contextType name type => (db.defineTypeAs scope contextType name type).1
  | defineReduction fuel scope toType fromType constructor tag weight =>
    (db.defineReduction fuel scope toType fromType constructor tag weight).1
  | getType scope contextType name parameter => (db.getType scope contextType name parameter).1
  | getTypes scope contextType name => (db.getTypes scope contextType name).1

def calls (db : TypeDatabase) (cs : List Call) : TypeDatabase := cs.foldl Call.run db

inductive Reached : TypeDatabase → Prop
  | empty : Reached empty
  | call {db : TypeDatabase} (c : Call) : Reached db → Reached (c.run db)

theorem Reached.calls {db : TypeDatabase} (reached : Reached db) (cs : List Call) :
    Reached (db.calls cs) := by
  induction cs generalizing db with
  | nil => exact reached
  | cons c cs ih => exact ih (reached.call c)

theorem setObjectInstance_reduTable (db : TypeDatabase) (name : String) (scope : Scope)
    (handle : Int) :
    (db.setObjectInstance name scope handle).1.reduTable = db.reduTable := by
  simp only [setObjectInstance]
  split
  · rfl
  split
  · rfl
  · split <;> rfl

theorem defineType_reduTable (db : TypeDatabase) (scope : Scope) (contextType : Int)
    (name : String) (constructor : Int) (parameter : List TypeConstructorPair) :
    (db.defineType scope contextType name constructor parameter).1.reduTable = db.reduTable := by
  simp only [defineType]
  repeat' split
  all_goals rfl

theorem defineTypeAs_reduTable (db : TypeDatabase) (scope : Scope) (contextType : Int)
    (name : String) (type : Int) :
    (db.defineTypeAs scope contextType name type).1.reduTable = db.reduTable := by
  simp only [defineTypeAs]
  split
  · rfl
  split
  · rfl
  · split <;> rfl

theorem defineReduction_reduTable (db : TypeDatabase) (fuel : Nat) (scope : Scope)
    (toType fromType constructor tag : Int) (weight : ℚ) :
    (db.defineReduction fuel scope toType fromType constructor tag weight).1.reduTable =
        db.reduTable ∨
      (db.defineReduction fuel scope toType fromType constructor tag weight).1.reduTable =
        (db.reduTable.set scope fromType toType constructor tag weight).1 := by
  simp only [defineReduction]
  split_ifs
  all_goals first | exact Or.inl rfl | skip
  · split
    · exact Or.inl rfl
    · exact Or.inl rfl
  · exact Or.inr rfl

theorem getType_tables (db : TypeDatabase) (scope : Scope) (contextType : Int) (name : String)
    (parameter : List Int) :
    ∃ identMap, (db.getType scope contextType name parameter).1 =
      { db with identMap := identMap } := by
  simp only [getType]
  split
  · exact ⟨db.identMap, rfl⟩
  split
  · exact ⟨db.identMap, rfl⟩
  · exact ⟨_, rfl⟩

theorem getTypes_tables (db : TypeDatabase) (scope : Scope) (contextType : Int) (name : String) :
    ∃ identMap, (db.getTypes scope contextType name).1 = { db with identMap := identMap } := by
  simp only [getTypes]
  split
  · exact ⟨db.identMap, rfl⟩
  split
  · exact ⟨db.identMap, rfl⟩
  · exact ⟨_, rfl⟩

theorem Call.run_sound {db : TypeDatabase} (sound : db.reduTable.Sound) (c : Call) :
    (c.run db).reduTable.Sound := by
  cases c with
  | setObjectInstance name scope handle =>
    rw [Call.run, setObjectInstance_reduTable]
    exact sound
  | defineType scope contextType name constructor parameter =>
    rw [Call.run, defineType_reduTable]
    exact sound
  | defineTypeAs scope contextType name type =>
    rw [Call.run, defineTypeAs_reduTable]
    exact sound
  | defineReduction fuel scope toType fromType constructor tag weight =>
    rw [Call.run]
    rcases defineReduction_reduTable db fuel scope toType fromType constructor tag weight with h | h
    · rw [h]
      exact sound
    · rw [h]
      exact sound.set scope fromType toType constructor tag weight
  | getType scope contextType name parameter =>
    obtain ⟨identMap, same⟩ := getType_tables db scope contextType name parameter
    rw [Call.run, same]
    exact sound
  | getTypes scope contextType name =>
    obtain ⟨identMap, same⟩ := getTypes_tables db scope contextType name
    rw [Call.run, same]
    exact sound

theorem Reached.reduTable_sound {db : TypeDatabase} (reached : Reached db) :
    db.reduTable.Sound := by
  induction reached with
  | empty => exact ScopedRelationMap.sound_empty
  | call c _ ih => exact c.run_sound ih

end TypeDatabase

end Mewa
