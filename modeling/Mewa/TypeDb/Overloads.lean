/- Module: Mewa/TypeDb/Overloads
   digest: What the tables of types keep, and the lists of the types that overload a definition. -/

import Mewa.TypeDb.Reachable
import Mewa.TypeDb.Resolve

set_option autoImplicit false
set_option relaxedAutoImplicit false

namespace Mewa

open Mewa.Lib

theorem SoundTable.innerValue_ok {K κ V : Type} [LinearOrder K] [DecidableEq κ] [EndKey K κ]
    {table : ScopeTable K V} (sound : SoundTable table) (key : κ) (step : Int) :
    ∃ v, table.innerValue key step = .ok v ∧
      (v = table.invtree.nullval ∨
        ∃ scope, (scope, v) ∈ contents table.invtree ∧ scope.containsStep step = true) := by
  obtain ⟨l, -, query, around⟩ := sound.queries_ok key step
  refine ⟨_, query, ?_⟩
  cases l with
  | nil => exact Or.inl rfl
  | cons p l => exact Or.inr ⟨p.1, around p List.mem_cons_self⟩

theorem ScopedMap.insert_outcome {κ V : Type} [LinearOrder κ] {map : ScopedMap κ V}
    (sound : SoundTable map) (scope : Scope) (key : κ) (value : V) :
    ∃ after, InsertOutcome scope value map after ∧ (map.set scope key value).1 = after.1 ∧
      map.getOrSet scope key value =
        (after.1, after.2.map fun oldval => oldval.getD map.invtree.nullval) :=
  ⟨_, sound.insertScope_outcome key scope value, rfl, rfl⟩

theorem ScopedMap.get_ok {κ V : Type} [LinearOrder κ] {map : ScopedMap κ V}
    (sound : SoundTable map) (step : Int) (key : κ) :
    ∃ v, map.get step key = .ok v ∧ (v = map.invtree.nullval ∨
      ∃ scope, (scope, v) ∈ contents map.invtree ∧ scope.containsStep step = true) :=
  sound.innerValue_ok key step

theorem InsertOutcome.mem_contents {K κ V : Type} [LinearOrder K] [EndKey K κ] {scope : Scope}
    {value : V} {before : ScopeTable K V} {after : ScopeTable K V × Except Failure (Option V)}
    (outcome : InsertOutcome scope value before after) (p : Scope × V)
    (mem : p ∈ contents after.1.invtree) :
    p ∈ contents before.invtree ∨ p = (scope, value) := by
  have added (more : contents after.1.invtree = contents before.invtree ++ [(scope, value)]) :
      p ∈ contents before.invtree ∨ p = (scope, value) := by
    rw [more] at mem
    exact (List.mem_append.mp mem).imp_right List.mem_singleton.mp
  cases result : after.2 with
  | error e =>
    rcases outcome.failed e result with same | ⟨-, more⟩
    · exact Or.inl (same ▸ mem)
    · exact added more
  | ok known =>
    cases known with
    | none => exact added (outcome.new result)
    | some old => exact Or.inl ((outcome.known old result).1 ▸ mem)

theorem ScopedRelationMap.set_related {κ V : Type} [LinearOrder κ] [DecidableEq V]
    (rel : ScopedRelationMap κ V) (scope : Scope) (left right : κ) (value : V) (tag : Int)
    (weight : ℚ) : ∀ e ∈ (rel.set scope left right value tag weight).1.list,
      e.related = right ∨ ∃ e' ∈ rel.list, e'.related = e.related := by
  have old : ∀ e ∈ rel.list, e.related = right ∨ ∃ e' ∈ rel.list, e'.related = e.related :=
    fun e mem => Or.inr ⟨e, mem, rfl⟩
  have pushed {tagval : Nat} :
      ∀ e ∈ rel.list ++ [(⟨right, value, weight, none, tagval⟩ : ListElement κ V)],
        e.related = right ∨ ∃ e' ∈ rel.list, e'.related = e.related := by
    intro e mem
    rcases List.mem_append.mp mem with mem | mem
    · exact old e mem
    · exact Or.inl (by rw [List.mem_singleton.mp mem])
  simp only [ScopedRelationMap.set]
  split
  · exact old
  · split
    · exact old
    · split
      · exact old
      · split
        · exact old
        · exact old
        · rename_i prev_li _
          cases prev_li with
          | none => exact pushed
          | some li =>
            intro e mem
            obtain ⟨i, hi⟩ := List.getElem?_of_mem mem
            simp only [List.getElem?_modify] at hi
            obtain ⟨u, hu, rfl⟩ := Option.map_eq_some_iff.mp hi
            have := pushed u (List.mem_of_getElem? hu)
            split_ifs
            · exact this
            · exact this

namespace TypeDatabase

/-- The types that overload a definition, linked by their records. -/
inductive Overloads (records : List TypeRecord) : Int → List Int → Prop
  | nil : Overloads records 0 []
  | cons {t : Nat} {record : TypeRecord} {items : List Int} : records[t]? = some record →
      Overloads records record.next items → Overloads records (t + 1) ((t + 1 : Int) :: items)

/-- The definitions are known types, the lists of overloads run upwards, and reductions lead to
    known types or to none. -/
structure TypesSound (db : TypeDatabase) : Prop where
  table : SoundTable db.typeTable
  nullval : db.typeTable.invtree.nullval = 0
  values : ∀ p ∈ contents db.typeTable.invtree, db.validHandle 1 p.2
  next : ∀ (i : Nat) (record : TypeRecord), db.typerecMap[i]? = some record →
    record.next = 0 ∨ i + 1 < record.next ∧ record.next ≤ db.typerecMap.length
  related : ∀ e ∈ db.reduTable.list, db.validHandle 0 e.related

theorem typesSound_empty : TypesSound empty where
  table := ⟨by simp [Ascending, empty, ScopeTable.empty], by simp [empty, ScopeTable.empty]⟩
  nullval := rfl
  values := by simp [empty, ScopeTable.empty, contents]
  next := by simp [empty]
  related := by simp [empty, ScopedRelationMap.empty]

theorem findTypeWithSignature_last {db : TypeDatabase} {n : Nat}
    (next : ∀ (i : Nat) (record : TypeRecord), i < n → db.typerecMap[i]? = some record →
      record.next ≤ n) {parameter : List TypeConstructorPair} :
    ∀ {fuel start last tri last' : Nat}, start ≤ n → last ≤ n →
      db.findTypeWithSignature parameter fuel start last = .ok (tri, last') → last' ≤ n := by
  intro fuel
  induction fuel with
  | zero =>
    intro start last tri last' _ inRange h
    cases start with
    | zero =>
      obtain ⟨-, rfl⟩ : 0 = tri ∧ last = last' := by simpa [findTypeWithSignature] using h
      exact inRange
    | succ start => simp [findTypeWithSignature] at h
  | succ fuel ih =>
    intro start last tri last' known inRange h
    cases start with
    | zero =>
      obtain ⟨-, rfl⟩ : 0 = tri ∧ last = last' := by simpa [findTypeWithSignature] using h
      exact inRange
    | succ start =>
      unfold findTypeWithSignature at h
      split at h
      · simp at h
      · rename_i tr record
        obtain ⟨same, -, h⟩ := bind_eq_ok.mp h
        split at h
        · obtain ⟨-, rfl⟩ : start + 1 = tri ∧ last = last' := by simpa using h
          exact inRange
        · exact ih (next start tr known record) known h

namespace TypesSound

variable {db : TypeDatabase}

theorem handle_mono {db' : TypeDatabase} (grown : db.typerecMap.length ≤ db'.typerecMap.length)
    {low type : Int} (valid : db.validHandle low type) : db'.validHandle low type := by
  obtain ⟨lower, upper⟩ := valid
  exact ⟨lower, by omega⟩

theorem insert (sound : TypesSound db) {db' : TypeDatabase} {scope : Scope} {key : TypeDef}
    {type : Int} (table : db'.typeTable = (db.typeTable.getOrSet scope key type).1)
    (known : db'.validHandle 1 type) (same : db'.reduTable = db.reduTable)
    (grown : db.typerecMap.length ≤ db'.typerecMap.length)
    (next : ∀ (i : Nat) (record : TypeRecord), db'.typerecMap[i]? = some record →
      record.next = 0 ∨ i + 1 < record.next ∧ record.next ≤ db'.typerecMap.length) :
    TypesSound db' where
  table := by
    obtain ⟨after, outcome, -, call⟩ := ScopedMap.insert_outcome sound.table scope key type
    rw [table, call]
    exact outcome.sound
  nullval := by
    obtain ⟨after, outcome, -, call⟩ := ScopedMap.insert_outcome sound.table scope key type
    rw [table, call]
    exact outcome.nullval.trans sound.nullval
  values p mem := by
    obtain ⟨after, outcome, -, call⟩ := ScopedMap.insert_outcome sound.table scope key type
    rw [table, call] at mem
    rcases outcome.mem_contents p mem with mem | rfl
    · exact handle_mono grown (sound.values p mem)
    · exact known
  next := next
  related e mem := by
    rw [same] at mem
    exact handle_mono grown (sound.related e mem)

private theorem next_push (sound : TypesSound db) {record : TypeRecord} (unlinked : record.next = 0)
    (i : Nat) (r : TypeRecord) (found : (db.typerecMap ++ [record])[i]? = some r) :
    r.next = 0 ∨ i + 1 < r.next ∧ r.next ≤ db.typerecMap.length := by
  rcases Nat.lt_or_ge i db.typerecMap.length with inside | outside
  · rw [List.getElem?_append_left inside] at found
    exact sound.next i r found
  · rw [List.getElem?_append_right outside, List.getElem?_singleton] at found
    split_ifs at found
    exact Or.inl (Option.some.inj found ▸ unlinked)

private theorem next_link (sound : TypesSound db) {record : TypeRecord} (unlinked : record.next = 0)
    {last : Nat} (inRange : last ≤ db.typerecMap.length) (positive : last ≠ 0) (i : Nat)
    (r : TypeRecord) (found : ((db.typerecMap ++ [record]).modify (last - 1) fun tr =>
      { tr with next := db.typerecMap.length + 1 })[i]? = some r) :
    r.next = 0 ∨ i + 1 < r.next ∧ r.next ≤ db.typerecMap.length + 1 := by
  rw [List.getElem?_modify] at found
  obtain ⟨u, old, rfl⟩ := Option.map_eq_some_iff.mp found
  have before := sound.next_push unlinked i u old
  split_ifs with here
  · exact Or.inr ⟨by dsimp only; omega, le_rfl⟩
  · omega

private theorem known_of_getOrSet (sound : TypesSound db) {scope : Scope} {key : TypeDef}
    {type known : Int} (call : (db.typeTable.getOrSet scope key type).2 = .ok known)
    (found : known ≠ 0) : db.validHandle 1 known := by
  obtain ⟨after, outcome, -, eq⟩ := ScopedMap.insert_outcome sound.table scope key type
  rw [eq] at call
  dsimp only at call
  cases inserted : after.2 with
  | error e => simp [inserted, Except.map] at call
  | ok oldval =>
    rw [inserted] at call
    obtain rfl := Except.ok.inj call
    cases oldval with
    | none => exact absurd sound.nullval found
    | some old => exact sound.values _ (outcome.known old inserted).2

theorem defineType (sound : TypesSound db) (scope : Scope) (contextType : Int) (name : String)
    (constructor : Int) (parameter : List TypeConstructorPair) :
    TypesSound (db.defineType scope contextType name constructor parameter).1 := by
  simp only [TypeDatabase.defineType]
  generalize (if parameter.isEmpty = true then 0 else db.parameterMap.length + 1) = parameteridx
  split
  · exact sound
  split
  · exact sound
  split
  · exact sound
  split
  · exact sound
  split
  · exact sound
  rename_i identMap ident entered
  obtain ⟨record, unlinked, eq⟩ : ∃ record : TypeRecord, record.next = 0 ∧
      (⟨scope, constructor, parameter.length, parameteridx, 0, ⟨contextType, ident⟩⟩ :
        TypeRecord) = record := ⟨_, rfl, rfl⟩
  rw [eq]
  have typerec : (1 : Int) ≤ (db.typerecMap.length + 1 : Nat) := by omega
  have pushed {parameterMap : List TypeConstructorPair} :
      TypesSound { db with
        parameterMap := parameterMap
        identMap := identMap
        typerecMap := db.typerecMap ++ [record]
        typeTable := (db.typeTable.getOrSet scope ⟨contextType, ident⟩
          ((db.typerecMap.length + 1 : Nat) : Int)).1 } := by
    refine sound.insert rfl ⟨typerec, ?_⟩ rfl ?_ ?_
    · simp
    · simp
    · intro i r found
      have := sound.next_push unlinked i r found
      simp only [List.length_append, List.length_singleton]
      omega
  split
  · exact pushed
  · rename_i prev_typerec known
    split
    · exact pushed
    rename_i missing
    split
    · exact pushed
    · rename_i tri last search
      split
      · exact pushed
      split
      · exact pushed
      · rename_i positive
        have inRange : last ≤ db.typerecMap.length := by
          refine findTypeWithSignature_last (fun i r inside found => ?_) ?_ (Nat.zero_le _) search
          · rw [List.getElem?_append_left inside] at found
            rcases sound.next i r found with zero | ⟨-, le⟩
            · exact zero ▸ Nat.zero_le _
            · exact le
          · have valid := sound.known_of_getOrSet known missing
            have := valid.2
            omega
        refine sound.insert rfl ⟨typerec, ?_⟩ rfl ?_ ?_
        · simp
        · simp
        · intro i r found
          have := sound.next_link unlinked inRange positive i r found
          simpa using this

theorem defineTypeAs (sound : TypesSound db) (scope : Scope) (contextType : Int) (name : String)
    (type : Int) : TypesSound (db.defineTypeAs scope contextType name type).1 := by
  simp only [TypeDatabase.defineTypeAs]
  split
  · exact sound
  split
  · exact sound
  rename_i known
  split
  · exact sound
  · exact sound.insert rfl (not_not.mp known) rfl le_rfl sound.next

theorem defineReduction (sound : TypesSound db) (fuel : Nat) (scope : Scope)
    (toType fromType constructor tag : Int) (weight : ℚ) :
    TypesSound (db.defineReduction fuel scope toType fromType constructor tag weight).1 := by
  simp only [TypeDatabase.defineReduction]
  split
  · exact sound
  split
  · exact sound
  rename_i known
  split
  · exact sound
  split
  · split
    · exact sound
    · exact sound
  · refine ⟨sound.table, sound.nullval, sound.values, sound.next, fun e mem => ?_⟩
    rcases ScopedRelationMap.set_related _ _ _ _ _ _ _ e mem with target | ⟨e', mem', same⟩
    · rw [target]
      exact not_not.mp known
    · rw [← same]
      exact sound.related e' mem'

theorem setObjectInstance (sound : TypesSound db) (name : String) (scope : Scope) (handle : Int) :
    TypesSound (db.setObjectInstance name scope handle).1 := by
  simp only [TypeDatabase.setObjectInstance]
  split
  · exact sound
  split
  · exact sound
  · split
    · exact ⟨sound.table, sound.nullval, sound.values, sound.next, sound.related⟩
    · exact ⟨sound.table, sound.nullval, sound.values, sound.next, sound.related⟩

end TypesSound

theorem Call.run_typesSound {db : TypeDatabase} (sound : TypesSound db) (c : Call) :
    TypesSound (c.run db) := by
  cases c with
  | setObjectInstance name scope handle => exact sound.setObjectInstance name scope handle
  | defineType scope contextType name constructor parameter =>
    exact sound.defineType scope contextType name constructor parameter
  | defineTypeAs scope contextType name type =>
    exact sound.defineTypeAs scope contextType name type
  | defineReduction fuel scope toType fromType constructor tag weight =>
    exact sound.defineReduction fuel scope toType fromType constructor tag weight
  | getType scope contextType name parameter =>
    obtain ⟨identMap, same⟩ := getType_tables db scope contextType name parameter
    rw [Call.run, same]
    exact ⟨sound.table, sound.nullval, sound.values, sound.next, sound.related⟩
  | getTypes scope contextType name =>
    obtain ⟨identMap, same⟩ := getTypes_tables db scope contextType name
    rw [Call.run, same]
    exact ⟨sound.table, sound.nullval, sound.values, sound.next, sound.related⟩

theorem Reached.typesSound {db : TypeDatabase} (reached : Reached db) : TypesSound db := by
  induction reached with
  | empty => exact typesSound_empty
  | call c _ sound => exact c.run_typesSound sound

theorem TypesSound.collectResultItems_ok {db : TypeDatabase} (sound : TypesSound db) :
    ∀ {fuel type : Nat}, type ≤ db.typerecMap.length →
      (type ≠ 0 → db.typerecMap.length < type + fuel) →
      ∃ items, db.collectResultItems fuel type = .ok items ∧
        Overloads db.typerecMap type items := by
  intro fuel
  induction fuel with
  | zero =>
    intro type known enough
    obtain rfl : type = 0 := by omega
    exact ⟨[], by simp [collectResultItems], .nil⟩
  | succ fuel ih =>
    intro type known enough
    cases type with
    | zero => exact ⟨[], by simp [collectResultItems], .nil⟩
    | succ t =>
      have node : db.typerecMap[t]? = some db.typerecMap[t] := List.getElem?_eq_getElem known
      have next := sound.next t _ node
      obtain ⟨items, call, overloads⟩ := @ih db.typerecMap[t].next (by omega) (by omega)
      refine ⟨(t + 1 : Int) :: items, ?_, .cons node overloads⟩
      simp [collectResultItems, node, call]

end TypeDatabase

end Mewa
