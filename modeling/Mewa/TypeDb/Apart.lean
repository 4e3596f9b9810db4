/- Module: Mewa/TypeDb/Apart
   digest: The states reached through the interface, and what a definition leaves alone there. -/

import Mewa.Scope.Frame
import Mewa.TypeDb.Defined
import Mewa.TypeDb.Nearest

set_option autoImplicit false
set_option relaxedAutoImplicit false

namespace Mewa

open Mewa.Lib

namespace TypeDatabase

/-- The scope of a call is one of the interface, and its name fits. -/
def Call.Api : Call → Prop
  | setObjectInstance name scope _ => ApiScope scope ∧ NameFits name
  | defineType scope _ name _ _ => ApiScope scope ∧ NameFits name
  | defineTypeAs scope _ name _ => ApiScope scope ∧ NameFits name
  | defineReduction _ scope _ _ _ _ _ => ApiScope scope
  | getType scope _ name _ => ApiScope scope ∧ NameFits name
  | getTypes scope _ name => ApiScope scope ∧ NameFits name

/-- The states after any calls through the interface, aliases included. -/
inductive ApiReached : TypeDatabase → Prop
  | empty : ApiReached empty
  | call {db : TypeDatabase} (c : Call) : ApiReached db → c.Api → ApiReached (c.run db)

theorem ApiReached.reached {db : TypeDatabase} (state : ApiReached db) : Reached db := by
  induction state with
  | empty => exact .empty
  | call c _ _ ih => exact ih.call c

/-- The definitions of the table belong to one key each, and the keys are those of known contexts
    and names. -/
structure Apart (db : TypeDatabase) : Prop where
  sound : TypesSound db
  ordered : Ordered db.typeTable
  keyed : ∃ owner, Keyed db.typeTable owner
  names : db.identMap.inv.Nodup
  keys : ∀ sk i, db.typeTable.map.find sk = some i → db.validHandle 0 sk.key.contextType ∧
    ∃ name, NameFits name ∧ db.identMap.Knows sk.key.ident name
  slices : ∀ record ∈ db.typerecMap, ∃ parameter, Slice db.parameterMap record parameter

theorem apart_empty : Apart empty where
  sound := typesSound_empty
  ordered := (sound_ordered_empty 0).2
  keyed := ⟨fun _ => ⟨0, 0⟩, by simp [empty, ScopeTable.empty], by simp [empty, ScopeTable.empty]⟩
  names := List.nodup_nil
  keys := by simp [empty, ScopeTable.empty]
  slices := by simp [empty]

/-- A call has entered a key into the table of types, and has changed nothing of other keys in it. -/
structure Enters (contextType : Int) (name : String) (db db' : TypeDatabase) : Prop where
  apart : Apart db'
  reductions : db'.reduTable = db.reduTable
  names : db'.identMap = (db.identMap.enter name).1
  grown : Grown db db'
  frame : ∃ owner, Keyed db.typeTable owner ∧
    SameElsewhere ⟨contextType, (db.identMap.enter name).2⟩ owner db.typeTable db'.typeTable

namespace Apart

variable {db db' : TypeDatabase}

theorem named (apart : Apart db) {name : String} (sound : TypesSound db')
    (same : SameTypes name db db') : Apart db' := by
  have grown : db.identMap.inv <+: db'.identMap.inv := by
    rcases same.names with eq | eq
    · rw [eq]
    · rw [eq]
      exact IdentMap.enter_grows db.identMap name
  refine ⟨sound, same.table ▸ apart.ordered, same.table ▸ apart.keyed, ?_, fun sk i found => ?_, ?_⟩
  · rcases same.names with eq | eq
    · rw [eq]
      exact apart.names
    · rw [eq]
      exact IdentMap.enter_nodup apart.names name
  · rw [same.table] at found
    obtain ⟨⟨low, high⟩, name', fits, knows⟩ := apart.keys sk i found
    exact ⟨⟨low, by rw [same.records]; exact high⟩, name', fits, knows.mono grown⟩
  · rw [same.records, same.parameters]
    exact apart.slices

theorem enter (apart : Apart db) {scope : Scope} {contextType value : Int} {name : String}
    (valid : db.validHandle 0 contextType) (fits : NameFits name) (api : ApiScope scope)
    (sound : TypesSound db')
    (table : db'.typeTable =
      (db.typeTable.getOrSet scope ⟨contextType, (db.identMap.enter name).2⟩ value).1)
    (names : db'.identMap = (db.identMap.enter name).1) (reductions : db'.reduTable = db.reduTable)
    (grown : Grown db db')
    (slices : ∀ record ∈ db'.typerecMap, ∃ parameter, Slice db'.parameterMap record parameter) :
    Enters contextType name db db' := by
  obtain ⟨-, ordered, owner, keyed, keyed', same⟩ := ScopedMap.getOrSet_frame apart.sound.table
    apart.ordered apart.keyed ⟨contextType, (db.identMap.enter name).2⟩ api value
  rw [← table] at ordered keyed' same
  refine ⟨⟨sound, ordered, ⟨owner, keyed'⟩, ?_, fun sk i found => ?_, slices⟩, reductions, names,
    grown, owner, keyed, same⟩
  · rw [names]
    exact IdentMap.enter_nodup apart.names name
  · by_cases own : sk.key = ⟨contextType, (db.identMap.enter name).2⟩
    · refine ⟨own ▸ TypesSound.handle_mono grown.length_le valid, name, fits, ?_⟩
      rw [own, names]
      exact IdentMap.enter_knows db.identMap name
    · rw [same.heads sk own] at found
      obtain ⟨valid', name', fits', knows⟩ := apart.keys sk i found
      exact ⟨TypesSound.handle_mono grown.length_le valid', name', fits', knows.mono grown.names⟩

end Apart

section Define

variable {db : TypeDatabase} {scope : Scope} {contextType constructor : Int} {name : String}
  {parameter : List TypeConstructorPair}

/-- The state after a definition that passed the checks: the new record is linked from the last one
    of the list of its key, or from none. -/
theorem defineType_state (accepts : db.Accepts contextType constructor parameter)
    (fits : NameFits name) :
    let pushed := db.pushed scope contextType name constructor parameter
    let after := (db.defineType scope contextType name constructor parameter).1
    after = pushed ∨ ∃ known last,
      (db.typeTable.getOrSet scope ⟨contextType, (db.identMap.enter name).2⟩
        ((db.typerecMap.length + 1 : Nat) : Int)).2 = .ok known ∧ known ≠ 0 ∧
      pushed.findTypeWithSignature parameter pushed.typerecMap.length known.toNat 0 =
        .ok (0, last + 1) ∧
      after = { pushed with typerecMap := pushed.typerecMap.modify last fun tr =>
        { tr with next := db.typerecMap.length + 1 } } := by
  intro pushed after
  have checked := defineType_checked accepts
  cases call : (db.typeTable.getOrSet scope ⟨contextType, (db.identMap.enter name).2⟩
      ((db.typerecMap.length + 1 : Nat) : Int)).2 with
  | error e =>
    refine Or.inl ?_
    obtain ⟨short, room, low, valid⟩ := checked
    simp only [after, defineType, short, room, low, valid, if_false,
      db.identMap.get_of_fits fits, call]
    rfl
  | ok known =>
    by_cases defined : known = 0
    · subst defined
      exact Or.inl (congrArg Prod.fst (defineType_first accepts fits call))
    cases search : pushed.findTypeWithSignature parameter pushed.typerecMap.length
        known.toNat 0 with
    | error e =>
      refine Or.inl ?_
      obtain ⟨short, room, low, valid⟩ := checked
      have search' := search
      simp only [pushed, TypeDatabase.pushed, newRecord] at search'
      simp only [after, defineType, short, room, low, valid, if_false,
        db.identMap.get_of_fits fits, call, defined, search']
      rfl
    | ok found =>
      obtain ⟨tri, last⟩ := found
      by_cases same : tri = 0
      · subst same
        cases last with
        | zero =>
          refine Or.inl ?_
          obtain ⟨short, room, low, valid⟩ := checked
          have search' := search
          simp only [pushed, TypeDatabase.pushed, newRecord] at search'
          simp only [after, defineType, short, room, low, valid, if_false,
            db.identMap.get_of_fits fits, call, defined, search', ne_eq, not_true_eq_false, if_true]
          rfl
        | succ last =>
          exact Or.inr ⟨known, last, rfl, defined, search,
            congrArg Prod.fst (defineType_linked accepts fits call defined search (by omega))⟩
      · exact Or.inl (congrArg Prod.fst (defineType_again accepts fits call defined search same))

theorem Apart.pushed_slices (apart : Apart db) :
    ∀ record ∈ (db.pushed scope contextType name constructor parameter).typerecMap,
      ∃ ps, Slice (db.parameterMap ++ parameter) record ps := by
  intro record mem
  rcases List.mem_append.mp mem with old | new
  · obtain ⟨ps, slice⟩ := apart.slices record old
    exact ⟨ps, slice.mono (List.prefix_append _ _)⟩
  · rw [List.mem_singleton.mp new]
    exact ⟨parameter, slice_newRecord ..⟩

theorem Apart.defineType (apart : Apart db) (accepts : db.Accepts contextType constructor parameter)
    (api : ApiScope scope) (fits : NameFits name) :
    Enters contextType name db (db.defineType scope contextType name constructor parameter).1 := by
  have sound := apart.sound.defineType scope contextType name constructor parameter
  have slices : ∀ record ∈ (db.pushed scope contextType name constructor parameter).typerecMap,
      ∃ ps, Slice (db.parameterMap ++ parameter) record ps := apart.pushed_slices
  rcases defineType_state accepts fits with state | ⟨known, last, -, -, -, state⟩
  · rw [state] at sound ⊢
    exact apart.enter accepts.2.2.2 fits api sound rfl rfl rfl (grown_pushed ..) slices
  · rw [state] at sound ⊢
    refine apart.enter accepts.2.2.2 fits api sound rfl rfl rfl ((grown_pushed ..).link _ _) ?_
    intro record mem
    obtain ⟨i, node⟩ := List.getElem?_of_mem mem
    simp only [List.getElem?_modify] at node
    obtain ⟨old, found, rfl⟩ := Option.map_eq_some_iff.mp node
    obtain ⟨ps, slice⟩ := slices old (List.mem_of_getElem? found)
    refine ⟨ps, ?_⟩
    split
    · exact slice
    · exact slice

theorem defineTypeAs_refused {type : Int}
    (refused : ¬ (db.validHandle 0 contextType ∧ db.validHandle 1 type)) :
    (db.defineTypeAs scope contextType name type).1 = db := by
  simp only [TypeDatabase.defineTypeAs]
  split
  · rfl
  split
  · rfl
  · rename_i valid known
    exact absurd ⟨not_not.mp valid, not_not.mp known⟩ refused

theorem Apart.defineTypeAs (apart : Apart db) (valid : db.validHandle 0 contextType)
    (api : ApiScope scope) (fits : NameFits name) {type : Int} (known : db.validHandle 1 type) :
    Enters contextType name db (db.defineTypeAs scope contextType name type).1 := by
  have sound := apart.sound.defineTypeAs scope contextType name type
  have state : (db.defineTypeAs scope contextType name type).1 =
      { db with
        identMap := (db.identMap.enter name).1
        typeTable := (db.typeTable.set scope ⟨contextType, (db.identMap.enter name).2⟩ type).1 } := by
    simp only [TypeDatabase.defineTypeAs, valid, known, not_true_eq_false, if_false,
      db.identMap.get_of_fits fits]
  rw [state] at sound ⊢
  exact apart.enter valid fits api sound rfl rfl rfl
    ⟨IdentMap.enter_grows db.identMap name, List.prefix_refl _, fun i record node =>
      ⟨record.next, node⟩⟩ apart.slices

end Define

theorem ApiReached.apart {db : TypeDatabase} (state : ApiReached db) : Apart db := by
  induction state with
  | empty => exact apart_empty
  | @call db c _ api apart =>
    have sound := c.run_typesSound apart.sound
    cases c with
    | setObjectInstance name scope handle =>
      exact apart.named sound (setObjectInstance_sameTypes db name scope handle)
    | defineReduction fuel scope toType fromType constructor tag weight =>
      exact apart.named sound
        (defineReduction_sameTypes db fuel scope toType fromType constructor tag weight "")
    | getType scope contextType name parameter =>
      exact apart.named sound (getType_sameTypes db scope contextType name parameter)
    | getTypes scope contextType name =>
      exact apart.named sound (getTypes_sameTypes db scope contextType name)
    | defineType scope contextType name constructor parameter =>
      by_cases accepts : db.Accepts contextType constructor parameter
      · exact (apart.defineType accepts api.1 api.2).apart
      · obtain ⟨code, arg, run⟩ : ∃ code arg,
            db.defineType scope contextType name constructor parameter = (db, throw code arg) :=
          defineType_refused accepts
        rw [Call.run, run]
        exact apart
    | defineTypeAs scope contextType name type =>
      by_cases checked : db.validHandle 0 contextType ∧ db.validHandle 1 type
      · exact (apart.defineTypeAs checked.1 api.1 api.2 checked.2).apart
      · rw [Call.run, defineTypeAs_refused checked]
        exact apart

end TypeDatabase

end Mewa
