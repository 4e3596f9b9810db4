/- Module: Mewa/TypeDb/Printing
   digest: When the names of types can be printed with those of their contexts and parameters. -/

import Mewa.Lib.Acyclic
import Mewa.Lib.Fuel
import Mewa.TypeDb.Apart
import Mathlib.Data.Int.Interval

set_option autoImplicit false
set_option relaxedAutoImplicit false

namespace Mewa

open Mewa.Lib

namespace TypeDatabase

def parametersOf (db : TypeDatabase) (record : TypeRecord) : List TypeConstructorPair :=
  (List.range record.parameterlen).filterMap fun pi => db.parameterMap[record.parameter + pi - 1]?

/-- The types that a type refers to: its context and its parameters. -/
def references (db : TypeDatabase) (type : Int) : List Int :=
  if type < 1 then [] else
  match db.typerecMap[(type - 1).toNat]? with
  | none => []
  | some record =>
    record.inv.contextType :: (db.parametersOf record).map TypeConstructorPair.type

def Refers (db : TypeDatabase) (type type' : Int) : Prop := type' ∈ db.references type

/-- Each type is printed with an end, as a string or with an error for an invalid handle, and no
    type refers to itself in any number of steps. -/
def TypesPrinted (db : TypeDatabase) : Prop :=
  (∀ sep type, Settles (· = Failure.thrown ⟨.InvalidHandle, "", 0⟩)
    fun fuel => db.typeToString sep fuel type) ∧
  Acyclic db.Refers

/-- What a new type refers to does not lead to the handle of the new type. -/
def ClosesNoCycle (db : TypeDatabase) : Call → Prop
  | .defineType _ contextType name constructor parameter =>
    db.Accepts contextType constructor parameter → NameFits name →
      ∀ type ∈ contextType :: parameter.map TypeConstructorPair.type,
        ¬ Relation.ReflTransGen db.Refers type (db.typerecMap.length + 1 : Nat)
  | _ => True

/-- The parameters of all records stand in the array of parameters. -/
def Laid (db : TypeDatabase) : Prop :=
  ∀ record ∈ db.typerecMap, ∃ parameter, Slice db.parameterMap record parameter

section References

variable {db db' : TypeDatabase} {type : Int}

theorem Slice.get {parameterMap parameter : List TypeConstructorPair} {record : TypeRecord}
    (slice : Slice parameterMap record parameter) {pi : Nat} (less : pi < record.parameterlen) :
    parameterMap[record.parameter + pi - 1]? = parameter[pi]? := by
  obtain ⟨len, before, after, split, start, low⟩ := slice
  have inside : pi < parameter.length := by omega
  have low := low fun empty => by simp [empty] at inside
  rw [split, show record.parameter + pi - 1 = before.length + pi by omega, List.append_assoc,
    List.getElem?_append_right (Nat.le_add_right _ _), Nat.add_sub_cancel_left,
    List.getElem?_append_left inside]

theorem Slice.parametersOf {record : TypeRecord} {parameter : List TypeConstructorPair}
    (slice : Slice db.parameterMap record parameter) : db.parametersOf record = parameter := by
  have each : ∀ pi ∈ List.range record.parameterlen,
      db.parameterMap[record.parameter + pi - 1]? = parameter[pi]? := by
    intro pi mem
    exact slice.get (List.mem_range.mp mem)
  rw [TypeDatabase.parametersOf, List.filterMap_congr each, slice.1]
  clear each slice
  induction parameter using List.reverseRecOn with
  | nil => rfl
  | append_singleton ps p ih =>
    have front : ∀ pi ∈ List.range ps.length, (ps ++ [p])[pi]? = ps[pi]? := by
      intro pi mem
      exact List.getElem?_append_left (List.mem_range.mp mem)
    rw [List.length_append, List.length_singleton, List.range_succ, List.filterMap_append,
      List.filterMap_congr front, ih]
    simp

theorem references_of_record {record : TypeRecord} (low : 1 ≤ type)
    (node : db.typerecMap[(type - 1).toNat]? = some record) :
    db.references type =
      record.inv.contextType :: (db.parametersOf record).map TypeConstructorPair.type := by
  rw [references, if_neg (by omega)]
  simp only [node]

theorem valid_of_refers {type' : Int} (refers : db.Refers type type') : db.validHandle 1 type := by
  unfold Refers references at refers
  split at refers
  · simp at refers
  · rename_i low
    refine ⟨by omega, ?_⟩
    by_contra outside
    have none : db.typerecMap[(type - 1).toNat]? = none := List.getElem?_eq_none (by omega)
    rw [none] at refers
    simp at refers

theorem record_of_valid (valid : db.validHandle 1 type) :
    ∃ record, db.typerecMap[(type - 1).toNat]? = some record := by
  obtain ⟨low, high⟩ := valid
  exact ⟨_, List.getElem?_eq_getElem (by omega)⟩

theorem references_grown (laid : Laid db) (grown : Grown db db') (valid : db.validHandle 1 type) :
    db'.references type = db.references type := by
  obtain ⟨record, node⟩ := record_of_valid valid
  obtain ⟨parameter, slice⟩ := laid record (List.mem_of_getElem? node)
  obtain ⟨next, node'⟩ := grown.records _ record node
  have slice' : Slice db'.parameterMap { record with next := next } parameter :=
    slice.mono grown.parameters
  rw [references_of_record valid.1 node, references_of_record valid.1 node', slice.parametersOf,
    slice'.parametersOf]

theorem refers_grown (laid : Laid db) (grown : Grown db db') (valid : db.validHandle 1 type)
    (type' : Int) : db'.Refers type type' ↔ db.Refers type type' := by
  rw [Refers, Refers, references_grown laid grown valid]

end References

section Define

variable {db : TypeDatabase} {scope : Scope} {contextType constructor : Int} {name : String}
  {parameter : List TypeConstructorPair}

theorem defineType_added (scope : Scope) (accepts : db.Accepts contextType constructor parameter)
    (fits : NameFits name) :
    let after := (db.defineType scope contextType name constructor parameter).1
    Grown db after ∧ after.parameterMap = db.parameterMap ++ parameter ∧
      after.typerecMap.length = db.typerecMap.length + 1 ∧
      ∃ next, after.typerecMap[db.typerecMap.length]? =
        some { db.newRecord scope contextType (db.identMap.enter name).2 constructor parameter with
          next := next } := by
  intro after
  have grown := grown_pushed db scope contextType name constructor parameter
  have last : (db.pushed scope contextType name constructor parameter).typerecMap[
      db.typerecMap.length]? = some
        (db.newRecord scope contextType (db.identMap.enter name).2 constructor parameter) :=
    List.getElem?_concat_length
  have length : (db.pushed scope contextType name constructor parameter).typerecMap.length =
      db.typerecMap.length + 1 := List.length_append
  rcases defineType_state accepts fits with state | ⟨-, tail, -, -, -, state⟩
  · rw [show after = _ from state]
    exact ⟨grown, rfl, length, _, last⟩
  · have linked := (Grown.refl (db.pushed scope contextType name constructor
      parameter)).link tail (db.typerecMap.length + 1)
    obtain ⟨next, node⟩ := linked.records _ _ last
    rw [show after = _ from state]
    exact ⟨grown.link _ _, rfl, by rw [List.length_modify]; exact length, next, node⟩

theorem laid_defineType (laid : Laid db) (scope : Scope) (contextType : Int) (name : String)
    (constructor : Int) (parameter : List TypeConstructorPair) :
    Laid (db.defineType scope contextType name constructor parameter).1 := by
  by_cases stored : db.Accepts contextType constructor parameter ∧ NameFits name
  · obtain ⟨accepts, fits⟩ := stored
    obtain ⟨grown, parameters, length, next, last⟩ :=
      defineType_added scope accepts fits
    intro record mem
    obtain ⟨i, node⟩ := List.getElem?_of_mem mem
    have inside := (List.getElem?_eq_some_iff.mp node).1
    by_cases old : i < db.typerecMap.length
    · obtain ⟨next', node'⟩ := grown.records i _ (List.getElem?_eq_getElem old)
      obtain rfl := Option.some.inj (node'.symm.trans node)
      obtain ⟨ps, slice⟩ := laid _ (List.getElem_mem old)
      exact ⟨ps, slice.mono grown.parameters⟩
    · obtain rfl : i = db.typerecMap.length := by omega
      obtain rfl := Option.some.inj (last.symm.trans node)
      refine ⟨parameter, ?_⟩
      rw [parameters]
      exact slice_newRecord db scope contextType (db.identMap.enter name).2 constructor parameter
  · rw [defineType_unchanged stored]
    exact laid

theorem refers_defineType (laid : Laid db)
    (accepts : db.Accepts contextType constructor parameter) (fits : NameFits name)
    (type type' : Int) :
    (db.defineType scope contextType name constructor parameter).1.Refers type type' ↔
      WithEdges db.Refers (db.typerecMap.length + 1 : Nat)
        {t | t ∈ contextType :: parameter.map TypeConstructorPair.type} type type' := by
  obtain ⟨grown, parameters, length, next, last⟩ :=
    defineType_added scope accepts fits
  by_cases valid : db.validHandle 1 type
  · rw [refers_grown laid grown valid]
    refine (or_iff_left ?_).symm
    rintro ⟨rfl, -⟩
    have := valid.2
    omega
  · have none : ¬ db.Refers type type' := fun refers => valid (valid_of_refers refers)
    refine Iff.trans ?_ (or_iff_right none).symm
    by_cases new : type = (db.typerecMap.length + 1 : Nat)
    · subst new
      have slice := slice_newRecord db scope contextType (db.identMap.enter name).2 constructor
        parameter
      rw [← parameters] at slice
      have node : (db.defineType scope contextType name constructor parameter).1.typerecMap[
          (((db.typerecMap.length + 1 : Nat) : Int) - 1).toNat]? = some { db.newRecord scope
            contextType (db.identMap.enter name).2 constructor parameter with next := next } := by
        rw [show (((db.typerecMap.length + 1 : Nat) : Int) - 1).toNat = db.typerecMap.length by
          omega]
        exact last
      have slice' : Slice (db.defineType scope contextType name constructor parameter).1.parameterMap
          { db.newRecord scope contextType (db.identMap.enter name).2 constructor parameter with
            next := next } parameter := slice
      rw [Refers, references_of_record (by omega) node, slice'.parametersOf]
      exact (and_iff_right rfl).symm
    · refine iff_of_false (fun refers => ?_) fun both => new both.1
      obtain ⟨low, high⟩ := valid_of_refers refers
      rw [length] at high
      exact valid ⟨low, by omega⟩

end Define

section Settle

variable {db : TypeDatabase}

def parametersToString (db : TypeDatabase) (sep : String) (record : TypeRecord) (fuel : Nat) :
    Except Failure (List String) :=
  (List.range record.parameterlen).mapM fun pi =>
    match db.parameterMap[record.parameter + pi - 1]? with
    | none => .error .outOfRange
    | some p => typeToString db sep fuel p.type

def contextToString (db : TypeDatabase) (sep : String) (record : TypeRecord) (fuel : Nat) :
    Except Failure String :=
  if record.inv.contextType = 0 then .ok ""
  else (typeToString db sep fuel record.inv.contextType).map (· ++ sep)

def recordToString (db : TypeDatabase) (sep : String) (record : TypeRecord) (fuel : Nat) :
    Except Failure String :=
  contextToString db sep record fuel >>= fun context =>
    let name := context ++ (db.identMap.inv[(record.inv.ident - 1).toNat]?).getD ""
    if record.parameterlen = 0 then .ok name
    else (parametersToString db sep record fuel).map fun parameters =>
      name ++ "(" ++ ",".intercalate parameters ++ ")"

theorem typeToString_of_record {sep : String} {type : Int} {record : TypeRecord}
    (valid : db.validHandle 1 type) (node : db.typerecMap[(type - 1).toNat]? = some record)
    (fuel : Nat) : db.typeToString sep (fuel + 1) type = recordToString db sep record fuel := by
  have nonzero : type ≠ 0 := by have := valid.1; omega
  have valid : db.validHandle 0 type := ⟨by have := valid.1; omega, valid.2⟩
  have finish : ∀ name, (do
      let parameters ← parametersToString db sep record fuel
      pure (name ++ "(" ++ ",".intercalate parameters ++ ")") : Except Failure String) =
      (parametersToString db sep record fuel).map fun parameters =>
        name ++ "(" ++ ",".intercalate parameters ++ ")" := by
    intro name
    cases parametersToString db sep record fuel <;> rfl
  rw [typeToString, recordToString, contextToString]
  simp only [nonzero, valid, node, if_false, not_true_eq_false]
  by_cases none : record.inv.contextType = 0
  · simp only [none, if_true]
    by_cases empty : record.parameterlen = 0
    · simp only [empty, if_true]
      rfl
    · simp only [empty, if_false, ok_bind]
      exact finish _
  · simp only [none, if_false]
    cases db.typeToString sep fuel record.inv.contextType with
    | error e => rfl
    | ok context =>
      by_cases empty : record.parameterlen = 0
      · simp only [empty, if_true]
        rfl
      · simp only [empty, if_false]
        exact finish _

theorem typeToString_settles_step (laid : Laid db) (sep : String) (type : Int)
    (ih : ∀ type', db.Refers type type' → Settles (· = Failure.thrown ⟨.InvalidHandle, "", 0⟩)
      fun fuel => db.typeToString sep fuel type') :
    Settles (· = Failure.thrown ⟨.InvalidHandle, "", 0⟩)
      fun fuel => db.typeToString sep fuel type := by
  by_cases zero : type = 0
  · refine .of_succ (f := fun _ => .ok "") (fun fuel => ?_) (.const (.ok ""))
    rw [typeToString, if_pos zero]
  by_cases valid : db.validHandle 0 type
  · have valid' : db.validHandle 1 type := ⟨by have := valid.1; omega, valid.2⟩
    obtain ⟨record, node⟩ := record_of_valid valid'
    obtain ⟨parameter, slice⟩ := laid record (List.mem_of_getElem? node)
    have refers := references_of_record valid'.1 node
    rw [slice.parametersOf] at refers
    have context : db.Refers type record.inv.contextType := by
      rw [Refers, refers]
      exact List.mem_cons_self
    have each : Settles (· = Failure.thrown ⟨.InvalidHandle, "", 0⟩)
        fun fuel => parametersToString db sep record fuel := by
      refine .mapM fun pi mem => ?_
      have less := List.mem_range.mp mem
      have inside : pi < parameter.length := by rw [← slice.1]; exact less
      rw [slice.get less, List.getElem?_eq_getElem inside]
      refine ih _ ?_
      rw [Refers, refers]
      exact List.mem_cons_of_mem _ (List.mem_map_of_mem (List.getElem_mem inside))
    apply Settles.of_succ (typeToString_of_record valid' node)
    apply Settles.bind
    · unfold contextToString
      split
      · exact .const (.ok _)
      · exact (ih _ context).map _
    · intro name
      dsimp only
      split
      · exact .const (.ok _)
      · exact each.map _
  · refine .of_succ (f := fun _ => throw .InvalidHandle) (fun fuel => ?_) (.const (by simp [throw]))
    rw [typeToString, if_neg zero, if_pos valid]

theorem typeToString_settles (laid : Laid db) (acyclic : Acyclic db.Refers) (sep : String)
    (type : Int) : Settles (· = Failure.thrown ⟨.InvalidHandle, "", 0⟩)
      fun fuel => db.typeToString sep fuel type := by
  have finite : {type | ∃ type', db.Refers type type'}.Finite := by
    refine (Set.finite_Icc (1 : Int) db.typerecMap.length).subset ?_
    rintro type ⟨type', refers⟩
    exact valid_of_refers refers
  induction type using (acyclic.wellFounded finite).induction with
  | h type ih => exact typeToString_settles_step laid sep type ih

end Settle

section Runs

variable {db db' : TypeDatabase}

theorem refers_congr (records : db'.typerecMap = db.typerecMap)
    (parameters : db'.parameterMap = db.parameterMap) : db'.Refers = db.Refers := by
  funext type type'
  unfold Refers references parametersOf
  rw [records, parameters]

theorem run_cases (db : TypeDatabase) (c : Call) :
    (∃ scope contextType name constructor parameter,
      c = .defineType scope contextType name constructor parameter) ∨
    (c.run db).typerecMap = db.typerecMap ∧ (c.run db).parameterMap = db.parameterMap ∧
      ClosesNoCycle db c := by
  cases c with
  | defineType scope contextType name constructor parameter =>
    exact Or.inl ⟨scope, contextType, name, constructor, parameter, rfl⟩
  | setObjectInstance name scope handle =>
    have same := setObjectInstance_sameTypes db name scope handle
    exact Or.inr ⟨same.records, same.parameters, trivial⟩
  | defineTypeAs scope contextType name type =>
    refine Or.inr ?_
    simp only [Call.run, defineTypeAs]
    split
    · exact ⟨rfl, rfl, trivial⟩
    split
    · exact ⟨rfl, rfl, trivial⟩
    split
    · exact ⟨rfl, rfl, trivial⟩
    · exact ⟨rfl, rfl, trivial⟩
  | defineReduction fuel scope toType fromType constructor tag weight =>
    have same := defineReduction_sameTypes db fuel scope toType fromType constructor tag weight ""
    exact Or.inr ⟨same.records, same.parameters, trivial⟩
  | getType scope contextType name parameter =>
    have same := getType_sameTypes db scope contextType name parameter
    exact Or.inr ⟨same.records, same.parameters, trivial⟩
  | getTypes scope contextType name =>
    have same := getTypes_sameTypes db scope contextType name
    exact Or.inr ⟨same.records, same.parameters, trivial⟩

theorem laid_run (laid : Laid db) (c : Call) : Laid (c.run db) := by
  rcases run_cases db c with ⟨scope, contextType, name, constructor, parameter, rfl⟩ |
    ⟨records, parameters, -⟩
  · exact laid_defineType laid scope contextType name constructor parameter
  · unfold Laid
    rw [records, parameters]
    exact laid

theorem laid_calls (cs : List Call) : Laid (empty.calls cs) := by
  induction cs using List.reverseRecOn with
  | nil => simp [calls, Laid, empty]
  | append_singleton cs c ih =>
    rw [calls, List.foldl_append]
    exact laid_run ih c

/-- A call keeps the types without a cycle if and only if it closes none. -/
theorem acyclic_run_iff (laid : Laid db) (c : Call) :
    Acyclic (c.run db).Refers ↔ Acyclic db.Refers ∧ ClosesNoCycle db c := by
  rcases run_cases db c with ⟨scope, contextType, name, constructor, parameter, rfl⟩ |
    ⟨records, parameters, closes⟩
  · show Acyclic (db.defineType scope contextType name constructor parameter).1.Refers ↔ _
    by_cases stored : db.Accepts contextType constructor parameter ∧ NameFits name
    · have edges : (db.defineType scope contextType name constructor parameter).1.Refers =
          WithEdges db.Refers (db.typerecMap.length + 1 : Nat)
            {t | t ∈ contextType :: parameter.map TypeConstructorPair.type} := by
        funext type type'
        exact propext (refers_defineType laid stored.1 stored.2 type type')
      have source : ∀ type, ¬ db.Refers (db.typerecMap.length + 1 : Nat) type := by
        intro type refers
        have := (valid_of_refers refers).2
        omega
      rw [edges, WithEdges.acyclic_iff source]
      exact and_congr_right fun _ =>
        ⟨fun apart _ _ => apart, fun closes => closes stored.1 stored.2⟩
    · rw [defineType_unchanged stored]
      exact (and_iff_left fun accepts fits => absurd ⟨accepts, fits⟩ stored).symm
  · rw [refers_congr records parameters]
    exact (and_iff_left closes).symm

/-- In every state of a run all types are printed and none refers to itself, if and only if no
    definition of the run closes a cycle. -/
theorem typesPrinted_iff (cs : List Call) :
    (∀ cs', cs' <+: cs → TypesPrinted (empty.calls cs')) ↔
      ∀ cs' c, cs' ++ [c] <+: cs → ClosesNoCycle (empty.calls cs') c := by
  have snoc : ∀ (cs' : List Call) (c : Call),
      empty.calls (cs' ++ [c]) = c.run (empty.calls cs') := by
    intro cs' c
    simp [calls]
  constructor
  · intro printed cs' c reached
    have acyclic := (printed (cs' ++ [c]) reached).2
    rw [snoc, acyclic_run_iff (laid_calls cs')] at acyclic
    exact acyclic.2
  · intro closes cs' reached
    have acyclic : Acyclic (empty.calls cs').Refers := by
      induction cs' using List.reverseRecOn with
      | nil =>
        have none : ∀ type type', ¬ (empty.calls []).Refers type type' := by
          intro type type' refers
          obtain ⟨low, high⟩ := valid_of_refers refers
          have : type ≤ 0 := high
          omega
        intro type cycle
        obtain ⟨type', first, -⟩ := Relation.TransGen.head'_iff.mp cycle
        exact none type type' first
      | append_singleton cs' c ih =>
        rw [snoc, acyclic_run_iff (laid_calls cs')]
        exact ⟨ih ((List.prefix_append _ _).trans reached), closes cs' c reached⟩
    exact ⟨fun sep type => typeToString_settles (laid_calls cs') acyclic sep type, acyclic⟩

end Runs

def selfParameter : Call := .defineType ⟨0, 10⟩ 0 "f" 0 [⟨1, 0⟩]

/-- A type that is a parameter of itself is defined, and then printed without an end. -/
theorem selfParameter_printed :
    (empty.defineType ⟨0, 10⟩ 0 "f" 0 [⟨1, 0⟩]).2.toOption = some 1 ∧
    (∀ fuel, (empty.calls [selfParameter]).typeToString " " fuel 1 = .error .outOfFuel) ∧
    ¬ TypesPrinted (empty.calls [selfParameter]) := by
  have defined : (empty.defineType ⟨0, 10⟩ 0 "f" 0 [⟨1, 0⟩]).2.toOption = some 1 := by decide
  have endless : ∀ fuel,
      (empty.calls [selfParameter]).typeToString " " fuel 1 = .error .outOfFuel := by
    intro fuel
    induction fuel with
    | zero => rfl
    | succ fuel ih =>
      have valid : (empty.calls [selfParameter]).validHandle 1 1 := by decide
      have node : (empty.calls [selfParameter]).typerecMap[((1 : Int) - 1).toNat]? =
          some ⟨⟨0, 10⟩, 0, 1, 1, 0, ⟨0, 1⟩⟩ := by decide
      have parameter : (empty.calls [selfParameter]).parameterMap = [⟨1, 0⟩] := by decide
      rw [typeToString_of_record valid node]
      simp [recordToString, contextToString, parametersToString, parameter, ih, Except.map,
        Bind.bind, Except.bind]
  refine ⟨defined, endless, fun printed => ?_⟩
  obtain ⟨fuel, result, fails, same⟩ := printed.1 " " 1
  have stuck := (endless fuel).symm.trans (same fuel le_rfl)
  subst stuck
  have := FailsWith.error_iff.mp fails
  cases this

end TypeDatabase

end Mewa
