/- Module: Mewa/TypeDb/Defined
   digest: What the queries of types answer after any run of definitions without aliases. -/

import Mewa.TypeDb.Store

set_option autoImplicit false
set_option relaxedAutoImplicit false

namespace Mewa

open Mewa.Lib Definition

namespace TypeDatabase

def Call.Plain : Call → Prop
  | setObjectInstance name _ _ => NameFits name
  | defineType _ _ name _ _ => NameFits name
  | defineTypeAs _ _ _ _ => False
  | defineReduction _ _ _ _ _ _ _ => True
  | getType _ _ name _ => NameFits name
  | getTypes _ _ name => NameFits name

instance (c : Call) : Decidable c.Plain :=
  match c with
  | .setObjectInstance name _ _ => inferInstanceAs (Decidable (NameFits name))
  | .defineType _ _ name _ _ => inferInstanceAs (Decidable (NameFits name))
  | .defineTypeAs _ _ _ _ => inferInstanceAs (Decidable False)
  | .defineReduction _ _ _ _ _ _ _ => inferInstanceAs (Decidable True)
  | .getType _ _ name _ => inferInstanceAs (Decidable (NameFits name))
  | .getTypes _ _ name => inferInstanceAs (Decidable (NameFits name))

def Call.nested : Call → Option (Definition (Int × String) Unit)
  | defineType scope contextType name _ _ => some ⟨(contextType, name), scope, ()⟩
  | _ => none

/-- The type that a call defines: its handle was returned. -/
def Call.entry (db : TypeDatabase) : Call → Option TypeEntry
  | defineType scope contextType name constructor parameter =>
    match (db.defineType scope contextType name constructor parameter).2 with
    | .ok handle => if handle = -1 then none else
      some ⟨handle, scope, contextType, name, constructor, parameter⟩
    | .error _ => none
  | _ => none

def returned (db : TypeDatabase) : List Call → List TypeEntry
  | [] => []
  | c :: cs => (c.entry db).toList ++ returned (c.run db) cs

theorem returned_append (db : TypeDatabase) (cs cs' : List Call) :
    db.returned (cs ++ cs') = db.returned cs ++ (db.calls cs).returned cs' := by
  induction cs generalizing db with
  | nil => rfl
  | cons c cs ih => simp [returned, calls, ih]

/-- No type is changed, and at most the name is entered. -/
structure SameTypes (name : String) (db db' : TypeDatabase) : Prop where
  table : db'.typeTable = db.typeTable
  records : db'.typerecMap = db.typerecMap
  parameters : db'.parameterMap = db.parameterMap
  names : db'.identMap = db.identMap ∨ db'.identMap = (db.identMap.enter name).1

theorem SameTypes.refl (name : String) (db : TypeDatabase) : SameTypes name db db :=
  ⟨rfl, rfl, rfl, Or.inl rfl⟩

theorem setObjectInstance_sameTypes (db : TypeDatabase) (name : String) (scope : Scope)
    (handle : Int) : SameTypes name db (db.setObjectInstance name scope handle).1 := by
  simp only [setObjectInstance]
  split
  · exact .refl name db
  split
  · exact .refl name db
  rename_i entered
  split
  · exact ⟨rfl, rfl, rfl, Or.inr (congrArg Prod.fst (IdentMap.get_eq entered).2)⟩
  · exact ⟨rfl, rfl, rfl, Or.inr (congrArg Prod.fst (IdentMap.get_eq entered).2)⟩

theorem defineReduction_sameTypes (db : TypeDatabase) (fuel : Nat) (scope : Scope)
    (toType fromType constructor tag : Int) (weight : ℚ) (name : String) :
    SameTypes name db
      (db.defineReduction fuel scope toType fromType constructor tag weight).1 := by
  simp only [defineReduction]
  split
  · exact .refl name db
  split
  · exact .refl name db
  split
  · exact .refl name db
  split
  · split
    · exact .refl name db
    · exact ⟨rfl, rfl, rfl, Or.inl rfl⟩
  · exact ⟨rfl, rfl, rfl, Or.inl rfl⟩

theorem getType_sameTypes (db : TypeDatabase) (scope : Scope) (contextType : Int) (name : String)
    (parameter : List Int) :
    SameTypes name db (db.getType scope contextType name parameter).1 := by
  simp only [getType]
  split
  · exact .refl name db
  split
  · exact .refl name db
  · rename_i entered
    exact ⟨rfl, rfl, rfl, Or.inr (congrArg Prod.fst (IdentMap.get_eq entered).2)⟩

theorem getTypes_sameTypes (db : TypeDatabase) (scope : Scope) (contextType : Int)
    (name : String) : SameTypes name db (db.getTypes scope contextType name).1 := by
  simp only [getTypes]
  split
  · exact .refl name db
  split
  · exact .refl name db
  · rename_i entered
    exact ⟨rfl, rfl, rfl, Or.inr (congrArg Prod.fst (IdentMap.get_eq entered).2)⟩

structure StoresTypes (defs : List TypeEntry) (db : TypeDatabase) : Prop where
  types : ∀ scope contextType name, db.validHandle 0 contextType → NameFits name →
    (db.getTypes scope contextType name).2 =
      .ok ((overloadsOf defs scope contextType name).map TypeEntry.handle)
  type : ∀ scope contextType name parameter, db.validHandle 0 contextType → NameFits name →
    (∃ d ∈ overloadsOf defs scope contextType name, d.signature = parameter ∧
      (db.getType scope contextType name parameter).2 = .ok d.handle) ∨
    (∀ d ∈ overloadsOf defs scope contextType name, d.signature ≠ parameter) ∧
      (db.getType scope contextType name parameter).2 = .ok 0
  signatures : ∀ scope contextType name,
    ((overloadsOf defs scope contextType name).map TypeEntry.signature).Nodup
  answers : ∀ d ∈ defs, Describes db d
  increasing : defs.Pairwise fun c d => c.handle < d.handle
  links : ∀ (i : Nat) (record : TypeRecord), db.typerecMap[i]? = some record →
    record.next = 0 ∨ i + 1 < record.next ∧ record.next ≤ db.typerecMap.length

theorem Keeps.storesTypes {defs : List TypeEntry} {heads : List (Definition TypeDef Int)}
    {db : TypeDatabase} (keeps : Keeps defs heads db) : StoresTypes defs db where
  types scope _ _ valid fits := keeps.getTypes scope valid fits
  type scope _ _ parameter valid fits := keeps.getType scope valid fits parameter
  signatures := keeps.signatures
  answers d mem := (keeps.recorded d mem).answers
  increasing := keeps.increasing
  links := keeps.sound.next

/-- The queries about known contexts and about the types answer the same. -/
def SameAnswers (defs : List TypeEntry) (db db' : TypeDatabase) : Prop :=
  (∀ scope contextType name, db.validHandle 0 contextType → NameFits name →
    (db'.getTypes scope contextType name).2 = (db.getTypes scope contextType name).2 ∧
    ∀ parameter, (db'.getType scope contextType name parameter).2 =
      (db.getType scope contextType name parameter).2) ∧
  ∀ d ∈ defs, db'.typeName d.handle = db.typeName d.handle ∧
    db'.typeContext d.handle = db.typeContext d.handle ∧
    db'.typeScope d.handle = db.typeScope d.handle ∧
    db'.typeConstructor d.handle = db.typeConstructor d.handle ∧
    db'.typeParameters d.handle = db.typeParameters d.handle

theorem StoresTypes.sameAnswers {defs : List TypeEntry} {db db' : TypeDatabase}
    (stores : StoresTypes defs db) (stores' : StoresTypes defs db')
    (grown : db.typerecMap.length ≤ db'.typerecMap.length) : SameAnswers defs db db' := by
  refine ⟨fun scope contextType name valid fits => ?_, fun d mem => ?_⟩
  · have valid' := TypesSound.handle_mono grown valid
    refine ⟨(stores'.types scope _ _ valid' fits).trans (stores.types scope _ _ valid fits).symm,
      fun parameter => ?_⟩
    have injective : ∀ {c d : TypeEntry}, c ∈ overloadsOf defs scope contextType name →
        d ∈ overloadsOf defs scope contextType name → c.signature = d.signature → c = d :=
      fun hc hd same => List.inj_on_of_nodup_map (stores.signatures scope contextType name) hc hd
        same
    rcases stores.type scope _ _ parameter valid fits with ⟨d, mem, same, found⟩ | ⟨absent, none⟩
    · rcases stores'.type scope _ _ parameter valid' fits with
        ⟨d', mem', same', found'⟩ | ⟨absent', -⟩
      · obtain rfl := injective mem mem' (same.trans same'.symm)
        rw [found, found']
      · exact absurd same (absent' d mem)
    · rcases stores'.type scope _ _ parameter valid' fits with
        ⟨d', mem', same', -⟩ | ⟨-, none'⟩
      · exact absurd same' (absent d' mem')
      · rw [none, none']
  · have before := stores.answers d mem
    have after := stores'.answers d mem
    exact ⟨after.name.trans before.name.symm, after.context.trans before.context.symm,
      after.scope.trans before.scope.symm, after.constructor.trans before.constructor.symm,
      after.parameter.trans before.parameter.symm⟩

/-- What a definition returns and changes when these types are defined. -/
structure DefinesOnce (defs : List TypeEntry) (db : TypeDatabase) (scope : Scope)
    (contextType : Int) (name : String) (constructor : Int)
    (parameter : List TypeConstructorPair) : Prop where
  refused : ¬ db.Accepts contextType constructor parameter → ∃ code arg,
    db.defineType scope contextType name constructor parameter = (db, throw code arg)
  again : (db.defineType scope contextType name constructor parameter).2 = .ok (-1) ↔
    db.Accepts contextType constructor parameter ∧
      ∃ d ∈ overloadsOf defs scope contextType name,
        d.signature = parameter.map TypeConstructorPair.type
  unchanged : (db.defineType scope contextType name constructor parameter).2 = .ok (-1) →
    SameAnswers defs db (db.defineType scope contextType name constructor parameter).1
  new : db.Accepts contextType constructor parameter →
    (db.defineType scope contextType name constructor parameter).2 ≠ .ok (-1) → ∃ handle,
      (db.defineType scope contextType name constructor parameter).2 = .ok handle ∧
        1 ≤ handle ∧ ∀ d ∈ defs, d.handle < handle

namespace Keeps

variable {defs : List TypeEntry} {heads : List (Definition TypeDef Int)} {db : TypeDatabase}

theorem definesOnce (keeps : Keeps defs heads db) {scope : Scope} {contextType : Int}
    {name : String} (fits : NameFits name)
    (laminar : Laminar (insert scope
      (scopesOf (defs.map TypeEntry.definition) (contextType, name)))) (constructor : Int)
    (parameter : List TypeConstructorPair) :
    DefinesOnce defs db scope contextType name constructor parameter := by
  by_cases accepts : db.Accepts contextType constructor parameter
  · rcases keeps.defineType accepts fits laminar with
      ⟨same, result, grown, kept⟩ | ⟨fresh, result, heads', kept⟩
    · exact ⟨fun refused => absurd accepts refused, ⟨fun _ => ⟨accepts, same⟩, fun _ => result⟩,
        fun _ => keeps.storesTypes.sameAnswers kept.storesTypes grown.length_le,
        fun _ other => absurd result other⟩
    · have other : (db.defineType scope contextType name constructor parameter).2 ≠ .ok (-1) := by
        rw [result]
        intro same
        have := Except.ok.inj same
        dsimp only at this
        omega
      refine ⟨fun refused => absurd accepts refused, ⟨fun same => absurd same other, ?_⟩,
        fun same => absurd same other, fun _ _ => ⟨_, result, by dsimp only; omega, fun d mem => ?_⟩⟩
      · rintro ⟨-, d, mem, same⟩
        exact absurd same (fresh d mem)
      · obtain ⟨-, high⟩ := (keeps.recorded d mem).valid
        dsimp only
        omega
  · obtain ⟨code, arg, run⟩ : ∃ code arg,
        db.defineType scope contextType name constructor parameter = (db, throw code arg) :=
      defineType_refused accepts
    have other : (db.defineType scope contextType name constructor parameter).2 ≠ .ok (-1) := by
      rw [run]
      exact fun same => nomatch same
    exact ⟨fun _ => ⟨code, arg, run⟩, ⟨fun same => absurd same other, fun h => absurd h.1 accepts⟩,
      fun same => absurd same other, fun h => absurd h accepts⟩

theorem call (keeps : Keeps defs heads db) (c : Call) (plain : c.Plain)
    (laminar : ∀ new ∈ c.nested, Laminar (insert new.scope
      (scopesOf (defs.map TypeEntry.definition) new.key))) :
    ∃ heads', Keeps (defs ++ (c.entry db).toList) heads' (c.run db) := by
  have sound := c.run_typesSound keeps.sound
  have entered {name : String} (same : SameTypes name db (c.run db)) (none : c.entry db = none) :
      ∃ heads', Keeps (defs ++ (c.entry db).toList) heads' (c.run db) := by
    rw [none, Option.toList_none, List.append_nil]
    refine ⟨heads, keeps.named sound same.table same.records same.parameters ?_ ?_⟩
    · rcases same.names with eq | eq
      · rw [eq]
      · rw [eq]
        exact IdentMap.enter_grows db.identMap name
    · rcases same.names with eq | eq
      · rw [eq]
        exact keeps.names
      · rw [eq]
        exact IdentMap.enter_nodup keeps.names name
  cases c with
  | setObjectInstance name scope handle =>
    exact entered (setObjectInstance_sameTypes db name scope handle) rfl
  | defineTypeAs scope contextType name type => exact absurd plain id
  | defineReduction fuel scope toType fromType constructor tag weight =>
    exact entered (defineReduction_sameTypes db fuel scope toType fromType constructor tag weight "") rfl
  | getType scope contextType name parameter =>
    exact entered (getType_sameTypes db scope contextType name parameter) rfl
  | getTypes scope contextType name =>
    exact entered (getTypes_sameTypes db scope contextType name) rfl
  | defineType scope contextType name constructor parameter =>
    have laminar' := laminar _ rfl
    by_cases accepts : db.Accepts contextType constructor parameter
    · rcases keeps.defineType accepts plain laminar' with
        ⟨-, result, -, kept⟩ | ⟨-, result, heads', kept⟩
      · refine ⟨heads, ?_⟩
        simpa [Call.entry, Call.run, result] using kept
      · refine ⟨heads', ?_⟩
        have other : ¬ ((db.typerecMap.length + 1 : Nat) : Int) = -1 := by omega
        simp only [Call.entry, result, other, if_false, Option.toList_some]
        exact kept
    · obtain ⟨code, arg, run⟩ : ∃ code arg,
          db.defineType scope contextType name constructor parameter = (db, throw code arg) :=
        defineType_refused accepts
      refine ⟨heads, ?_⟩
      simpa [Call.entry, Call.run, run, throw] using keeps

end Keeps

theorem returned_sub (db : TypeDatabase) (cs : List Call) :
    ∀ d ∈ db.returned cs, d.definition ∈ cs.filterMap Call.nested := by
  induction cs generalizing db with
  | nil => simp [returned]
  | cons c cs ih =>
    intro d mem
    rcases List.mem_append.mp mem with own | rest
    · refine List.mem_filterMap.mpr ⟨c, List.mem_cons_self, ?_⟩
      rw [Option.mem_toList] at own
      cases c with
      | defineType scope contextType name constructor parameter =>
        simp only [Call.entry] at own
        split at own
        · split_ifs at own
          obtain rfl := Option.some.inj own
          rfl
        · simp at own
      | _ => simp [Call.entry] at own
    · obtain ⟨c', mem', own⟩ := List.mem_filterMap.mp (ih (c.run db) d rest)
      exact List.mem_filterMap.mpr ⟨c', List.mem_cons_of_mem _ mem', own⟩

private theorem nested_of_wellScoped {db : TypeDatabase} {cs : List Call}
    {new : Definition (Int × String) Unit}
    (wellScoped : WellScoped (cs.filterMap Call.nested ++ [new])) :
    Laminar (insert new.scope
      (scopesOf ((db.returned cs).map TypeEntry.definition) new.key)) := by
  refine laminar_insert new wellScoped fun d mem => ?_
  obtain ⟨e, mem', rfl⟩ := List.mem_map.mp mem
  exact returned_sub db cs e mem'

/-- Every run of plain calls keeps the types whose handles it returned. -/
theorem keeps_returned (cs : List Call) (plain : ∀ c ∈ cs, c.Plain)
    (wellScoped : WellScoped (cs.filterMap Call.nested)) :
    ∃ heads, Keeps (empty.returned cs) heads (empty.calls cs) := by
  induction cs using List.reverseRecOn with
  | nil => exact ⟨[], keeps_empty⟩
  | append_singleton cs c ih =>
    rw [List.filterMap_append] at wellScoped
    obtain ⟨heads, keeps⟩ := ih (fun c mem => plain c (List.mem_append_left _ mem))
      (wellScoped_of_mem wellScoped fun d mem => List.mem_append_left _ mem)
    have state : empty.calls (cs ++ [c]) = c.run (empty.calls cs) := by simp [calls]
    rw [state, returned_append]
    refine (keeps.call c (plain c (by simp)) fun new own => nested_of_wellScoped ?_).imp
      fun heads' kept => by simpa [returned] using kept
    simpa [Option.mem_def.mp own] using wellScoped

/-- After every run of definitions the queries answer with the types whose handles were returned,
    for ever, and a further definition returns a new handle or -1 if its type is there already. -/
theorem defineType_stores (cs : List Call) (plain : ∀ c ∈ cs, c.Plain)
    (wellScoped : WellScoped (cs.filterMap Call.nested)) :
    StoresTypes (empty.returned cs) (empty.calls cs) ∧
    (∀ before after, cs = before ++ after → empty.returned before <+: empty.returned cs) ∧
    ∀ scope contextType name constructor parameter, NameFits name →
      WellScoped (cs.filterMap Call.nested ++ [⟨(contextType, name), scope, ()⟩]) →
      DefinesOnce (empty.returned cs) (empty.calls cs) scope contextType name constructor
        parameter := by
  obtain ⟨heads, keeps⟩ := keeps_returned cs plain wellScoped
  refine ⟨keeps.storesTypes, ?_, fun scope contextType name constructor parameter fits nested => ?_⟩
  · rintro before after rfl
    rw [returned_append]
    exact List.prefix_append _ _
  · exact keeps.definesOnce fits (nested_of_wellScoped nested) constructor parameter

theorem defineType_stores_overloads :
    let cs : List Call := [.defineType ⟨0, 10⟩ 0 "f" 1 [], .defineType ⟨0, 10⟩ 0 "f" 2 [⟨1, 5⟩],
      .defineType ⟨2, 5⟩ 0 "f" 3 [⟨1, 6⟩], .defineType ⟨0, 10⟩ 0 "f" 4 [⟨1, 7⟩]]
    StoresTypes (empty.returned cs) (empty.calls cs) ∧
    DefinesOnce (empty.returned cs) (empty.calls cs) ⟨0, 10⟩ 0 "f" 5 [⟨2, 0⟩] ∧
    ((empty.calls cs).getTypes ⟨0, 10⟩ 0 "f").2 = .ok [1, 2] ∧
    ((empty.calls cs).getType ⟨2, 5⟩ 0 "f" [1]).2 = .ok 3 := by
  intro cs
  have stored := defineType_stores [.defineType ⟨0, 10⟩ 0 "f" 1 [],
    .defineType ⟨0, 10⟩ 0 "f" 2 [⟨1, 5⟩], .defineType ⟨2, 5⟩ 0 "f" 3 [⟨1, 6⟩],
    .defineType ⟨0, 10⟩ 0 "f" 4 [⟨1, 7⟩]] (by decide) (by decide)
  exact ⟨stored.1, stored.2.2 ⟨0, 10⟩ 0 "f" 5 [⟨2, 0⟩] (by decide) (by decide),
    by decide +kernel, by decide +kernel⟩

/-- A name without a key passes all of the checks, but neither its definition nor a query returns. -/
theorem longName_undefined : empty.Accepts 0 0 [] ∧
    (empty.defineType ⟨0, 10⟩ 0 longName 0 []).2 = .error .outOfRange ∧
    (empty.getTypes ⟨0, 10⟩ 0 longName).2 = .error .outOfRange ∧
    ¬ DefinesOnce [] empty ⟨0, 10⟩ 0 longName 0 [] := by
  have accepts : empty.Accepts 0 0 [] := by decide
  have run : (empty.defineType ⟨0, 10⟩ 0 longName 0 []).2 = .error .outOfRange := by
    rw [defineType_of_long accepts longName_long]
  refine ⟨accepts, run, ?_, fun once => ?_⟩
  · simp only [getTypes, accepts.2.2.2, not_true_eq_false, if_false,
      empty.identMap.get_of_long longName_long]
  · obtain ⟨handle, defined, -⟩ := once.new accepts (by simp [run])
    rw [run] at defined
    cases defined

end TypeDatabase

end Mewa
