/- Module: Mewa/TypeDb/Store
   digest: A run of definitions of types stores each of them, and every query answers with them. -/

import Mewa.Scope.Runs
import Mewa.TypeDb.Entries
import Mathlib.Data.List.Sublists

set_option autoImplicit false
set_option relaxedAutoImplicit false

namespace Mewa

open Mewa.Lib Definition

/-- The scope that a type is defined in, by the names of its key. -/
def TypeEntry.definition (d : TypeEntry) : Definition (Int × String) Unit :=
  ⟨(d.contextType, d.name), d.scope, ()⟩

namespace TypeDatabase

/-- The checks of a definition. -/
def Accepts (db : TypeDatabase) (contextType constructor : Int)
    (parameter : List TypeConstructorPair) : Prop :=
  parameter.length < maxNofParameter ∧
    (db.parameterMap.length + parameter.length : Int) < maxInt ∧
    0 ≤ constructor ∧ db.validHandle 0 contextType

instance (db : TypeDatabase) (contextType constructor : Int)
    (parameter : List TypeConstructorPair) :
    Decidable (db.Accepts contextType constructor parameter) :=
  inferInstanceAs (Decidable (_ ∧ _ ∧ _ ∧ _))

/-- The record that a definition pushes. -/
def newRecord (db : TypeDatabase) (scope : Scope) (contextType ident constructor : Int)
    (parameter : List TypeConstructorPair) : TypeRecord :=
  ⟨scope, constructor, parameter.length,
    if parameter.isEmpty then 0 else db.parameterMap.length + 1, 0, ⟨contextType, ident⟩⟩

/-- The database when the record is pushed and its key entered into the table. -/
def pushed (db : TypeDatabase) (scope : Scope) (contextType : Int) (name : String)
    (constructor : Int) (parameter : List TypeConstructorPair) : TypeDatabase :=
  { db with
    parameterMap := db.parameterMap ++ parameter
    identMap := (db.identMap.enter name).1
    typerecMap := db.typerecMap ++
      [db.newRecord scope contextType (db.identMap.enter name).2 constructor parameter]
    typeTable := (db.typeTable.getOrSet scope ⟨contextType, (db.identMap.enter name).2⟩
      ((db.typerecMap.length + 1 : Nat) : Int)).1 }

section Cases

variable {db : TypeDatabase} {scope : Scope} {contextType constructor : Int} {name : String}
  {parameter : List TypeConstructorPair}

theorem defineType_refused (refused : ¬ db.Accepts contextType constructor parameter) :
    ∃ code arg, db.defineType scope contextType name constructor parameter =
      (db, throw code arg) := by
  unfold defineType
  split
  · exact ⟨_, _, rfl⟩
  split
  · exact ⟨_, _, rfl⟩
  split
  · exact ⟨_, _, rfl⟩
  split
  · exact ⟨_, _, rfl⟩
  · rename_i short room low valid
    exact absurd ⟨not_le.mp short, not_le.mp room, not_lt.mp low, not_not.mp valid⟩ refused

theorem defineType_checked (accepts : db.Accepts contextType constructor parameter) :
    ¬ parameter.length ≥ maxNofParameter ∧
      ¬ (db.parameterMap.length + parameter.length : Int) ≥ maxInt ∧ ¬ constructor < 0 ∧
      ¬ ¬ db.validHandle 0 contextType :=
  ⟨not_le.mpr accepts.1, not_le.mpr accepts.2.1, not_lt.mpr accepts.2.2.1,
    not_not.mpr accepts.2.2.2⟩

/-- A name without a key: the program has written outside of the block of the key. -/
theorem defineType_of_long (accepts : db.Accepts contextType constructor parameter)
    (long : ¬ NameFits name) :
    db.defineType scope contextType name constructor parameter = (db, .error .outOfRange) := by
  obtain ⟨short, room, low, valid⟩ := defineType_checked accepts
  simp only [defineType, short, room, low, valid, if_false, db.identMap.get_of_long long]

/-- A definition that is refused, or whose name has no key, stores nothing. -/
theorem defineType_unchanged
    (refused : ¬ (db.Accepts contextType constructor parameter ∧ NameFits name)) :
    (db.defineType scope contextType name constructor parameter).1 = db := by
  by_cases accepts : db.Accepts contextType constructor parameter
  · rw [defineType_of_long accepts fun fits => refused ⟨accepts, fits⟩]
  · obtain ⟨code, arg, run⟩ : ∃ code arg,
        db.defineType scope contextType name constructor parameter = (db, throw code arg) :=
      defineType_refused accepts
    rw [run]

variable {known : Int} {tri last : Nat}

theorem defineType_first (accepts : db.Accepts contextType constructor parameter)
    (fits : NameFits name)
    (call : (db.typeTable.getOrSet scope ⟨contextType, (db.identMap.enter name).2⟩
      ((db.typerecMap.length + 1 : Nat) : Int)).2 = .ok 0) :
    db.defineType scope contextType name constructor parameter =
      (db.pushed scope contextType name constructor parameter,
        .ok ((db.typerecMap.length + 1 : Nat) : Int)) := by
  obtain ⟨short, room, low, valid⟩ := defineType_checked accepts
  simp only [defineType, short, room, low, valid, if_false, db.identMap.get_of_fits fits, call, if_true]
  rfl

theorem defineType_again (accepts : db.Accepts contextType constructor parameter)
    (fits : NameFits name)
    (call : (db.typeTable.getOrSet scope ⟨contextType, (db.identMap.enter name).2⟩
      ((db.typerecMap.length + 1 : Nat) : Int)).2 = .ok known) (defined : known ≠ 0)
    (search : (db.pushed scope contextType name constructor parameter).findTypeWithSignature
      parameter (db.pushed scope contextType name constructor parameter).typerecMap.length
      known.toNat 0 = .ok (tri, last)) (found : tri ≠ 0) :
    db.defineType scope contextType name constructor parameter =
      (db.pushed scope contextType name constructor parameter, .ok (-1)) := by
  obtain ⟨short, room, low, valid⟩ := defineType_checked accepts
  have search' := search
  simp only [pushed, newRecord] at search'
  simp only [defineType, short, room, low, valid, if_false, db.identMap.get_of_fits fits, call, defined, search', found,
    ne_eq, not_false_eq_true, if_true]
  rfl

theorem defineType_linked (accepts : db.Accepts contextType constructor parameter)
    (fits : NameFits name)
    (call : (db.typeTable.getOrSet scope ⟨contextType, (db.identMap.enter name).2⟩
      ((db.typerecMap.length + 1 : Nat) : Int)).2 = .ok known) (defined : known ≠ 0)
    (search : (db.pushed scope contextType name constructor parameter).findTypeWithSignature
      parameter (db.pushed scope contextType name constructor parameter).typerecMap.length
      known.toNat 0 = .ok (0, last)) (found : last ≠ 0) :
    db.defineType scope contextType name constructor parameter =
      ({ db.pushed scope contextType name constructor parameter with
          typerecMap := (db.pushed scope contextType name constructor parameter).typerecMap.modify
            (last - 1) fun tr => { tr with next := db.typerecMap.length + 1 } },
        .ok ((db.typerecMap.length + 1 : Nat) : Int)) := by
  obtain ⟨short, room, low, valid⟩ := defineType_checked accepts
  have search' := search
  simp only [pushed, newRecord] at search'
  simp only [defineType, short, room, low, valid, if_false, db.identMap.get_of_fits fits, call, defined, search', found,
    ne_eq, not_true_eq_false]
  rfl

theorem grown_pushed (db : TypeDatabase) (scope : Scope) (contextType : Int) (name : String)
    (constructor : Int) (parameter : List TypeConstructorPair) :
    Grown db (db.pushed scope contextType name constructor parameter) where
  names := IdentMap.enter_grows db.identMap name
  parameters := List.prefix_append _ _
  records i record node := ⟨record.next, by
    show (db.typerecMap ++ _)[i]? = _
    rw [List.getElem?_append_left (List.getElem?_eq_some_iff.mp node).1, node]⟩

theorem Grown.link {db' : TypeDatabase} (grown : Grown db db') (last next : Nat) :
    Grown db { db' with typerecMap := db'.typerecMap.modify last fun tr =>
      { tr with next := next } } where
  names := grown.names
  parameters := grown.parameters
  records i record node := by
    obtain ⟨next', node'⟩ := grown.records i record node
    show ∃ next'', (db'.typerecMap.modify last _)[i]? = _
    rw [List.getElem?_modify, node']
    by_cases here : last = i
    · exact ⟨next, by simp [here]⟩
    · exact ⟨next', by simp [here]⟩

theorem slice_newRecord (db : TypeDatabase) (scope : Scope) (contextType ident constructor : Int)
    (parameter : List TypeConstructorPair) :
    Slice (db.parameterMap ++ parameter)
      (db.newRecord scope contextType ident constructor parameter) parameter := by
  refine ⟨rfl, ?_⟩
  cases parameter with
  | nil => exact ⟨[], db.parameterMap, by simp, rfl, by simp⟩
  | cons p ps => exact ⟨db.parameterMap, [], by simp, rfl, by simp [newRecord]⟩

theorem recorded_pushed :
    Recorded (db.pushed scope contextType name constructor parameter)
      ⟨((db.typerecMap.length + 1 : Nat) : Int), scope, contextType, name, constructor,
        parameter⟩ := by
  refine ⟨by dsimp only; omega,
    db.newRecord scope contextType (db.identMap.enter name).2 constructor parameter, ?_,
    rfl, rfl, rfl, IdentMap.enter_knows db.identMap name, slice_newRecord ..⟩
  show (db.typerecMap ++ _)[(((db.typerecMap.length + 1 : Nat) : Int) - 1).toNat]? = _
  rw [show (((db.typerecMap.length + 1 : Nat) : Int) - 1).toNat = db.typerecMap.length by omega]
  simp

end Cases

/-- The database after calls without aliases: the table leads from each scope of a key to the list
    of the types that were defined for it. -/
structure Keeps (defs : List TypeEntry) (heads : List (Definition TypeDef Int))
    (db : TypeDatabase) : Prop where
  sound : TypesSound db
  represents : Represents heads db.typeTable
  wellScoped : WellScoped heads
  names : db.identMap.inv.Nodup
  increasing : defs.Pairwise fun c d => c.handle < d.handle
  recorded : ∀ d ∈ defs, Recorded db d
  lists : ∀ h ∈ heads, 0 < h.value ∧ ∃ name, db.identMap.Knows h.key.ident name ∧
    Overloads db.typerecMap h.value
      ((overloadsOf defs h.scope h.key.contextType name).map TypeEntry.handle)
  covered : ∀ d ∈ defs, ∃ h ∈ heads, h.scope = d.scope ∧ h.key.contextType = d.contextType ∧
    db.identMap.Knows h.key.ident d.name
  distinct : defs.Pairwise fun c d => c.HasKey d.scope d.contextType d.name →
    c.signature ≠ d.signature

theorem keeps_empty : Keeps [] [] empty where
  sound := typesSound_empty
  represents := represents_empty 0
  wellScoped := ⟨by simp, by simp⟩
  names := List.nodup_nil
  increasing := List.Pairwise.nil
  recorded := by simp
  lists := by simp
  covered := by simp
  distinct := List.Pairwise.nil

namespace Keeps

variable {defs : List TypeEntry} {heads : List (Definition TypeDef Int)} {db db' : TypeDatabase}

theorem named (keeps : Keeps defs heads db) (sound : TypesSound db')
    (table : db'.typeTable = db.typeTable) (records : db'.typerecMap = db.typerecMap)
    (parameters : db'.parameterMap = db.parameterMap)
    (grown : db.identMap.inv <+: db'.identMap.inv) (names : db'.identMap.inv.Nodup) :
    Keeps defs heads db' where
  sound := sound
  represents := table ▸ keeps.represents
  wellScoped := keeps.wellScoped
  names := names
  increasing := keeps.increasing
  recorded d mem := (keeps.recorded d mem).mono
    ⟨grown, by rw [parameters], fun i record node => ⟨record.next, by rw [records, node]⟩⟩
  lists h mem := by
    obtain ⟨positive, name, knows, list⟩ := keeps.lists h mem
    exact ⟨positive, name, knows.mono grown, records ▸ list⟩
  covered d mem := by
    obtain ⟨h, mem', scope, context, knows⟩ := keeps.covered d mem
    exact ⟨h, mem', scope, context, knows.mono grown⟩
  distinct := keeps.distinct

theorem length_le (keeps : Keeps defs heads db) {ds : List TypeEntry} (sub : ds.Sublist defs) :
    ds.length ≤ db.typerecMap.length := by
  have increasing := keeps.increasing.sublist sub
  have nodup : (ds.map fun d => d.handle.toNat).Nodup := by
    refine List.pairwise_map.mpr (increasing.imp_of_mem fun {c d} hc hd less => ?_)
    have := (keeps.recorded c (sub.subset hc)).1
    omega
  have inside : (ds.map fun d => d.handle.toNat) ⊆ List.range' 1 db.typerecMap.length := by
    intro i mem
    obtain ⟨d, mem', rfl⟩ := List.mem_map.mp mem
    obtain ⟨low, high⟩ := (keeps.recorded d (sub.subset mem')).valid
    exact List.mem_range'_1.mpr (by omega)
  have := (nodup.subperm inside).length_le
  simpa using this

theorem entry_eq (keeps : Keeps defs heads db) {c d : TypeEntry} (hc : c ∈ defs) (hd : d ∈ defs)
    (same : c.handle = d.handle) : c = d := by
  obtain ⟨i, hi⟩ := List.getElem?_of_mem hc
  obtain ⟨j, hj⟩ := List.getElem?_of_mem hd
  obtain ⟨inside, rfl⟩ := List.getElem?_eq_some_iff.mp hi
  obtain ⟨inside', rfl⟩ := List.getElem?_eq_some_iff.mp hj
  have ordered := List.pairwise_iff_getElem.mp keeps.increasing
  rcases Nat.lt_trichotomy i j with less | rfl | more
  · exact absurd same (ordered i j inside inside' less).ne
  · rfl
  · exact absurd same (ordered j i inside' inside more).ne'

theorem scopes_sub (keeps : Keeps defs heads db) {map : IdentMap}
    (grown : db.identMap.inv <+: map.inv) {ident : Int} {name : String}
    (knows : map.Knows ident name) (contextType : Int) :
    scopesOf heads ⟨contextType, ident⟩ ⊆
      scopesOf (defs.map TypeEntry.definition) (contextType, name) := by
  rintro s ⟨h, mem, key, rfl⟩
  obtain ⟨positive, name', knows', list⟩ := keeps.lists h mem
  rw [key] at knows' list
  obtain rfl := (knows'.mono grown).name_eq knows
  obtain ⟨rest, split⟩ := list.head positive.ne'
  obtain ⟨d, front, -⟩ := List.exists_of_mem_map (split ▸ List.mem_cons_self :
    h.value ∈ (overloadsOf defs h.scope contextType name').map TypeEntry.handle)
  obtain ⟨mem', scope, context, name⟩ := mem_overloadsOf.mp front
  exact ⟨d.definition, List.mem_map_of_mem mem', Prod.ext context name, scope⟩

private theorem list_of_known (keeps : Keeps defs heads db) {map : IdentMap}
    (grown : db.identMap.inv <+: map.inv) {scope : Scope} {contextType ident : Int}
    {name : String} (knows : map.Knows ident name) {h : Definition TypeDef Int} (mem : h ∈ heads)
    (key : h.key = ⟨contextType, ident⟩) (here : h.scope = scope) :
    0 < h.value ∧ Overloads db.typerecMap h.value
      ((overloadsOf defs scope contextType name).map TypeEntry.handle) := by
  obtain ⟨positive, name', knows', list⟩ := keeps.lists h mem
  rw [key, here] at list
  rw [key] at knows'
  obtain rfl := (knows'.mono grown).name_eq knows
  exact ⟨positive, list⟩

private theorem none_of_unknown (keeps : Keeps defs heads db) {map : IdentMap}
    (grown : db.identMap.inv <+: map.inv) (nodup : map.inv.Nodup) {scope : Scope}
    {contextType ident : Int} {name : String} (knows : map.Knows ident name)
    (unknown : scope ∉ scopesOf heads ⟨contextType, ident⟩) :
    overloadsOf defs scope contextType name = [] := by
  refine List.eq_nil_iff_forall_not_mem.mpr fun d mem => ?_
  obtain ⟨mem', rfl, rfl, rfl⟩ := mem_overloadsOf.mp mem
  obtain ⟨h, mem'', scope, context, knows'⟩ := keeps.covered d mem'
  exact unknown ⟨h, mem'', TypeDef.ext context ((knows'.mono grown).ident_eq nodup knows), scope⟩

theorem getDef (keeps : Keeps defs heads db) (scope : Scope) (contextType : Int) (name : String) :
    ∃ start : Nat, db.typeTable.getDef scope ⟨contextType, (db.identMap.enter name).2⟩ =
        .ok (start : Int) ∧
      Overloads db.typerecMap start
        ((overloadsOf defs scope contextType name).map TypeEntry.handle) := by
  have grown := IdentMap.enter_grows db.identMap name
  have nodup := IdentMap.enter_nodup keeps.names name
  have knows := IdentMap.enter_knows db.identMap name
  have query := valueOf_eq keeps.represents ⟨contextType, (db.identMap.enter name).2⟩ scope
  rw [keeps.sound.nullval] at query
  cases hknown : known heads ⟨⟨contextType, (db.identMap.enter name).2⟩, scope, (0 : Int)⟩ with
  | none =>
    rw [hknown] at query
    refine ⟨0, query, ?_⟩
    rw [keeps.none_of_unknown grown nodup knows (known_eq_none.mp hknown)]
    exact .nil
  | some old =>
    obtain ⟨h, mem, same, rfl⟩ := known_eq_some hknown
    obtain ⟨positive, list⟩ := keeps.list_of_known grown knows mem same.1 same.2
    rw [hknown] at query
    have start : ((h.value.toNat : Nat) : Int) = h.value := Int.toNat_of_nonneg positive.le
    exact ⟨h.value.toNat, by rw [start]; exact query, by rw [start]; exact list⟩

theorem getTypes (keeps : Keeps defs heads db) (scope : Scope) {contextType : Int} {name : String}
    (valid : db.validHandle 0 contextType) (fits : NameFits name) :
    (db.getTypes scope contextType name).2 =
      .ok ((overloadsOf defs scope contextType name).map TypeEntry.handle) := by
  obtain ⟨start, query, list⟩ := keeps.getDef scope contextType name
  have short := keeps.length_le (List.filter_sublist :
    (overloadsOf defs scope contextType name).Sublist defs)
  simp only [TypeDatabase.getTypes, valid, not_true_eq_false, if_false,
    db.identMap.get_of_fits fits, query, ok_bind]
  refine Overloads.collect ?_ ?_
  · exact list
  · rw [List.length_map]
    exact short

theorem signatures (keeps : Keeps defs heads db) (scope : Scope) (contextType : Int)
    (name : String) :
    ((overloadsOf defs scope contextType name).map TypeEntry.signature).Nodup := by
  refine List.pairwise_map.mpr ?_
  refine (keeps.distinct.sublist List.filter_sublist).imp_of_mem fun {c d} hc hd differ => ?_
  obtain ⟨-, rfl, rfl, rfl⟩ := mem_overloadsOf.mp hc
  obtain ⟨-, scope, context, name⟩ := mem_overloadsOf.mp hd
  exact differ ⟨scope.symm, context.symm, name.symm⟩

theorem getType (keeps : Keeps defs heads db) (scope : Scope) {contextType : Int} {name : String}
    (valid : db.validHandle 0 contextType) (fits : NameFits name) (parameter : List Int) :
    (∃ d ∈ overloadsOf defs scope contextType name, d.signature = parameter ∧
      (db.getType scope contextType name parameter).2 = .ok d.handle) ∨
    (∀ d ∈ overloadsOf defs scope contextType name, d.signature ≠ parameter) ∧
      (db.getType scope contextType name parameter).2 = .ok 0 := by
  obtain ⟨start, query, list⟩ := keeps.getDef scope contextType name
  have short := keeps.length_le (List.filter_sublist :
    (overloadsOf defs scope contextType name).Sublist defs)
  have types : (parameter.map fun type => (⟨type, 0⟩ : TypeConstructorPair)).map
      TypeConstructorPair.type = parameter := by
    simp [Function.comp_def]
  simp only [TypeDatabase.getType, valid, not_true_eq_false, if_false, db.identMap.get_of_fits fits,
    query, ok_bind]
  by_cases defined : (start : Int) = 0
  · obtain rfl : start = 0 := by omega
    have none := list.unique .nil
    rw [List.map_eq_nil_iff] at none
    exact Or.inr ⟨by simp [none], by simp [pure, Except.pure]⟩
  have recorded : ∀ d ∈ overloadsOf defs scope contextType name,
      Recorded { db with identMap := (db.identMap.enter name).1 } d := fun d mem =>
    (keeps.recorded d (mem_overloadsOf.mp mem).1).mono
      ⟨IdentMap.enter_grows db.identMap name, List.prefix_refl _,
        fun i record node => ⟨record.next, node⟩⟩
  have search := Overloads.find _ recorded (parameter.map fun type => ⟨type, 0⟩) 0 list short
  rw [types] at search
  rw [Int.toNat_natCast]
  rcases search with ⟨d, mem, same, tri, last, handle, found⟩ | ⟨absent, found⟩
  · refine Or.inl ⟨d, mem, same, ?_⟩
    simp only [ne_eq, defined, not_false_eq_true, if_true, found, ok_bind, handle]
    rfl
  · refine Or.inr ⟨absent, ?_⟩
    simp only [ne_eq, defined, not_false_eq_true, if_true, found, ok_bind]
    rfl

/-- A state with one more type, whose record is there and whose list holds it. -/
private theorem snoc (keeps : Keeps defs heads db) (sound : TypesSound db') (grown : Grown db db')
    (names : db'.identMap.inv.Nodup) {heads' : List (Definition TypeDef Int)}
    (represents : Represents heads' db'.typeTable) (wellScoped : WellScoped heads')
    {entry : TypeEntry} (recorded : Recorded db' entry)
    (handle : entry.handle = (db.typerecMap.length + 1 : Nat))
    (fresh : ∀ d ∈ overloadsOf defs entry.scope entry.contextType entry.name,
      d.signature ≠ entry.signature)
    (lists : ∀ h ∈ heads', 0 < h.value ∧ ∃ name, db'.identMap.Knows h.key.ident name ∧
      Overloads db'.typerecMap h.value
        ((overloadsOf (defs ++ [entry]) h.scope h.key.contextType name).map TypeEntry.handle))
    (sub : heads ⊆ heads') (own : ∃ h ∈ heads', h.scope = entry.scope ∧
      h.key.contextType = entry.contextType ∧ db'.identMap.Knows h.key.ident entry.name) :
    Keeps (defs ++ [entry]) heads' db' where
  sound := sound
  represents := represents
  wellScoped := wellScoped
  names := names
  increasing := by
    refine List.pairwise_append.mpr ⟨keeps.increasing, List.pairwise_singleton _ _, ?_⟩
    intro c hc d hd
    obtain ⟨-, high⟩ := (keeps.recorded c hc).valid
    rw [List.mem_singleton.mp hd, handle]
    omega
  recorded d mem := by
    rcases List.mem_append.mp mem with old | last
    · exact (keeps.recorded d old).mono grown
    · rwa [List.mem_singleton.mp last]
  lists := lists
  covered d mem := by
    rcases List.mem_append.mp mem with old | last
    · obtain ⟨h, mem', scope, context, knows⟩ := keeps.covered d old
      exact ⟨h, sub mem', scope, context, knows.mono grown.names⟩
    · rwa [List.mem_singleton.mp last]
  distinct := by
    refine List.pairwise_append.mpr ⟨keeps.distinct, List.pairwise_singleton _ _, ?_⟩
    intro c hc d hd here
    obtain rfl := List.mem_singleton.mp hd
    exact fresh c (mem_overloadsOf.mpr ⟨hc, here⟩)

private theorem first (keeps : Keeps defs heads db) {scope : Scope} {contextType constructor : Int}
    {name : String} {parameter : List TypeConstructorPair}
    (sound : TypesSound (db.pushed scope contextType name constructor parameter))
    (unknown : scope ∉ scopesOf heads ⟨contextType, (db.identMap.enter name).2⟩)
    (laminar : Laminar (insert scope (scopesOf heads ⟨contextType, (db.identMap.enter name).2⟩)))
    (represents : Represents (heads ++ [⟨⟨contextType, (db.identMap.enter name).2⟩, scope,
        ((db.typerecMap.length + 1 : Nat) : Int)⟩])
      (db.pushed scope contextType name constructor parameter).typeTable) :
    Keeps (defs ++ [⟨((db.typerecMap.length + 1 : Nat) : Int), scope, contextType, name,
        constructor, parameter⟩])
      (heads ++ [⟨⟨contextType, (db.identMap.enter name).2⟩, scope,
        ((db.typerecMap.length + 1 : Nat) : Int)⟩])
      (db.pushed scope contextType name constructor parameter) := by
  have grown := IdentMap.enter_grows db.identMap name
  have nodup := IdentMap.enter_nodup keeps.names name
  have knows := IdentMap.enter_knows db.identMap name
  have empty := keeps.none_of_unknown grown nodup knows unknown
  refine keeps.snoc sound (grown_pushed db scope contextType name constructor parameter) nodup
    represents (keeps.wellScoped.append laminar) (recorded_pushed) rfl
    (by rw [empty]; simp) (fun h mem => ?_) (List.subset_append_left _ _)
    ⟨_, List.mem_append_right _ List.mem_cons_self, rfl, rfl, knows⟩
  rcases List.mem_append.mp mem with old | last
  · obtain ⟨positive, name', knows', list⟩ := keeps.lists h old
    refine ⟨positive, name', knows'.mono grown, ?_⟩
    rw [overloadsOf_snoc, if_neg, List.append_nil]
    · exact list.append _
    · rintro ⟨here, context, rfl⟩
      exact unknown ⟨h, old, TypeDef.ext context.symm
        ((knows'.mono grown).ident_eq nodup knows), here.symm⟩
  · rw [List.mem_singleton.mp last]
    refine ⟨by show (0 : Int) < ((db.typerecMap.length + 1 : Nat) : Int); omega, name, knows, ?_⟩
    show Overloads _ ((db.typerecMap.length + 1 : Nat) : Int)
      ((overloadsOf (defs ++ [_]) scope contextType name).map _)
    rw [overloadsOf_snoc, empty, if_pos ⟨rfl, rfl, rfl⟩]
    have own : (db.pushed scope contextType name constructor parameter).typerecMap[
        db.typerecMap.length]? = some
          (db.newRecord scope contextType (db.identMap.enter name).2 constructor parameter) := by
      simp [pushed]
    exact .cons own .nil

/-- The state after a definition whose signature is there already. -/
private theorem again (keeps : Keeps defs heads db) {scope : Scope}
    {contextType constructor : Int} {name : String} {parameter : List TypeConstructorPair}
    (sound : TypesSound (db.pushed scope contextType name constructor parameter))
    (represents : Represents heads
      (db.pushed scope contextType name constructor parameter).typeTable) :
    Keeps defs heads (db.pushed scope contextType name constructor parameter) where
  sound := sound
  represents := represents
  wellScoped := keeps.wellScoped
  names := IdentMap.enter_nodup keeps.names name
  increasing := keeps.increasing
  recorded d mem := (keeps.recorded d mem).mono
    (grown_pushed db scope contextType name constructor parameter)
  lists h mem := by
    obtain ⟨positive, name', knows, list⟩ := keeps.lists h mem
    exact ⟨positive, name', knows.mono (IdentMap.enter_grows db.identMap name), list.append _⟩
  covered d mem := by
    obtain ⟨h, mem', scope, context, knows⟩ := keeps.covered d mem
    exact ⟨h, mem', scope, context, knows.mono (IdentMap.enter_grows db.identMap name)⟩
  distinct := keeps.distinct

private theorem linked (keeps : Keeps defs heads db) {scope : Scope}
    {contextType constructor : Int} {name : String} {parameter : List TypeConstructorPair}
    {front : List TypeEntry} {e : TypeEntry} {last : Nat}
    (split : overloadsOf defs scope contextType name = front ++ [e]) (handle : e.handle = last + 1)
    (absent : ∀ d ∈ overloadsOf defs scope contextType name,
      d.signature ≠ parameter.map TypeConstructorPair.type)
    {linkedDb : TypeDatabase} (state : linkedDb = { db.pushed scope contextType name constructor
      parameter with
        typerecMap := (db.pushed scope contextType name constructor parameter).typerecMap.modify
          last fun tr => { tr with next := db.typerecMap.length + 1 } })
    (sound : TypesSound linkedDb) (represents : Represents heads linkedDb.typeTable) :
    Keeps (defs ++ [⟨((db.typerecMap.length + 1 : Nat) : Int), scope, contextType, name,
        constructor, parameter⟩]) heads linkedDb := by
  subst state
  have grown := IdentMap.enter_grows db.identMap name
  have here : e ∈ defs ∧ e.HasKey scope contextType name :=
    mem_overloadsOf.mp (by rw [split]; simp)
  obtain ⟨h, mem, scope', context', knows'⟩ := keeps.covered e here.1
  have growth := (grown_pushed db scope contextType name constructor parameter).link last
    (db.typerecMap.length + 1)
  refine keeps.snoc sound growth (IdentMap.enter_nodup keeps.names name) represents keeps.wellScoped
    ((recorded_pushed).mono ((Grown.refl _).link _ _)) rfl absent (fun h' mem' => ?_)
    (List.Subset.refl _) ⟨h, mem, scope'.trans here.2.1, context'.trans here.2.2.1, ?_⟩
  · obtain ⟨positive, name', knows, list⟩ := keeps.lists h' mem'
    refine ⟨positive, name', knows.mono grown, ?_⟩
    rw [overloadsOf_snoc]
    by_cases own : TypeEntry.HasKey ⟨((db.typerecMap.length + 1 : Nat) : Int), scope, contextType,
        name, constructor, parameter⟩ h'.scope h'.key.contextType name'
    · obtain ⟨here', context, rfl⟩ := own
      rw [if_pos ⟨here', context, rfl⟩, ← here', ← context]
      rw [← here', ← context] at list
      rw [split] at list ⊢
      simp only [List.map_append, List.map_cons, List.map_nil, handle] at list ⊢
      rw [List.append_assoc]
      exact list.link rfl
    · -- the last type of the key is on no other list
      rw [if_neg own, List.append_nil]
      refine (list.append _).modify (fun mem'' => own ?_) _
      obtain ⟨e', listed, handle'⟩ := List.mem_map.mp mem''
      obtain ⟨mem3, key⟩ := mem_overloadsOf.mp listed
      obtain rfl := keeps.entry_eq mem3 here.1 (by rw [handle', handle])
      exact ⟨here.2.1.symm.trans key.1, here.2.2.1.symm.trans key.2.1,
        here.2.2.2.symm.trans key.2.2⟩
  · rw [here.2.2.2] at knows'
    exact knows'.mono grown

theorem defineType (keeps : Keeps defs heads db) {scope : Scope} {contextType constructor : Int}
    {name : String} {parameter : List TypeConstructorPair}
    (accepts : db.Accepts contextType constructor parameter) (fits : NameFits name)
    (laminar : Laminar (insert scope
      (scopesOf (defs.map TypeEntry.definition) (contextType, name)))) :
    let entry : TypeEntry := ⟨((db.typerecMap.length + 1 : Nat) : Int), scope, contextType, name,
      constructor, parameter⟩
    let after := db.defineType scope contextType name constructor parameter
    ((∃ d ∈ overloadsOf defs scope contextType name, d.signature = entry.signature) ∧
      after.2 = .ok (-1) ∧ Grown db after.1 ∧ Keeps defs heads after.1) ∨
    ((∀ d ∈ overloadsOf defs scope contextType name, d.signature ≠ entry.signature) ∧
      after.2 = .ok entry.handle ∧ ∃ heads', Keeps (defs ++ [entry]) heads' after.1) := by
  intro entry after
  have sound : TypesSound after.1 := keeps.sound.defineType scope contextType name _ parameter
  have growth := grown_pushed db scope contextType name constructor parameter
  have grown := IdentMap.enter_grows db.identMap name
  have knows := IdentMap.enter_knows db.identMap name
  have laminar' : Laminar (insert scope
      (scopesOf heads ⟨contextType, (db.identMap.enter name).2⟩)) :=
    laminar.mono (Set.insert_subset_insert (keeps.scopes_sub grown knows contextType))
  obtain ⟨table, ⟨unknown, represents, call⟩ | ⟨h, mem, same, represents, call⟩⟩ :=
    ScopedMap.getOrSet_define keeps.represents
      ⟨⟨contextType, (db.identMap.enter name).2⟩, scope, entry.handle⟩ laminar'
  · have entered : (db.pushed scope contextType name constructor parameter).typeTable = table :=
      congrArg Prod.fst call
    have run : after = _ := defineType_first accepts fits
      ((congrArg Prod.snd call).trans (by rw [keeps.sound.nullval]))
    have empty := keeps.none_of_unknown grown (IdentMap.enter_nodup keeps.names name) knows unknown
    rw [run] at sound ⊢
    exact Or.inr ⟨by simp [empty], rfl, _,
      keeps.first sound unknown laminar' (entered ▸ represents)⟩
  · have entered : (db.pushed scope contextType name constructor parameter).typeTable = table :=
      congrArg Prod.fst call
    obtain ⟨positive, list⟩ := keeps.list_of_known grown knows mem same.1 same.2
    have call' := congrArg Prod.snd call
    have start : ((h.value.toNat : Nat) : Int) = h.value := Int.toNat_of_nonneg positive.le
    have short := keeps.length_le (List.filter_sublist :
      (overloadsOf defs scope contextType name).Sublist defs)
    have recorded : ∀ d ∈ overloadsOf defs scope contextType name,
        Recorded (db.pushed scope contextType name constructor parameter) d := fun d mem =>
      (keeps.recorded d (mem_overloadsOf.mp mem).1).mono growth
    rcases Overloads.find _ recorded parameter 0 (start.symm ▸ list.append _)
        (short.trans growth.length_le) with
      ⟨d, mem, same, tri, last, handle, found⟩ | ⟨absent, found⟩
    · have low := (recorded d mem).1
      have run : after = _ := defineType_again accepts fits call' positive.ne' found (by omega)
      rw [run] at sound ⊢
      exact Or.inl ⟨⟨d, mem, same⟩, rfl, growth, keeps.again sound (entered ▸ represents)⟩
    · obtain ⟨front, e, split⟩ : ∃ front e, overloadsOf defs scope contextType name =
          front ++ [e] := by
        rcases List.eq_nil_or_concat' (overloadsOf defs scope contextType name) with
          none | ⟨front, e, split⟩
        · obtain ⟨rest, eq⟩ := list.head positive.ne'
          simp [none] at eq
        · exact ⟨front, e, split⟩
      have low := (recorded e (by rw [split]; simp)).1
      obtain ⟨last, handle⟩ : ∃ last : Nat, e.handle = last + 1 := ⟨(e.handle - 1).toNat, by omega⟩
      have tail : e.handle.toNat = last + 1 := by omega
      simp only [split, List.getLast?_concat, Option.map_some, Option.getD_some, tail] at found
      have run : after = _ := defineType_linked accepts fits call' positive.ne' found (by omega)
      rw [run] at sound ⊢
      exact Or.inr ⟨absent, rfl, heads,
        keeps.linked split handle absent rfl sound (entered ▸ represents)⟩

end Keeps

end TypeDatabase

end Mewa
