/- Module: Mewa/TypeDb/Aliases
   digest: A definition changes the answers about its own name only, unless it extends a list that
     another name leads to. -/

import Mewa.TypeDb.Apart

set_option autoImplicit false
set_option relaxedAutoImplicit false

namespace Mewa

open Mewa.Lib Mewa.Lib.Paths Mewa.Lib.BestFirst

namespace TypeDatabase

/-- The first type of the list that a key shows to some query. -/
def Shows (db : TypeDatabase) (key : TypeDef) (start : Int) : Prop :=
  (∃ scope, db.typeTable.getDef scope key = .ok start) ∨
    ∃ step, db.typeTable.get step key = .ok start

def KeepsLists (key : TypeDef) (db db' : TypeDatabase) : Prop :=
  ∀ other ≠ key, ∀ start items, db.Shows other start →
    Overloads db.typerecMap start items → Overloads db'.typerecMap start items

section Lists

variable {db db' : TypeDatabase}

theorem Overloads.length_le {records : List TypeRecord} {start : Int} {items : List Int}
    (next : ∀ (i : Nat) (record : TypeRecord), records[i]? = some record →
      record.next = 0 ∨ i + 1 < record.next ∧ record.next ≤ records.length)
    (l : Overloads records start items) (positive : start ≠ 0) :
    items.length + start ≤ records.length + 1 := by
  induction l with
  | nil => exact absurd rfl positive
  | @cons t record items node rest ih =>
    have inside := (List.getElem?_eq_some_iff.mp node).1
    rcases next t record node with none | ⟨above, -⟩
    · rw [none] at rest
      obtain rfl := rest.unique .nil
      simp only [List.length_cons, List.length_nil]
      omega
    · have := ih (by omega)
      simp only [List.length_cons]
      omega

theorem Apart.list (apart : Apart db) {key : TypeDef} {start : Int} (shows : db.Shows key start) :
    ∃ (n : Nat) (items : List Int), start = n ∧ Overloads db.typerecMap start items ∧
      items.length ≤ db.typerecMap.length := by
  have valid : start = 0 ∨ db.validHandle 1 start := by
    rcases shows with ⟨scope, query⟩ | ⟨step, query⟩
    · obtain ⟨v, query', cases⟩ := ScopedMap.getDef_ok apart.sound.table key scope
      obtain rfl := Except.ok.inj (query.symm.trans query')
      rw [apart.sound.nullval] at cases
      exact cases.imp_right fun mem => apart.sound.values _ mem
    · obtain ⟨v, query', cases⟩ := ScopedMap.get_ok apart.sound.table step key
      obtain rfl := Except.ok.inj (query.symm.trans query')
      rw [apart.sound.nullval] at cases
      rcases cases with zero | ⟨scope, mem, -⟩
      · exact Or.inl zero
      · exact Or.inr (apart.sound.values _ mem)
  rcases valid with rfl | ⟨low, high⟩
  · exact ⟨0, [], rfl, .nil, Nat.zero_le _⟩
  · obtain ⟨n, rfl⟩ : ∃ n : Nat, start = n := ⟨start.toNat, by omega⟩
    obtain ⟨items, -, list⟩ :=
      apart.sound.collectResultItems_ok (by omega : n ≤ db.typerecMap.length)
        (fun _ => by omega : n ≠ 0 → db.typerecMap.length < n + db.typerecMap.length)
    have := list.length_le apart.sound.next (by omega)
    exact ⟨n, items, rfl, list, by omega⟩

/-- The search for a signature on the list itself: the first type that has it, or 0, and the last
    one before it. -/
def firstOf (same : Int → Bool) : List Int → Nat → Nat × Nat
  | [], lastListIndex => (0, lastListIndex)
  | t :: items, lastListIndex =>
    if same t then (t.toNat, lastListIndex) else firstOf same items t.toNat

def signatureOf (db : TypeDatabase) (type : Int) : Except Failure (List Int) :=
  (db.typeParameters type).map (List.map TypeConstructorPair.type)

def hasSignature (db : TypeDatabase) (parameter : List TypeConstructorPair) (type : Int) : Bool :=
  match db.signatureOf type with
  | .ok signature => parameter.map TypeConstructorPair.type = signature
  | .error _ => false

theorem hasSignature_of_slice {i : Nat} {record : TypeRecord} {ps : List TypeConstructorPair}
    (node : db.typerecMap[i]? = some record) (slice : Slice db.parameterMap record ps)
    (parameter : List TypeConstructorPair) :
    db.hasSignature parameter (i + 1) = decide (parameter.map TypeConstructorPair.type =
      ps.map TypeConstructorPair.type) := by
  have inside := (List.getElem?_eq_some_iff.mp node).1
  have valid : db.validHandle 0 (i + 1 : Int) := ⟨by omega, by omega⟩
  obtain ⟨inside', slice⟩ := slice.read
  have parameters : db.typeParameters (i + 1 : Int) = .ok ps := by
    rw [typeParameters, ofRecord, if_neg (by omega), if_neg (not_not.mpr valid),
      show ((i : Int) + 1 - 1).toNat = i by omega, node]
    dsimp only
    rw [if_pos inside', slice]
  simp only [hasSignature, signatureOf, parameters, Except.map]

theorem Grown.hasSignature (grown : Grown db db')
    (slices : ∀ record ∈ db.typerecMap, ∃ ps, Slice db.parameterMap record ps)
    (parameter : List TypeConstructorPair) {type : Int} (known : db.validHandle 1 type) :
    db'.hasSignature parameter type = db.hasSignature parameter type := by
  obtain ⟨low, high⟩ := known
  obtain ⟨i, rfl⟩ : ∃ i : Nat, type = i + 1 := ⟨(type - 1).toNat, by omega⟩
  obtain ⟨record, node⟩ : ∃ record, db.typerecMap[i]? = some record :=
    ⟨_, List.getElem?_eq_getElem (by omega)⟩
  obtain ⟨next, node'⟩ := grown.records i _ node
  obtain ⟨ps, slice⟩ := slices _ (List.mem_of_getElem? node)
  have slice' : Slice db'.parameterMap { record with next := next } ps :=
    slice.mono grown.parameters
  rw [hasSignature_of_slice node slice, hasSignature_of_slice node' slice']

theorem Overloads.search (slices : ∀ record ∈ db.typerecMap, ∃ ps, Slice db.parameterMap record ps)
    (parameter : List TypeConstructorPair) {first : Int} {items : List Int}
    (l : Overloads db.typerecMap first items) :
    ∀ {start fuel : Nat} (lastListIndex : Nat), first = start → items.length ≤ fuel →
      db.findTypeWithSignature parameter fuel start lastListIndex =
        .ok (firstOf (db.hasSignature parameter) items lastListIndex) := by
  induction l with
  | nil =>
    intro start fuel lastListIndex begins _
    obtain rfl : start = 0 := by omega
    cases fuel <;> rfl
  | @cons i record items node rest ih =>
    intro start fuel lastListIndex begins enough
    obtain rfl : start = i + 1 := by omega
    obtain ⟨fuel, rfl⟩ : ∃ n, fuel = n + 1 := ⟨fuel - 1, by simp at enough; omega⟩
    obtain ⟨ps, slice⟩ := slices record (List.mem_of_getElem? node)
    have go := ih (i + 1) rfl (by simpa using enough : items.length ≤ fuel)
    simp only [findTypeWithSignature, node, slice.compare, ok_bind, firstOf,
      hasSignature_of_slice node slice, go]
    split
    · rfl
    · rfl

theorem firstOf_none {same : Int → Bool} {items : List Int} {lastListIndex found : Nat}
    (positive : ∀ t ∈ items, 1 ≤ t) (none : firstOf same items lastListIndex = (0, found)) :
    (∀ t ∈ items, same t = false) ∧
      (items = [] ∧ found = lastListIndex ∨ ∃ front, items = front ++ [(found : Int)]) := by
  induction items generalizing lastListIndex with
  | nil =>
    obtain rfl : lastListIndex = found := congrArg Prod.snd none
    exact ⟨by simp, Or.inl ⟨rfl, rfl⟩⟩
  | cons t items ih =>
    have low := positive t List.mem_cons_self
    rw [firstOf] at none
    split at none
    · have := congrArg Prod.fst none
      dsimp only at this
      omega
    · rename_i differs
      obtain ⟨others, ends⟩ := ih (fun t mem => positive t (List.mem_cons_of_mem _ mem)) none
      refine ⟨fun t' mem => ?_, Or.inr ?_⟩
      · rcases List.mem_cons.mp mem with rfl | mem
        · exact Bool.eq_false_iff.mpr differs
        · exact others t' mem
      · rcases ends with ⟨rfl, rfl⟩ | ⟨front, rfl⟩
        · exact ⟨[], by simp; omega⟩
        · exact ⟨t :: front, rfl⟩

theorem firstOf_all {same : Int → Bool} {front : List Int} {found : Nat} (lastListIndex : Nat)
    (others : ∀ t ∈ front ++ [(found : Int)], same t = false) :
    firstOf same (front ++ [(found : Int)]) lastListIndex = (0, found) := by
  induction front generalizing lastListIndex with
  | nil =>
    have := others found (by simp)
    simp [firstOf, this]
  | cons t front ih =>
    have differs := others t (by simp)
    rw [List.cons_append, firstOf, differs]
    exact ih _ fun t mem => others t (by simp at mem ⊢; exact Or.inr mem)

theorem firstOf_congr {same same' : Int → Bool} {items : List Int} (lastListIndex : Nat)
    (equal : ∀ t ∈ items, same t = same' t) :
    firstOf same items lastListIndex = firstOf same' items lastListIndex := by
  induction items generalizing lastListIndex with
  | nil => rfl
  | cons t items ih =>
    rw [firstOf, firstOf, equal t List.mem_cons_self,
      ih _ fun t mem => equal t (List.mem_cons_of_mem _ mem)]

/-- A record without a link is the last one of every list that it is on. -/
theorem Overloads.ends {records : List TypeRecord} {start : Int} {items : List Int} {last : Nat}
    {record : TypeRecord} (l : Overloads records start items) (node : records[last]? = some record)
    (unlinked : record.next = 0) (mem : (last + 1 : Int) ∈ items) :
    ∃ front, items = front ++ [(last + 1 : Int)] := by
  induction l with
  | nil => simp at mem
  | @cons i record' items node' rest ih =>
    rcases List.mem_cons.mp mem with same | mem
    · obtain rfl : last = i := by omega
      obtain rfl := Option.some.inj (node.symm.trans node')
      rw [unlinked] at rest
      obtain rfl := rest.unique .nil
      exact ⟨[], rfl⟩
    · obtain ⟨front, rfl⟩ := ih mem
      exact ⟨_ :: front, rfl⟩

end Lists

def queryKey (db : TypeDatabase) (contextType : Int) (name : String) : TypeDef :=
  ⟨contextType, (db.identMap.enter name).2⟩

section Queries

variable {db db' : TypeDatabase} {contextType : Int} {name : String}

theorem Apart.named_key (apart : Apart db) {key : TypeDef} {start : Int}
    (shows : db.Shows key start) (positive : start ≠ 0) :
    db.validHandle 0 key.contextType ∧ ∃ name, NameFits name ∧ db.identMap.Knows key.ident name := by
  by_contra unknown
  have none : ∀ f i, db.typeTable.map.find ⟨key, f⟩ ≠ some i := fun f i found =>
    unknown (apart.keys ⟨key, f⟩ i found)
  obtain ⟨gets, defs⟩ := ScopedMap.queries_unknown none
  rw [apart.sound.nullval] at gets defs
  apply positive
  rcases shows with ⟨scope, query⟩ | ⟨step, query⟩
  · exact Except.ok.inj (query.symm.trans (defs scope))
  · exact Except.ok.inj (query.symm.trans (gets step))

theorem Apart.unknown_key (apart : Apart db) {key : TypeDef}
    (unknown : ∀ name, NameFits name → ¬ db.identMap.Knows key.ident name) {start : Int}
    (shows : db.Shows key start) : start = 0 := by
  by_contra positive
  obtain ⟨-, name, fits, knows⟩ := apart.named_key shows positive
  exact unknown name fits knows

namespace Enters

theorem queries (enters : Enters contextType name db db') (apart : Apart db) {key : TypeDef}
    (ne : key ≠ db.queryKey contextType name) :
    (∀ step, db'.typeTable.get step key = db.typeTable.get step key) ∧
      ∀ scope, db'.typeTable.getDef scope key = db.typeTable.getDef scope key := by
  obtain ⟨owner, keyed, same⟩ := enters.frame
  exact ScopedMap.queries_frame same keyed apart.sound.table enters.apart.sound.table
    (enters.apart.sound.nullval.trans apart.sound.nullval.symm) ne

theorem known_key (enters : Enters contextType name db db') (apart : Apart db)
    {contextType' : Int} {name' : String} {ident : Int} (knows : db.identMap.Knows ident name')
    (other : ¬ (contextType' = contextType ∧ name' = name)) :
    db.queryKey contextType' name' = ⟨contextType', ident⟩ ∧
      db'.queryKey contextType' name' = ⟨contextType', ident⟩ ∧
      (⟨contextType', ident⟩ : TypeDef) ≠ db.queryKey contextType name := by
  have knows' : db'.identMap.Knows ident name' := knows.mono enters.grown.names
  refine ⟨?_, ?_, fun same => other ?_⟩
  · rw [queryKey, knows.enter apart.names]
  · rw [queryKey, knows'.enter enters.apart.names]
  · obtain ⟨context, identifier⟩ := TypeDef.mk.inj same
    refine ⟨context, ?_⟩
    rw [enters.names, identifier] at knows'
    exact knows'.name_eq (IdentMap.enter_knows db.identMap name)

theorem getDef (enters : Enters contextType name db db') (apart : Apart db)
    {contextType' : Int} {name' : String} (other : ¬ (contextType' = contextType ∧ name' = name)) (scope : Scope) :
    ∃ start, db.typeTable.getDef scope (db.queryKey contextType' name') = .ok start ∧
      db'.typeTable.getDef scope (db'.queryKey contextType' name') = .ok start ∧
      (start = 0 ∨ db.queryKey contextType' name' ≠ db.queryKey contextType name) := by
  by_cases known : ∃ ident, db.identMap.Knows ident name'
  · obtain ⟨ident, knows⟩ := known
    obtain ⟨key, key', ne⟩ := enters.known_key apart knows other
    rw [key, key']
    obtain ⟨start, query, -⟩ := ScopedMap.getDef_ok apart.sound.table ⟨contextType', ident⟩ scope
    refine ⟨start, query, ?_, Or.inr ne⟩
    rw [(enters.queries apart ne).2, query]
  · have unknown := not_exists.mp known
    obtain ⟨start, query, -⟩ :=
      ScopedMap.getDef_ok apart.sound.table (db.queryKey contextType' name') scope
    obtain rfl := apart.unknown_key
      (fun other _ => IdentMap.enter_unknown unknown other) (Or.inl ⟨scope, query⟩)
    refine ⟨0, query, ?_, Or.inl rfl⟩
    by_cases same : name' = name
    · -- the name has the new identifier, but no definition in the other context
      subst same
      have apart_key : db'.queryKey contextType' name' ≠ db.queryKey contextType name' :=
        fun eq => other ⟨congrArg TypeDef.contextType eq, rfl⟩
      have ident : db'.queryKey contextType' name' = db.queryKey contextType' name' := by
        have knows := IdentMap.enter_knows db.identMap name'
        rw [← enters.names] at knows
        rw [queryKey, queryKey, knows.enter enters.apart.names]
      rw [(enters.queries apart apart_key).2, ident, query]
    · have unknown' : ∀ ident, ¬ db'.identMap.Knows ident name' := by
        intro ident knows
        rw [enters.names] at knows
        exact unknown ident (IdentMap.knows_of_enter knows same)
      obtain ⟨start, query', -⟩ :=
        ScopedMap.getDef_ok enters.apart.sound.table (db'.queryKey contextType' name') scope
      obtain rfl := enters.apart.unknown_key
        (fun other _ => IdentMap.enter_unknown unknown' other)
        (Or.inl ⟨scope, query'⟩)
      exact query'

theorem list (enters : Enters contextType name db db') (apart : Apart db)
    (keeps : KeepsLists (db.queryKey contextType name) db db')
    {contextType' : Int} {name' : String}
    (other : ¬ (contextType' = contextType ∧ name' = name)) (scope : Scope) :
    ∃ (start : Nat) (items : List Int),
      db.typeTable.getDef scope (db.queryKey contextType' name') = .ok (start : Int) ∧
      db'.typeTable.getDef scope (db'.queryKey contextType' name') = .ok (start : Int) ∧
      Overloads db.typerecMap start items ∧ Overloads db'.typerecMap start items ∧
      items.length ≤ db.typerecMap.length := by
  obtain ⟨first, query, query', cases⟩ := enters.getDef apart other scope
  obtain ⟨start, items, rfl, list, short⟩ := apart.list (Or.inl ⟨scope, query⟩)
  refine ⟨start, items, query, query', list, ?_, short⟩
  rcases cases with zero | ne
  · rw [zero] at list ⊢
    obtain rfl := list.unique .nil
    exact .nil
  · exact keeps _ ne start items (Or.inl ⟨scope, query⟩) list

theorem getTypes (enters : Enters contextType name db db') (apart : Apart db)
    (keeps : KeepsLists (db.queryKey contextType name) db db')
    {contextType' : Int} (valid : db.validHandle 0 contextType') {name' : String}
    (fits' : NameFits name') (other : ¬ (contextType' = contextType ∧ name' = name))
    (scope : Scope) :
    (db'.getTypes scope contextType' name').2 = (db.getTypes scope contextType' name').2 := by
  obtain ⟨start, items, query, query', list, list', short⟩ :=
    enters.list apart keeps other scope
  have valid' := TypesSound.handle_mono enters.grown.length_le valid
  rw [queryKey] at query query'
  simp only [TypeDatabase.getTypes, valid, valid', not_true_eq_false, if_false,
    IdentMap.get_of_fits _ fits', query, query', ok_bind]
  have collect := @Overloads.collect _ _ { db with identMap := (db.identMap.enter name').1 } list
  have collect' := @Overloads.collect _ _ { db' with identMap := (db'.identMap.enter name').1 } list'
  exact (collect' (short.trans enters.grown.length_le)).trans (collect short).symm

theorem getType (enters : Enters contextType name db db') (apart : Apart db)
    (keeps : KeepsLists (db.queryKey contextType name) db db')
    {contextType' : Int} (valid : db.validHandle 0 contextType') {name' : String}
    (fits' : NameFits name') (other : ¬ (contextType' = contextType ∧ name' = name))
    (scope : Scope) (parameter : List Int) :
    (db'.getType scope contextType' name' parameter).2 =
      (db.getType scope contextType' name' parameter).2 := by
  obtain ⟨start, items, query, query', list, list', short⟩ :=
    enters.list apart keeps other scope
  have valid' := TypesSound.handle_mono enters.grown.length_le valid
  rw [queryKey] at query query'
  simp only [TypeDatabase.getType, valid, valid', not_true_eq_false, if_false,
    IdentMap.get_of_fits _ fits', query, query', ok_bind, Int.toNat_natCast]
  -- the search does not depend on the names
  have search := @Overloads.search { db with identMap := (db.identMap.enter name').1 }
    apart.slices (parameter.map fun type => ⟨type, 0⟩) _ _ list _ _ 0 rfl short
  have search' := @Overloads.search { db' with identMap := (db'.identMap.enter name').1 }
    enters.apart.slices (parameter.map fun type => ⟨type, 0⟩) _ _ list' _ _ 0 rfl
    (short.trans enters.grown.length_le)
  have same : firstOf (db'.hasSignature (parameter.map fun type => ⟨type, 0⟩)) items 0 =
      firstOf (db.hasSignature (parameter.map fun type => ⟨type, 0⟩)) items 0 :=
    firstOf_congr 0 fun t mem => enters.grown.hasSignature apart.slices _ (list.inRange mem)
  have found := search'.trans ((congrArg Except.ok same).trans search.symm)
  rw [found]

end Enters

end Queries

end TypeDatabase

end Mewa
