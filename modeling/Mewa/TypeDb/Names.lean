/- Module: Mewa/TypeDb/Names
   digest: The identifiers that stand for the names of types, and what the database says of a handle. -/

import Mewa.TypeDb.Structs
import Mathlib.Data.List.Nodup

set_option autoImplicit false
set_option relaxedAutoImplicit false

namespace Mewa

open Mewa.Lib

/-- The longest name whose key has a block size of 16 bits. -/
def maxNameSize : Nat := 65529

/-- Longer names do not fit into the block of their key. -/
def NameFits (name : String) : Prop := name.length ≤ maxNameSize

instance (name : String) : Decidable (NameFits name) :=
  inferInstanceAs (Decidable (name.length ≤ maxNameSize))

/-- The shortest name without a key. -/
def longName : String := String.ofList (List.replicate (maxNameSize + 1) 'a')

theorem longName_long : ¬ NameFits longName := by
  rw [NameFits, longName, String.length_ofList, List.length_replicate]
  omega

namespace IdentMap

variable {map map' : IdentMap} {ident : Int} {name : String}

/-- The name of an identifier, read without a check of the identifier. -/
def invert (map : IdentMap) (ident : Int) : Except Failure String :=
  match map.inv[(ident - 1).toNat]? with
  | none => .error .outOfRange
  | some name => .ok name

/-- The identifier stands for the name. -/
def Knows (map : IdentMap) (ident : Int) (name : String) : Prop :=
  1 ≤ ident ∧ map.inv[(ident - 1).toNat]? = some name

theorem Knows.invert (knows : map.Knows ident name) : map.invert ident = .ok name := by
  simp only [IdentMap.invert, knows.2]

theorem Knows.mono (knows : map.Knows ident name) (grown : map.inv <+: map'.inv) :
    map'.Knows ident name := by
  obtain ⟨low, node⟩ := knows
  obtain ⟨more, split⟩ := grown
  refine ⟨low, ?_⟩
  rw [← split, List.getElem?_append_left (List.getElem?_eq_some_iff.mp node).1, node]

theorem Knows.name_eq {other : String} (knows : map.Knows ident name)
    (knows' : map.Knows ident other) : name = other :=
  Option.some.inj (knows.2.symm.trans knows'.2)

theorem Knows.ident_eq {other : Int} (distinct : map.inv.Nodup) (knows : map.Knows ident name)
    (knows' : map.Knows other name) : ident = other := by
  obtain ⟨low, node⟩ := knows
  obtain ⟨low', node'⟩ := knows'
  obtain ⟨inside, here⟩ := List.getElem?_eq_some_iff.mp node
  obtain ⟨inside', here'⟩ := List.getElem?_eq_some_iff.mp node'
  have same := (List.Nodup.getElem_inj_iff distinct).mp (here.trans here'.symm)
  omega

theorem key_of_fits (fits : NameFits name) : key name = .ok name := by
  have short : (Ident.bytesOf name).length ≤ Ident.maxBlockString := by
    rw [Ident.length_bytesOf]
    exact fits
  have whole : name.toList.take (Ident.bytesOf name).length = name.toList := by
    rw [Ident.length_bytesOf, ← String.length_toList, List.take_length]
  rw [key, Ident.create_fits short, ok_bind, Ident.keyOf, whole, String.ofList_toList]
  rfl

theorem key_of_long (long : ¬ NameFits name) : key name = .error .outOfRange := by
  have more : Ident.maxBlockString < (Ident.bytesOf name).length := by
    rw [Ident.length_bytesOf]
    exact not_le.mp long
  rw [key, Ident.create_overflow more, error_bind]

theorem get_of_fits (map : IdentMap) (fits : NameFits name) :
    map.get name = .ok ((map.enter name).1, (map.enter name).2) := by
  rw [get, key_of_fits fits, ok_bind]
  rfl

theorem get_of_long (map : IdentMap) (long : ¬ NameFits name) :
    map.get name = .error .outOfRange := by
  rw [get, key_of_long long, error_bind]

theorem get_eq {result : IdentMap × Int} (got : map.get name = .ok result) :
    NameFits name ∧ result = map.enter name := by
  by_cases fits : NameFits name
  · rw [get_of_fits map fits] at got
    exact ⟨fits, (Except.ok.inj got).symm⟩
  · rw [get_of_long map fits] at got
    cases got

theorem lookup_of_fits (map : IdentMap) (fits : NameFits name) :
    map.lookup name = .ok (map.find name) := by
  rw [lookup, key_of_fits fits, ok_bind]
  rfl

theorem lookup_of_long (map : IdentMap) (long : ¬ NameFits name) :
    map.lookup name = .error .outOfRange := by
  rw [lookup, key_of_long long, error_bind]

private theorem knows_of_found {i : Nat} (found : map.inv.findIdx? (· == name) = some i) :
    map.Knows (i + 1) name := by
  obtain ⟨inside, here, -⟩ := List.findIdx?_eq_some_iff_getElem.mp found
  refine ⟨by omega, ?_⟩
  rw [show ((i : Int) + 1 - 1).toNat = i by omega, List.getElem?_eq_getElem inside]
  exact congrArg some (by simpa using here)

theorem enter_grows (map : IdentMap) (name : String) : map.inv <+: (map.enter name).1.inv := by
  unfold enter
  split
  · exact List.prefix_refl _
  · exact List.prefix_append _ _

theorem enter_nodup (distinct : map.inv.Nodup) (name : String) :
    (map.enter name).1.inv.Nodup := by
  unfold enter
  split
  · exact distinct
  · rename_i missing
    refine List.nodup_append.mpr ⟨distinct, List.nodup_singleton _, fun a mem b last same => ?_⟩
    have differs := List.findIdx?_eq_none_iff.mp missing a mem
    rw [List.mem_singleton.mp last] at same
    simp [same] at differs

theorem enter_knows (map : IdentMap) (name : String) :
    (map.enter name).1.Knows (map.enter name).2 name := by
  unfold enter
  split
  · rename_i i found
    exact knows_of_found found
  · refine ⟨by dsimp only; omega, ?_⟩
    rw [show ((map.inv.length : Int) + 1 - 1).toNat = map.inv.length by omega]
    simp

theorem Knows.enter (distinct : map.inv.Nodup) (knows : map.Knows ident name) :
    (map.enter name).2 = ident :=
  (enter_knows map name).ident_eq (enter_nodup distinct name) (knows.mono (enter_grows map name))

theorem Knows.find (distinct : map.inv.Nodup) (knows : map.Knows ident name) :
    map.find name = ident := by
  unfold IdentMap.find
  split
  · rename_i i found
    exact (knows_of_found found).ident_eq distinct knows
  · rename_i missing
    have differs := List.findIdx?_eq_none_iff.mp missing name (List.mem_of_getElem? knows.2)
    simp at differs

theorem find_unknown (unknown : ∀ ident, ¬ map.Knows ident name) : map.find name = 0 := by
  rw [IdentMap.find]
  split
  · rename_i i found
    exact absurd (knows_of_found found) (unknown _)
  · rfl

theorem enter_unknown (unknown : ∀ ident, ¬ map.Knows ident name) (other : String) :
    ¬ map.Knows (map.enter name).2 other := by
  intro knows
  have new := enter_knows map name
  have same := new.name_eq (knows.mono (enter_grows map name))
  subst same
  exact unknown _ knows

theorem knows_of_enter {other : String} (knows : (map.enter name).1.Knows ident other)
    (ne : other ≠ name) : map.Knows ident other := by
  obtain ⟨low, node⟩ := knows
  refine ⟨low, ?_⟩
  unfold enter at node
  split at node
  · exact node
  · dsimp only at node
    rcases Nat.lt_or_ge (ident - 1).toNat map.inv.length with inside | outside
    · rwa [List.getElem?_append_left inside] at node
    · rw [List.getElem?_append_right outside, List.getElem?_singleton] at node
      split_ifs at node
      exact absurd (Option.some.inj node).symm ne

end IdentMap

namespace TypeDatabase

/-- What is read from the record of a type. The handle 0 has no record. -/
def ofRecord {α : Type} (db : TypeDatabase) (type : Int) (none : α)
    (read : TypeRecord → Except Failure α) : Except Failure α :=
  if type = 0 then .ok none
  else if ¬ db.validHandle 0 type then throw .InvalidHandle
  else match db.typerecMap[(type - 1).toNat]? with
    | .none => .error .outOfRange
    | .some record => read record

def typeName (db : TypeDatabase) (type : Int) : Except Failure String :=
  db.ofRecord type "" fun record => db.identMap.invert record.inv.ident

def typeContext (db : TypeDatabase) (type : Int) : Except Failure Int :=
  db.ofRecord type 0 fun record => .ok record.inv.contextType

def typeConstructor (db : TypeDatabase) (type : Int) : Except Failure Int :=
  db.ofRecord type 0 fun record => .ok record.constructor

def typeScope (db : TypeDatabase) (type : Int) : Except Failure Scope :=
  db.ofRecord type (Scope.ofSteps 0 (-1)) fun record => .ok record.scope

/-- The parameters of all types stand in one array, those of a type from its index on. -/
def typeParameters (db : TypeDatabase) (type : Int) : Except Failure (List TypeConstructorPair) :=
  db.ofRecord type [] fun record =>
    if record.parameter - 1 + record.parameterlen ≤ db.parameterMap.length then
      .ok ((db.parameterMap.drop (record.parameter - 1)).take record.parameterlen)
    else .error .outOfRange

/-- The record refers to these parameters. -/
def Slice (parameterMap : List TypeConstructorPair) (record : TypeRecord)
    (parameter : List TypeConstructorPair) : Prop :=
  record.parameterlen = parameter.length ∧ ∃ before after,
    parameterMap = before ++ parameter ++ after ∧ record.parameter - 1 = before.length ∧
      (parameter ≠ [] → 1 ≤ record.parameter)

theorem Slice.mono {parameterMap parameterMap' parameter : List TypeConstructorPair}
    {record : TypeRecord} (slice : Slice parameterMap record parameter)
    (grown : parameterMap <+: parameterMap') : Slice parameterMap' record parameter := by
  obtain ⟨len, before, after, split, start⟩ := slice
  obtain ⟨more, grown⟩ := grown
  exact ⟨len, before, after ++ more, by rw [← grown, split]; simp, start⟩

private theorem compareLoop (parameterMap : List TypeConstructorPair) (start : Nat)
    {f : Bool → TypeConstructorPair × Nat → Except Failure Bool}
    (stop : ∀ p, f false p = .ok false)
    (go : ∀ p q, parameterMap[start + p.2 - 1]? = some q →
      f true p = .ok (decide (p.1.type = q.type))) :
    ∀ (ps qs : List TypeConstructorPair) (k : Nat), ps.length = qs.length →
      (∀ (i : Nat) (q : TypeConstructorPair), qs[i]? = some q →
        parameterMap[start + (k + i) - 1]? = some q) →
      ∀ same : Bool, (ps.zipIdx k).foldlM f same = .ok (same &&
        decide (ps.map TypeConstructorPair.type = qs.map TypeConstructorPair.type)) := by
  intro ps
  induction ps with
  | nil =>
    intro qs k equal _ same
    obtain rfl := List.length_eq_zero_iff.mp equal.symm
    cases same <;> rfl
  | cons p ps ih =>
    intro qs k equal entry same
    cases qs with
    | nil => simp at equal
    | cons q qs =>
      have rest := ih qs (k + 1) (by simpa using equal) fun i q' node => by
        have := entry (i + 1) q' node
        rwa [show k + (i + 1) = k + 1 + i by omega] at this
      have first := go (p, k) q (entry 0 q rfl)
      cases same with
      | false => simpa [List.zipIdx_cons, List.foldlM_cons, stop] using rest false
      | true =>
        have := rest (decide (p.type = q.type))
        simpa [List.zipIdx_cons, List.foldlM_cons, first, Bool.decide_and] using this

theorem Slice.compare {db : TypeDatabase} {record : TypeRecord}
    {signature : List TypeConstructorPair} (slice : Slice db.parameterMap record signature)
    (parameter : List TypeConstructorPair) :
    db.compareParameterSignature parameter record.parameter record.parameterlen =
      .ok (decide (parameter.map TypeConstructorPair.type =
        signature.map TypeConstructorPair.type)) := by
  obtain ⟨len, before, after, split, start, positive⟩ := slice
  unfold compareParameterSignature
  by_cases length : parameter.length = record.parameterlen
  · rw [if_neg (not_not.mpr length)]
    refine (compareLoop db.parameterMap record.parameter (fun p => rfl)
      (fun p q node => ?_) parameter signature 0 (by omega) (fun i q node => ?_) true).trans (by rw [Bool.true_and])
    · simp only [if_true, node]
    · have inside := (List.getElem?_eq_some_iff.mp node).1
      have low := positive fun empty => by simp [empty] at inside
      rw [split, show record.parameter + (0 + i) - 1 = before.length + i by omega,
        List.append_assoc, List.getElem?_append_right (Nat.le_add_right _ _),
        Nat.add_sub_cancel_left, List.getElem?_append_left inside, node]
  · rw [if_pos length]
    have differs : parameter.map TypeConstructorPair.type ≠
        signature.map TypeConstructorPair.type := by
      intro same
      have := congrArg List.length same
      simp only [List.length_map] at this
      omega
    rw [decide_eq_false differs]

theorem Slice.read {parameterMap parameter : List TypeConstructorPair} {record : TypeRecord}
    (slice : Slice parameterMap record parameter) :
    record.parameter - 1 + record.parameterlen ≤ parameterMap.length ∧
      (parameterMap.drop (record.parameter - 1)).take record.parameterlen = parameter := by
  obtain ⟨len, before, after, split, start, -⟩ := slice
  constructor
  · rw [split, len, start]
    simp only [List.length_append]
    omega
  · rw [split, len, start, List.append_assoc, List.drop_left, List.take_left]

end TypeDatabase

end Mewa
