/- Module: Mewa/TypeDb/Entries
   digest: Defined types with what their records say, and the lists that overloads are threaded on. -/

import Mewa.TypeDb.Names
import Mewa.TypeDb.Overloads

set_option autoImplicit false
set_option relaxedAutoImplicit false

namespace Mewa

open Mewa.Lib

/-- A defined type: its handle and what the call that defined it was given. -/
structure TypeEntry where
  handle : Int
  scope : Scope
  contextType : Int
  name : String
  constructor : Int
  parameter : List TypeConstructorPair
  deriving DecidableEq, Repr

namespace TypeEntry

def HasKey (d : TypeEntry) (scope : Scope) (contextType : Int) (name : String) : Prop :=
  d.scope = scope ∧ d.contextType = contextType ∧ d.name = name

instance (d : TypeEntry) (scope : Scope) (contextType : Int) (name : String) :
    Decidable (d.HasKey scope contextType name) :=
  inferInstanceAs (Decidable (_ ∧ _ ∧ _))

/-- The types of the parameters, which tell overloads apart. -/
def signature (d : TypeEntry) : List Int := d.parameter.map TypeConstructorPair.type

end TypeEntry

def overloadsOf (defs : List TypeEntry) (scope : Scope) (contextType : Int) (name : String) :
    List TypeEntry :=
  defs.filter fun d => d.HasKey scope contextType name

theorem mem_overloadsOf {defs : List TypeEntry} {scope : Scope} {contextType : Int}
    {name : String} {d : TypeEntry} :
    d ∈ overloadsOf defs scope contextType name ↔ d ∈ defs ∧ d.HasKey scope contextType name := by
  simp [overloadsOf]

theorem overloadsOf_snoc (defs : List TypeEntry) (d : TypeEntry) (scope : Scope)
    (contextType : Int) (name : String) :
    overloadsOf (defs ++ [d]) scope contextType name = overloadsOf defs scope contextType name ++
      if d.HasKey scope contextType name then [d] else [] := by
  unfold overloadsOf
  rw [List.filter_append]
  by_cases here : d.HasKey scope contextType name
  · simp [here]
  · simp [here]

namespace TypeDatabase

structure RecordOf (db : TypeDatabase) (d : TypeEntry) (record : TypeRecord) : Prop where
  scope : record.scope = d.scope
  constructor : record.constructor = d.constructor
  context : record.inv.contextType = d.contextType
  name : db.identMap.Knows record.inv.ident d.name
  parameter : Slice db.parameterMap record d.parameter

def Recorded (db : TypeDatabase) (d : TypeEntry) : Prop :=
  1 ≤ d.handle ∧ ∃ record, db.typerecMap[(d.handle - 1).toNat]? = some record ∧
    RecordOf db d record

/-- Names, parameters and records are kept, up to the links between the records. -/
structure Grown (db db' : TypeDatabase) : Prop where
  names : db.identMap.inv <+: db'.identMap.inv
  parameters : db.parameterMap <+: db'.parameterMap
  records : ∀ (i : Nat) (record : TypeRecord), db.typerecMap[i]? = some record →
    ∃ next, db'.typerecMap[i]? = some { record with next := next }

theorem Grown.refl (db : TypeDatabase) : Grown db db where
  names := List.prefix_refl _
  parameters := List.prefix_refl _
  records _ record node := ⟨record.next, node⟩

theorem Grown.length_le {db db' : TypeDatabase} (grown : Grown db db') :
    db.typerecMap.length ≤ db'.typerecMap.length := by
  by_contra less
  obtain ⟨next, node⟩ := grown.records db'.typerecMap.length _
    (List.getElem?_eq_getElem (not_le.mp less))
  have := (List.getElem?_eq_some_iff.mp node).1
  omega

theorem Recorded.mono {db db' : TypeDatabase} {d : TypeEntry} (recorded : Recorded db d)
    (grown : Grown db db') : Recorded db' d := by
  obtain ⟨low, record, node, holds⟩ := recorded
  obtain ⟨next, node'⟩ := grown.records _ _ node
  exact ⟨low, _, node', holds.scope, holds.constructor, holds.context,
    holds.name.mono grown.names, holds.parameter.mono grown.parameters⟩

theorem Recorded.valid {db : TypeDatabase} {d : TypeEntry} (recorded : Recorded db d) :
    db.validHandle 1 d.handle := by
  obtain ⟨low, record, node, -⟩ := recorded
  have := (List.getElem?_eq_some_iff.mp node).1
  exact ⟨low, by omega⟩

/-- The functions of a handle return what its definition was given. -/
structure Describes (db : TypeDatabase) (d : TypeEntry) : Prop where
  name : db.typeName d.handle = .ok d.name
  context : db.typeContext d.handle = .ok d.contextType
  scope : db.typeScope d.handle = .ok d.scope
  constructor : db.typeConstructor d.handle = .ok d.constructor
  parameter : db.typeParameters d.handle = .ok d.parameter

theorem Recorded.answers {db : TypeDatabase} {d : TypeEntry} (recorded : Recorded db d) :
    Describes db d := by
  have valid := recorded.valid
  obtain ⟨low, record, node, holds⟩ := recorded
  have read {α : Type} (zero : α) (f : TypeRecord → Except Failure α) :
      db.ofRecord d.handle zero f = f record := by
    have positive : d.handle ≠ 0 := by omega
    have inRange : db.validHandle 0 d.handle := ⟨by omega, valid.2⟩
    simp only [ofRecord, positive, inRange, not_true_eq_false, if_false, node]
  obtain ⟨inside, slice⟩ := holds.parameter.read
  refine ⟨?_, ?_, ?_, ?_, ?_⟩
  · rw [typeName, read, holds.name.invert]
  · rw [typeContext, read, holds.context]
  · rw [typeScope, read, holds.scope]
  · rw [typeConstructor, read, holds.constructor]
  · rw [typeParameters, read, if_pos inside, slice]

section Lists

variable {records : List TypeRecord} {start : Int} {items : List Int}

theorem Overloads.unique {items' : List Int} (l : Overloads records start items)
    (l' : Overloads records start items') : items = items' := by
  induction l generalizing items' with
  | nil =>
    generalize zero : (0 : Int) = start at l'
    cases l' with
    | nil => rfl
    | cons _ _ => omega
  | @cons t record items node _ ih =>
    generalize here : (t + 1 : Int) = start at l'
    cases l' with
    | nil => omega
    | @cons t' record' items' node' rest =>
      obtain rfl : t = t' := by omega
      obtain rfl := Option.some.inj (node.symm.trans node')
      rw [ih rest]

theorem Overloads.inRange (l : Overloads records start items) {t : Int} (mem : t ∈ items) :
    1 ≤ t ∧ t ≤ records.length := by
  induction l with
  | nil => simp at mem
  | @cons i record items node _ ih =>
    rcases List.mem_cons.mp mem with rfl | rest
    · have := (List.getElem?_eq_some_iff.mp node).1
      omega
    · exact ih rest

theorem Overloads.head (l : Overloads records start items) (positive : start ≠ 0) :
    ∃ rest, items = start :: rest := by
  cases l with
  | nil => exact absurd rfl positive
  | cons _ _ => exact ⟨_, rfl⟩

theorem Overloads.append (l : Overloads records start items) (pushed : List TypeRecord) :
    Overloads (records ++ pushed) start items := by
  induction l with
  | nil => exact .nil
  | cons node _ ih =>
    refine .cons ?_ ih
    rw [List.getElem?_append_left (List.getElem?_eq_some_iff.mp node).1, node]

/-- A change of one record does not concern the lists without it. -/
theorem Overloads.modify (l : Overloads records start items) {last : Nat}
    (others : (last + 1 : Int) ∉ items) (f : TypeRecord → TypeRecord) :
    Overloads (records.modify last f) start items := by
  induction l with
  | nil => exact .nil
  | @cons t record items node _ ih =>
    have apart : last ≠ t := fun same => others (by rw [same]; exact List.mem_cons_self)
    refine .cons ?_ (ih fun mem => others (List.mem_cons_of_mem _ mem))
    rw [List.getElem?_modify, node]
    simp [apart]

theorem Overloads.last {front : List Int} {last : Nat}
    (l : Overloads records start (front ++ [(last + 1 : Int)])) :
    (∃ record, records[last]? = some record ∧ record.next = 0) ∧ (last + 1 : Int) ∉ front := by
  induction front generalizing start with
  | nil =>
    generalize split : [] ++ [(last + 1 : Int)] = items at l
    cases l with
    | nil => simp at split
    | @cons t record items node rest =>
      obtain ⟨here, none⟩ := List.cons.inj split
      obtain rfl : last = t := by omega
      refine ⟨⟨record, node, ?_⟩, List.not_mem_nil⟩
      subst none
      generalize next : (record.next : Int) = next at rest
      cases rest
      omega
  | cons t front ih =>
    generalize split : (t :: front) ++ [(last + 1 : Int)] = items at l
    cases l with
    | nil => simp at split
    | @cons i record items node rest =>
      obtain ⟨here, more⟩ := List.cons.inj split
      subst more
      obtain ⟨⟨own, at_last, unlinked⟩, fresh⟩ := ih rest
      refine ⟨⟨own, at_last, unlinked⟩, fun mem => ?_⟩
      rcases List.mem_cons.mp mem with same | mem
      · -- the record would have both a link and none
        obtain rfl : last = i := by omega
        obtain rfl := Option.some.inj (node.symm.trans at_last)
        rw [unlinked] at rest
        have := rest.unique .nil
        simp at this
      · exact fresh mem

theorem Overloads.link {front : List Int} {last : Nat}
    (l : Overloads records start (front ++ [(last + 1 : Int)])) {record : TypeRecord}
    (unlinked : record.next = 0) :
    Overloads ((records ++ [record]).modify last fun tr => { tr with next := records.length + 1 })
      start (front ++ [(last + 1 : Int), (records.length + 1 : Int)]) := by
  obtain ⟨⟨own, at_last, -⟩, -⟩ := l.last
  have inside := (List.getElem?_eq_some_iff.mp at_last).1
  induction front generalizing start with
  | nil =>
    generalize split : [] ++ [(last + 1 : Int)] = items at l
    cases l with
    | nil => simp at split
    | @cons t record' items node _ =>
      obtain ⟨here, -⟩ := List.cons.inj split
      obtain rfl : last = t := by omega
      have pushed : ((records ++ [record]).modify last fun tr =>
          { tr with next := records.length + 1 })[records.length]? = some record := by
        rw [List.getElem?_modify, List.getElem?_append_right le_rfl]
        simp [inside.ne]
      have changed : ((records ++ [record]).modify last fun tr =>
          { tr with next := records.length + 1 })[last]? =
            some { record' with next := records.length + 1 } := by
        rw [List.getElem?_modify, List.getElem?_append_left inside, node]
        simp
      refine .cons changed (.cons pushed ?_)
      rw [unlinked]
      exact .nil
  | cons t front ih =>
    obtain ⟨-, fresh⟩ := l.last
    generalize split : (t :: front) ++ [(last + 1 : Int)] = items at l
    cases l with
    | nil => simp at split
    | @cons i record' items node rest =>
      obtain ⟨rfl, more⟩ := List.cons.inj split
      subst more
      have apart : last ≠ i := fun same => fresh (by rw [same]; exact List.mem_cons_self)
      have kept : ((records ++ [record]).modify last fun tr =>
          { tr with next := records.length + 1 })[i]? = some record' := by
        rw [List.getElem?_modify,
          List.getElem?_append_left (List.getElem?_eq_some_iff.mp node).1, node]
        simp [apart]
      exact .cons kept (ih rest)

theorem Overloads.collect {db : TypeDatabase} (l : Overloads db.typerecMap start items) :
    ∀ {fuel : Nat}, items.length ≤ fuel → db.collectResultItems fuel start = .ok items := by
  induction l with
  | nil =>
    intro fuel _
    unfold collectResultItems
    simp
  | @cons t record items node _ ih =>
    intro fuel enough
    cases fuel with
    | zero => simp at enough
    | succ fuel =>
      have rest := ih (by simpa using enough : items.length ≤ fuel)
      unfold collectResultItems
      simp [node, rest]

theorem Overloads.find {db : TypeDatabase} (ds : List TypeEntry)
    (recorded : ∀ d ∈ ds, Recorded db d) (parameter : List TypeConstructorPair) :
    ∀ (last : Nat) {start fuel : Nat}, Overloads db.typerecMap start (ds.map TypeEntry.handle) →
      ds.length ≤ fuel →
      (∃ d ∈ ds, d.signature = parameter.map TypeConstructorPair.type ∧ ∃ (tri : Nat) (last' : Nat),
        d.handle = tri ∧ db.findTypeWithSignature parameter fuel start last = .ok (tri, last')) ∨
      (∀ d ∈ ds, d.signature ≠ parameter.map TypeConstructorPair.type) ∧
        db.findTypeWithSignature parameter fuel start last =
          .ok (0, ((ds.getLast?).map fun d => d.handle.toNat).getD last) := by
  induction ds with
  | nil =>
    intro last start fuel l _
    have none : start = 0 := by
      cases start with
      | zero => rfl
      | succ t =>
        obtain ⟨rest, split⟩ := l.head (by omega)
        simp at split
    subst none
    exact Or.inr ⟨by simp, by cases fuel <;> rfl⟩
  | cons d ds ih =>
    intro last start fuel l enough
    obtain ⟨fuel, rfl⟩ : ∃ n, fuel = n + 1 := ⟨fuel - 1, by simp at enough; omega⟩
    generalize split : (d :: ds).map TypeEntry.handle = items at l
    generalize begins : (start : Int) = first at l
    cases l with
    | nil => simp at split
    | @cons t record items node rest =>
      obtain ⟨here, more⟩ := List.cons.inj split
      obtain rfl : start = t + 1 := by omega
      subst more
      obtain ⟨low, record', node', holds⟩ := recorded d List.mem_cons_self
      have same : record' = record := by
        rw [show (d.handle - 1).toNat = t by omega] at node'
        exact Option.some.inj (node'.symm.trans node)
      subst same
      have compare := holds.parameter.compare parameter
      unfold findTypeWithSignature
      simp only [node, compare, ok_bind]
      by_cases equal : parameter.map TypeConstructorPair.type =
          d.parameter.map TypeConstructorPair.type
      · refine Or.inl ⟨d, List.mem_cons_self, equal.symm, t + 1, last, by omega, ?_⟩
        simp [equal]
      · have differs : ¬ (decide (parameter.map TypeConstructorPair.type =
            d.parameter.map TypeConstructorPair.type)) = true := by simpa using equal
        simp only [if_neg differs]
        rcases ih (fun e mem => recorded e (List.mem_cons_of_mem _ mem)) (t + 1) rest
            (by simpa using enough) with
          ⟨e, mem, same, tri, last', handle, found⟩ | ⟨none, found⟩
        · exact Or.inl ⟨e, List.mem_cons_of_mem _ mem, same, tri, last', handle, found⟩
        · refine Or.inr ⟨fun e mem => ?_, ?_⟩
          · rcases List.mem_cons.mp mem with rfl | mem
            · exact fun h => equal h.symm
            · exact none e mem
          · rw [found]
            cases ds with
            | nil => simp [show d.handle.toNat = t + 1 by omega]
            | cons e ds => simp [List.getLast?_cons]

end Lists

end TypeDatabase

end Mewa
