/- Module: Mewa/TypeDb/Identifiers
   digest: Every state of the type database has the names that the identifier map of the code holds
     after some calls of get. -/

import Mewa.Ident.Map
import Mewa.TypeDb.Reachable

set_option autoImplicit false
set_option relaxedAutoImplicit false

namespace Mewa

open Mewa.Lib

namespace TypeDatabase

def Call.name : Call → Option String
  | setObjectInstance name _ _ => some name
  | defineType _ _ name _ _ => some name
  | defineTypeAs _ _ name _ => some name
  | defineReduction _ _ _ _ _ _ _ => none
  | getType _ _ name _ => some name
  | getTypes _ _ name => some name

/-- A call has passed its name to get with this map as the result, or it has passed none. -/
def EntersName (c : Call) (before after : IdentMap) : Prop :=
  after = before ∨ ∃ name ∈ c.name, ∃ ident, before.get name = .ok (after, ident)

theorem defineType_identMap (db : TypeDatabase) (scope : Scope) (contextType : Int) (name : String)
    (constructor : Int) (parameter : List TypeConstructorPair) :
    (db.defineType scope contextType name constructor parameter).1.identMap = db.identMap ∨
      ∃ ident, db.identMap.get name =
        .ok ((db.defineType scope contextType name constructor parameter).1.identMap, ident) := by
  simp only [defineType]
  split
  · exact Or.inl rfl
  split
  · exact Or.inl rfl
  split
  · exact Or.inl rfl
  split
  · exact Or.inl rfl
  split
  · exact Or.inl rfl
  rename_i entered
  refine Or.inr ⟨_, entered.trans (congrArg Except.ok (Prod.ext ?_ rfl))⟩
  split
  · rfl
  split
  · rfl
  split
  · rfl
  split
  · rfl
  split
  · rfl
  · rfl

theorem Call.run_enters (db : TypeDatabase) (c : Call) :
    EntersName c db.identMap (c.run db).identMap := by
  cases c with
  | setObjectInstance name scope handle =>
    simp only [Call.run, TypeDatabase.setObjectInstance]
    split
    · exact Or.inl rfl
    split
    · exact Or.inl rfl
    rename_i entered
    split
    · exact Or.inr ⟨name, rfl, _, entered⟩
    · exact Or.inr ⟨name, rfl, _, entered⟩
  | defineType scope contextType name constructor parameter =>
    exact (defineType_identMap db scope contextType name constructor parameter).imp_right
      fun entered => ⟨name, rfl, entered⟩
  | defineTypeAs scope contextType name type =>
    simp only [Call.run, TypeDatabase.defineTypeAs]
    split
    · exact Or.inl rfl
    split
    · exact Or.inl rfl
    split
    · exact Or.inl rfl
    · rename_i entered
      exact Or.inr ⟨name, rfl, _, entered⟩
  | defineReduction fuel scope toType fromType constructor tag weight =>
    refine Or.inl ?_
    simp only [Call.run, TypeDatabase.defineReduction]
    split
    · rfl
    split
    · rfl
    split
    · rfl
    split
    · split
      · rfl
      · rfl
    · rfl
  | getType scope contextType name parameter =>
    simp only [Call.run, TypeDatabase.getType]
    split
    · exact Or.inl rfl
    split
    · exact Or.inl rfl
    · rename_i entered
      exact Or.inr ⟨name, rfl, _, entered⟩
  | getTypes scope contextType name =>
    simp only [Call.run, TypeDatabase.getTypes]
    split
    · exact Or.inl rfl
    split
    · exact Or.inl rfl
    · rename_i entered
      exact Or.inr ⟨name, rfl, _, entered⟩

open Ident in
theorem refines_calls (buckets : Nat → Nat) (cs : List Call)
    (bytes : ∀ c ∈ cs, ∀ name ∈ c.name, ByteName name) :
    ∃ (names : List String) (ids : List Int) (map : Ident.IdentMap), runOps buckets {} (names.map fun name => .get (bytesOf name)) =
        .ok (ids, map) ∧
      (∀ name ∈ names, ∃ c ∈ cs, name ∈ c.name) ∧ Refines map (empty.calls cs).identMap := by
  suffices general : ∀ (db : TypeDatabase) (map : Ident.IdentMap), Refines map db.identMap →
      ∃ (names : List String) (ids : List Int) (map' : Ident.IdentMap), runOps buckets map (names.map fun name => .get (bytesOf name)) =
          .ok (ids, map') ∧
        (∀ name ∈ names, ∃ c ∈ cs, name ∈ c.name) ∧ Refines map' (db.calls cs).identMap from
    general empty {} refines_empty
  induction cs with
  | nil => exact fun db map refines => ⟨[], [], map, rfl, by simp, refines⟩
  | cons c cs ih =>
    intro db map refines
    have ih := ih fun c mem => bytes c (List.mem_cons_of_mem _ mem)
    rcases Call.run_enters db c with same | ⟨name, own, ident, entered⟩
    · obtain ⟨names, ids, map', run, sub, refines'⟩ := ih (c.run db) map (same ▸ refines)
      exact ⟨names, ids, map', run, fun name mem => (sub name mem).imp fun c found =>
        ⟨List.mem_cons_of_mem _ found.1, found.2⟩, refines'⟩
    · obtain ⟨next, got, refines'⟩ :=
        (@Refines.get buckets _ _ _ refines (bytes c List.mem_cons_self name own)).1 _ _ entered
      obtain ⟨names, ids, map', run, sub, refines''⟩ := ih (c.run db) next refines'
      refine ⟨name :: names, ident :: ids, map', ?_, ?_, refines''⟩
      · simp only [List.map_cons, runOps, got, ok_bind, run]
        rfl
      · intro name' mem
        rcases List.mem_cons.mp mem with rfl | mem
        · exact ⟨c, List.mem_cons_self, own⟩
        · exact (sub name' mem).imp fun c found => ⟨List.mem_cons_of_mem _ found.1, found.2⟩

end TypeDatabase

end Mewa
