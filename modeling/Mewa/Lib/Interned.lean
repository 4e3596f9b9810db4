/- Module: Mewa/Lib/Interned
   digest: Values numbered in the order of their first use, found again through a map. -/

import Mathlib.Data.List.Basic
import Mathlib.Data.List.Lookmap

set_option autoImplicit false
set_option relaxedAutoImplicit false

namespace Mewa.Lib

/-- The values by their handles, and the handles by their values. -/
structure HandleTable (α : Type) where
  map : List (α × Nat)
  inv : List α
  startidx : Nat

namespace HandleTable

variable {α : Type} [DecidableEq α] {table : HandleTable α} {elem a b : α} {handle h h' : Nat}

def start (startidx : Nat) : HandleTable α := ⟨[], [], startidx⟩

/-- The handle of a value, a new one if the value is not there yet. -/
def get (table : HandleTable α) (elem : α) : HandleTable α × Nat :=
  match table.map.lookup elem with
  | some handle => (table, handle)
  | none =>
    let handle := table.inv.length + table.startidx
    ({ table with map := (elem, handle) :: table.map, inv := table.inv ++ [elem] }, handle)

def valueAt {α : Type} (inv : List α) (startidx handle : Nat) : Option α :=
  if startidx ≤ handle then inv[handle - startidx]? else none

def content {α : Type} (table : HandleTable α) (handle : Nat) : Option α :=
  valueAt table.inv table.startidx handle

/-- The map has the places of the values. -/
def Consistent (table : HandleTable α) : Prop :=
  ∀ elem handle, table.map.lookup elem = some handle ↔ table.content handle = some elem

theorem start_consistent (startidx : Nat) : (start startidx : HandleTable α).Consistent := by
  intro elem handle
  simp [start, content, valueAt]

omit [DecidableEq α] in
theorem valueAt_append {inv : List α} {startidx : Nat} :
    valueAt (inv ++ [elem]) startidx handle = some a ↔
      valueAt inv startidx handle = some a ∨ handle = inv.length + startidx ∧ a = elem := by
  unfold valueAt
  by_cases given : startidx ≤ handle
  · simp only [if_pos given]
    rcases Nat.lt_trichotomy (handle - startidx) inv.length with inside | last | outside
    · have other : handle ≠ inv.length + startidx := by omega
      simp [List.getElem?_append_left inside, other]
    · have here : handle = inv.length + startidx := by omega
      simp [here, eq_comm]
    · have other : handle ≠ inv.length + startidx := by omega
      have none_there : inv[handle - startidx]? = none := List.getElem?_eq_none (by omega)
      have none_there' : (inv ++ [elem])[handle - startidx]? = none :=
        List.getElem?_eq_none (by simp; omega)
      simp [none_there, none_there', other]
  · have other : handle ≠ inv.length + startidx := by omega
    simp [given, other]

theorem get_of_some (known : table.map.lookup elem = some handle) :
    table.get elem = (table, handle) := by
  unfold get
  rw [known]

theorem get_of_content (consistent : table.Consistent)
    (here : table.content handle = some elem) : table.get elem = (table, handle) :=
  get_of_some ((consistent elem handle).mpr here)

theorem content_inj (consistent : table.Consistent) (first : table.content h = some a)
    (second : table.content h' = some b) : h = h' ↔ a = b := by
  constructor
  · rintro rfl
    rw [first] at second
    exact Option.some.inj second
  · rintro rfl
    have known := (consistent a h).mpr first
    rw [(consistent a h').mpr second] at known
    exact (Option.some.inj known).symm

theorem get_spec (consistent : table.Consistent) (elem : α) :
    (table.get elem).1.Consistent ∧ (table.get elem).1.content (table.get elem).2 = some elem ∧
      (table.get elem).1.startidx = table.startidx ∧
      ∀ h a, table.content h = some a → (table.get elem).1.content h = some a := by
  unfold get
  cases known : table.map.lookup elem with
  | some handle =>
    exact ⟨consistent, (consistent elem handle).mp known, rfl, fun _ _ => id⟩
  | none =>
    refine ⟨?_, valueAt_append.mpr (Or.inr ⟨rfl, rfl⟩), rfl,
      fun h a here => valueAt_append.mpr (Or.inl here)⟩
    intro other handle
    change List.lookup other ((elem, _) :: table.map) = _ ↔ valueAt _ _ _ = _
    rw [valueAt_append, List.lookup_cons]
    have old := consistent other handle
    unfold content at old
    rw [← old]
    by_cases same : other = elem
    · subst same
      rw [beq_self_eq_true, known]
      simp [eq_comm]
    · have different : (other == elem) = false := by simpa using same
      rw [different]
      simp [same]

end HandleTable

end Mewa.Lib
