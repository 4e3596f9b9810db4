/- Module: Mewa/Automaton/Quiet
   digest: Without priorities and warnings every action asked for is the one that is stored. -/

import Mewa.Automaton.Priorities
import Mewa.Automaton.Building

set_option autoImplicit false
set_option relaxedAutoImplicit false

namespace Mewa

open Mewa.Lib

def Plain (prodlist : List ProductionDef) : Prop := ∀ prod ∈ prodlist, prod.priority = {}

instance (prodlist : List ProductionDef) : Decidable (Plain prodlist) :=
  inferInstanceAs (Decidable (∀ prod ∈ prodlist, prod.priority = {}))

/-! Insertions without priorities. -/

theorem slotStep_plain (action known : Action) :
    slotStep action {} (some known, some {}) = ((some known, some {}), decide (known ≠ action)) := by
  unfold slotStep
  by_cases same : action.type = known.type
  · simp [same]
  · have different : known ≠ action := by
      rintro rfl
      exact same rfl
    simp [same, different]

theorem resolveFrom_plain {known : Action} {l : List Prioritized} (plain : ∀ c ∈ l, c.2 = {})
    (quiet : (resolveFrom (some known, some {}) l).2 = false) :
    (∀ c ∈ l, c.1 = known) ∧ (resolveFrom (some known, some {}) l).1 = (some known, some {}) := by
  induction l with
  | nil => exact ⟨by simp, rfl⟩
  | cons c l ih =>
    obtain ⟨first, rest⟩ := List.forall_mem_cons.mp plain
    simp only [resolveFrom, first, slotStep_plain, Bool.or_eq_false_iff, decide_eq_false_iff_not,
      not_not] at quiet ⊢
    obtain ⟨all, stored⟩ := ih rest quiet.2
    exact ⟨List.forall_mem_cons.mpr ⟨quiet.1.symm, all⟩, stored⟩

theorem resolveFrom_none {l : List Prioritized} (plain : ∀ c ∈ l, c.2 = {})
    (quiet : (resolveFrom (none, none) l).2 = false) :
    ∀ c ∈ l, (resolveFrom (none, none) l).1.1 = some c.1 := by
  cases l with
  | nil => simp
  | cons c l =>
    obtain ⟨first, rest⟩ := List.forall_mem_cons.mp plain
    simp only [resolveFrom, first, slotStep, Bool.or_eq_false_iff] at quiet ⊢
    obtain ⟨all, stored⟩ := resolveFrom_plain rest quiet.2
    rw [stored]
    intro c' mem
    rcases List.mem_cons.mp mem with rfl | later
    · rfl
    · rw [all c' later]

theorem resolveFrom_accept {known : Action} {l : List Prioritized} (plain : ∀ c ∈ l, c.2 = {})
    (other : ∀ c ∈ l, c.1.type ≠ known.type)
    (quiet : (resolveFrom (some known, none) l).2 = false) :
    l.length ≤ 1 ∧ (resolveFrom (some known, none) l).1.1 = some known := by
  cases l with
  | nil => exact ⟨Nat.zero_le 1, rfl⟩
  | cons c l =>
    obtain ⟨first, rest⟩ := List.forall_mem_cons.mp plain
    simp only [resolveFrom, first, slotStep, Bool.or_eq_false_iff] at quiet ⊢
    obtain ⟨all, stored⟩ := resolveFrom_plain rest quiet.2
    have nothing : l = [] := by
      apply List.eq_nil_iff_forall_not_mem.mpr
      intro c' mem
      exact other c' (List.mem_cons_of_mem c mem) (congrArg Action.type (all c' mem))
    subst nothing
    exact ⟨le_refl 1, rfl⟩

/-! The candidates of a state. -/

section State

variable {input : BuildInput} {state : TransitionState} {terminal : Int} {n : Int}
  {nodes : List ProductionShiftNode} {b b' : BuildState}

def Completed (input : BuildInput) (state : TransitionState) (prod : ProductionDef) : Prop :=
  ∃ item ∈ state.unpack, completedOf input.prodlist item = some prod

/-- What is stored for a terminal is what every item asks for. A reduction may be that of another
    production with the same left side, the same length and the same call. -/
structure Chosen (input : BuildInput) (state : TransitionState) (terminal : Int)
    (stored : Option Action) : Prop where
  shift : ∀ item ∈ state.unpack, nodeOf input.prodlist item = some ⟨.Terminal, terminal⟩ →
    ∃ next, gotoNumber input.gotoMap
      (successors input.prodlist state.unpack ⟨.Terminal, terminal⟩) = some next ∧
      stored = some (.shift next)
  reduce : ∀ prod, prod ∈ (groupsAt input state terminal).flatten →
    ∃ prod', Completed input state prod' ∧ prod'.Agrees prod ∧ stored = some prod'.reduceAction

theorem priority_of_completedOf (plain : Plain input.prodlist) {prod : ProductionDef}
    (completed : Completed input state prod) : prod.priority = {} := by
  obtain ⟨item, -, completed⟩ := completed
  unfold completedOf at completed
  obtain ⟨at_index, -⟩ := Option.filter_eq_some_iff.mp completed
  exact plain prod (List.mem_of_getElem? at_index)

theorem completed_of_mem_groupsAt {prod : ProductionDef}
    (mem : prod ∈ (groupsAt input state terminal).flatten) : Completed input state prod := by
  obtain ⟨item, here, completed, -⟩ := mem_groupsAt.mp mem
  exact ⟨item, here, completed⟩

theorem headsOf_plain (plain : Plain input.prodlist) :
    ∀ c ∈ headsOf (groupsAt input state terminal), c.2 = {} := by
  intro c mem
  obtain ⟨group, in_groups, first⟩ := List.mem_filterMap.mp mem
  obtain ⟨prod, head, rfl⟩ := Option.map_eq_some_iff.mp first
  exact priority_of_completedOf plain (completed_of_mem_groupsAt
    (List.mem_flatten.mpr ⟨group, in_groups, List.mem_of_mem_head? head⟩))

theorem exists_head {prod : ProductionDef}
    (agree : ∀ follow ∈ (getReduceFollow input.prodlist state).elems,
      HandleAgrees input state follow)
    (mem : prod ∈ (groupsAt input state terminal).flatten) :
    ∃ prod', prod'.prioritized ∈ headsOf (groupsAt input state terminal) ∧
      Completed input state prod' ∧ prod'.Agrees prod := by
  obtain ⟨group, in_groups, inside⟩ := List.mem_flatten.mp mem
  obtain ⟨follow, in_filter, rfl⟩ := List.mem_map.mp in_groups
  cases first : (completions input.prodlist follow state.unpack).head? with
  | none =>
    have nothing := List.head?_eq_none_iff.mp first
    rw [nothing] at inside
    cases inside
  | some prod' =>
    refine ⟨prod', List.mem_filterMap.mpr ⟨_, in_groups, by rw [first]; rfl⟩, ?_, ?_⟩
    · exact completed_of_mem_groupsAt (List.mem_flatten.mpr
        ⟨_, in_groups, List.mem_of_mem_head? first⟩)
    · exact agree follow (List.mem_filter.mp in_filter).1 prod' first prod inside

theorem StateInserted.chosen (plain : Plain input.prodlist)
    (inserted : StateInserted input n state nodes b b') (silent : b'.warnings = b.warnings)
    (not_accepted : ¬ (terminal = 0 ∧ isAcceptState input.prodlist state = true)) :
    Chosen input state terminal (b'.slot ⟨n, terminal⟩).1 := by
  obtain ⟨-, agree, quiet⟩ := inserted.silent.mp silent
  obtain ⟨shift, shiftOf, shifts⟩ := shiftInsertions_at terminal inserted.shiftNodes
  have start : acceptSlot input state terminal = (none, none) := if_neg not_accepted
  have quiet := quiet terminal
  have slot := inserted.slot terminal
  rw [start, shifts, reductionInsertions_at] at quiet slot
  have all_plain : ∀ c ∈ (shift.map fun s => (Action.shift s.1, s.2)).toList ++
      headsOf (groupsAt input state terminal), c.2 = {} := by
    intro c mem
    rcases List.mem_append.mp mem with here | here
    · obtain ⟨s, rfl, rfl⟩ := Option.map_eq_some_iff.mp (Option.mem_toList.mp here)
      obtain ⟨-, item, -, -, priority⟩ := shiftOf.present rfl
      obtain ⟨prod, at_index, same⟩ := Option.map_eq_some_iff.mp priority
      show s.2 = {}
      rw [← same]
      exact plain prod (List.mem_of_getElem? at_index)
    · exact headsOf_plain plain c here
  have stored := resolveFrom_none all_plain quiet
  rw [slot] at stored
  constructor
  · intro item mem at_item
    cases shift with
    | none => exact absurd at_item (shiftOf.absent rfl item mem)
    | some s =>
      obtain ⟨number, -⟩ := shiftOf.present rfl
      exact ⟨s.1, number, stored (Action.shift s.1, s.2) (by simp)⟩
  · intro prod mem
    obtain ⟨prod', in_heads, completed, agrees⟩ := exists_head agree mem
    exact ⟨prod', completed, agrees, stored prod'.prioritized (List.mem_append_right _ in_heads)⟩

theorem StateInserted.accepted (plain : Plain input.prodlist)
    (inserted : StateInserted input n state nodes b b') (silent : b'.warnings = b.warnings)
    (accepts : isAcceptState input.prodlist state = true) {start : ProductionDef}
    (first : input.prodlist.head? = some start)
    (zero : ∃ elems, input.fm.content 0 = .ok elems ∧ (0 : Int) ∈ elems) :
    (b'.slot ⟨n, 0⟩).1 = some start.acceptAction ∧
      ∀ prod ∈ (groupsAt input state 0).flatten, start.left.index = prod.left.index := by
  obtain ⟨-, agree, quiet⟩ := inserted.silent.mp silent
  obtain ⟨shift, shiftOf, shifts⟩ := shiftInsertions_at 0 inserted.shiftNodes
  have slot_eq : acceptSlot input state 0 = (some start.acceptAction, none) := by
    unfold acceptSlot
    rw [if_pos ⟨rfl, accepts⟩, first]
    rfl
  have quiet := quiet 0
  have slot := inserted.slot 0
  rw [slot_eq, shifts, reductionInsertions_at] at quiet slot
  have all_plain : ∀ c ∈ (shift.map fun s => (Action.shift s.1, s.2)).toList ++
      headsOf (groupsAt input state 0), c.2 = {} ∧ c.1.type ≠ ActionType.Accept := by
    intro c mem
    rcases List.mem_append.mp mem with here | here
    · obtain ⟨s, rfl, rfl⟩ := Option.map_eq_some_iff.mp (Option.mem_toList.mp here)
      obtain ⟨-, item, -, -, priority⟩ := shiftOf.present rfl
      obtain ⟨prod, at_index, same⟩ := Option.map_eq_some_iff.mp priority
      refine ⟨?_, fun kind => by cases kind⟩
      show s.2 = {}
      rw [← same]
      exact plain prod (List.mem_of_getElem? at_index)
    · refine ⟨headsOf_plain plain c here, ?_⟩
      obtain ⟨group, -, first⟩ := List.mem_filterMap.mp here
      obtain ⟨prod, -, rfl⟩ := Option.map_eq_some_iff.mp first
      intro kind
      cases kind
  obtain ⟨single, stored⟩ := resolveFrom_accept (fun c mem => (all_plain c mem).1)
    (fun c mem => (all_plain c mem).2) quiet
  rw [slot] at stored
  refine ⟨stored, fun prod mem => ?_⟩
  -- the start production itself is among them, and there is only one
  obtain ⟨item, here, item_zero⟩ := List.any_eq_true.mp accepts
  rw [first] at item_zero
  obtain ⟨zeros, whole⟩ := (Bool.and_eq_true _ _).mp item_zero
  obtain ⟨index, follow⟩ := of_decide_eq_true zeros
  have whole : item.prodpos = start.right.length := of_decide_eq_true whole
  have completed : completedOf input.prodlist item = some start := by
    unfold completedOf
    rw [index, ← List.head?_eq_getElem?, first]
    simp [whole]
  obtain ⟨elems, content, contains⟩ := zero
  have start_mem : start ∈ (groupsAt input state 0).flatten :=
    mem_groupsAt.mpr ⟨item, here, completed, elems, follow ▸ content, contains⟩
  obtain ⟨head, in_heads, -, agrees⟩ := exists_head agree start_mem
  obtain ⟨head', in_heads', -, agrees'⟩ := exists_head agree mem
  have same : head.prioritized = head'.prioritized := by
    rw [List.length_append] at single
    have few : (headsOf (groupsAt input state 0)).length ≤ 1 := by omega
    match heads : headsOf (groupsAt input state 0), few with
    | [], _ =>
      rw [heads] at in_heads
      cases in_heads
    | [c], _ =>
      rw [heads] at in_heads in_heads'
      rw [List.mem_singleton.mp in_heads, List.mem_singleton.mp in_heads']
  have index_eq : head.left.index = head'.left.index :=
    congrArg (fun c : Prioritized => c.1.value) same
  rw [← agrees.head, ← agrees'.head, index_eq]

end State

end Mewa
