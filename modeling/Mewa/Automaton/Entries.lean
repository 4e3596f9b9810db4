/- Module: Mewa/Automaton/Entries
   digest: Every entry of the tables comes from an item of the state it belongs to. -/

import Mewa.Automaton.Table
import Mewa.Lib.StateResult

set_option autoImplicit false
set_option relaxedAutoImplicit false

namespace Mewa

open Mewa.Lib

def ProductionDef.reduceAction (prod : ProductionDef) : Action :=
  .reduce prod.left.index prod.scope prod.callidx prod.right.length

def ProductionDef.acceptAction (prod : ProductionDef) : Action :=
  .accept prod.left.index prod.scope prod.callidx prod.right.length

/-- The kernel behind a node of a state, packed. -/
def successors (prodlist : List ProductionDef) (items : List TransitionItem)
    (node : ProductionNode) : FlatSet Nat :=
  SortedSet.ofList ((items.filter fun item => nodeOf prodlist item = some node).map fun item =>
    (⟨item.prodindex, item.prodpos + 1, 0⟩ : TransitionItem).packed)

/-- The actions that the items of a state ask for, by their terminals. -/
inductive Candidate (input : BuildInput) (state : TransitionState) (terminal : Int) : Action → Prop
  | shift {item : TransitionItem} {next : Int} : item ∈ state.unpack →
      nodeOf input.prodlist item = some ⟨.Terminal, terminal⟩ →
      gotoNumber input.gotoMap (successors input.prodlist state.unpack ⟨.Terminal, terminal⟩) =
        some next →
      Candidate input state terminal (.shift next)
  | reduce {item : TransitionItem} {prod : ProductionDef} {elems : FlatSet Int} :
      item ∈ state.unpack → completedOf input.prodlist item = some prod →
      input.fm.content item.follow = .ok elems → terminal ∈ elems →
      Candidate input state terminal prod.reduceAction
  | accept {prod : ProductionDef} : terminal = 0 → isAcceptState input.prodlist state = true →
      input.prodlist.head? = some prod → Candidate input state terminal prod.acceptAction

def GotoCandidate (input : BuildInput) (state : TransitionState) (nonterminal next : Int) : Prop :=
  ∃ node : ProductionNode, node.type ≠ .Terminal ∧ node.index = nonterminal ∧
    (∃ item ∈ state.unpack, nodeOf input.prodlist item = some node) ∧
    gotoNumber input.gotoMap (successors input.prodlist state.unpack node) = some next

/-! What the parts of the build write. -/

/-- Nothing but warnings was written. -/
structure WarnsOnly (b b' : BuildState) : Prop where
  actions : b'.actions = b.actions
  gotos : b'.gotos = b.gotos
  priorityMap : b'.priorityMap = b.priorityMap
  nofAcceptStates : b'.nofAcceptStates = b.nofAcceptStates
  warnings : b.warnings <+: b'.warnings

namespace WarnsOnly

theorem refl (b : BuildState) : WarnsOnly b b := ⟨rfl, rfl, rfl, rfl, List.prefix_refl _⟩

theorem trans {b b' b'' : BuildState} (first : WarnsOnly b b') (second : WarnsOnly b' b'') :
    WarnsOnly b b'' where
  actions := second.actions.trans first.actions
  gotos := second.gotos.trans first.gotos
  priorityMap := second.priorityMap.trans first.priorityMap
  nofAcceptStates := second.nofAcceptStates.trans first.nofAcceptStates
  warnings := first.warnings.trans second.warnings

theorem silent_trans {b b' b'' : BuildState} (first : WarnsOnly b b') (second : WarnsOnly b' b'') :
    b''.warnings = b.warnings ↔ b'.warnings = b.warnings ∧ b''.warnings = b'.warnings := by
  constructor
  · intro same
    have down : b'.warnings <+: b.warnings := same ▸ second.warnings
    have eq := down.eq_of_length_le first.warnings.length_le
    exact ⟨eq, same.trans eq.symm⟩
  · intro ⟨eq, eq'⟩
    exact eq'.trans eq

end WarnsOnly

namespace BuildM

theorem lift_iff {α : Type} {x : Except Failure α} {a : α} {b b' : BuildState} :
    Returns (lift x) b a b' ↔ x = .ok a ∧ b = b' := by
  constructor
  · intro h
    exact ⟨(Prod.mk.inj h).1, (Prod.mk.inj h).2⟩
  · intro ⟨same, same'⟩
    rw [same, same']
    rfl

theorem warn_spec {code : ErrorCode} {arg : String} {u : Unit} {b b' : BuildState}
    (h : Returns (warn code arg) b u b') :
    WarnsOnly b b' ∧ b'.warnings = b.warnings ++ [⟨code, arg, 0⟩] := by
  obtain rfl := Returns.modify_iff.mp h
  exact ⟨⟨rfl, rfl, rfl, rfl, List.prefix_append _ _⟩, rfl⟩

end BuildM

open BuildM in
theorem warnConflict_spec {input : BuildInput} {state : TransitionState} {code : ErrorCode}
    {terminal : Int} {u : Unit} {b b' : BuildState}
    (h : Returns (warnConflict input state code terminal) b u b') :
    WarnsOnly b b' ∧ b'.warnings ≠ b.warnings := by
  obtain ⟨text, t, lifted, warned⟩ := Returns.bind_iff.mp h
  obtain ⟨-, rfl⟩ := lift_iff.mp lifted
  obtain ⟨only, more⟩ := warn_spec warned
  refine ⟨only, ?_⟩
  rw [more]
  simp

/-- What is known for a key: its action and the priority of that action. -/
abbrev Slot := Option Action × Option Priority

/-- How the slot of a key changes when an action is inserted, and if there is a warning: the first
    action is taken, one that is there without a priority only gets the priority, else the two are
    compared. -/
def slotStep (action : Action) (priority : Priority) : Slot → Slot × Bool
  | (none, _) => ((some action, some priority), false)
  | (some known, none) => ((some known, some priority), false)
  | (some known, some pi) =>
    if action.type = known.type then ((some known, some pi), decide (known ≠ action))
    else if priority.defined ≠ pi.defined then ((some known, some pi), true)
    else if priority.value > pi.value then ((some action, some priority), false)
    else if priority.value = pi.value then
      if priority.assoziativity ≠ pi.assoziativity ∨ priority.assoziativity = .Undefined then
        ((some known, some pi), true)
      else if priority.assoziativity = (if action.type = .Reduce then .Left else .Right) then
        ((some action, some priority), false)
      else ((some known, some pi), false)
    else ((some known, some pi), false)

def BuildState.slot (b : BuildState) (key : ActionKey) : Slot :=
  (b.actions.find key, b.priorityMap.find key)

structure Inserted (key : ActionKey) (action : Action) (priority : Priority) (b b' : BuildState)
    (warned : Bool) : Prop where
  slot : slotStep action priority (b.slot key) = (b'.slot key, warned)
  other : ∀ key', key' ≠ key → b'.slot key' = b.slot key'
  gotos : b'.gotos = b.gotos
  nofAcceptStates : b'.nofAcceptStates = b.nofAcceptStates
  warnings : b.warnings <+: b'.warnings
  silent : warned = false ↔ b'.warnings = b.warnings

section Insert

variable {input : BuildInput} {state : TransitionState} {key : ActionKey} {action : Action}
  {priority : Priority} {u : Unit} {b b' : BuildState}

private theorem setAction_slot (h : Returns (setAction key action priority) b u b')
    (step : slotStep action priority (b.slot key) = ((some action, some priority), false)) :
    Inserted key action priority b b' false := by
  obtain rfl := Returns.modify_iff.mp h
  refine ⟨?_, ?_, rfl, rfl, List.prefix_refl _, by simp⟩
  · simpa [BuildState.slot] using step
  · intro key' other
    simp [BuildState.slot, SortedMap.find_set, Ne.symm other]

private theorem unchanged_slot {warned : Bool} (only : WarnsOnly b b')
    (silent : warned = false ↔ b'.warnings = b.warnings)
    (step : slotStep action priority (b.slot key) = (b.slot key, warned)) :
    Inserted key action priority b b' warned := by
  have same : ∀ key', b'.slot key' = b.slot key' := by
    intro key'
    rw [BuildState.slot, BuildState.slot, only.actions, only.priorityMap]
  refine ⟨?_, fun key' _ => same key', only.gotos, only.nofAcceptStates, only.warnings, silent⟩
  rw [same]
  exact step

theorem insertAction_spec (h : Returns (insertAction input state key action priority) b u b') :
    ∃ warned, Inserted key action priority b b' warned := by
  obtain ⟨c, t, hget, h⟩ := Returns.bind_iff.mp h
  obtain ⟨rfl, rfl⟩ := Returns.get_iff.mp hget
  have slot_eq : b.slot key = (b.actions.find key, b.priorityMap.find key) := rfl
  have warned_case : ∀ {code : ErrorCode},
      Returns (warnConflict input state code key.terminal) b u b' →
      slotStep action priority (b.slot key) = (b.slot key, true) →
      ∃ warned, Inserted key action priority b b' warned := by
    intro code warned step
    obtain ⟨only, more⟩ := warnConflict_spec warned
    exact ⟨true, unchanged_slot only (by simp [more]) step⟩
  have pure_case : Returns (pure () : BuildM Unit) b u b' →
      slotStep action priority (b.slot key) = (b.slot key, false) →
      ∃ warned, Inserted key action priority b b' warned := by
    intro returned step
    obtain ⟨-, rfl⟩ := Returns.pure_iff.mp returned
    exact ⟨false, unchanged_slot (.refl b) (by simp) step⟩
  cases known_eq : b.actions.find key with
  | none =>
    rw [known_eq] at h slot_eq
    refine ⟨false, setAction_slot h ?_⟩
    rw [slot_eq, slotStep]
  | some known =>
    rw [known_eq] at h slot_eq
    cases pi_eq : b.priorityMap.find key with
    | none =>
      rw [pi_eq] at h slot_eq
      obtain rfl := Returns.modify_iff.mp h
      refine ⟨false, ?_, ?_, rfl, rfl, List.prefix_refl _, by simp⟩
      · rw [slot_eq]
        simp [slotStep, BuildState.slot, known_eq]
      · intro key' other
        simp [BuildState.slot, SortedMap.find_set, Ne.symm other]
    | some pi =>
      rw [pi_eq] at h slot_eq
      simp only at h
      split at h
      · rename_i same_type
        split at h
        · rename_i different
          refine warned_case h ?_
          rw [slot_eq]
          simp [slotStep, same_type, different]
        · rename_i same
          refine pure_case h ?_
          rw [slot_eq]
          simp [slotStep, same_type, not_not.mp same]
      · rename_i other_type
        split at h
        · rename_i defined
          refine warned_case h ?_
          rw [slot_eq, slotStep, if_neg other_type, if_pos defined]
        · rename_i defined
          split at h
          · rename_i higher
            refine ⟨false, setAction_slot h ?_⟩
            rw [slot_eq, slotStep, if_neg other_type, if_neg defined, if_pos higher]
          · rename_i not_higher
            split at h
            · rename_i equal
              split at h
              · rename_i unassociated
                refine warned_case h ?_
                rw [slot_eq, slotStep, if_neg other_type, if_neg defined, if_neg not_higher,
                  if_pos equal, if_pos unassociated]
              · rename_i associated
                split at h
                · rename_i reduce
                  split at h
                  · rename_i left
                    refine ⟨false, setAction_slot h ?_⟩
                    rw [slot_eq, slotStep, if_neg other_type, if_neg defined, if_neg not_higher,
                      if_pos equal, if_neg associated, if_pos reduce, if_pos left]
                  · rename_i left
                    refine pure_case h ?_
                    rw [slot_eq, slotStep, if_neg other_type, if_neg defined, if_neg not_higher,
                      if_pos equal, if_neg associated, if_pos reduce, if_neg left]
                · rename_i reduce
                  split at h
                  · rename_i right
                    refine ⟨false, setAction_slot h ?_⟩
                    rw [slot_eq, slotStep, if_neg other_type, if_neg defined, if_neg not_higher,
                      if_pos equal, if_neg associated, if_neg reduce, if_pos right]
                  · rename_i right
                    refine pure_case h ?_
                    rw [slot_eq, slotStep, if_neg other_type, if_neg defined, if_neg not_higher,
                      if_pos equal, if_neg associated, if_neg reduce, if_neg right]
            · rename_i not_equal
              refine pure_case h ?_
              rw [slot_eq, slotStep, if_neg other_type, if_neg defined, if_neg not_higher,
                if_neg not_equal]

end Insert

/-! The successors of a state. -/

def priorityOf (prodlist : List ProductionDef) (item : TransitionItem) : Option Priority :=
  (prodlist[item.prodindex]?).map ProductionDef.priority

structure ShiftMaps.Collected (prodlist : List ProductionDef) (items : List TransitionItem)
    (maps : ShiftMaps) : Prop where
  found : ∀ {node kernel}, maps.1.find node = some kernel →
    (∃ item ∈ items, nodeOf prodlist item = some node) ∧ kernel = successors prodlist items node
  complete : ∀ {item node}, item ∈ items → nodeOf prodlist item = some node →
    ∃ kernel, maps.1.find node = some kernel
  priority : ∀ {node priority}, maps.2.find node = some priority →
    ∃ item ∈ items, nodeOf prodlist item = some node ∧ priorityOf prodlist item = some priority
  prioritized : ∀ {item node}, item ∈ items → nodeOf prodlist item = some node →
    node.type = .Terminal → ∃ priority, maps.2.find node = some priority

def PriorityAgrees (prodlist : List ProductionDef) (maps : ShiftMaps) (item : TransitionItem) :
    Prop :=
  ∀ node priority, nodeOf prodlist item = some node → node.type = .Terminal →
    maps.2.find node = some priority → priorityOf prodlist item = some priority

theorem successors_append {prodlist : List ProductionDef} {items : List TransitionItem}
    {item : TransitionItem} {node : ProductionNode} :
    successors prodlist (items ++ [item]) node =
      if nodeOf prodlist item = some node then (successors prodlist items node).insert
        (⟨item.prodindex, item.prodpos + 1, 0⟩ : TransitionItem).packed
      else successors prodlist items node := by
  unfold successors
  refine SortedSet.eq_of_mem_iff fun pkg => ?_
  split
  · rename_i here
    simp [List.filter_append, here, or_comm]
  · rename_i here
    simp [List.filter_append, here]

theorem successors_eq_empty {prodlist : List ProductionDef} {items : List TransitionItem}
    {node : ProductionNode} (none_here : ∀ item ∈ items, nodeOf prodlist item ≠ some node) :
    successors prodlist items node = SortedSet.empty := by
  unfold successors
  rw [List.filter_eq_nil_iff.mpr (by simpa using none_here)]
  rfl

structure ShiftStep (prodlist : List ProductionDef) (items : List TransitionItem)
    (item : TransitionItem) (maps maps' : ShiftMaps) (b b' : BuildState) : Prop where
  collected : maps'.Collected prodlist (items ++ [item])
  only : WarnsOnly b b'
  kept : ∀ {node priority}, maps.2.find node = some priority →
    maps'.2.find node = some priority
  silent : b'.warnings = b.warnings ↔ PriorityAgrees prodlist maps' item

theorem ShiftMaps.Collected.insert {prodlist : List ProductionDef} {items : List TransitionItem}
    {maps : ShiftMaps} {item : TransitionItem} {node : ProductionNode}
    (inv : maps.Collected prodlist items) (node_eq : nodeOf prodlist item = some node)
    {priorities : SortedMap ProductionNode Priority}
    (priority : ∀ {node' priority}, priorities.find node' = some priority →
      ∃ origin ∈ items ++ [item], nodeOf prodlist origin = some node' ∧
        priorityOf prodlist origin = some priority)
    (prioritized : ∀ {node' priority}, maps.2.find node' = some priority →
      priorities.find node' = some priority)
    (here : node.type = .Terminal → ∃ priority, priorities.find node = some priority) :
    ShiftMaps.Collected prodlist (items ++ [item]) (maps.1.set node
      (((maps.1.find node).getD SortedSet.empty).insert
        (⟨item.prodindex, item.prodpos + 1, 0⟩ : TransitionItem).packed), priorities) := by
  refine ⟨?_, ?_, priority, ?_⟩
  · intro node' kernel found
    rw [SortedMap.find_set] at found
    split at found
    · rename_i same
      subst same
      obtain rfl := Option.some.inj found
      refine ⟨⟨item, List.mem_append_right _ (List.mem_singleton_self item), node_eq⟩, ?_⟩
      rw [successors_append, if_pos node_eq]
      cases before : maps.1.find node with
      | none =>
        rw [successors_eq_empty]
        · rfl
        · intro origin mem same
          obtain ⟨kernel, found⟩ := inv.complete mem same
          simp [before] at found
      | some kernel =>
        rw [(inv.found before).2]
        rfl
    · rename_i other
      obtain ⟨⟨origin, mem, same⟩, rfl⟩ := inv.found found
      refine ⟨⟨origin, List.mem_append_left _ mem, same⟩, ?_⟩
      rw [successors_append, if_neg]
      intro same
      exact other (Option.some.inj (node_eq.symm.trans same))
  · intro origin node' mem same
    rw [SortedMap.find_set]
    split
    · exact ⟨_, rfl⟩
    · rename_i other
      rcases List.mem_append.mp mem with old | new
      · exact inv.complete old same
      · obtain rfl := List.mem_singleton.mp new
        exact absurd (Option.some.inj (node_eq.symm.trans same)) other
  · intro origin node' mem same terminal
    rcases List.mem_append.mp mem with old | new
    · obtain ⟨priority, found⟩ := inv.prioritized old same terminal
      exact ⟨priority, prioritized found⟩
    · obtain rfl := List.mem_singleton.mp new
      obtain rfl := Option.some.inj (node_eq.symm.trans same)
      exact here terminal

theorem collectShift_spec {prodlist : List ProductionDef} {items : List TransitionItem}
    {maps maps' : ShiftMaps} {item : TransitionItem} {b b' : BuildState}
    (inv : maps.Collected prodlist items)
    (h : Returns (collectShift prodlist maps item) b maps' b') :
    ShiftStep prodlist items item maps maps' b b' := by
  unfold collectShift at h
  cases at_index : prodlist[item.prodindex]? with
  | none =>
    rw [at_index] at h
    exact absurd (BuildM.lift_iff.mp h).1 (by simp)
  | some prod =>
    simp only [at_index] at h
    have priority_eq : priorityOf prodlist item = some prod.priority := by
      simp [priorityOf, at_index]
    have node_eq : nodeOf prodlist item = (prod.right[item.prodpos]?).map
        ProductionNodeDef.toProductionNode := by
      simp [nodeOf, at_index, ProductionDef.nodeAt]
    cases at_pos : prod.right[item.prodpos]? with
    | none =>
      rw [at_pos] at h node_eq
      obtain ⟨rfl, rfl⟩ := Returns.pure_iff.mp h
      have no_node : ∀ node, nodeOf prodlist item ≠ some node := by simp [node_eq]
      refine ⟨⟨?_, ?_, ?_, ?_⟩, .refl b, fun found => found, ?_⟩
      · intro node kernel found
        obtain ⟨⟨origin, mem, same⟩, rfl⟩ := inv.found found
        refine ⟨⟨origin, List.mem_append_left _ mem, same⟩, ?_⟩
        rw [successors_append, if_neg (no_node node)]
      · intro origin node mem same
        rcases List.mem_append.mp mem with old | new
        · exact inv.complete old same
        · obtain rfl := List.mem_singleton.mp new
          exact absurd same (no_node node)
      · intro node priority found
        obtain ⟨origin, mem, rest⟩ := inv.priority found
        exact ⟨origin, List.mem_append_left _ mem, rest⟩
      · intro origin node mem same terminal
        rcases List.mem_append.mp mem with old | new
        · exact inv.prioritized old same terminal
        · obtain rfl := List.mem_singleton.mp new
          exact absurd same (no_node node)
      · simp only [true_iff]
        intro node priority same
        exact absurd same (no_node node)
    | some nd =>
      simp only [at_pos] at h node_eq
      have node_eq : nodeOf prodlist item = some nd.toProductionNode := node_eq
      have old_priorities : ∀ {node priority}, maps.2.find node = some priority →
          ∃ origin ∈ items ++ [item], nodeOf prodlist origin = some node ∧
            priorityOf prodlist origin = some priority := by
        intro node priority found
        obtain ⟨origin, mem, rest⟩ := inv.priority found
        exact ⟨origin, List.mem_append_left _ mem, rest⟩
      -- with a known priority the item agrees if it has the same one
      have agrees_iff : ∀ {kernels : SortedMap ProductionNode (FlatSet Nat)}
          {priorities : SortedMap ProductionNode Priority} {known : Priority},
          priorities.find nd.toProductionNode = some known → nd.type = .Terminal →
          (PriorityAgrees prodlist (kernels, priorities) item ↔ known = prod.priority) := by
        intro kernels priorities known found terminal
        constructor
        · intro agrees
          have eq := agrees _ known node_eq terminal found
          exact (Option.some.inj (priority_eq.symm.trans eq)).symm
        · intro eq node priority same _ found'
          obtain rfl := Option.some.inj (node_eq.symm.trans same)
          obtain rfl := Option.some.inj (found.symm.trans found')
          rw [priority_eq, eq]
      by_cases terminal : nd.type = .Terminal
      · simp only [terminal, if_true] at h
        cases before : maps.2.find nd.toProductionNode with
        | none =>
          rw [SortedMap.insertNew_of_none before] at h
          obtain ⟨rfl, rfl⟩ := Returns.pure_iff.mp h
          have keep : ∀ {node priority}, maps.2.find node = some priority →
              (maps.2.set nd.toProductionNode prod.priority).find node = some priority := by
            intro node priority found
            rw [SortedMap.find_set, if_neg]
            · exact found
            · intro same
              subst same
              simp [before] at found
          refine ⟨inv.insert node_eq ?_ keep fun _ => ⟨prod.priority, by simp⟩, .refl b, keep, ?_⟩
          · intro node priority found
            rw [SortedMap.find_set] at found
            split at found
            · rename_i same
              subst same
              obtain rfl := Option.some.inj found
              exact ⟨item, List.mem_append_right _ (List.mem_singleton_self item), node_eq,
                priority_eq⟩
            · exact old_priorities found
          · rw [agrees_iff (SortedMap.find_set_self _ _ _) terminal]
            simp
        | some known =>
          rw [SortedMap.insertNew_of_some before] at h
          simp only at h
          have collected := inv.insert node_eq old_priorities (fun found => found)
            fun _ => ⟨known, before⟩
          split at h
          · rename_i differ
            obtain ⟨_, t, warned, h⟩ := Returns.bind_iff.mp h
            obtain ⟨rfl, rfl⟩ := Returns.pure_iff.mp h
            obtain ⟨only, more⟩ := BuildM.warn_spec warned
            refine ⟨collected, only, fun found => found, ?_⟩
            rw [agrees_iff before terminal, more]
            simp [differ]
          · rename_i agree
            obtain ⟨rfl, rfl⟩ := Returns.pure_iff.mp h
            refine ⟨collected, .refl b, fun found => found, ?_⟩
            rw [agrees_iff before terminal]
            simp [not_not.mp agree]
      · simp only [terminal, if_false] at h
        obtain ⟨rfl, rfl⟩ := Returns.pure_iff.mp h
        refine ⟨inv.insert node_eq old_priorities (fun found => found)
          (fun kind => absurd kind terminal), .refl b, fun found => found, ?_⟩
        simp only [true_iff]
        intro node priority same kind
        obtain rfl := Option.some.inj (node_eq.symm.trans same)
        exact absurd kind terminal

/-- The successors that are inserted for a state. -/
structure ShiftNodes (input : BuildInput) (state : TransitionState)
    (nodes : List ProductionShiftNode) : Prop where
  sound : ∀ shft ∈ nodes,
    (∃ item ∈ state.unpack, nodeOf input.prodlist item = some shft.node) ∧
    gotoNumber input.gotoMap (successors input.prodlist state.unpack shft.node) =
      some shft.goto_stateidx
  priority : ∀ shft ∈ nodes, shft.node.type = .Terminal →
    ∃ item ∈ state.unpack, nodeOf input.prodlist item = some shft.node ∧
      priorityOf input.prodlist item = some shft.priority
  complete : ∀ item ∈ state.unpack, ∀ node, nodeOf input.prodlist item = some node →
    ∃ shft ∈ nodes, shft.node = node
  nodup : (nodes.map ProductionShiftNode.node).Nodup

/-- All items in front of a terminal have the priority of its shift. -/
def ShiftsAgree (input : BuildInput) (state : TransitionState)
    (nodes : List ProductionShiftNode) : Prop :=
  ∀ shft ∈ nodes, shft.node.type = .Terminal → ∀ item ∈ state.unpack,
    nodeOf input.prodlist item = some shft.node →
    priorityOf input.prodlist item = some shft.priority

theorem shiftNode_spec {gotoMap : TransitionItemGotoMap}
    {priorities : SortedMap ProductionNode Priority} {entry : ProductionNode × FlatSet Nat}
    {shft : ProductionShiftNode} (h : shiftNode gotoMap priorities entry = .ok shft) :
    shft.node = entry.1 ∧ gotoNumber gotoMap entry.2 = some shft.goto_stateidx ∧
      (entry.1.type = .Terminal → priorities.find entry.1 = some shft.priority) := by
  unfold shiftNode at h
  cases number : gotoNumber gotoMap entry.2 with
  | none => simp [number, logicError] at h
  | some stateidx =>
    simp only [number] at h
    split at h
    · cases priority : priorities.find entry.1 with
      | none => simp [priority] at h
      | some p =>
        rw [priority] at h
        obtain rfl := Except.ok.inj h
        exact ⟨rfl, rfl, fun _ => rfl⟩
    · rename_i nonterminal
      obtain rfl := Except.ok.inj h
      exact ⟨rfl, rfl, fun terminal => absurd terminal nonterminal⟩

theorem getShiftNodes_spec {input : BuildInput} {state : TransitionState}
    {nodes : List ProductionShiftNode} {b b' : BuildState}
    (h : Returns (getShiftNodes input state) b nodes b') :
    WarnsOnly b b' ∧ ShiftNodes input state nodes ∧
      (b'.warnings = b.warnings ↔ ShiftsAgree input state nodes) := by
  obtain ⟨maps, t, collect, h⟩ := Returns.bind_iff.mp h
  obtain ⟨mapped, rfl⟩ := BuildM.lift_iff.mp h
  have start : ShiftMaps.Collected input.prodlist []
      ((SortedMap.empty, SortedMap.empty) : ShiftMaps) := ⟨by simp, by simp, by simp, by simp⟩
  obtain ⟨collected, only, silent⟩ := Returns.foldlM_invariant
    (I := fun past (maps : ShiftMaps) s => maps.Collected input.prodlist past ∧ WarnsOnly b s ∧
      (s.warnings = b.warnings ↔ ∀ item ∈ past, PriorityAgrees input.prodlist maps item))
    (fun {past} _ _ _ _ _ _ inv step => by
      obtain ⟨collected, only, silent⟩ := inv
      have added := collectShift_spec collected step
      refine ⟨added.collected, only.trans added.only, ?_⟩
      rw [only.silent_trans added.only, silent, added.silent]
      simp only [List.mem_append, List.mem_singleton]
      constructor
      · intro ⟨old, new⟩ item mem
        rcases mem with mem | rfl
        · intro node priority node_eq terminal found
          obtain ⟨known, before⟩ := collected.prioritized mem node_eq terminal
          obtain rfl := Option.some.inj ((added.kept before).symm.trans found)
          exact old item mem node known node_eq terminal before
        · exact new
      · intro all
        refine ⟨fun item mem node priority node_eq terminal found => ?_, all _ (Or.inr rfl)⟩
        exact all item (Or.inl mem) node priority node_eq terminal (added.kept found))
    ⟨start, .refl b, by simp⟩ collect
  obtain ⟨origins, images⟩ := mem_mapM mapped
  refine ⟨only, ⟨?_, ?_, ?_, ?_⟩, ?_⟩
  · intro shft mem
    obtain ⟨entry, in_map, shifted⟩ := origins shft mem
    obtain ⟨node_eq, number, -⟩ := shiftNode_spec shifted
    obtain ⟨some_item, kernel_eq⟩ := collected.found (SortedMap.find_eq_some.mpr in_map)
    rw [node_eq]
    exact ⟨some_item, kernel_eq ▸ number⟩
  · intro shft mem terminal
    obtain ⟨entry, in_map, shifted⟩ := origins shft mem
    obtain ⟨node_eq, -, priority⟩ := shiftNode_spec shifted
    rw [node_eq] at terminal ⊢
    exact collected.priority (priority terminal)
  · intro item mem node node_eq
    obtain ⟨kernel, found⟩ := collected.complete mem node_eq
    obtain ⟨shft, in_nodes, shifted⟩ := images (node, kernel) (SortedMap.find_eq_some.mp found)
    exact ⟨shft, in_nodes, (shiftNode_spec shifted).1⟩
  · rw [map_of_mapM (fun entry shft shifted => (shiftNode_spec shifted).1) mapped]
    exact maps.1.sorted.imp fun less => ne_of_lt less
  · rw [silent]
    constructor
    · intro agree shft mem terminal item here node_eq
      obtain ⟨entry, in_map, shifted⟩ := origins shft mem
      obtain ⟨same, -, priority⟩ := shiftNode_spec shifted
      refine agree item here shft.node shft.priority node_eq terminal ?_
      rw [same] at terminal ⊢
      exact priority terminal
    · intro agree item here node priority node_eq terminal found
      obtain ⟨kernel, in_map⟩ := collected.complete here node_eq
      obtain ⟨shft, mem, shifted⟩ := images (node, kernel) (SortedMap.find_eq_some.mp in_map)
      obtain ⟨same, -, known⟩ := shiftNode_spec shifted
      obtain rfl := Option.some.inj ((known terminal).symm.trans found)
      exact agree shft mem (same ▸ terminal) item here (same ▸ node_eq)

/-! The reduction with a handle. -/

/-- The completed productions of a state with a handle, in the order of the items. -/
def completions (prodlist : List ProductionDef) (follow : Nat) (items : List TransitionItem) :
    List ProductionDef :=
  items.filterMap fun item =>
    if item.follow = follow then completedOf prodlist item else none

theorem mem_completions {prodlist : List ProductionDef} {follow : Nat}
    {items : List TransitionItem} {prod : ProductionDef} :
    prod ∈ completions prodlist follow items ↔
      ∃ item ∈ items, item.follow = follow ∧ completedOf prodlist item = some prod := by
  unfold completions
  simp

/-- Two completed productions are not told apart by the check. -/
structure ProductionDef.Agrees (prod prod' : ProductionDef) : Prop where
  head : prod.left.index = prod'.left.index
  count : prod.right.length = prod'.right.length
  callidx : prod.callidx = prod'.callidx
  priority : prod.priority = prod'.priority

structure ReductionFound (input : BuildInput) (follow : Nat) (items : List TransitionItem)
    (rt : Option (ReductionDef × ProductionDef)) (b b' : BuildState) : Prop where
  only : WarnsOnly b b'
  first : (completions input.prodlist follow items).head? = rt.map Prod.snd
  rd : ∀ rd prod, rt = some (rd, prod) → rd = prod.reductionDef
  silent : b'.warnings = b.warnings ↔ ∀ rd prod, rt = some (rd, prod) →
    ∀ prod' ∈ completions input.prodlist follow items, prod.Agrees prod'

theorem collectReduction_spec {input : BuildInput} {follow : Nat} {items : List TransitionItem}
    {rt rt' : Option (ReductionDef × ProductionDef)} {item : TransitionItem}
    {b0 b b' : BuildState} (inv : ReductionFound input follow items rt b0 b)
    (h : Returns (collectReduction input follow rt item) b rt' b') :
    ReductionFound input follow (items ++ [item]) rt' b0 b' := by
  have skipped : completions input.prodlist follow [item] = [] →
      Returns (pure rt : BuildM _) b rt' b' →
      ReductionFound input follow (items ++ [item]) rt' b0 b' := by
    intro nothing returned
    obtain ⟨rfl, rfl⟩ := Returns.pure_iff.mp returned
    have same : completions input.prodlist follow (items ++ [item]) =
        completions input.prodlist follow items := by
      unfold completions at nothing ⊢
      rw [List.filterMap_append, nothing, List.append_nil]
    exact ⟨inv.only, same ▸ inv.first, inv.rd, same ▸ inv.silent⟩
  unfold collectReduction at h
  cases completed : completedOf input.prodlist item with
  | none =>
    rw [completed] at h
    exact skipped (by simp [completions, completed]) h
  | some prod =>
    simp only [completed] at h
    split at h
    · rename_i other
      exact skipped (by simp [completions, other]) h
    · rename_i same
      have here : completions input.prodlist follow (items ++ [item]) =
          completions input.prodlist follow items ++ [prod] := by
        unfold completions
        rw [List.filterMap_append]
        simp [not_not.mp same, completed]
      cases rt with
      | none =>
        obtain ⟨rfl, rfl⟩ := Returns.pure_iff.mp h
        have nothing : completions input.prodlist follow items = [] := by
          simpa using inv.first
        rw [nothing, List.nil_append] at here
        refine ⟨inv.only, by rw [here]; rfl, ?_, ?_⟩
        · intro rd last eq
          obtain ⟨rfl, rfl⟩ := Prod.mk.inj (Option.some.inj eq)
          rfl
        · have quiet : b.warnings = b0.warnings := inv.silent.mpr (by simp)
          simp only [quiet, here, Option.some.injEq, Prod.mk.injEq, true_iff]
          intro rd last ⟨_, eq⟩ prod' mem
          rw [← eq, List.mem_singleton.mp mem]
          exact ⟨rfl, rfl, rfl, rfl⟩
      | some found =>
        obtain ⟨rd, last⟩ := found
        have rd_eq := inv.rd rd last rfl
        have first := inv.first
        have head_eq : (completions input.prodlist follow (items ++ [item])).head? = some last := by
          rw [here, List.head?_append, first]
          rfl
        -- the warnings of the item itself
        have finish : ∀ {t : BuildState}, WarnsOnly b t →
            (t.warnings = b.warnings ↔ last.Agrees prod) →
            Returns (pure (some (rd, last)) : BuildM _) t rt' b' →
            ReductionFound input follow (items ++ [item]) rt' b0 b' := by
          intro t more agree returned
          obtain ⟨rfl, rfl⟩ := Returns.pure_iff.mp returned
          refine ⟨inv.only.trans more, head_eq, inv.rd, ?_⟩
          rw [inv.only.silent_trans more, inv.silent, agree]
          simp only [here, List.mem_append, List.mem_singleton, Option.some.injEq, Prod.mk.injEq]
          constructor
          · rintro ⟨old, new⟩ rd' last' ⟨rfl, rfl⟩ prod' (mem | rfl)
            · exact old rd last ⟨rfl, rfl⟩ prod' mem
            · exact new
          · intro all
            exact ⟨fun rd' last' eq prod' mem => all rd' last' eq prod' (Or.inl mem),
              all rd last ⟨rfl, rfl⟩ prod (Or.inr rfl)⟩
        have warned : ∀ {code : ErrorCode} {text : String → String},
            ¬ last.Agrees prod →
            Returns (do
              let followstr ← BuildM.lift (input.fm.follow2String follow input.lexer)
              BuildM.warn code (text followstr)
              pure (some (rd, last)) : BuildM _) b rt' b' →
            ReductionFound input follow (items ++ [item]) rt' b0 b' := by
          intro code text differ h
          obtain ⟨followstr, t, lifted, h⟩ := Returns.bind_iff.mp h
          obtain ⟨-, rfl⟩ := BuildM.lift_iff.mp lifted
          obtain ⟨_, t', warn, h⟩ := Returns.bind_iff.mp h
          obtain ⟨only, more⟩ := BuildM.warn_spec warn
          exact finish only (by simp [more, differ]) h
        simp only at h
        split at h
        · rename_i differ
          refine warned ?_ h
          intro agrees
          rw [rd_eq] at differ
          rcases differ with head | count | callidx
          · exact head agrees.head
          · exact count agrees.count
          · exact callidx agrees.callidx
        · rename_i agree
          split at h
          · rename_i differ
            refine warned ?_ h
            intro agrees
            rw [rd_eq] at differ
            exact differ agrees.priority
          · rename_i priority
            refine finish (.refl b) ?_ h
            rw [rd_eq] at agree priority
            obtain ⟨head, agree⟩ := not_or.mp agree
            obtain ⟨count, callidx⟩ := not_or.mp agree
            simp only [true_iff]
            exact ⟨not_not.mp head, not_not.mp count, not_not.mp callidx, not_not.mp priority⟩

/-- The first completed production with the handle counts, and it is silent if the others agree
    with it. -/
theorem getReductionDef_spec {input : BuildInput} {state : TransitionState} {follow : Nat}
    {rd : ReductionDef} {b b' : BuildState}
    (h : Returns (getReductionDef input state follow) b rd b') :
    ∃ prod, (completions input.prodlist follow state.unpack).head? = some prod ∧
      rd = prod.reductionDef ∧ WarnsOnly b b' ∧
      (b'.warnings = b.warnings ↔
        ∀ prod' ∈ completions input.prodlist follow state.unpack, prod.Agrees prod') := by
  obtain ⟨rt, t, collect, h⟩ := Returns.bind_iff.mp h
  have start : ReductionFound input follow [] none b b :=
    ⟨.refl b, rfl, by simp, by simp⟩
  have found := Returns.foldlM_invariant
    (I := fun past rt s => ReductionFound input follow past rt b s)
    (fun _ inv step => collectReduction_spec inv step) start collect
  cases rt with
  | none => exact absurd (BuildM.lift_iff.mp h).1 (by simp)
  | some pair =>
    obtain ⟨rd', prod⟩ := pair
    obtain ⟨rfl, rfl⟩ := Returns.pure_iff.mp h
    refine ⟨prod, found.first, found.rd _ _ rfl, found.only, ?_⟩
    rw [found.silent]
    simp

/-! The entries of the tables. -/

/-- All entries of the tables were asked for. -/
structure Sound (input : BuildInput) (states : List (Int × TransitionState)) (b : BuildState) :
    Prop where
  actions : ∀ key action, b.actions.find key = some action →
    ∃ st, (key.state, st) ∈ states ∧ Candidate input st key.terminal action
  gotos : ∀ key next, b.gotos.find key = some next →
    ∃ st, (key.state, st) ∈ states ∧ GotoCandidate input st key.nonterminal next

theorem slotStep_action (action : Action) (priority : Priority) (slot : Slot) :
    (slotStep action priority slot).1.1 = slot.1 ∨
      (slotStep action priority slot).1.1 = some action := by
  unfold slotStep
  split
  · exact Or.inr rfl
  · exact Or.inl rfl
  · split_ifs <;> simp

section Sound

variable {input : BuildInput} {states : List (Int × TransitionState)} {n : Int}
  {state : TransitionState} {u : Unit} {b b' : BuildState}

theorem Sound.of_warnsOnly (sound : Sound input states b) (only : WarnsOnly b b') :
    Sound input states b' := by
  constructor
  · rw [only.actions]
    exact sound.actions
  · rw [only.gotos]
    exact sound.gotos

theorem Sound.insertAction (sound : Sound input states b) (mem : (n, state) ∈ states)
    {terminal : Int} {action : Action} (candidate : Candidate input state terminal action)
    {priority : Priority}
    (h : Returns (Mewa.insertAction input state ⟨n, terminal⟩ action priority) b u b') :
    Sound input states b' := by
  obtain ⟨warned, inserted⟩ := insertAction_spec h
  constructor
  · intro key known found
    by_cases same : key = ⟨n, terminal⟩
    · subst same
      have slot_eq : (b'.slot ⟨n, terminal⟩).1 = some known := found
      have step := slotStep_action action priority (b.slot ⟨n, terminal⟩)
      rw [inserted.slot, slot_eq] at step
      rcases step with old | new
      · exact sound.actions _ known old.symm
      · obtain rfl := Option.some.inj new
        exact ⟨state, mem, candidate⟩
    · have old : (b'.slot key).1 = (b.slot key).1 := by rw [inserted.other key same]
      exact sound.actions key known (old.symm.trans found)
  · rw [inserted.gotos]
    exact sound.gotos

theorem Sound.insertAccept (sound : Sound input states b) (mem : (n, state) ∈ states)
    (h : Returns (Mewa.insertAccept input.prodlist n state) b u b') : Sound input states b' := by
  unfold Mewa.insertAccept at h
  split at h
  · rename_i accepts
    cases head : input.prodlist.head? with
    | none =>
      rw [head] at h
      exact absurd (BuildM.lift_iff.mp h).1 (by simp)
    | some prod =>
      simp only [head] at h
      split at h
      · exact absurd (BuildM.lift_iff.mp h).1 (by simp [logicError])
      · obtain rfl := Returns.modify_iff.mp h
        refine ⟨?_, sound.gotos⟩
        intro key action found
        rw [SortedMap.find_set] at found
        split at found
        · rename_i same
          subst same
          obtain rfl := Option.some.inj found
          exact ⟨state, mem, .accept rfl accepts head⟩
        · exact sound.actions key action found
  · obtain ⟨-, rfl⟩ := Returns.pure_iff.mp h
    exact sound

theorem Sound.insertShift (sound : Sound input states b) (mem : (n, state) ∈ states)
    {nodes : List ProductionShiftNode} (shiftNodes : ShiftNodes input state nodes)
    {shft : ProductionShiftNode} (in_nodes : shft ∈ nodes)
    (h : Returns (Mewa.insertShift input n state shft) b u b') : Sound input states b' := by
  obtain ⟨⟨item, here, node⟩, number⟩ := shiftNodes.sound shft in_nodes
  unfold Mewa.insertShift at h
  split at h
  · rename_i terminal
    have node_eq : shft.node = ⟨.Terminal, shft.node.index⟩ := ProductionNode.ext terminal rfl
    rw [node_eq] at node number
    exact sound.insertAction mem (.shift here node number) h
  · rename_i nonterminal
    obtain ⟨c, t, hget, h⟩ := Returns.bind_iff.mp h
    obtain ⟨rfl, rfl⟩ := Returns.get_iff.mp hget
    cases known : b.gotos.find ⟨n, shft.node.index⟩ with
    | some next =>
      rw [SortedMap.insertNew_of_some known] at h
      simp only at h
      split at h
      · exact absurd (BuildM.lift_iff.mp h).1 (by simp [logicError])
      · obtain ⟨-, rfl⟩ := Returns.pure_iff.mp h
        exact sound
    | none =>
      rw [SortedMap.insertNew_of_none known] at h
      obtain rfl := Returns.modify_iff.mp h
      refine ⟨sound.actions, ?_⟩
      intro key next found
      rw [SortedMap.find_set] at found
      split at found
      · rename_i same
        subst same
        obtain rfl := Option.some.inj found
        exact ⟨state, mem, shft.node, nonterminal, rfl, ⟨item, here, node⟩, number⟩
      · exact sound.gotos key next found

theorem Sound.insertReductions (sound : Sound input states b) (mem : (n, state) ∈ states)
    {follow : Nat} (h : Returns (Mewa.insertReductions input n state follow) b u b') :
    Sound input states b' := by
  obtain ⟨rd, t, reduction, h⟩ := Returns.bind_iff.mp h
  obtain ⟨prod, first, rd_eq, only, -⟩ := getReductionDef_spec reduction
  obtain ⟨item, here, follow_eq, completed⟩ := mem_completions.mp (List.mem_of_mem_head? first)
  obtain ⟨elems, s, lifted, h⟩ := Returns.bind_iff.mp h
  obtain ⟨content, rfl⟩ := BuildM.lift_iff.mp lifted
  refine Returns.forM_invariant (I := fun _ s => Sound input states s) ?_
    (sound.of_warnsOnly only) h
  intro past terminal s s' u terminal_mem inv step
  have candidate : Candidate input state terminal prod.reduceAction :=
    .reduce here completed (follow_eq ▸ content) terminal_mem
  rw [rd_eq] at step
  exact inv.insertAction mem candidate step

theorem Sound.insertState (sound : Sound input states b) {st : Int × TransitionState}
    (mem : st ∈ states) (h : Returns (Mewa.insertState input st) b u b') :
    Sound input states b' := by
  obtain ⟨_, b1, accept, h⟩ := Returns.bind_iff.mp h
  obtain ⟨nodes, b2, shift, h⟩ := Returns.bind_iff.mp h
  obtain ⟨_, b3, shifts, reductions⟩ := Returns.bind_iff.mp h
  obtain ⟨only, shiftNodes, -⟩ := getShiftNodes_spec shift
  have sound2 := (sound.insertAccept mem accept).of_warnsOnly only
  have sound3 := Returns.forM_invariant (I := fun _ s => Sound input states s)
    (fun in_nodes inv step => inv.insertShift mem shiftNodes in_nodes step) sound2 shifts
  exact Returns.forM_invariant (I := fun _ s => Sound input states s)
    (fun _ inv step => inv.insertReductions mem step) sound3 reductions

end Sound

theorem fillTables_sound {input : BuildInput} {states : SortedMap Int TransitionState}
    {warnings : List Error} {u : Unit} {b : BuildState}
    (h : Returns (fillTables input states)
      ⟨SortedMap.empty, SortedMap.empty, SortedMap.empty, warnings, 0⟩ u b) :
    Sound input states.entries b := by
  obtain ⟨_, t, loop, h⟩ := Returns.bind_iff.mp h
  obtain ⟨c, s, hget, h⟩ := Returns.bind_iff.mp h
  obtain ⟨rfl, rfl⟩ := Returns.get_iff.mp hget
  have sound : Sound input states.entries t :=
    Returns.forM_invariant (I := fun _ s => Sound input states.entries s)
      (fun mem inv step => inv.insertState mem step) ⟨by simp, by simp⟩ loop
  split at h
  · exact absurd (BuildM.lift_iff.mp h).1 (by simp [Grammar.throw])
  · obtain ⟨-, rfl⟩ := Returns.pure_iff.mp h
    exact sound

/-- The parts of a build that succeeds. -/
structure Built (fuel : Nat) (engine : PatternEngine)
    (order : HashOrder (TransitionState × Int)) (source : GrammarSource) (warnings : List Error)
    (automaton : Automaton) (warnings' : List Error) (langdef : LanguageDef) (lalr : LalrStates)
    (b : BuildState) : Prop where
  parsed : parseLanguageDef engine source = .ok langdef
  complexity : checkComplexity langdef = .ok ()
  states : calculateStates fuel order langdef.prodlist = .ok lalr
  tables : Returns (fillTables ⟨langdef.prodlist, langdef.lexer, lalr.fm, lalr.gotoMap⟩ lalr.states)
    ⟨SortedMap.empty, SortedMap.empty, SortedMap.empty, warnings, 0⟩ () b
  actions : automaton.actions = b.actions
  gotos : automaton.gotos = b.gotos
  lexer : automaton.lexer = langdef.lexer
  warned : warnings' = b.warnings

theorem built_of_build {fuel : Nat} {engine : PatternEngine}
    {order : HashOrder (TransitionState × Int)} {source : GrammarSource}
    {warnings warnings' : List Error} {automaton : Automaton}
    (h : Automaton.build fuel engine order source warnings {} = ((automaton, warnings'), .ok ())) :
    ∃ langdef lalr b,
      Built fuel engine order source warnings automaton warnings' langdef lalr b := by
  unfold Automaton.build at h
  cases parsed : parseLanguageDef engine source with
  | error e => simp [parsed] at h
  | ok langdef =>
    simp only [parsed] at h
    cases complexity : checkComplexity langdef with
    | error e => simp [complexity] at h
    | ok _ =>
      simp only [complexity] at h
      cases states : calculateStates fuel order langdef.prodlist with
      | error e => simp [states] at h
      | ok lalr =>
        simp only [states] at h
        generalize tables : (fillTables ⟨langdef.prodlist, langdef.lexer, lalr.fm, lalr.gotoMap⟩
          lalr.states).run.run ⟨SortedMap.empty, SortedMap.empty, SortedMap.empty, warnings, 0⟩ =
          result at h
        obtain ⟨returned, b⟩ := result
        cases returned with
        | error e => simp at h
        | ok _ =>
          simp only [Prod.mk.injEq, and_true] at h
          obtain ⟨rfl, rfl⟩ := h
          exact ⟨langdef, lalr, b, parsed, complexity, states, tables, rfl, rfl, rfl, rfl⟩

theorem Built.sound {fuel : Nat} {engine : PatternEngine}
    {order : HashOrder (TransitionState × Int)} {source : GrammarSource}
    {warnings warnings' : List Error} {automaton : Automaton} {langdef : LanguageDef}
    {lalr : LalrStates} {b : BuildState}
    (built : Built fuel engine order source warnings automaton warnings' langdef lalr b) :
    Sound ⟨langdef.prodlist, langdef.lexer, lalr.fm, lalr.gotoMap⟩ lalr.states.entries b :=
  fillTables_sound built.tables


end Mewa
