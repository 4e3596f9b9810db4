/- Module: Mewa/Automaton/Conflicts
   digest: The slots of a state after the build are the fold over the actions inserted for it. -/

import Mewa.Automaton.Entries

set_option autoImplicit false
set_option relaxedAutoImplicit false

namespace Mewa

open Mewa.Lib

abbrev Prioritized := Action × Priority

/-- The slot after a sequence of insertions, and if one of them warns. -/
def resolveFrom : Slot → List Prioritized → Slot × Bool
  | slot, [] => (slot, false)
  | slot, c :: cs =>
    let (next, warned) := slotStep c.1 c.2 slot
    let (last, warned') := resolveFrom next cs
    (last, warned || warned')

theorem resolveFrom_append (slot : Slot) (l l' : List Prioritized) :
    resolveFrom slot (l ++ l') =
      ((resolveFrom (resolveFrom slot l).1 l').1,
        (resolveFrom slot l).2 || (resolveFrom (resolveFrom slot l).1 l').2) := by
  induction l generalizing slot with
  | nil => simp [resolveFrom]
  | cons c l ih => simp [resolveFrom, ih, Bool.or_assoc]

abbrev Insertions := List (Int × Prioritized)

def Insertions.at (l : Insertions) (terminal : Int) : List Prioritized :=
  l.filterMap fun entry => if entry.1 = terminal then some entry.2 else none

namespace Insertions

@[simp] theorem at_nil (terminal : Int) : Insertions.at [] terminal = [] := rfl

@[simp] theorem at_append (l l' : Insertions) (terminal : Int) :
    Insertions.at (l ++ l') terminal = l.at terminal ++ l'.at terminal :=
  List.filterMap_append

theorem mem_at {l : Insertions} {terminal : Int} {c : Prioritized} :
    c ∈ l.at terminal ↔ (terminal, c) ∈ l := by
  unfold Insertions.at
  rw [List.mem_filterMap]
  constructor
  · intro ⟨entry, mem, same⟩
    split at same
    · rename_i key
      obtain rfl := Option.some.inj same
      rwa [← key]
    · simp at same
  · intro mem
    exact ⟨(terminal, c), mem, by simp⟩

end Insertions

/-- The effect of a sequence of insertions for a state. Apart from them there are warnings if the
    given condition does not hold. -/
structure InsertedAll (n : Int) (l : Insertions) (quiet : Prop) (b b' : BuildState) : Prop where
  slot : ∀ terminal,
    (resolveFrom (b.slot ⟨n, terminal⟩) (l.at terminal)).1 = b'.slot ⟨n, terminal⟩
  other : ∀ key, key.state ≠ n → b'.slot key = b.slot key
  warnings : b.warnings <+: b'.warnings
  silent : b'.warnings = b.warnings ↔ quiet ∧
    ∀ terminal, (resolveFrom (b.slot ⟨n, terminal⟩) (l.at terminal)).2 = false

namespace InsertedAll

variable {n : Int} {l l' : Insertions} {quiet quiet' : Prop} {b b' b'' : BuildState}

theorem of_warnsOnly (only : WarnsOnly b b') (silent : b'.warnings = b.warnings ↔ quiet) :
    InsertedAll n [] quiet b b' where
  slot terminal := by
    rw [BuildState.slot, BuildState.slot, only.actions, only.priorityMap]
    rfl
  other key _ := by rw [BuildState.slot, BuildState.slot, only.actions, only.priorityMap]
  warnings := only.warnings
  silent := by
    rw [silent]
    simp [resolveFrom]

theorem of_inserted {terminal : Int} {action : Action} {priority : Priority} {warned : Bool}
    (h : Inserted ⟨n, terminal⟩ action priority b b' warned) :
    InsertedAll n [(terminal, action, priority)] True b b' where
  slot t := by
    by_cases same : terminal = t
    · subst same
      simp [Insertions.at, resolveFrom, h.slot]
    · have other := h.other ⟨n, t⟩ (by simp [Ne.symm same])
      simp [Insertions.at, same, resolveFrom, other]
  other key other_state := h.other key (by
    intro same
    exact other_state (congrArg ActionKey.state same))
  warnings := h.warnings
  silent := by
    rw [← h.silent, true_and]
    constructor
    · intro quiet t
      by_cases same : terminal = t
      · subst same
        simp [Insertions.at, resolveFrom, h.slot, quiet]
      · simp [Insertions.at, same, resolveFrom]
    · intro all
      have here := all terminal
      simpa [Insertions.at, resolveFrom, h.slot] using here

theorem append (first : InsertedAll n l quiet b b') (second : InsertedAll n l' quiet' b' b'') :
    InsertedAll n (l ++ l') (quiet ∧ quiet') b b'' where
  slot terminal := by
    rw [Insertions.at_append, resolveFrom_append, first.slot, second.slot]
  other key other_state :=
    (second.other key other_state).trans (first.other key other_state)
  warnings := first.warnings.trans second.warnings
  silent := by
    have both : b''.warnings = b.warnings ↔
        b'.warnings = b.warnings ∧ b''.warnings = b'.warnings := by
      constructor
      · intro same
        have down : b'.warnings <+: b.warnings := same ▸ second.warnings
        have eq := down.eq_of_length_le first.warnings.length_le
        exact ⟨eq, same.trans eq.symm⟩
      · intro ⟨eq, eq'⟩
        exact eq'.trans eq
    rw [both, first.silent, second.silent]
    simp only [Insertions.at_append, resolveFrom_append, first.slot, Bool.or_eq_false_iff]
    constructor
    · intro ⟨⟨q, s⟩, q', s'⟩
      exact ⟨⟨q, q'⟩, fun t => ⟨s t, s' t⟩⟩
    · intro ⟨⟨q, q'⟩, all⟩
      exact ⟨⟨q, fun t => (all t).1⟩, q', fun t => (all t).2⟩

theorem congr {r : Prop} (h : InsertedAll n l quiet b b') (same : quiet ↔ r) :
    InsertedAll n l r b b' :=
  ⟨h.slot, h.other, h.warnings, by rw [h.silent, same]⟩

end InsertedAll

/-! The insertions for a state. -/

def shiftInsertions (nodes : List ProductionShiftNode) : Insertions :=
  nodes.filterMap fun shft =>
    if shft.node.type = .Terminal then
      some (shft.node.index, .shift shft.goto_stateidx, shft.priority)
    else none

/-- The reductions with a handle: that of its first production for all terminals of the set. -/
def handleInsertions (input : BuildInput) (state : TransitionState) (follow : Nat) : Insertions :=
  match (completions input.prodlist follow state.unpack).head?, input.fm.content follow with
  | some prod, .ok elems => elems.elems.map fun terminal => (terminal, prod.reduceAction, prod.priority)
  | _, _ => []

/-- The completed productions with a handle are not told apart. -/
def HandleAgrees (input : BuildInput) (state : TransitionState) (follow : Nat) : Prop :=
  ∀ prod, (completions input.prodlist follow state.unpack).head? = some prod →
    ∀ prod' ∈ completions input.prodlist follow state.unpack, prod.Agrees prod'

def reductionInsertions (input : BuildInput) (state : TransitionState) : Insertions :=
  (getReduceFollow input.prodlist state).elems.flatMap (handleInsertions input state)

/-- What is there before the insertions: the accept action has no priority. -/
def acceptSlot (input : BuildInput) (state : TransitionState) (terminal : Int) : Slot :=
  if terminal = 0 ∧ isAcceptState input.prodlist state = true then
    (input.prodlist.head?.map ProductionDef.acceptAction, none)
  else (none, none)

section State

variable {input : BuildInput} {state : TransitionState} {n : Int} {u : Unit} {b b' : BuildState}

theorem insertShift_insertedAll {shft : ProductionShiftNode}
    (h : Returns (insertShift input n state shft) b u b') :
    InsertedAll n (shiftInsertions [shft]) True b b' := by
  unfold insertShift at h
  split at h
  · rename_i terminal
    obtain ⟨warned, inserted⟩ := insertAction_spec h
    simpa [shiftInsertions, terminal] using InsertedAll.of_inserted inserted
  · rename_i nonterminal
    obtain ⟨c, t, hget, h⟩ := Returns.bind_iff.mp h
    obtain ⟨rfl, rfl⟩ := Returns.get_iff.mp hget
    have nothing : shiftInsertions [shft] = [] := by simp [shiftInsertions, nonterminal]
    rw [nothing]
    have tables : ∀ {t : BuildState}, t.actions = b.actions → t.priorityMap = b.priorityMap →
        t.warnings = b.warnings → InsertedAll n [] True b t := by
      intro t actions priorities warnings
      refine ⟨fun terminal => ?_, fun key _ => ?_, ⟨[], by simp [warnings]⟩, ?_⟩
      · simp only [BuildState.slot, actions, priorities]
        rfl
      · rw [BuildState.slot, BuildState.slot, actions, priorities]
      · simp [warnings, resolveFrom]
    cases known : b.gotos.find ⟨n, shft.node.index⟩ with
    | some next =>
      rw [SortedMap.insertNew_of_some known] at h
      simp only at h
      split at h
      · exact absurd (BuildM.lift_iff.mp h).1 (by simp [logicError])
      · obtain ⟨-, rfl⟩ := Returns.pure_iff.mp h
        exact tables rfl rfl rfl
    | none =>
      rw [SortedMap.insertNew_of_none known] at h
      obtain rfl := Returns.modify_iff.mp h
      exact tables rfl rfl rfl

theorem insertShifts_insertedAll {nodes : List ProductionShiftNode}
    (h : Returns (nodes.forM (insertShift input n state)) b u b') :
    InsertedAll n (shiftInsertions nodes) True b b' := by
  refine Returns.forM_invariant (I := fun past s => InsertedAll n (shiftInsertions past) True b s)
    ?_ (.of_warnsOnly (.refl b) (by simp)) h
  intro past shft s s' u _ inv step
  have both := (inv.append (insertShift_insertedAll step)).congr (and_self_iff)
  simpa [shiftInsertions, List.filterMap_append] using both

theorem insertReductions_insertedAll {follow : Nat}
    (h : Returns (insertReductions input n state follow) b u b') :
    InsertedAll n (handleInsertions input state follow) (HandleAgrees input state follow) b b' := by
  obtain ⟨rd, t, reduction, h⟩ := Returns.bind_iff.mp h
  obtain ⟨prod, first, rd_eq, only, silent⟩ := getReductionDef_spec reduction
  obtain ⟨elems, s, lifted, h⟩ := Returns.bind_iff.mp h
  obtain ⟨content, rfl⟩ := BuildM.lift_iff.mp lifted
  have agrees_iff : t.warnings = b.warnings ↔ HandleAgrees input state follow := by
    rw [silent]
    unfold HandleAgrees
    rw [first]
    simp
  have loop := Returns.forM_invariant (I := fun past s => InsertedAll n
    (past.map fun terminal => (terminal, prod.reduceAction, prod.priority)) True t s)
    (fun {past terminal s s' u} _ inv step => by
      rw [rd_eq] at step
      have step : Returns (insertAction input state ⟨n, terminal⟩ prod.reduceAction prod.priority)
        s u s' := step
      obtain ⟨warned, inserted⟩ := insertAction_spec step
      have both := (inv.append (.of_inserted inserted)).congr and_self_iff
      simpa using both) (.of_warnsOnly (.refl t) (by simp)) h
  have both := (InsertedAll.of_warnsOnly (n := n) only agrees_iff).append loop
  simpa [handleInsertions, first, content] using both.congr (and_true _).to_iff

theorem insertAllReductions_insertedAll {follows : List Nat}
    (h : Returns (follows.forM (insertReductions input n state)) b u b') :
    InsertedAll n (follows.flatMap (handleInsertions input state))
      (∀ follow ∈ follows, HandleAgrees input state follow) b b' := by
  refine Returns.forM_invariant (I := fun past s => InsertedAll n
    (past.flatMap (handleInsertions input state))
    (∀ follow ∈ past, HandleAgrees input state follow) b s) ?_
    (.of_warnsOnly (.refl b) (by simp)) h
  intro past follow s s' u _ inv step
  have both := inv.append (insertReductions_insertedAll step)
  rw [List.flatMap_append, List.flatMap_singleton]
  refine both.congr ?_
  simp only [List.mem_append, List.mem_singleton]
  constructor
  · rintro ⟨old, new⟩ x (mem | rfl)
    · exact old x mem
    · exact new
  · intro all
    exact ⟨fun x mem => all x (Or.inl mem), all follow (Or.inr rfl)⟩

theorem insertAccept_slot (fresh : ∀ key, key.state = n → b.slot key = (none, none))
    (h : Returns (insertAccept input.prodlist n state) b u b') :
    (∀ terminal, b'.slot ⟨n, terminal⟩ = acceptSlot input state terminal) ∧
      (∀ key, key.state ≠ n → b'.slot key = b.slot key) ∧ b'.warnings = b.warnings := by
  unfold insertAccept at h
  split at h
  · rename_i accepts
    cases head : input.prodlist.head? with
    | none =>
      rw [head] at h
      exact absurd (BuildM.lift_iff.mp h).1 (by simp)
    | some prod =>
      simp only [head] at h
      split at h
      · exact absurd (BuildM.lift_iff.mp h).1 (by simp [logicError])
      · obtain rfl := Returns.modify_iff.mp h
        refine ⟨?_, ?_, rfl⟩
        · intro terminal
          have before := fresh ⟨n, terminal⟩ rfl
          obtain ⟨none_action, none_priority⟩ := Prod.mk.inj before
          by_cases zero : terminal = 0
          · subst zero
            simpa [acceptSlot, accepts, head, BuildState.slot, ProductionDef.acceptAction] using
              none_priority
          · have other : ¬ (⟨n, 0⟩ : ActionKey) = ⟨n, terminal⟩ := by simp [Ne.symm zero]
            simp only [acceptSlot, zero, false_and, if_false, BuildState.slot, SortedMap.find_set,
              other]
            exact before
        · intro key other_state
          have other : ¬ (⟨n, 0⟩ : ActionKey) = key := by
            intro same
            exact other_state (congrArg ActionKey.state same).symm
          simp [BuildState.slot, SortedMap.find_set, other]
  · rename_i not_accepting
    obtain ⟨-, rfl⟩ := Returns.pure_iff.mp h
    refine ⟨fun terminal => ?_, fun _ _ => rfl, rfl⟩
    rw [fresh ⟨n, terminal⟩ rfl]
    simp [acceptSlot, not_accepting]

/-- What the build writes for a state without entries. -/
structure StateInserted (input : BuildInput) (n : Int) (state : TransitionState)
    (nodes : List ProductionShiftNode) (b b' : BuildState) : Prop where
  shiftNodes : ShiftNodes input state nodes
  slot : ∀ terminal, (resolveFrom (acceptSlot input state terminal)
    ((shiftInsertions nodes).at terminal ++ (reductionInsertions input state).at terminal)).1 =
      b'.slot ⟨n, terminal⟩
  other : ∀ key, key.state ≠ n → b'.slot key = b.slot key
  warnings : b.warnings <+: b'.warnings
  silent : b'.warnings = b.warnings ↔ ShiftsAgree input state nodes ∧
    (∀ follow ∈ (getReduceFollow input.prodlist state).elems, HandleAgrees input state follow) ∧
    ∀ terminal, (resolveFrom (acceptSlot input state terminal)
      ((shiftInsertions nodes).at terminal ++
        (reductionInsertions input state).at terminal)).2 = false

theorem insertState_spec (fresh : ∀ key, key.state = n → b.slot key = (none, none))
    (h : Returns (insertState input (n, state)) b u b') :
    ∃ nodes, StateInserted input n state nodes b b' := by
  obtain ⟨_, b1, accept, h⟩ := Returns.bind_iff.mp h
  obtain ⟨nodes, b2, shift, h⟩ := Returns.bind_iff.mp h
  obtain ⟨_, b3, shifts, reductions⟩ := Returns.bind_iff.mp h
  obtain ⟨accepted, other, quiet⟩ := insertAccept_slot fresh accept
  obtain ⟨only, shiftNodes, agree⟩ := getShiftNodes_spec shift
  have all := ((InsertedAll.of_warnsOnly (n := n) only agree).append
    (insertShifts_insertedAll shifts)).append (insertAllReductions_insertedAll reductions)
  rw [List.nil_append] at all
  refine ⟨nodes, shiftNodes, ?_, ?_, ?_, ?_⟩
  · intro terminal
    have slot := all.slot terminal
    rwa [accepted, Insertions.at_append] at slot
  · intro key other_state
    exact (all.other key other_state).trans (other key other_state)
  · rw [← quiet]
    exact all.warnings
  · rw [← quiet, all.silent]
    simp only [accepted, Insertions.at_append, and_true, and_assoc]
    rfl

end State

/-- The tables filled from nothing: every state has its slots, and the warnings are those of the
    states in their order. -/
theorem fillTables_spec {input : BuildInput} {states : SortedMap Int TransitionState}
    {warnings : List Error} {u : Unit} {b : BuildState}
    (h : Returns (fillTables input states)
      ⟨SortedMap.empty, SortedMap.empty, SortedMap.empty, warnings, 0⟩ u b) :
    ∃ reports : Int → List Error,
      b.warnings = warnings ++ states.entries.flatMap (fun st => reports st.1) ∧
      ∀ st ∈ states.entries, ∃ nodes c c', StateInserted input st.1 st.2 nodes c c' ∧
        (∀ terminal, b.slot ⟨st.1, terminal⟩ = c'.slot ⟨st.1, terminal⟩) ∧
        c'.warnings = c.warnings ++ reports st.1 := by
  obtain ⟨_, t, loop, h⟩ := Returns.bind_iff.mp h
  obtain ⟨c, s, hget, h⟩ := Returns.bind_iff.mp h
  obtain ⟨rfl, rfl⟩ := Returns.get_iff.mp hget
  obtain rfl : t = b := by
    split at h
    · exact absurd (BuildM.lift_iff.mp h).1 (by simp [Grammar.throw])
    · exact (Returns.pure_iff.mp h).2
  clear h hget
  -- every state is inserted once, since the numbers of the states are different
  have general : ∀ {l : List (Int × TransitionState)} {c d : BuildState} {u : Unit},
      (l.map Prod.fst).Pairwise (· < ·) →
      (∀ st ∈ l, ∀ key, key.state = st.1 → c.slot key = (none, none)) →
      Returns (l.forM (insertState input)) c u d →
      (∀ key, (∀ st ∈ l, key.state ≠ st.1) → d.slot key = c.slot key) ∧
      ∃ reports : Int → List Error,
        d.warnings = c.warnings ++ l.flatMap (fun st => reports st.1) ∧
        ∀ st ∈ l, ∃ nodes e e', StateInserted input st.1 st.2 nodes e e' ∧
          (∀ terminal, d.slot ⟨st.1, terminal⟩ = e'.slot ⟨st.1, terminal⟩) ∧
          e'.warnings = e.warnings ++ reports st.1 := by
    intro l
    induction l with
    | nil =>
      intro c d u _ _ loop
      obtain ⟨-, rfl⟩ := Returns.pure_iff.mp loop
      exact ⟨fun _ _ => rfl, fun _ => [], by simp, by simp⟩
    | cons st l ih =>
      intro c d u sorted fresh loop
      obtain ⟨_, mid, first, rest⟩ := Returns.bind_iff.mp loop
      obtain ⟨above, sorted⟩ := List.pairwise_cons.mp sorted
      have different : ∀ st' ∈ l, st'.1 ≠ st.1 := by
        intro st' mem
        exact ne_of_gt (above st'.1 (List.mem_map.mpr ⟨st', mem, rfl⟩))
      obtain ⟨nodes, inserted⟩ := insertState_spec (fresh st List.mem_cons_self) first
      have fresh' : ∀ st' ∈ l, ∀ key, key.state = st'.1 → mid.slot key = (none, none) := by
        intro st' mem key same
        rw [inserted.other key (same ▸ different st' mem)]
        exact fresh st' (List.mem_cons_of_mem st mem) key same
      obtain ⟨other, reports, later, all⟩ := ih sorted fresh' rest
      obtain ⟨report, here⟩ := inserted.warnings
      have mine : Function.update reports st.1 report st.1 = report := Function.update_self ..
      have theirs : ∀ st' ∈ l, Function.update reports st.1 report st'.1 = reports st'.1 :=
        fun st' mem => Function.update_of_ne (different st' mem) ..
      refine ⟨?_, Function.update reports st.1 report, ?_, ?_⟩
      · intro key away
        rw [other key fun st' mem => away st' (List.mem_cons_of_mem st mem),
          inserted.other key (away st List.mem_cons_self)]
      · rw [List.flatMap_cons, mine, List.flatMap_congr theirs, later, ← here, List.append_assoc]
      · intro st' mem
        rcases List.mem_cons.mp mem with rfl | mem
        · refine ⟨nodes, c, mid, inserted, ?_, ?_⟩
          · intro terminal
            exact other ⟨st'.1, terminal⟩ fun st'' mem => Ne.symm (different st'' mem)
          · rw [mine, here]
        · rw [theirs st' mem]
          exact all st' mem
  exact (general states.sorted (by simp [BuildState.slot]) loop).2

end Mewa
