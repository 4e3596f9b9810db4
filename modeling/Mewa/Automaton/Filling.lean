/- Module: Mewa/Automaton/Filling
   digest: The filling of the tables always ends, and it has a goto for every nonterminal. -/

import Mewa.Automaton.Entries
import Mewa.Lib.Result

set_option autoImplicit false
set_option relaxedAutoImplicit false

namespace Mewa

open Mewa.Lib

/-- What the filling of the tables needs of a state: its items are those of productions with known
    sets and names, and there is a state behind every node. -/
structure Fillable (input : BuildInput) (state : TransitionState) : Prop where
  bound : ∀ item ∈ state.unpack, item.prodindex < input.prodlist.length
  content : ∀ item ∈ state.unpack, ∃ elems, input.fm.content item.follow = .ok elems ∧
    ∀ t ∈ elems, ∃ name, getLexemName input.lexer t = .ok name
  shifts : ∀ item ∈ state.unpack, ∀ node, nodeOf input.prodlist item = some node →
    node.type ≠ .Unresolved ∧
    (∃ next, gotoNumber input.gotoMap (successors input.prodlist state.unpack node) = some next) ∧
    (node.type = .Terminal → ∃ name, getLexemName input.lexer node.index = .ok name)

namespace BuildM

theorem lift_completes {α : Type} {x : Except Failure α} (returns : ∃ a, x = .ok a)
    (b : BuildState) : Completes (lift x) b := by
  obtain ⟨a, here⟩ := returns
  exact ⟨a, b, lift_iff.mpr ⟨here, rfl⟩⟩

theorem warn_completes (code : ErrorCode) (arg : String) (b : BuildState) :
    Completes (warn code arg) b := Completes.modify _

end BuildM

open BuildM

section Fill

variable {input : BuildInput} {state : TransitionState} {n : Int} {b : BuildState}

/-! The texts of the warnings. -/

theorem follow2String_ok {follow : Nat} {elems : FlatSet Int}
    (content : input.fm.content follow = .ok elems)
    (named : ∀ t ∈ elems, ∃ name, getLexemName input.lexer t = .ok name) :
    ∃ text, input.fm.follow2String follow input.lexer = .ok text := by
  have names : FailsWith (fun _ => False) (elems.elems.mapM (getLexemName input.lexer)) := by
    apply FailsWith.mapM
    intro t mem
    obtain ⟨name, here⟩ := named t mem
    rw [here]
    exact FailsWith.ok name
  obtain ⟨texts, mapped⟩ := names.exists_ok
  unfold FollowMap.follow2String
  rw [content, ok_bind, mapped]
  exact ⟨_, rfl⟩

theorem describeItem_ok (fill : Fillable input state) {item : TransitionItem}
    (mem : item ∈ state.unpack) (terminal : Int) (text : TransitionText) :
    ∃ text', describeItem input.prodlist input.fm terminal text item = .ok text' := by
  have at_index := List.getElem?_eq_getElem (fill.bound item mem)
  unfold describeItem
  simp only [at_index]
  split
  · exact ⟨_, rfl⟩
  · obtain ⟨elems, content, -⟩ := fill.content item mem
    rw [content]
    exact ⟨_, rfl⟩

theorem getStateTransitionString_ok (fill : Fillable input state) {terminal : Int}
    (named : ∃ name, getLexemName input.lexer terminal = .ok name) :
    ∃ text, getStateTransitionString input.prodlist input.lexer input.fm state terminal =
      .ok text := by
  have items : FailsWith (fun _ => False)
      (state.unpack.foldlM (describeItem input.prodlist input.fm terminal) {}) := by
    apply FailsWith.foldlM
    intro text item mem
    obtain ⟨text', here⟩ := describeItem_ok fill mem terminal text
    rw [here]
    exact FailsWith.ok text'
  obtain ⟨text, folded⟩ := items.exists_ok
  obtain ⟨name, here⟩ := named
  unfold getStateTransitionString
  rw [folded, ok_bind, here]
  simp only [ok_bind]
  split_ifs <;> exact ⟨_, rfl⟩

theorem warnConflict_completes (fill : Fillable input state) {terminal : Int}
    (named : ∃ name, getLexemName input.lexer terminal = .ok name) (code : ErrorCode) :
    Completes (warnConflict input state code terminal) b := by
  unfold warnConflict
  apply (lift_completes (getStateTransitionString_ok fill named) b).bind
  intro text t _
  exact warn_completes code text t

/-! The parts of the loop. -/

theorem insertAction_completes (fill : Fillable input state) {key : ActionKey}
    (named : ∃ name, getLexemName input.lexer key.terminal = .ok name) (action : Action)
    (priority : Priority) : Completes (insertAction input state key action priority) b := by
  have warned (code : ErrorCode) : Completes (warnConflict input state code key.terminal) b :=
    warnConflict_completes fill named code
  have stored : Completes (setAction key action priority) b := Completes.modify _
  unfold insertAction
  apply Completes.bind ⟨b, b, Returns.get_iff.mpr ⟨rfl, rfl⟩⟩
  intro c t here
  obtain ⟨rfl, rfl⟩ := Returns.get_iff.mp here
  split
  · exact stored
  · exact Completes.modify _
  · split
    · split
      · exact warned _
      · exact Completes.pure _
    · split
      · exact warned _
      · split
        · exact stored
        · split
          · split
            · exact warned _
            · split
              · split
                · exact stored
                · exact Completes.pure _
              · split
                · exact stored
                · exact Completes.pure _
          · exact Completes.pure _

theorem insertAccept_completes {prod : ProductionDef} (first : input.prodlist.head? = some prod)
    (index : prod.left.index = 1) : Completes (insertAccept input.prodlist n state) b := by
  unfold insertAccept
  split
  · simp only [first, index, ne_eq, not_true_eq_false, if_false]
    exact Completes.modify _
  · exact Completes.pure _

theorem collectShift_completes {item : TransitionItem}
    (bound : item.prodindex < input.prodlist.length) (maps : ShiftMaps) :
    Completes (collectShift input.prodlist maps item) b := by
  have at_index := List.getElem?_eq_getElem bound
  unfold collectShift
  simp only [at_index]
  split
  · exact Completes.pure _
  · split
    · split
      · exact Completes.pure _
      · split
        · apply (warn_completes _ _ b).bind
          intro _ t _
          exact Completes.pure _
        · exact Completes.pure _
    · exact Completes.pure _

theorem getShiftNodes_completes (fill : Fillable input state) :
    Completes (getShiftNodes input state) b := by
  have start : ShiftMaps.Collected input.prodlist []
      ((SortedMap.empty, SortedMap.empty) : ShiftMaps) := ⟨by simp, by simp, by simp, by simp⟩
  unfold getShiftNodes
  apply Completes.bind
  · apply Completes.foldlM (fun past (maps : ShiftMaps) _ => maps.Collected input.prodlist past) _
      start
    intro past item maps s within inv
    have mem : item ∈ state.unpack := within.subset (by simp)
    refine ⟨collectShift_completes (fill.bound item mem) maps, ?_⟩
    intro maps' s' step
    exact (collectShift_spec inv step).collected
  · intro maps t collect
    have collected := Returns.foldlM_invariant
      (I := fun past (maps : ShiftMaps) _ => maps.Collected input.prodlist past)
      (fun _ inv step => (collectShift_spec inv step).collected) start collect
    apply lift_completes
    apply FailsWith.exists_ok
    apply FailsWith.mapM
    intro entry mem
    obtain ⟨⟨item, here, node⟩, kernel⟩ := collected.found (SortedMap.find_eq_some.mpr mem)
    obtain ⟨-, ⟨next, number⟩, -⟩ := fill.shifts item here entry.1 node
    unfold shiftNode
    rw [kernel, number]
    simp only
    split
    · rename_i terminal
      obtain ⟨priority, found⟩ := collected.prioritized here node terminal
      rw [found]
      exact FailsWith.ok _
    · exact FailsWith.ok _

theorem insertShift_completes {states : SortedMap Int TransitionState}
    (fill : Fillable input state) (found : states.find n = some state)
    {nodes : List ProductionShiftNode} (shiftNodes : ShiftNodes input state nodes)
    {shft : ProductionShiftNode} (in_nodes : shft ∈ nodes)
    (sound : Sound input states.entries b) : Completes (insertShift input n state shft) b := by
  obtain ⟨⟨item, here, node⟩, number⟩ := shiftNodes.sound shft in_nodes
  obtain ⟨resolved, -, named⟩ := fill.shifts item here shft.node node
  unfold insertShift
  split
  · rename_i terminal
    exact insertAction_completes fill (named terminal) _ _
  · rename_i nonterminal
    apply Completes.bind ⟨b, b, Returns.get_iff.mpr ⟨rfl, rfl⟩⟩
    intro c t same
    obtain ⟨rfl, rfl⟩ := Returns.get_iff.mp same
    cases known : b.gotos.find ⟨n, shft.node.index⟩ with
    | none =>
      rw [SortedMap.insertNew_of_none known]
      exact Completes.modify _
    | some next =>
      rw [SortedMap.insertNew_of_some known]
      -- an entry that is there comes from the same node, since nodes have their types
      obtain ⟨st, mem, node', nonterminal', index, ⟨item', here', at_item⟩, number'⟩ :=
        sound.gotos _ next known
      obtain rfl : state = st :=
        Option.some.inj (found.symm.trans (SortedMap.find_eq_some.mpr mem))
      obtain ⟨resolved', -, -⟩ := fill.shifts item' here' node' at_item
      have kind {nd : ProductionNode} (resolved : nd.type ≠ .Unresolved)
          (not_terminal : nd.type ≠ .Terminal) : nd.type = .NonTerminal := by
        cases type : nd.type with
        | Unresolved => exact absurd type resolved
        | NonTerminal => rfl
        | Terminal => exact absurd type not_terminal
      have same : node' = shft.node := by
        apply ProductionNode.ext
        · rw [kind resolved' nonterminal', kind resolved nonterminal]
        · exact index
      rw [same, number] at number'
      obtain rfl := Option.some.inj number'
      simp only [ne_eq, not_true_eq_false, if_false]
      exact Completes.pure _

theorem collectReduction_completes (fill : Fillable input state) {item : TransitionItem}
    (mem : item ∈ state.unpack) (follow : Nat) (rt : Option (ReductionDef × ProductionDef)) :
    Completes (collectReduction input follow rt item) b := by
  have warned (code : ErrorCode) (text : String → String) (same : item.follow = follow)
      (result : Option (ReductionDef × ProductionDef)) : Completes (do
        let followstr ← BuildM.lift (input.fm.follow2String follow input.lexer)
        BuildM.warn code (text followstr)
        pure result) b := by
    obtain ⟨elems, content, named⟩ := fill.content item mem
    apply (lift_completes (follow2String_ok (same ▸ content) named) b).bind
    intro followstr t _
    apply (warn_completes code (text followstr) t).bind
    intro _ t' _
    exact Completes.pure _
  unfold collectReduction
  split
  · exact Completes.pure _
  · split
    · exact Completes.pure _
    · rename_i same
      have same : item.follow = follow := not_not.mp same
      split
      · exact Completes.pure _
      · split
        · exact warned _ _ same _
        · split
          · exact warned _ _ same _
          · exact Completes.pure _

theorem getReductionDef_completes (fill : Fillable input state) {follow : Nat}
    (some_prod : completions input.prodlist follow state.unpack ≠ []) :
    Completes (getReductionDef input state follow) b := by
  have start : ReductionFound input follow [] none b b := ⟨.refl b, rfl, by simp, by simp⟩
  unfold getReductionDef
  apply Completes.bind
  · apply Completes.foldlM (fun past rt s => ReductionFound input follow past rt b s) _ start
    intro past item rt s within inv
    refine ⟨collectReduction_completes fill (within.subset (by simp)) follow rt, ?_⟩
    intro rt' s' step
    exact collectReduction_spec inv step
  · intro rt t collect
    have found := Returns.foldlM_invariant
      (I := fun past rt s => ReductionFound input follow past rt b s)
      (fun _ inv step => collectReduction_spec inv step) start collect
    cases rt with
    | none =>
      have nothing : completions input.prodlist follow state.unpack = [] := by
        simpa using found.first
      exact absurd nothing some_prod
    | some pair => exact Completes.pure _

theorem insertReductions_completes (fill : Fillable input state) {follow : Nat}
    (some_prod : completions input.prodlist follow state.unpack ≠ []) :
    Completes (insertReductions input n state follow) b := by
  obtain ⟨prod, inside⟩ := List.exists_mem_of_ne_nil _ some_prod
  obtain ⟨item, mem, rfl, -⟩ := mem_completions.mp inside
  obtain ⟨elems, content, named⟩ := fill.content item mem
  unfold insertReductions
  apply (getReductionDef_completes fill some_prod).bind
  intro rd t _
  apply (lift_completes ⟨elems, content⟩ t).bind
  intro terminals t' lifted
  obtain ⟨same, -⟩ := lift_iff.mp lifted
  obtain rfl := Except.ok.inj (content.symm.trans same)
  apply Completes.forM (fun _ _ => True) _ trivial
  intro past terminal s within _
  refine ⟨insertAction_completes fill (named terminal (within.subset (by simp))) _ _, ?_⟩
  intro _ _ _
  trivial

/-- Gotos stay, and accept states are counted up. -/
structure Grows (b b' : BuildState) : Prop where
  gotos : ∀ key next, b.gotos.find key = some next → b'.gotos.find key = some next
  nofAcceptStates : b.nofAcceptStates ≤ b'.nofAcceptStates

theorem Grows.refl (b : BuildState) : Grows b b := ⟨fun _ _ found => found, le_refl _⟩

theorem Grows.trans {b b' b'' : BuildState} (first : Grows b b') (second : Grows b' b'') :
    Grows b b'' where
  gotos key next found := second.gotos key next (first.gotos key next found)
  nofAcceptStates := first.nofAcceptStates.trans second.nofAcceptStates

theorem Grows.of_eq {b b' : BuildState} (gotos : b'.gotos = b.gotos)
    (nofAcceptStates : b'.nofAcceptStates = b.nofAcceptStates) : Grows b b' where
  gotos key next found := by rwa [gotos]
  nofAcceptStates := nofAcceptStates.ge

variable {b' : BuildState} {u : Unit}

theorem insertAction_grows {key : ActionKey} {action : Action} {priority : Priority}
    (h : Returns (insertAction input state key action priority) b u b') : Grows b b' := by
  obtain ⟨warned, inserted⟩ := insertAction_spec h
  exact .of_eq inserted.gotos inserted.nofAcceptStates

theorem insertAccept_grows (h : Returns (insertAccept input.prodlist n state) b u b') :
    Grows b b' ∧ (isAcceptState input.prodlist state = true → b'.nofAcceptStates ≠ 0) := by
  unfold insertAccept at h
  split at h
  · split at h
    · exact absurd (lift_iff.mp h).1 (by simp)
    · split at h
      · exact absurd (lift_iff.mp h).1 (by simp [logicError])
      · obtain rfl := Returns.modify_iff.mp h
        exact ⟨⟨fun _ _ found => found, Nat.le_succ _⟩, fun _ => Nat.succ_ne_zero _⟩
  · rename_i not_accepting
    obtain ⟨-, rfl⟩ := Returns.pure_iff.mp h
    exact ⟨.refl b, fun accepting => absurd accepting not_accepting⟩

theorem insertShift_grows {shft : ProductionShiftNode}
    (h : Returns (insertShift input n state shft) b u b') :
    Grows b b' ∧ (shft.node.type ≠ .Terminal →
      b'.gotos.find ⟨n, shft.node.index⟩ = some shft.goto_stateidx) := by
  unfold insertShift at h
  split at h
  · rename_i terminal
    exact ⟨insertAction_grows h, fun nonterminal => absurd terminal nonterminal⟩
  · obtain ⟨c, t, same, h⟩ := Returns.bind_iff.mp h
    obtain ⟨rfl, rfl⟩ := Returns.get_iff.mp same
    cases known : b.gotos.find ⟨n, shft.node.index⟩ with
    | some next =>
      rw [SortedMap.insertNew_of_some known] at h
      simp only at h
      split at h
      · exact absurd (lift_iff.mp h).1 (by simp [logicError])
      · rename_i same
        obtain ⟨-, rfl⟩ := Returns.pure_iff.mp h
        exact ⟨.refl b, fun _ => by rw [known, not_not.mp same]⟩
    | none =>
      rw [SortedMap.insertNew_of_none known] at h
      obtain rfl := Returns.modify_iff.mp h
      refine ⟨⟨fun key next found => ?_, le_refl _⟩, fun _ => SortedMap.find_set_self _ _ _⟩
      show (b.gotos.set _ _).find key = some next
      rw [SortedMap.find_set, if_neg]
      · exact found
      · rintro rfl
        rw [known] at found
        cases found

theorem insertReductions_grows {follow : Nat}
    (h : Returns (insertReductions input n state follow) b u b') : Grows b b' := by
  obtain ⟨rd, t, reduction, h⟩ := Returns.bind_iff.mp h
  obtain ⟨prod, -, -, only, -⟩ := getReductionDef_spec reduction
  obtain ⟨elems, s, lifted, h⟩ := Returns.bind_iff.mp h
  obtain ⟨-, rfl⟩ := lift_iff.mp lifted
  exact Returns.forM_invariant (I := fun _ s => Grows b s)
    (fun _ inv step => inv.trans (insertAction_grows step))
    (.of_eq only.gotos only.nofAcceptStates) h

def GotosOf (input : BuildInput) (n : Int) (state : TransitionState) (b : BuildState) : Prop :=
  ∀ item ∈ state.unpack, ∀ node, nodeOf input.prodlist item = some node →
    node.type ≠ .Terminal → ∃ next,
      gotoNumber input.gotoMap (successors input.prodlist state.unpack node) = some next ∧
      b.gotos.find ⟨n, node.index⟩ = some next

theorem GotosOf.mono (gotos : GotosOf input n state b) (grows : Grows b b') :
    GotosOf input n state b' := by
  intro item mem node at_item nonterminal
  obtain ⟨next, number, found⟩ := gotos item mem node at_item nonterminal
  exact ⟨next, number, grows.gotos _ _ found⟩

theorem insertState_grows (h : Returns (insertState input (n, state)) b u b') :
    Grows b b' ∧ (isAcceptState input.prodlist state = true → b'.nofAcceptStates ≠ 0) ∧
      GotosOf input n state b' := by
  obtain ⟨_, b1, accept, h⟩ := Returns.bind_iff.mp h
  obtain ⟨nodes, b2, shift, h⟩ := Returns.bind_iff.mp h
  obtain ⟨_, b3, shifts, reductions⟩ := Returns.bind_iff.mp h
  obtain ⟨grows1, counted⟩ := insertAccept_grows accept
  obtain ⟨only, shiftNodes, -⟩ := getShiftNodes_spec shift
  obtain ⟨grows3, entered⟩ := Returns.forM_invariant
    (I := fun past s => Grows b2 s ∧ ∀ shft ∈ past, shft.node.type ≠ .Terminal →
      s.gotos.find ⟨n, shft.node.index⟩ = some shft.goto_stateidx)
    (fun {past shft s s' u} _ inv step => by
      obtain ⟨grows, entered⟩ := inv
      obtain ⟨more, here⟩ := insertShift_grows step
      refine ⟨grows.trans more, fun x mem nonterminal => ?_⟩
      rcases List.mem_append.mp mem with old | new
      · exact more.gotos _ _ (entered x old nonterminal)
      · obtain rfl := List.mem_singleton.mp new
        exact here nonterminal) ⟨.refl b2, by simp⟩ shifts
  have grows4 : Grows b3 b' := Returns.forM_invariant (I := fun _ s => Grows b3 s)
    (fun _ inv step => inv.trans (insertReductions_grows step)) (.refl b3) reductions
  have later : Grows b1 b' :=
    ((Grows.of_eq only.gotos only.nofAcceptStates).trans grows3).trans grows4
  refine ⟨grows1.trans later, fun accepting => ?_, ?_⟩
  · have before := counted accepting
    have after := later.nofAcceptStates
    omega
  · intro item mem node at_item nonterminal
    obtain ⟨shft, in_nodes, rfl⟩ := shiftNodes.complete item mem node at_item
    exact ⟨shft.goto_stateidx, (shiftNodes.sound shft in_nodes).2,
      grows4.gotos _ _ (entered shft in_nodes nonterminal)⟩

theorem insertState_completes {states : SortedMap Int TransitionState} {prod : ProductionDef}
    (first : input.prodlist.head? = some prod) (index : prod.left.index = 1)
    (fill : Fillable input state) (found : states.find n = some state)
    (sound : Sound input states.entries b) : Completes (insertState input (n, state)) b := by
  have mem := SortedMap.find_eq_some.mp found
  unfold insertState
  apply (insertAccept_completes first index).bind
  intro _ b1 accept
  have sound1 := sound.insertAccept mem accept
  apply (getShiftNodes_completes fill).bind
  intro nodes b2 shift
  obtain ⟨only, shiftNodes, -⟩ := getShiftNodes_spec shift
  have sound2 := sound1.of_warnsOnly only
  apply Completes.bind
  · apply Completes.forM (fun _ s => Sound input states.entries s) _ sound2
    intro past shft s within inv
    have in_nodes : shft ∈ nodes := within.subset (by simp)
    exact ⟨insertShift_completes fill found shiftNodes in_nodes inv,
      fun _ _ step => inv.insertShift mem shiftNodes in_nodes step⟩
  · intro _ b3 shifts
    apply Completes.forM (fun _ _ => True) _ trivial
    intro past follow s within _
    have in_follow : follow ∈ getReduceFollow input.prodlist state := within.subset (by simp)
    refine ⟨insertReductions_completes fill ?_, fun _ _ _ => trivial⟩
    obtain ⟨item, mem_item, rfl⟩ := List.mem_map.mp (SortedSet.mem_ofList.mp in_follow)
    obtain ⟨here, completed⟩ := List.mem_filter.mp mem_item
    obtain ⟨prod', completed⟩ := Option.isSome_iff_exists.mp completed
    exact List.ne_nil_of_mem (mem_completions.mpr ⟨item, here, rfl, completed⟩)

theorem fillTables_completes {states : SortedMap Int TransitionState} {prod : ProductionDef}
    (first : input.prodlist.head? = some prod) (index : prod.left.index = 1)
    (fill : ∀ n state, states.find n = some state → Fillable input state)
    (accepts : ∃ st ∈ states.entries, isAcceptState input.prodlist st.2 = true)
    (warnings : List Error) : Completes (fillTables input states)
      ⟨SortedMap.empty, SortedMap.empty, SortedMap.empty, warnings, 0⟩ := by
  unfold fillTables
  apply Completes.bind
  · apply Completes.forM (fun _ s => Sound input states.entries s) _ ⟨by simp, by simp⟩
    intro past st s within inv
    have mem : st ∈ states.entries := within.subset (by simp)
    have found := SortedMap.find_eq_some.mpr mem
    exact ⟨insertState_completes first index (fill _ _ found) found inv,
      fun _ _ step => inv.insertState mem step⟩
  · intro _ t loop
    have counted := Returns.forM_invariant
      (I := fun past s => (∃ st ∈ past, isAcceptState input.prodlist st.2 = true) →
        s.nofAcceptStates ≠ 0)
      (fun {past st s s' u} _ inv step => by
        obtain ⟨grows, here, -⟩ := insertState_grows step
        rintro ⟨x, mem, accepting⟩
        rcases List.mem_append.mp mem with old | new
        · have before := inv ⟨x, old, accepting⟩
          have after := grows.nofAcceptStates
          omega
        · obtain rfl := List.mem_singleton.mp new
          exact here accepting) (by simp) loop
    apply Completes.bind ⟨t, t, Returns.get_iff.mpr ⟨rfl, rfl⟩⟩
    intro c s same
    obtain ⟨rfl, rfl⟩ := Returns.get_iff.mp same
    rw [if_neg (counted accepts)]
    exact Completes.pure _

theorem fillTables_gotos {states : SortedMap Int TransitionState} {start : BuildState}
    (h : Returns (fillTables input states) start u b) :
    ∀ n state, states.find n = some state → GotosOf input n state b := by
  obtain ⟨_, t, loop, h⟩ := Returns.bind_iff.mp h
  obtain ⟨c, s, same, h⟩ := Returns.bind_iff.mp h
  obtain ⟨rfl, rfl⟩ := Returns.get_iff.mp same
  have all := Returns.forM_invariant
    (I := fun past s => ∀ st ∈ past, GotosOf input st.1 st.2 s)
    (fun {past st s s' u} _ inv step => by
      obtain ⟨grows, -, here⟩ := insertState_grows step
      intro x mem
      rcases List.mem_append.mp mem with old | new
      · exact (inv x old).mono grows
      · obtain rfl := List.mem_singleton.mp new
        exact here) (by simp) loop
  intro n state found
  have here := all (n, state) (SortedMap.find_eq_some.mp found)
  split at h
  · exact absurd (lift_iff.mp h).1 (by simp [Grammar.throw])
  · obtain ⟨-, rfl⟩ := Returns.pure_iff.mp h
    exact here

end Fill

end Mewa
