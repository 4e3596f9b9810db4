/- Module: Mewa/Automaton/Accepting
   digest: The completed start production is accepted. There is no entry that reduces it. -/

import Mewa.Automaton.Quiet

set_option autoImplicit false
set_option relaxedAutoImplicit false

namespace Mewa

open Mewa.Lib

theorem head_filterMap {α β : Type} {key : α → Nat} {f : α → Option β} {l : List α}
    (order : l.Pairwise fun a b => key a ≤ key b) {x : α} {y : β} (mem : x ∈ l)
    (image : f x = some y) : ∃ x' ∈ l, key x' ≤ key x ∧ ∃ y', f x' = some y' ∧
      (l.filterMap f).head? = some y' := by
  induction l with
  | nil => cases mem
  | cons a l ih =>
    obtain ⟨above, order⟩ := List.pairwise_cons.mp order
    have below : key a ≤ key x := by
      rcases List.mem_cons.mp mem with rfl | later
      · exact le_refl _
      · exact above x later
    cases here : f a with
    | some y' => exact ⟨a, List.mem_cons_self, below, y', here, by simp [here]⟩
    | none =>
      rcases List.mem_cons.mp mem with rfl | later
      · rw [here] at image
        cases image
      · obtain ⟨x', mem', le, y', image', head⟩ := ih order later
        exact ⟨x', List.mem_cons_of_mem a mem', le, y', image', by simpa [here] using head⟩

theorem resolveFrom_action (slot : Slot) (l : List Prioritized) :
    (resolveFrom slot l).1.1 = slot.1 ∨ ∃ c ∈ l, (resolveFrom slot l).1.1 = some c.1 := by
  induction l generalizing slot with
  | nil => exact Or.inl rfl
  | cons c l ih =>
    rcases ih (slotStep c.1 c.2 slot).1 with same | ⟨c', mem, same⟩
    · rcases slotStep_action c.1 c.2 slot with before | new
      · exact Or.inl (same.trans before)
      · exact Or.inr ⟨c, List.mem_cons_self, same.trans new⟩
    · exact Or.inr ⟨c', List.mem_cons_of_mem c mem, same⟩

section Exact

variable {prodlist : List ProductionDef} {lexer : Lexer} {h : WellFormed prodlist lexer}
  {lalr : LalrStates} {γ : List (Symbol Int Int)} {st : TransitionState} {n : Int}

theorem start_of_index (h : WellFormed prodlist lexer) {i : Nat} {prod : ProductionDef}
    (at_index : prodlist[i]? = some prod) (index : prod.left.index = 1) :
    i = 0 ∧ prodlist.head? = some prod := by
  obtain rfl := h.unique i prod at_index index
  exact ⟨rfl, by rw [List.head?_eq_getElem?, at_index]⟩

theorem content_zero (exact : lalr.Exact h) :
    ∃ elems, lalr.fm.content 0 = .ok elems ∧ (0 : Int) ∈ elems :=
  ⟨_, exact.usable.sound.content_iff.mpr exact.usable.sound.zero, by simp⟩

theorem groupsAt_accept (exact : lalr.Exact h) (lr1 : Lr1State h lalr.fm γ st)
    {start : ProductionDef} (first : prodlist.head? = some start)
    (accepts : isAcceptState prodlist st = true) :
    ∃ rest, headsOf (groupsAt ⟨prodlist, lexer, lalr.fm, lalr.gotoMap⟩ st 0) =
      start.prioritized :: rest ∧ ∀ c ∈ rest, c.1 ≠ start.reduceAction := by
  have index_one : start.left.index = 1 := by
    obtain ⟨prod, at_zero, index⟩ := h.first
    rw [List.head?_eq_getElem?, at_zero] at first
    rw [← Option.some.inj first, index]
  obtain ⟨item, here, item_zero⟩ := List.any_eq_true.mp accepts
  rw [first] at item_zero
  obtain ⟨zeros, whole⟩ := (Bool.and_eq_true _ _).mp item_zero
  obtain ⟨index, follow⟩ := of_decide_eq_true zeros
  have whole : item.prodpos = start.right.length := of_decide_eq_true whole
  have completed : completedOf prodlist item = some start := by
    unfold completedOf
    rw [index, ← List.head?_eq_getElem?, first]
    simp [whole]
  -- an item of a production with the left side of the start is one of the start production
  have start_item {x : TransitionItem} {prod : ProductionDef}
      (done : completedOf prodlist x = some prod) (one : prod.left.index = 1) :
      x.prodindex = 0 ∧ prod = start := by
    unfold completedOf at done
    obtain ⟨at_index, -⟩ := Option.filter_eq_some_iff.mp done
    obtain ⟨zero, head⟩ := start_of_index h at_index one
    exact ⟨zero, Option.some.inj (head.symm.trans first)⟩
  have in_follow : (0 : Nat) ∈ getReduceFollow prodlist st := by
    apply SortedSet.mem_ofList.mpr
    exact List.mem_map.mpr ⟨item, List.mem_filter.mpr ⟨here, by rw [completed]; rfl⟩, follow⟩
  obtain ⟨follows, elems_eq⟩ : ∃ follows, (getReduceFollow prodlist st).elems = 0 :: follows := by
    cases elems : (getReduceFollow prodlist st).elems with
    | nil =>
      have inside := SortedSet.mem_def.mp in_follow
      rw [elems] at inside
      cases inside
    | cons a follows =>
      have inside := SortedSet.mem_def.mp in_follow
      have sorted := (getReduceFollow prodlist st).sorted
      rw [elems] at inside sorted
      obtain ⟨above, -⟩ := List.pairwise_cons.mp sorted
      refine ⟨follows, ?_⟩
      rcases List.mem_cons.mp inside with zero | later
      · rw [← zero]
      · have less := above 0 later
        omega
  obtain ⟨elems, content, contains⟩ := content_zero exact
  have in_zero : InFollow ⟨prodlist, lexer, lalr.fm, lalr.gotoMap⟩ 0 0 = true := by
    have content : (⟨prodlist, lexer, lalr.fm, lalr.gotoMap⟩ : BuildInput).fm.content 0 =
        .ok elems := content
    unfold InFollow
    rw [content]
    exact decide_eq_true contains
  obtain ⟨x, mem_x, le, prod, image, head⟩ := head_filterMap
    (f := fun x : TransitionItem => if x.follow = 0 then completedOf prodlist x else none)
    (y := start) (inOrder_unpack st) here (by rw [if_pos follow, completed])
  have first_zero : x.prodindex = 0 := by
    have fits : x.prodpos < 16 := (TransitionState.mem_unpack.mp mem_x).1.1
    have fits' : item.prodpos < 16 := (TransitionState.mem_unpack.mp here).1.1
    unfold TransitionItem.place at le
    omega
  have prod_eq : prod = start := by
    split at image
    · unfold completedOf at image
      obtain ⟨at_index, -⟩ := Option.filter_eq_some_iff.mp image
      rw [first_zero, ← List.head?_eq_getElem?, first] at at_index
      exact (Option.some.inj at_index).symm
    · cases image
  subst prod_eq
  unfold groupsAt headsOf
  rw [show (getReduceFollow (BuildInput.prodlist ⟨prodlist, lexer, lalr.fm, lalr.gotoMap⟩) st).elems =
    0 :: follows from elems_eq, List.filter_cons, if_pos in_zero, List.map_cons,
    List.filterMap_cons_some (b := prod.prioritized) (by
      have head : (completions prodlist 0 st.unpack).head? = some prod := head
      rw [head]
      rfl)]
  refine ⟨_, rfl, ?_⟩
  intro c mem same
  obtain ⟨group, in_groups, group_head⟩ := List.mem_filterMap.mp mem
  obtain ⟨prod', head', rfl⟩ := Option.map_eq_some_iff.mp group_head
  obtain ⟨follow', in_filter, rfl⟩ := List.mem_map.mp in_groups
  obtain ⟨x', mem_x', follow_eq, done⟩ := mem_completions.mp (List.mem_of_mem_head? head')
  have one : prod'.left.index = 1 := by
    have value : prod'.left.index = prod.left.index := congrArg Action.value same
    rw [value, index_one]
  have zero := start_follow exact lr1 mem_x' (start_item done one).1
  have sorted := (getReduceFollow prodlist st).sorted
  rw [elems_eq] at sorted
  have less := (List.pairwise_cons.mp sorted).1 follow' (List.mem_filter.mp in_filter).1
  omega

end Exact

theorem start_not_reduced {engine : PatternEngine} {source : GrammarSource}
    {langdef : LanguageDef} {lalr : LalrStates} {fuel : Nat}
    {order : HashOrder (TransitionState × Int)} {warnings warnings' : List Error}
    {automaton : Automaton} {b : BuildState}
    (built : Built fuel engine order source warnings automaton warnings' langdef lalr b)
    (fit : FollowSetsFit langdef.prodlist) {start : ProductionDef}
    (first : langdef.prodlist.head? = some start) (key : ActionKey) :
    automaton.actions.find key ≠ some start.reduceAction := by
  have wf := wellFormed_of_parseLanguageDef built.parsed
  have exact := built.exact fit
  intro stored
  rw [built.actions] at stored
  obtain ⟨st, mem, candidate⟩ := built.sound.actions key _ stored
  have found := SortedMap.find_eq_some.mpr mem
  obtain ⟨γ, lr1⟩ := exact.exists_prefix found
  have index_one : start.left.index = 1 := by
    obtain ⟨prod, at_zero, index⟩ := wf.first
    rw [List.head?_eq_getElem?, at_zero] at first
    rw [← Option.some.inj first, index]
  -- the entry can only be one at the end of the input in an accept state
  obtain ⟨zero, accepts⟩ : key.terminal = 0 ∧ isAcceptState langdef.prodlist st = true := by
    generalize action_eq : start.reduceAction = action at candidate
    cases candidate with
    | shift _ _ _ => cases action_eq
    | accept _ _ _ => cases action_eq
    | @reduce item prod elems here completed content contains =>
      have one : prod.left.index = 1 := by
        have value : start.left.index = prod.left.index := congrArg Action.value action_eq
        rw [← value, index_one]
      unfold completedOf at completed
      obtain ⟨at_index, pos⟩ := Option.filter_eq_some_iff.mp completed
      obtain ⟨index, -⟩ := start_of_index wf at_index one
      refine ⟨?_, ?_⟩
      · have here_at : lalr.fm.SetAt item.follow elems :=
          exact.usable.sound.content_iff.mp content
        exact (lr1.start item here index key.terminal).mp (here_at.has_iff.mpr contains)
      · apply exact.accepts lr1
        have pos : item.prodpos = prod.right.length := of_decide_eq_true pos
        have item_at := (lr1.represents.core (productionsOf langdef.prodlist wf).start
          item.prodpos).mp ⟨item, here, index, rfl⟩
        rw [index] at at_index
        obtain ⟨bound, rfl⟩ := List.getElem?_eq_some_iff.mp at_index
        have length : ((productionsOf langdef.prodlist wf).rule
            (productionsOf langdef.prodlist wf).start).output.length =
              langdef.prodlist[0].right.length := List.length_map _
        rwa [length, ← pos]
  obtain ⟨reports, -, states⟩ := fillTables_spec built.tables
  obtain ⟨nodes, c, c', inserted, slots, -⟩ := states (key.state, st) mem
  have slot_eq : acceptSlot (lalr.input langdef) st 0 = (some start.acceptAction, none) := by
    unfold acceptSlot
    rw [if_pos ⟨rfl, accepts⟩, show (lalr.input langdef).prodlist.head? = some start from first]
    rfl
  obtain ⟨shift, shiftOf, shifts⟩ := shiftInsertions_at 0 inserted.shiftNodes
  have no_shift : shift = none := by
    cases shift with
    | none => rfl
    | some s =>
      obtain ⟨-, item, here, at_item, -⟩ := shiftOf.present rfl
      have positive := (terminal_of_nodeOf wf at_item).1
      omega
  obtain ⟨rest, heads, others⟩ := groupsAt_accept exact lr1 first accepts
  have slot := inserted.slot 0
  rw [slot_eq, shifts, reductionInsertions_at, no_shift] at slot
  have slot : (resolveFrom (some start.acceptAction, none) (headsOf (groupsAt
      ⟨langdef.prodlist, langdef.lexer, lalr.fm, lalr.gotoMap⟩ st 0))).1 =
        c'.slot ⟨key.state, 0⟩ := slot
  rw [heads] at slot
  have after : (c'.slot ⟨key.state, 0⟩).1 = some start.reduceAction := by
    rw [← slots 0]
    show b.actions.find ⟨key.state, 0⟩ = _
    rw [← zero]
    exact stored
  rw [← slot] at after
  have action := resolveFrom_action (some start.acceptAction, some start.priority) rest
  have step : resolveFrom (some start.acceptAction, none) (start.prioritized :: rest) =
      ((resolveFrom (some start.acceptAction, some start.priority) rest).1,
        (resolveFrom (some start.acceptAction, some start.priority) rest).2) := by
    simp [resolveFrom, slotStep, ProductionDef.prioritized]
  rw [step] at after
  rcases action with same | ⟨entry, in_rest, same⟩
  · rw [same] at after
    cases after
  · rw [same] at after
    exact others entry in_rest (Option.some.inj after)

end Mewa
