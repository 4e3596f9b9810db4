/- Module: Mewa/Automaton/Lr0
   digest: The positions in the states are the items valid for the prefixes that lead to them. -/

import Mewa.Automaton.Explore
import Mewa.Automaton.Rules

set_option autoImplicit false
set_option relaxedAutoImplicit false

namespace Mewa

open Mewa.Lib

theorem mem_equal_range {prodlist : List ProductionDef} {left : Int} {q : Nat} :
    q ∈ equal_range prodlist left ↔
      ∃ prod : ProductionDef, prodlist[q]? = some prod ∧ prod.left.index = left := by
  unfold equal_range
  rw [List.mem_filter, List.mem_range]
  constructor
  · intro ⟨_, same⟩
    cases found : prodlist[q]? with
    | none => simp [found] at same
    | some prod => exact ⟨prod, rfl, by simpa [found] using same⟩
  · intro ⟨prod, found, same⟩
    exact ⟨(List.getElem?_eq_some_iff.mp found).1, by simp [found, same]⟩

/-- A production of a nonterminal begins with another one. -/
def StartsWith (prodlist : List ProductionDef) (left index : Int) : Prop :=
  ∃ q ∈ equal_range prodlist left, nodeOf prodlist ⟨q, 0, 0⟩ = some ⟨.NonTerminal, index⟩

section Starts

variable {prodlist : List ProductionDef}

theorem collectStartNonterminals_sound {I : Int → Prop}
    (closed : ∀ b c, I b → StartsWith prodlist b c → I c) {fuel : Nat} {result result' : FlatSet Int}
    {nonterminal : Int} (start : I nonterminal) (before : ∀ b ∈ result, I b)
    (h : collectStartNonterminals prodlist fuel result nonterminal = .ok result') :
    ∀ b ∈ result', I b := by
  induction fuel generalizing result result' nonterminal with
  | zero => simp [collectStartNonterminals] at h
  | succ fuel ih =>
    unfold collectStartNonterminals at h
    split at h
    · obtain rfl := Except.ok.inj h
      exact before
    · refine foldlM_invariant (fun r : FlatSet Int => ∀ b ∈ r, I b) ?_ ?_ h
      · intro r q r' mem inv step
        split at step
        · rename_i index node
          exact ih (closed nonterminal index start ⟨q, mem, node⟩) inv step
        · obtain rfl := Except.ok.inj step
          exact inv
      · intro b mem
        rcases SortedSet.mem_insert.mp mem with rfl | mem
        · exact start
        · exact before b mem

theorem collectStarts_fold_closed {fuel : Nat}
    (ih : ∀ {result result' : FlatSet Int} {nonterminal : Int},
      collectStartNonterminals prodlist fuel result nonterminal = .ok result' →
      (∀ b ∈ result, b ∈ result') ∧ nonterminal ∈ result' ∧
        ∀ b ∈ result', b ∉ result → ∀ c, StartsWith prodlist b c → c ∈ result')
    {l : List Nat} {r r' : FlatSet Int}
    (fold : l.foldlM (fun result prodindex =>
      match nodeOf prodlist ⟨prodindex, 0, 0⟩ with
      | some ⟨.NonTerminal, index⟩ =>
        collectStartNonterminals prodlist fuel result index
      | _ => .ok result) r = .ok r') :
    (∀ b ∈ r, b ∈ r') ∧
    (∀ q ∈ l, ∀ c, nodeOf prodlist ⟨q, 0, 0⟩ = some ⟨.NonTerminal, c⟩ → c ∈ r') ∧
    ∀ b ∈ r', b ∉ r → ∀ c, StartsWith prodlist b c → c ∈ r' := by
  induction l generalizing r r' with
  | nil =>
    obtain rfl : r = r' := by simpa [pure, Except.pure] using fold
    exact ⟨fun b mem => mem, by simp, fun b mem fresh => absurd mem fresh⟩
  | cons q l ih_list =>
    rw [List.foldlM_cons] at fold
    obtain ⟨r1, first, fold⟩ := bind_eq_ok.mp fold
    obtain ⟨keep, nodes, rest⟩ := ih_list fold
    have here : (∀ b ∈ r, b ∈ r1) ∧
        (∀ c, nodeOf prodlist ⟨q, 0, 0⟩ = some ⟨.NonTerminal, c⟩ → c ∈ r1) ∧
        ∀ b ∈ r1, b ∉ r → ∀ c, StartsWith prodlist b c → c ∈ r1 := by
      split at first
      · rename_i index node
        obtain ⟨keep1, mem1, closed1⟩ := ih first
        refine ⟨keep1, ?_, closed1⟩
        intro c same
        obtain rfl : index = c := by
          simpa using node.symm.trans same
        exact mem1
      · rename_i other
        obtain rfl := Except.ok.inj first
        refine ⟨fun b mem => mem, ?_, fun b mem fresh => absurd mem fresh⟩
        intro c same
        exact absurd same (other c)
    obtain ⟨keep1, node1, closed1⟩ := here
    refine ⟨fun b mem => keep b (keep1 b mem), ?_, ?_⟩
    · intro x mem c same
      rcases List.mem_cons.mp mem with rfl | mem
      · exact keep c (node1 c same)
      · exact nodes x mem c same
    · intro b mem fresh c starts
      by_cases old : b ∈ r1
      · exact keep c (closed1 b old fresh c starts)
      · exact rest b mem old c starts

theorem collectStartNonterminals_closed {fuel : Nat} {result result' : FlatSet Int}
    {nonterminal : Int}
    (h : collectStartNonterminals prodlist fuel result nonterminal = .ok result') :
    (∀ b ∈ result, b ∈ result') ∧ nonterminal ∈ result' ∧
      ∀ b ∈ result', b ∉ result → ∀ c, StartsWith prodlist b c → c ∈ result' := by
  induction fuel generalizing result result' nonterminal with
  | zero => simp [collectStartNonterminals] at h
  | succ fuel ih =>
    unfold collectStartNonterminals at h
    split at h
    · rename_i known
      obtain rfl := Except.ok.inj h
      exact ⟨fun b mem => mem, known, fun b mem fresh => absurd mem fresh⟩
    · -- every new nonterminal but the given one has its starts
      obtain ⟨keep, nodes, rest⟩ := collectStarts_fold_closed ih h
      have added : nonterminal ∈ result' := keep nonterminal (SortedSet.mem_insert.mpr (Or.inl rfl))
      refine ⟨fun b mem => keep b (SortedSet.mem_insert.mpr (Or.inr mem)), added, ?_⟩
      intro b mem fresh c starts
      by_cases here : b = nonterminal
      · subst here
        obtain ⟨q, range, node⟩ := starts
        exact nodes q range c node
      · refine rest b mem ?_ c starts
        intro known
        rcases SortedSet.mem_insert.mp known with same | known
        · exact here same
        · exact fresh known

theorem collectStartsOfItem_spec {fuel : Nat} {items : List TransitionItem} {result : FlatSet Int}
    (h : items.foldlM (collectStartsOfItem fuel prodlist) SortedSet.empty = .ok result) :
    (∀ item ∈ items, ∀ c, nodeOf prodlist item = some ⟨.NonTerminal, c⟩ → c ∈ result) ∧
      (∀ b ∈ result, ∀ c, StartsWith prodlist b c → c ∈ result) ∧
      ∀ I : Int → Prop, (∀ b c, I b → StartsWith prodlist b c → I c) →
        (∀ item ∈ items, ∀ c, nodeOf prodlist item = some ⟨.NonTerminal, c⟩ → I c) →
        ∀ b ∈ result, I b := by
  have general : ∀ {items : List TransitionItem} {r r' : FlatSet Int},
      items.foldlM (collectStartsOfItem fuel prodlist) r = .ok r' →
      (∀ b ∈ r, ∀ c, StartsWith prodlist b c → c ∈ r) →
      (∀ b ∈ r, b ∈ r') ∧
      (∀ item ∈ items, ∀ c, nodeOf prodlist item = some ⟨.NonTerminal, c⟩ → c ∈ r') ∧
      ∀ b ∈ r', ∀ c, StartsWith prodlist b c → c ∈ r' := by
    intro items
    induction items with
    | nil =>
      intro r r' fold closed
      obtain rfl : r = r' := by simpa [pure, Except.pure] using fold
      exact ⟨fun b mem => mem, by simp, closed⟩
    | cons item items ih =>
      intro r r' fold closed
      rw [List.foldlM_cons] at fold
      obtain ⟨r1, first, fold⟩ := bind_eq_ok.mp fold
      have here : (∀ b ∈ r, b ∈ r1) ∧
          (∀ c, nodeOf prodlist item = some ⟨.NonTerminal, c⟩ → c ∈ r1) ∧
          ∀ b ∈ r1, ∀ c, StartsWith prodlist b c → c ∈ r1 := by
        unfold collectStartsOfItem at first
        split at first
        · rename_i index node
          obtain ⟨keep, mem, closed1⟩ := collectStartNonterminals_closed first
          refine ⟨keep, ?_, ?_⟩
          · intro c same
            obtain rfl : index = c := by simpa using node.symm.trans same
            exact mem
          · intro b mem c starts
            by_cases old : b ∈ r
            · exact keep c (closed b old c starts)
            · exact closed1 b mem old c starts
        · rename_i other
          obtain rfl := Except.ok.inj first
          exact ⟨fun b mem => mem, fun c same => absurd same (other c), closed⟩
      obtain ⟨keep1, node1, closed1⟩ := here
      obtain ⟨keep, nodes, closed'⟩ := ih fold closed1
      refine ⟨fun b mem => keep b (keep1 b mem), ?_, closed'⟩
      intro x mem c same
      rcases List.mem_cons.mp mem with rfl | mem
      · exact keep c (node1 c same)
      · exact nodes x mem c same
  obtain ⟨-, nodes, closed⟩ := general h (by simp)
  refine ⟨nodes, closed, ?_⟩
  intro I closedI start
  refine foldlM_invariant (fun r : FlatSet Int => ∀ b ∈ r, I b) ?_ (by simp) h
  intro r item r' mem inv step
  unfold collectStartsOfItem at step
  split at step
  · rename_i index node
    exact collectStartNonterminals_sound closedI (start item mem index node) inv step
  · obtain rfl := Except.ok.inj step
    exact inv

end Starts

theorem fits_zero (q : Nat) : (⟨q, 0, 0⟩ : TransitionItem).Fits := by
  constructor
  · show 0 < 16
    omega
  · show 0 < 1024
    omega

theorem mem_getLr0TransitionStateClosure {fuel : Nat} {prodlist : List ProductionDef}
    {ts st : TransitionState} (h : getLr0TransitionStateClosure fuel prodlist ts = .ok st) :
    ∃ nonterminals, ts.unpack.foldlM (collectStartsOfItem fuel prodlist) SortedSet.empty =
        .ok nonterminals ∧
      ∀ item, item ∈ st.unpack ↔ item ∈ ts.unpack ∨
        ∃ b ∈ nonterminals, ∃ q ∈ equal_range prodlist b, item = ⟨q, 0, 0⟩ := by
  obtain ⟨nonterminals, collected, h⟩ := bind_eq_ok.mp h
  refine ⟨nonterminals, collected, ?_⟩
  intro item
  obtain rfl := Except.ok.inj h
  refine foldl_iff (I := fun st : TransitionState => item ∈ st.unpack)
    (A := fun b => ∃ q ∈ equal_range prodlist b, item = ⟨q, 0, 0⟩) ?_ ts
  intro rt b _
  refine foldl_iff (I := fun st : TransitionState => item ∈ st.unpack)
    (A := fun q => item = ⟨q, 0, 0⟩) ?_ rt
  intro rt q _
  rw [TransitionState.mem_unpack_insert (fits_zero q)]
  exact or_comm

section States

variable {prodlist : List ProductionDef} {lexer : Lexer} (h : WellFormed prodlist lexer)

structure TransitionState.Represents (state : TransitionState)
    (I : Fin prodlist.length → Nat → Prop) : Prop where
  bound : ∀ item ∈ state.unpack, item.prodindex < prodlist.length
  core : ∀ (p : Fin prodlist.length) (k : Nat), state.Core p k ↔ I p k

theorem leftIndex_eq {q : Fin prodlist.length} {b : Int} :
    (q : Nat) ∈ equal_range prodlist b ↔ (productionsOf prodlist h).head q = .nonterminal b := by
  rw [mem_equal_range]
  constructor
  · intro ⟨prod, found, same⟩
    obtain ⟨_, rfl⟩ := List.getElem?_eq_some_iff.mp found
    exact congrArg Symbol.nonterminal same
  · intro same
    exact ⟨prodlist[q], List.getElem?_eq_getElem q.isLt, Symbol.nonterminal.inj same⟩

theorem TransitionState.Represents.closure {ts st : TransitionState}
    {K : Fin prodlist.length → Nat → Prop} (rep : ts.Represents K) {fuel : Nat}
    (closed : getLr0TransitionStateClosure fuel prodlist ts = .ok st) :
    st.Represents ((productionsOf prodlist h).Closed K) := by
  obtain ⟨nonterminals, collected, items⟩ := mem_getLr0TransitionStateClosure closed
  obtain ⟨nodes, starts, sound⟩ := collectStartsOfItem_spec collected
  -- the symbol behind a dot, for the nonterminal of a production
  have behind : ∀ {p q : Fin prodlist.length} {item : TransitionItem},
      item.prodindex = p → ((productionsOf prodlist h).rule p).output[item.prodpos]? =
        some ((productionsOf prodlist h).head q) →
      nodeOf prodlist item = some ⟨.NonTerminal, prodlist[q].left.index⟩ := by
    intro p q item index next
    exact (nodeOf_eq_some_iff h index (by simp)).mpr next
  constructor
  · intro item mem
    rcases (items item).mp mem with old | ⟨b, _, q, range, rfl⟩
    · exact rep.bound item old
    · obtain ⟨prod, found, _⟩ := mem_equal_range.mp range
      exact (List.getElem?_eq_some_iff.mp found).1
  · intro p k
    constructor
    · rintro ⟨item, mem, index, pos⟩
      rcases (items item).mp mem with old | ⟨b, added, q, range, rfl⟩
      · exact .kernel ((rep.core p k).mp ⟨item, old, index, pos⟩)
      · obtain rfl : q = p := index
        obtain rfl : 0 = k := pos
        -- every production of a collected nonterminal is in the closure
        refine sound (fun b => ∀ q : Fin prodlist.length,
          (productionsOf prodlist h).head q = .nonterminal b →
          (productionsOf prodlist h).Closed K q 0) ?_ ?_ b added p ((leftIndex_eq h).mp range)
        · rintro b c productions ⟨q, range, node⟩ q' head'
          have bound := (nodeOf_inv h node).1
          have inner := productions ⟨q, bound⟩ ((leftIndex_eq h).mp range)
          have next := (nodeOf_eq_some_iff h (p := ⟨q, bound⟩) rfl (by simp)).mp node
          exact .closure inner (next.trans (congrArg some head'.symm))
        · intro item mem c node q' head'
          have bound := (nodeOf_inv h node).1
          have kernel := (rep.core ⟨item.prodindex, bound⟩ item.prodpos).mp ⟨item, mem, rfl, rfl⟩
          have next := (nodeOf_eq_some_iff h (p := ⟨item.prodindex, bound⟩) rfl (by simp)).mp node
          exact .closure (.kernel kernel) (next.trans (congrArg some head'.symm))
    · intro closed
      induction closed with
      | kernel kernel =>
        obtain ⟨item, mem, same⟩ := (rep.core _ _).mpr kernel
        exact ⟨item, (items item).mpr (Or.inl mem), same⟩
      | @closure p q k _ next ih =>
        obtain ⟨item, mem, index, rfl⟩ := ih
        have node := behind index next
        have added : prodlist[q].left.index ∈ nonterminals := by
          rcases (items item).mp mem with old | ⟨b, added, r, range, rfl⟩
          · exact nodes item old _ node
          · exact starts b added _ ⟨r, range, node⟩
        exact ⟨⟨q, 0, 0⟩, (items _).mpr (Or.inr ⟨_, added, q, (leftIndex_eq h).mpr rfl, rfl⟩),
          rfl, rfl⟩

/-- The rules have room for their positions in the packed items. -/
def ShortRules (prodlist : List ProductionDef) : Prop :=
  ∀ prod ∈ prodlist, prod.right.length < Limits.MaxProductionLength

theorem nodeOf_pos {item : TransitionItem} {nd : ProductionNode} (short : ShortRules prodlist)
    (node : nodeOf prodlist item = some nd) : item.prodpos + 1 < Limits.MaxProductionLength := by
  unfold nodeOf at node
  obtain ⟨prod, at_index, node⟩ := Option.bind_eq_some_iff.mp node
  unfold ProductionDef.nodeAt at node
  obtain ⟨element, at_pos, rfl⟩ := Option.map_eq_some_iff.mp node
  have inside := (List.getElem?_eq_some_iff.mp at_pos).1
  have room := short prod (List.mem_of_getElem? at_index)
  omega

theorem mem_gotoKernel (short : ShortRules prodlist) {state : TransitionState}
    {gto : ProductionNode} {item : TransitionItem} :
    item ∈ (gotoKernel prodlist state gto).unpack ↔
      ∃ origin ∈ state.unpack, nodeOf prodlist origin = some gto ∧
        item = { origin with prodpos := origin.prodpos + 1 } := by
  have added := foldl_iff (I := fun st : TransitionState => item ∈ st.unpack)
    (A := fun origin => nodeOf prodlist origin = some gto ∧
      item = { origin with prodpos := origin.prodpos + 1 })
    (f := fun rt item => if nodeOf prodlist item = some gto then
      rt.insert { item with prodpos := item.prodpos + 1 } else rt) (l := state.unpack) ?_ {}
  · rw [gotoKernel, added]
    simp
  · intro rt origin mem
    have room := (TransitionState.mem_unpack.mp mem).1
    split
    · rename_i node
      have fits : ({ origin with prodpos := origin.prodpos + 1 } : TransitionItem).Fits :=
        ⟨nodeOf_pos short node, room.2⟩
      rw [TransitionState.mem_unpack_insert fits]
      simp [node, or_comm]
    · rename_i other
      simp [other]

theorem mem_collectGotoNodes {state : TransitionState} {gto : ProductionNode} :
    gto ∈ collectGotoNodes prodlist state ↔
      ∃ item ∈ state.unpack, nodeOf prodlist item = some gto := by
  rw [collectGotoNodes, SortedSet.mem_ofList, List.mem_filterMap]

theorem TransitionState.Represents.goto (short : ShortRules prodlist) {state : TransitionState}
    {γ : List (Symbol Int Int)} (rep : state.Represents ((productionsOf prodlist h).Item γ))
    {gto : ProductionNode} (node : gto ∈ collectGotoNodes prodlist state) :
    (gotoKernel prodlist state gto).Represents
      ((productionsOf prodlist h).Advanced γ (symbolOf gto)) := by
  obtain ⟨_, _, some_node⟩ := mem_collectGotoNodes.mp node
  have resolved := (nodeOf_inv h some_node).2
  constructor
  · intro item mem
    obtain ⟨origin, old, _, rfl⟩ := (mem_gotoKernel short).mp mem
    exact rep.bound origin old
  · intro p k
    constructor
    · intro ⟨item, mem, index, pos⟩
      obtain ⟨origin, old, node, rfl⟩ := (mem_gotoKernel short).mp mem
      obtain rfl : origin.prodpos + 1 = k := pos
      have index' : origin.prodindex = p := index
      exact ⟨origin.prodpos, rfl, (rep.core p origin.prodpos).mp ⟨origin, old, index, rfl⟩,
        (nodeOf_eq_some_iff h index' resolved).mp node⟩
    · intro ⟨j, eq, item_at, next⟩
      obtain ⟨origin, old, index, rfl⟩ := (rep.core p j).mpr item_at
      have node := (nodeOf_eq_some_iff h index resolved).mpr next
      exact ⟨_, (mem_gotoKernel short).mpr ⟨origin, old, node, rfl⟩, index, eq.symm⟩

theorem mem_start {item : TransitionItem} :
    item ∈ (({} : TransitionState).insert ⟨0, 0, 0⟩).unpack ↔ item = ⟨0, 0, 0⟩ := by
  rw [TransitionState.mem_unpack_insert (fits_zero 0)]
  simp

theorem represents_start :
    (({} : TransitionState).insert ⟨0, 0, 0⟩).Represents fun p k =>
      p = (productionsOf prodlist h).start ∧ k = 0 := by
  constructor
  · intro item mem
    obtain rfl := mem_start.mp mem
    exact (productionsOf prodlist h).start.isLt
  · intro p k
    constructor
    · intro ⟨item, mem, index, pos⟩
      obtain rfl := mem_start.mp mem
      exact ⟨Fin.ext index.symm, pos.symm⟩
    · rintro ⟨rfl, rfl⟩
      exact ⟨⟨0, 0, 0⟩, mem_start.mpr rfl, rfl, rfl⟩

/-- A state without sets of terminals that has the items valid for a prefix. -/
structure Lr0State (γ : List (Symbol Int Int)) (state : TransitionState) : Prop where
  represents : state.Represents ((productionsOf prodlist h).Item γ)
  follow : ∀ item ∈ state.unpack, item.follow = 0

theorem closure_follow {fuel : Nat} {ts st : TransitionState}
    (zero : ∀ item ∈ ts.unpack, item.follow = 0)
    (closed : getLr0TransitionStateClosure fuel prodlist ts = .ok st) :
    ∀ item ∈ st.unpack, item.follow = 0 := by
  obtain ⟨nonterminals, -, items⟩ := mem_getLr0TransitionStateClosure closed
  intro item mem
  rcases (items item).mp mem with old | ⟨_, _, q, _, rfl⟩
  · exact zero item old
  · rfl

theorem closure_of_lr0 {fuel : Nat} {ts st : TransitionState}
    (closed : ClosureOf (.trivial (calculateClosureLr0 fuel prodlist)) () ts st) :
    getLr0TransitionStateClosure fuel prodlist ts = .ok st := by
  obtain ⟨_, _, -, closed, -⟩ := closed
  unfold calculateClosureLr0 at closed
  obtain ⟨st', result, same⟩ := bind_eq_ok.mp closed
  obtain ⟨-, rfl⟩ := Prod.mk.inj (Except.ok.inj same)
  exact result

theorem lr0State_start {fuel : Nat} {st : TransitionState}
    (closed : getLr0TransitionStateClosure fuel prodlist
      (({} : TransitionState).insert ⟨0, 0, 0⟩) = .ok st) : Lr0State h [] st := by
  have rep := (represents_start h).closure h closed
  refine ⟨⟨rep.bound, fun p k => ?_⟩, closure_follow (fun item mem => ?_) closed⟩
  · rw [rep.core, Productions.item_nil_iff]
  · rw [mem_start.mp mem]

theorem Lr0State.goto (short : ShortRules prodlist) {fuel : Nat} {γ : List (Symbol Int Int)}
    {state st : TransitionState} (lr0 : Lr0State h γ state) {gto : ProductionNode}
    (node : gto ∈ collectGotoNodes prodlist state)
    (closed : getLr0TransitionStateClosure fuel prodlist (gotoKernel prodlist state gto) = .ok st) :
    Lr0State h (γ ++ [symbolOf gto]) st := by
  have rep := (lr0.represents.goto h short node).closure h closed
  refine ⟨⟨rep.bound, fun p k => ?_⟩, closure_follow (fun item mem => ?_) closed⟩
  · rw [rep.core, Productions.item_append_iff]
  · obtain ⟨origin, old, -, rfl⟩ := (mem_gotoKernel short).mp mem
    exact lr0.follow origin old

/-- Every state found without sets of terminals belongs to a prefix, the first one to the empty
    prefix. -/
theorem lr0_states (short : ShortRules prodlist) {fuel : Nat} {rt : StateAssignments}
    (found : getAutomatonStateAssignments fuel prodlist (calculateClosureLr0 fuel prodlist) () =
      .ok ((), rt)) :
    rt.Numbered ∧ (∃ st, (st, 1) ∈ rt ∧ Lr0State h [] st) ∧
      ∀ st n, (st, n) ∈ rt → ∃ γ, Lr0State h γ st := by
  obtain ⟨explored, -⟩ := explored_of_getAutomatonStateAssignments
    (g := .trivial (calculateClosureLr0 fuel prodlist)) True.intro found
  obtain ⟨st, first, closed⟩ := explored.start
  refine ⟨explored.numbered, ⟨st, first, lr0State_start h (closure_of_lr0 closed)⟩, ?_⟩
  intro st n mem
  refine explored.exists_labels symbolOf (Lr0State h) ?_ ?_
    (List.mem_map.mpr ⟨(st, n), mem, rfl⟩)
  · intro st closed
    exact lr0State_start h (closure_of_lr0 closed)
  · intro γ st gto st' lr0 node closed
    exact lr0.goto h short node (closure_of_lr0 closed)

end States

end Mewa
