/- Module: Mewa/Automaton/Lr1
   digest: The states with sets of terminals have all lookaheads of the items for their prefixes. -/

import Mewa.Automaton.Walk

set_option autoImplicit false
set_option relaxedAutoImplicit false

namespace Mewa

open Mewa.Lib

theorem TransitionState.empty_of_mem {state : TransitionState} {item : TransitionItem}
    (mem : item ∈ state.unpack) : state.empty = false := by
  have not_empty : state.empty ≠ true := by
    intro empty
    have none_there := SortedSet.isEmpty_iff.mp empty
    exact none_there item.packed (TransitionState.mem_unpack.mp mem).2
  simpa using not_empty

section States

variable {prodlist : List ProductionDef} {lexer : Lexer} (h : WellFormed prodlist lexer)

theorem derives_rulesOf_iff {u v : List (Symbol Int Int)} :
    FirstSets.Derives (rulesOf prodlist) u v ↔ (productionsOf prodlist h).Derives u v := by
  have same : FirstSets.Produces (rulesOf prodlist) = (productionsOf prodlist h).Produces := by
    ext u v
    constructor
    · rintro ⟨r, ⟨prod, mem, rfl⟩, rewrites⟩
      obtain ⟨p, bound, rfl⟩ := List.getElem_of_mem mem
      exact ⟨⟨p, bound⟩, rewrites⟩
    · rintro ⟨p, rewrites⟩
      exact ⟨_, ⟨prodlist[p], List.getElem_mem p.isLt, rfl⟩, rewrites⟩
  unfold FirstSets.Derives Productions.Derives
  rw [same]

theorem output_eq (p : Fin prodlist.length) :
    ((productionsOf prodlist h).rule p).output = symbolsOf (prodlist.get p).right := rfl

/-- The entries for the nonterminals on right sides have what can come behind them. -/
structure FollowMap.Begins (fm : FollowMap) : Prop where
  first : ∀ {p : Fin prodlist.length} {k : Nat} {entry : FollowHandle} {t : Int},
    fm.nodeMap.find ⟨p, k⟩ = some entry →
    (productionsOf prodlist h).First (((productionsOf prodlist h).rule p).output.drop (k + 1)) t →
    fm.Has entry.handle t
  inherit : ∀ {p : Fin prodlist.length} {k : Nat} {entry : FollowHandle},
    fm.nodeMap.find ⟨p, k⟩ = some entry →
    (productionsOf prodlist h).Nullable (((productionsOf prodlist h).rule p).output.drop (k + 1)) →
    entry.inherit = true

theorem FollowMap.Begins.mono {fm fm' : FollowMap} (begins : fm.Begins h) (le : fm.Le fm') :
    fm'.Begins h where
  first found derives := by
    rw [le.nodes] at found
    have has := begins.first found derives
    exact (le.has_iff has.known).mpr has
  inherit found derives := by
    rw [le.nodes] at found
    exact begins.inherit found derives

theorem FollowMap.Filled.begins {firstMap : FirstSetMap} {nullable : FlatSet Int} {fm : FollowMap}
    (filled : fm.Filled prodlist firstMap nullable fun _ => True)
    (firsts : FirstsFound prodlist nullable firstMap) : fm.Begins h := by
  have keys : ∀ A ∈ leftsOf prodlist, HasKey firstMap A := fun A => (firsts.keys A).mpr
  constructor
  · intro p k entry t found ⟨v, derives⟩
    obtain ⟨-, prod, index, at_index, node, set, -⟩ := filled.found _ _ found
    obtain ⟨bound, rfl⟩ := List.getElem?_eq_some_iff.mp at_index
    refine ⟨_, set, ?_⟩
    apply (rest_content h.everyDefined (List.getElem_mem bound)
      (fun nd mem => List.mem_of_mem_drop mem) firsts.nullable keys firsts.content).mpr
    refine Or.inl ⟨v, (derives_rulesOf_iff h).mpr ?_⟩
    rw [output_eq] at derives
    unfold symbolsOf at derives ⊢
    rw [List.map_drop]
    exact derives
  · intro p k entry found derives
    obtain ⟨-, prod, index, at_index, node, -, inherit⟩ := filled.found _ _ found
    obtain ⟨bound, rfl⟩ := List.getElem?_eq_some_iff.mp at_index
    rw [inherit]
    apply (inheritExact h.everyDefined (List.getElem_mem bound)
      (fun nd mem => List.mem_of_mem_drop mem) firsts.nullable keys).mpr
    refine (derives_rulesOf_iff h).mpr ?_
    rw [output_eq] at derives
    unfold symbolsOf at derives ⊢
    rw [List.map_drop]
    exact derives

/-- A state with the items valid for a prefix and all terminals that may follow them. The terminal 0
    stands for the end of the input, and nothing else follows the start. -/
structure Lr1State (fm : FollowMap) (γ : List (Symbol Int Int)) (state : TransitionState) :
    Prop where
  viable : ∃ p k, (productionsOf prodlist h).Item γ p k
  represents : state.Represents ((productionsOf prodlist h).Item γ)
  known : ∀ item ∈ state.unpack, fm.Known item.follow
  looks : ∀ (p : Fin prodlist.length) (k : Nat) (a : Option Int),
    (productionsOf prodlist h).ItemLook γ p k a → ∃ item ∈ state.unpack,
      item.prodindex = p ∧ item.prodpos = k ∧ fm.Has item.follow (a.getD 0)
  start : ∀ item ∈ state.unpack, item.prodindex = 0 → ∀ t, fm.Has item.follow t ↔ t = 0

namespace Lr1State

variable {h} {fm fm' : FollowMap} {γ γ' : List (Symbol Int Int)} {state : TransitionState}

theorem mono (lr1 : Lr1State h fm γ state) (le : fm.Le fm') : Lr1State h fm' γ state where
  viable := lr1.viable
  represents := lr1.represents
  known item mem := le.known (lr1.known item mem)
  looks p k a look := by
    obtain ⟨item, mem, index, pos, has⟩ := lr1.looks p k a look
    exact ⟨item, mem, index, pos, (le.has_iff has.known).mpr has⟩
  start item mem index t := by
    rw [le.has_iff (lr1.known item mem)]
    exact lr1.start item mem index t

theorem back (lr1 : Lr1State h fm γ state) (le : fm.Le fm') (later : Lr1State h fm' γ' state) :
    Lr1State h fm γ' state where
  viable := later.viable
  represents := later.represents
  known := lr1.known
  looks p k a look := by
    obtain ⟨item, mem, index, pos, has⟩ := later.looks p k a look
    exact ⟨item, mem, index, pos, (le.has_iff (lr1.known item mem)).mp has⟩
  start item mem index t := by
    rw [← le.has_iff (lr1.known item mem)]
    exact later.start item mem index t

end Lr1State

theorem leftOf_eq (p : Fin prodlist.length) {item : TransitionItem} (index : item.prodindex = p) :
    leftOf prodlist item = .ok prodlist[p].left.index := by
  unfold leftOf
  rw [index, List.getElem?_eq_getElem p.isLt]
  rfl

/-- The node behind an item whose symbol is the left side of a production. -/
theorem nodeOf_head {p q : Fin prodlist.length} {item : TransitionItem}
    (index : item.prodindex = p)
    (next : ((productionsOf prodlist h).rule p).output[item.prodpos]? =
      some ((productionsOf prodlist h).head q)) :
    nodeOf prodlist item = some ⟨.NonTerminal, prodlist[q].left.index⟩ :=
  (nodeOf_eq_some_iff h index (by simp)).mpr next

section Closure

variable {h} {fm fm' : FollowMap} {ts lr0closure st : TransitionState}
  {K : Fin prodlist.length → Nat → Prop}

theorem FollowClosure.represents (closed : FollowClosure prodlist fm ts lr0closure fm' st)
    {fuel : Nat} (lr0 : getLr0TransitionStateClosure fuel prodlist ts = .ok lr0closure)
    (rep : ts.Represents K) : st.Represents ((productionsOf prodlist h).Closed K) := by
  have rep0 := rep.closure h lr0
  constructor
  · intro item mem
    obtain ⟨origin, old, index, -⟩ := (closed.core _ _).mp ⟨item, mem, rfl, rfl⟩
    rw [← index]
    exact rep0.bound origin old
  · intro p k
    rw [closed.core, rep0.core]

theorem followsLeft_start {items : List TransitionItem} {t A : Int}
    (begins : A = prodlist[(productionsOf prodlist h).start].left.index)
    (follows : FollowsLeft prodlist fm ts.unpack items A t) :
    ∃ item ∈ ts.unpack, leftOf prodlist item = .ok A ∧ fm.Has item.follow t := by
  have fresh : ∀ item, nodeOf prodlist item ≠ some ⟨.NonTerminal, A⟩ := by
    intro item node
    subst begins
    obtain ⟨bound, -⟩ := nodeOf_inv h node
    have next := (nodeOf_eq_some_iff h (p := ⟨item.prodindex, bound⟩) rfl (by simp)).mp node
    exact (productionsOf prodlist h).start_fresh _ (List.mem_of_getElem? next)
  cases follows with
  | kernel mem left has => exact ⟨_, mem, left, has⟩
  | first _ node _ _ => exact absurd node (fresh _)
  | inherit _ inherits _ => exact absurd inherits.1 (fresh _)

theorem FollowClosure.lr1State (closed : FollowClosure prodlist fm ts lr0closure fm' st)
    (usable : fm.Usable prodlist) (begins : fm.Begins h) {γ : List (Symbol Int Int)}
    (viable : ∃ p k, (productionsOf prodlist h).Item γ p k)
    (rep : st.Represents ((productionsOf prodlist h).Item γ))
    (kernel : ∀ (p : Fin prodlist.length) (k : Nat) (a : Option Int),
      (productionsOf prodlist h).ItemLook γ p k a → (k ≠ 0 ∨ p = (productionsOf prodlist h).start) →
      ∃ item ∈ ts.unpack, item.prodindex = p ∧ fm.Has item.follow (a.getD 0))
    (start : ∀ item ∈ ts.unpack, item.prodindex = 0 → ∀ t, fm.Has item.follow t → t = 0) :
    Lr1State h fm' γ st := by
  have begin_eq : ((productionsOf prodlist h).start : Nat) = 0 := rfl
  have core_of {p : Fin prodlist.length} {k : Nat} (item : (productionsOf prodlist h).Item γ p k) :
      ∃ x ∈ lr0closure.unpack, x.prodindex = p ∧ x.prodpos = k :=
    (closed.core p k).mp ((rep.core p k).mpr item)
  -- the lookaheads of the items are among the terminals that follow their left sides
  have follows {p : Fin prodlist.length} {k : Nat} {a : Option Int}
      (look : (productionsOf prodlist h).ItemLook γ p k a) :
      FollowsLeft prodlist fm ts.unpack lr0closure.unpack prodlist[p].left.index (a.getD 0) := by
    have of_kernel {p : Fin prodlist.length} {k : Nat} {a : Option Int}
        (look : (productionsOf prodlist h).ItemLook γ p k a)
        (front : k ≠ 0 ∨ p = (productionsOf prodlist h).start) :
        FollowsLeft prodlist fm ts.unpack lr0closure.unpack prodlist[p].left.index (a.getD 0) := by
      obtain ⟨item, mem, index, has⟩ := kernel p k a look front
      exact .kernel mem (leftOf_eq p index) has
    induction look with
    | start => exact of_kernel .start (Or.inr rfl)
    | @first γ p q k t item next derives =>
      obtain ⟨x, mem, index, rfl⟩ := core_of item
      have node := nodeOf_head h index next
      obtain ⟨entry, found⟩ := usable.entries x _ node
      refine .first mem node found ?_
      rw [index] at found
      exact begins.first found derives
    | @inherit γ p q k a look next derives ih =>
      obtain ⟨x, mem, index, rfl⟩ := core_of look.item
      have node := nodeOf_head h index next
      obtain ⟨entry, found⟩ := usable.entries x _ node
      refine .inherit mem ⟨node, leftOf_eq p index, entry, found, ?_⟩
        (ih viable rep kernel core_of of_kernel)
      rw [index] at found
      exact begins.inherit found derives
    | goto look next _ => exact of_kernel (.goto look next) (Or.inl (Nat.succ_ne_zero _))
  refine ⟨viable, rep, closed.known, fun p k a look => ?_, fun item mem index t => ?_⟩
  · obtain ⟨item, mem, index, pos⟩ := (rep.core p k).mpr look.item
    refine ⟨item, mem, index, pos, ?_⟩
    exact (closed.content item mem _ (leftOf_eq p index) _).mpr (follows look)
  · have left := leftOf_eq (productionsOf prodlist h).start (index.trans begin_eq.symm)
    rw [closed.content item mem _ left]
    constructor
    · intro follows
      obtain ⟨x, mem_x, left_x, has⟩ := followsLeft_start (h := h) rfl follows
      -- no other production has this left side
      have zero : x.prodindex = 0 := by
        unfold leftOf at left_x
        split at left_x
        · simp at left_x
        · rename_i prod at_index
          obtain ⟨bound, rfl⟩ := List.getElem?_eq_some_iff.mp at_index
          have same : ((productionsOf prodlist h).rule ⟨x.prodindex, bound⟩).input =
              ((productionsOf prodlist h).rule (productionsOf prodlist h).start).input :=
            Except.ok.inj left_x
          exact congrArg Fin.val ((productionsOf prodlist h).start_unique _ same)
      exact start x mem_x zero t has
    · rintro rfl
      have item_at := (rep.core (productionsOf prodlist h).start item.prodpos).mp
        ⟨item, mem, index, rfl⟩
      exact follows (Productions.ItemLook.start_of_item item_at)

theorem lr1State_start {fuel : Nat} (usable : fm.Usable prodlist) (begins : fm.Begins h)
    (closed : FollowClosure prodlist fm (({} : TransitionState).insert ⟨0, 0, 0⟩) lr0closure fm' st)
    (lr0 : getLr0TransitionStateClosure fuel prodlist
      (({} : TransitionState).insert ⟨0, 0, 0⟩) = .ok lr0closure) : Lr1State h fm' [] st := by
  have zero (t : Int) : fm.Has 0 t ↔ t = 0 := by
    rw [usable.sound.zero.has_iff, SortedSet.mem_ofList, List.mem_singleton]
  have rep := closed.represents (h := h) lr0 (represents_start h)
  refine closed.lr1State usable begins ⟨_, _, .start⟩ ⟨rep.bound, fun p k => ?_⟩ ?_ ?_
  · rw [rep.core, Productions.item_nil_iff]
  · intro p k a look front
    have origin := look.item.exists_origin
    obtain ⟨δ, nil, -⟩ := origin
    have first : p = (productionsOf prodlist h).start := by
      rcases front with later | first
      · exfalso
        have none_before := (List.append_eq_nil_iff.mp nil.symm).2
        have le := look.item.le_length
        have length := congrArg List.length none_before
        rw [List.length_take, List.length_nil] at length
        omega
      · exact first
    subst first
    refine ⟨⟨0, 0, 0⟩, mem_start.mpr rfl, rfl, ?_⟩
    rw [look.start_eq]
    exact (zero 0).mpr rfl
  · intro item mem _ t has
    rw [mem_start.mp mem] at has
    exact (zero t).mp has

theorem Lr1State.goto {fuel : Nat} (short : ShortRules prodlist) (usable : fm.Usable prodlist)
    (begins : fm.Begins h) {γ : List (Symbol Int Int)} {state : TransitionState}
    (lr1 : Lr1State h fm γ state) {gto : ProductionNode}
    (node : gto ∈ collectGotoNodes prodlist state)
    (closed : FollowClosure prodlist fm (gotoKernel prodlist state gto) lr0closure fm' st)
    (lr0 : getLr0TransitionStateClosure fuel prodlist (gotoKernel prodlist state gto) =
      .ok lr0closure) : Lr1State h fm' (γ ++ [symbolOf gto]) st := by
  obtain ⟨item, mem, some_node⟩ := mem_collectGotoNodes.mp node
  obtain ⟨bound, resolved⟩ := nodeOf_inv h some_node
  have rep := closed.represents (h := h) lr0 (lr1.represents.goto h short node)
  have viable : ∃ p k, (productionsOf prodlist h).Item (γ ++ [symbolOf gto]) p k := by
    have here := (lr1.represents.core ⟨item.prodindex, bound⟩ _).mp ⟨item, mem, rfl, rfl⟩
    exact ⟨_, _, .goto here ((nodeOf_eq_some_iff h (p := ⟨_, bound⟩) rfl resolved).mp some_node)⟩
  clear item mem some_node bound
  refine closed.lr1State usable begins viable ⟨rep.bound, fun p k => ?_⟩ ?_ ?_
  · rw [rep.core, Productions.item_append_iff]
  · intro p k a look front
    obtain ⟨j, rfl⟩ : ∃ j, k = j + 1 := by
      rcases front with later | rfl
      · exact Nat.exists_eq_succ_of_ne_zero later
      · -- the start production begins at the empty prefix only
        rcases Nat.eq_zero_or_pos k with rfl | positive
        · have nil := look.item.start_origin
          simp at nil
        · exact Nat.exists_eq_succ_of_ne_zero (by omega)
    generalize longer : γ ++ [symbolOf gto] = γ' at look
    generalize later : j + 1 = k' at look
    cases look with
    | start => omega
    | first _ _ _ => omega
    | inherit _ _ _ => omega
    | goto look next =>
      obtain ⟨rfl, last⟩ := List.append_inj' longer rfl
      obtain rfl := List.singleton_inj.mp last
      obtain ⟨origin, mem, index, rfl, has⟩ := lr1.looks _ _ _ look
      have node := (nodeOf_eq_some_iff h index resolved).mpr next
      exact ⟨_, (mem_gotoKernel short).mpr ⟨origin, mem, node, rfl⟩, index, has⟩
  · intro item mem index t has
    obtain ⟨origin, old, -, rfl⟩ := (mem_gotoKernel short).mp mem
    exact (lr1.start origin old index t).mp has

end Closure

/-! The two explorations. -/

theorem exists_mem_gotoKernel (short : ShortRules prodlist) {state : TransitionState}
    {gto : ProductionNode} (node : gto ∈ collectGotoNodes prodlist state) :
    ∃ item, item ∈ (gotoKernel prodlist state gto).unpack := by
  obtain ⟨item, mem, here⟩ := mem_collectGotoNodes.mp node
  exact ⟨_, (mem_gotoKernel short).mpr ⟨item, mem, here, rfl⟩⟩

theorem mem_closure_of_kernel {fuel : Nat} {ts st : TransitionState}
    (closed : getLr0TransitionStateClosure fuel prodlist ts = .ok st) {item : TransitionItem}
    (mem : item ∈ ts.unpack) : item ∈ st.unpack := by
  obtain ⟨_, -, items⟩ := mem_getLr0TransitionStateClosure closed
  exact (items item).mpr (Or.inl mem)

/-- The closures without sets of terminals. -/
def lr0Promise (short : ShortRules prodlist) (fuel : Nat) :
    Promise prodlist (calculateClosureLr0 fuel prodlist) (Symbol Int Int) (· = .outOfFuel) where
  label := symbolOf
  Ok _ := True
  Le _ _ := True
  Good _ := Lr0State h
  refl _ := trivial
  trans _ _ := trivial
  mono good _ := good
  back _ _ later := later
  start _ := by
    unfold calculateClosureLr0
    cases closed : getLr0TransitionStateClosure fuel prodlist
        (({} : TransitionState).insert ⟨0, 0, 0⟩) with
    | error e => exact Yields.error_iff.mpr (getLr0TransitionStateClosure_fails.kind e closed)
    | ok st => exact Yields.ok_iff.mpr ⟨trivial, trivial, lr0State_start h closed⟩
  goto := by
    intro s γ st gto _ good node
    unfold calculateClosureLr0
    cases closed : getLr0TransitionStateClosure fuel prodlist (gotoKernel prodlist st gto) with
    | error e => exact Yields.error_iff.mpr (getLr0TransitionStateClosure_fails.kind e closed)
    | ok st' =>
      obtain ⟨item, mem⟩ := exists_mem_gotoKernel short node
      exact Yields.ok_iff.mpr ⟨trivial, trivial, good.goto h short node closed,
        TransitionState.empty_of_mem (mem_closure_of_kernel closed mem)⟩

def lr1Promise (short : ShortRules prodlist) (fuel : Nat) :
    Promise prodlist (calculateClosureLr1 fuel prodlist) (Symbol Int Int)
      (fun e => e = .outOfFuel ∨ e = FollowMap.tooManySets) where
  label := symbolOf
  Ok fm := fm.Usable prodlist ∧ fm.Begins h
  Le := FollowMap.Le
  Good := Lr1State h
  refl := .refl
  trans := .trans
  mono := .mono
  back := .back
  start := by
    intro fm ⟨usable, begins⟩
    have kernel : KernelOk prodlist fm (({} : TransitionState).insert ⟨0, 0, 0⟩) := by
      constructor
      · exact (represents_start h).bound
      · intro item mem
        rw [mem_start.mp mem]
        exact ⟨_, usable.sound.zero⟩
    apply (getLr1TransitionStateClosure_yields usable kernel).mono
    intro rt _ ⟨lr0closure, lr0, closed⟩
    exact ⟨⟨closed.usable, begins.mono h closed.le⟩, closed.le,
      lr1State_start usable begins closed lr0⟩
  goto := by
    intro fm γ st gto ⟨usable, begins⟩ good node
    have kernel : KernelOk prodlist fm (gotoKernel prodlist st gto) := by
      constructor
      · exact (good.represents.goto h short node).bound
      · intro item mem
        obtain ⟨origin, old, -, rfl⟩ := (mem_gotoKernel short).mp mem
        exact good.known origin old
    apply (getLr1TransitionStateClosure_yields usable kernel).mono
    intro rt _ ⟨lr0closure, lr0, closed⟩
    refine ⟨⟨closed.usable, begins.mono h closed.le⟩, closed.le,
      good.goto short usable begins node closed lr0, ?_⟩
    obtain ⟨item, mem⟩ := exists_mem_gotoKernel short node
    obtain ⟨item', mem', -⟩ := (closed.core _ _).mpr
      ⟨item, mem_closure_of_kernel lr0 mem, rfl, rfl⟩
    exact TransitionState.empty_of_mem mem'

end States

end Mewa
