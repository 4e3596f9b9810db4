/- Module: Mewa/Automaton/Follow
   digest: The sets that follow the items of a closure are the least ones that its rules demand. -/

import Mewa.Automaton.Handles
import Mewa.Automaton.Lr0

set_option autoImplicit false
set_option relaxedAutoImplicit false

namespace Mewa

open Mewa.Lib

namespace FollowMap

def Has (fm : FollowMap) (handle : Nat) (t : Int) : Prop := ∃ elems, fm.SetAt handle elems ∧ t ∈ elems

def Known (fm : FollowMap) (handle : Nat) : Prop := ∃ elems, fm.SetAt handle elems

/-- The maps that a closure works with: there is an entry for every nonterminal on a right side, and
    the handles have room in the packed items. -/
structure Usable (prodlist : List ProductionDef) (fm : FollowMap) : Prop where
  sound : fm.Sound (terminalsOf prodlist)
  few : fm.followMap.inv.length ≤ Limits.MaxTerminal
  entries : ∀ item index, nodeOf prodlist item = some ⟨.NonTerminal, index⟩ →
    ∃ entry, fm.nodeMap.find ⟨item.prodindex, item.prodpos⟩ = some entry

variable {prodlist : List ProductionDef} {fm fm' fm'' : FollowMap} {h h1 h2 : Nat} {t : Int}

theorem Has.known (has : fm.Has h t) : fm.Known h := by
  obtain ⟨elems, here, -⟩ := has
  exact ⟨elems, here⟩

theorem SetAt.has_iff {elems : FlatSet Int} (here : fm.SetAt h elems) : fm.Has h t ↔ t ∈ elems := by
  constructor
  · intro ⟨elems', here', mem⟩
    exact here.unique here' ▸ mem
  · intro mem
    exact ⟨elems, here, mem⟩

theorem Le.known (le : fm.Le fm') (known : fm.Known h) : fm'.Known h := by
  obtain ⟨elems, here⟩ := known
  exact ⟨elems, le.setAt here⟩

theorem Le.has_iff (le : fm.Le fm') (known : fm.Known h) : fm'.Has h t ↔ fm.Has h t := by
  obtain ⟨elems, here⟩ := known
  rw [here.has_iff, (le.setAt here).has_iff]

theorem UnionOf.has_iff (union : fm.UnionOf h1 h2 h) : fm.Has h t ↔ fm.Has h1 t ∨ fm.Has h2 t := by
  obtain ⟨s1, s2, first, second, both⟩ := union
  rw [both.has_iff, first.has_iff, second.has_iff, SortedSet.mem_insertAll]
  exact or_comm

namespace Usable

theorem room (usable : fm.Usable prodlist) (known : fm.Known h) : h < Limits.MaxTerminal := by
  obtain ⟨elems, here⟩ := known
  obtain ⟨bound, -⟩ := List.getElem?_eq_some_iff.mp here
  have few := usable.few
  omega

theorem entry_known (usable : fm.Usable prodlist) {key : FollowKey} {entry : FollowHandle}
    (found : fm.nodeMap.find key = some entry) : fm.Known entry.handle :=
  usable.sound.nodes key entry found

theorem join (usable : fm.Usable prodlist) (known1 : fm.Known h1) (known2 : fm.Known h2) :
    Yields (· = tooManySets) (fun rt => rt.1.Usable prodlist ∧ fm.Le rt.1 ∧ rt.1.Known rt.2 ∧
      ∀ t, rt.1.Has rt.2 t ↔ fm.Has h1 t ∨ fm.Has h2 t) (fm.join h1 h2) := by
  obtain ⟨s1, first⟩ := known1
  obtain ⟨s2, second⟩ := known2
  apply (join_yields usable.sound first second).mono
  intro rt _ joined
  have union := joined.union.setAt (joined.le.setAt first) (joined.le.setAt second)
  refine ⟨⟨joined.sound, Nat.le_of_lt joined.few, ?_⟩, joined.le, ⟨_, union⟩, ?_⟩
  · intro item index node
    rw [joined.le.nodes]
    exact usable.entries item index node
  · intro t
    rw [joined.union.has_iff, joined.le.has_iff ⟨s1, first⟩, joined.le.has_iff ⟨s2, second⟩]

end Usable

end FollowMap

/-! The sets of the nonterminals of one state. -/

namespace FollowState

def Knows (state : FollowState) (A : Int) : Prop := ∃ handle, state.2.find A = some handle

def Has (state : FollowState) (A t : Int) : Prop :=
  ∃ handle, state.2.find A = some handle ∧ state.1.Has handle t

/-- The handles of the nonterminals are in use. -/
structure Ok (prodlist : List ProductionDef) (state : FollowState) : Prop where
  usable : state.1.Usable prodlist
  known : ∀ A handle, state.2.find A = some handle → state.1.Known handle

structure Adds (prodlist : List ProductionDef) (K : Int → Prop) (E : Int → Int → Prop)
    (state state' : FollowState) : Prop where
  ok : Ok prodlist state'
  le : state.1.Le state'.1
  knows : ∀ A, Knows state' A ↔ Knows state A ∨ K A
  has : ∀ A t, Has state' A t ↔ Has state A t ∨ E A t

/-- The handle of a nonterminal is joined with another one. -/
def addFollow (state : FollowState) (A : Int) (handle : Nat) : Except Failure FollowState :=
  match state.2.find A with
  | none => .ok (state.1, state.2.set A handle)
  | some known => do
    let (fm, follow) ← state.1.join handle known
    .ok (fm, state.2.set A follow)

variable {prodlist : List ProductionDef} {state state' : FollowState} {A B t : Int} {handle : Nat}

theorem has_iff_of_find (found : state.2.find A = some handle) :
    Has state A t ↔ state.1.Has handle t := by
  unfold Has
  rw [found]
  simp

theorem Ok.has_iff (ok : Ok prodlist state) (le : state.1.Le state'.1)
    (same : state'.2.find A = state.2.find A) : Has state' A t ↔ Has state A t := by
  unfold Has
  rw [same]
  constructor
  · intro ⟨handle, found, has⟩
    exact ⟨handle, found, (le.has_iff (ok.known A handle found)).mp has⟩
  · intro ⟨handle, found, has⟩
    exact ⟨handle, found, (le.has_iff (ok.known A handle found)).mpr has⟩

theorem Ok.set (ok : Ok prodlist state) {fm : FollowMap} (usable : fm.Usable prodlist)
    (le : state.1.Le fm) (known : fm.Known handle) :
    Ok prodlist (fm, state.2.set A handle) ∧
      (∀ B, Knows (fm, state.2.set A handle) B ↔ Knows state B ∨ B = A) ∧
      (∀ t, Has (fm, state.2.set A handle) A t ↔ fm.Has handle t) ∧
      ∀ B t, B ≠ A → (Has (fm, state.2.set A handle) B t ↔ Has state B t) := by
  refine ⟨⟨usable, ?_⟩, ?_, ?_, ?_⟩
  · intro B handle' found
    rw [SortedMap.find_set] at found
    split at found
    · obtain rfl := Option.some.inj found
      exact known
    · exact le.known (ok.known B handle' found)
  · intro B
    unfold Knows
    simp only [SortedMap.find_set]
    by_cases same : A = B
    · simp [same]
    · have other : ¬ B = A := fun eq => same eq.symm
      simp [same, other]
  · intro t
    exact has_iff_of_find (SortedMap.find_set_self _ _ _)
  · intro B t other
    have same : (state.2.set A handle).find B = state.2.find B := by
      rw [SortedMap.find_set, if_neg fun same => other same.symm]
    apply ok.has_iff
    · exact le
    · exact same

theorem addFollow_yields (ok : Ok prodlist state) (A : Int) (known : state.1.Known handle) :
    Yields (· = FollowMap.tooManySets)
      (Adds prodlist (· = A) (fun B t => B = A ∧ state.1.Has handle t) state)
      (addFollow state A handle) := by
  unfold addFollow
  split
  · rename_i absent
    obtain ⟨ok', knows, here, other⟩ := ok.set (A := A) ok.usable (.refl _) known
    refine Yields.ok_iff.mpr ⟨ok', .refl _, knows, fun B t => ?_⟩
    by_cases same : B = A
    · subst same
      rw [here]
      simp [Has, absent]
    · simp [other B t same, same]
  · rename_i old found
    apply (ok.usable.join known (ok.known A old found)).bind
    intro ⟨fm, follow⟩ _ ⟨usable, le, joined, union⟩
    obtain ⟨ok', knows, here, other⟩ := ok.set (A := A) usable le joined
    refine Yields.ok_iff.mpr ⟨ok', le, knows, fun B t => ?_⟩
    by_cases same : B = A
    · subst same
      rw [here, union, has_iff_of_find found]
      simp [or_comm]
    · simp [other B t same, same]

/-- A fold whose steps add what their elements demand adds what all of them demand. -/
theorem foldlM_yields {l : List TransitionItem}
    {f : FollowState → TransitionItem → Except Failure FollowState} {K : TransitionItem → Int → Prop}
    {E : TransitionItem → Int → Int → Prop} (ok : Ok prodlist state)
    (step : ∀ s, ∀ item ∈ l, Ok prodlist s → state.1.Le s.1 →
      Yields (· = FollowMap.tooManySets) (Adds prodlist (K item) (E item) s) (f s item)) :
    Yields (· = FollowMap.tooManySets)
      (Adds prodlist (fun A => ∃ item ∈ l, K item A) (fun A t => ∃ item ∈ l, E item A t) state)
      (l.foldlM f state) := by
  apply Yields.foldlM (fun past =>
    Adds prodlist (fun A => ∃ item ∈ past, K item A) (fun A t => ∃ item ∈ past, E item A t) state)
  · intro past item s begins adds
    have mem : item ∈ l := begins.subset (by simp)
    apply (step s item mem adds.ok adds.le).mono
    intro s' _ added
    refine ⟨added.ok, adds.le.trans added.le, fun A => ?_, fun A t => ?_⟩
    · rw [added.knows, adds.knows]
      simp [or_and_right, exists_or, or_assoc]
    · rw [added.has, adds.has]
      simp [or_and_right, exists_or, or_assoc]
  · exact ⟨ok, .refl _, by simp, by simp⟩

/-! The loop that inherits. -/

/-- What follows the left side of an item follows the nonterminal behind its dot too. -/
def Inherits (prodlist : List ProductionDef) (fm : FollowMap) (item : TransitionItem) (A B : Int) :
    Prop :=
  nodeOf prodlist item = some ⟨.NonTerminal, A⟩ ∧ leftOf prodlist item = .ok B ∧
    ∃ entry, fm.nodeMap.find ⟨item.prodindex, item.prodpos⟩ = some entry ∧ entry.inherit = true

/-- A set for every nonterminal that has what the items inherit. -/
def ClosedUnder (prodlist : List ProductionDef) (fm : FollowMap) (items : List TransitionItem)
    (U : Int → Int → Prop) : Prop :=
  ∀ item ∈ items, ∀ A B t, Inherits prodlist fm item A B → U B t → U A t

theorem ClosedUnder.congr {fm fm' : FollowMap} {items : List TransitionItem} {U : Int → Int → Prop}
    (nodes : fm'.nodeMap = fm.nodeMap) (closed : ClosedUnder prodlist fm' items U) :
    ClosedUnder prodlist fm items U := by
  intro item mem A B t inherits
  apply closed item mem A B t
  unfold Inherits at inherits ⊢
  rw [nodes]
  exact inherits

/-- The nonterminals on both sides of an item are known. -/
def KnowsItem (prodlist : List ProductionDef) (state : FollowState) (item : TransitionItem) :
    Prop :=
  (∃ left, leftOf prodlist item = .ok left ∧ Knows state left) ∧
    ∀ A, nodeOf prodlist item = some ⟨.NonTerminal, A⟩ → Knows state A

/-- The effect of one step: without a change the sets are the same, and the item has what it
    inherits. -/
theorem inheritFollow_yields {item : TransitionItem} {flag : Bool} (ok : Ok prodlist state)
    (knows : KnowsItem prodlist state item) :
    Yields (· = FollowMap.tooManySets)
      (fun rt => Adds prodlist (fun _ => False)
          (fun A t => ∃ B, Inherits prodlist state.1 item A B ∧ Has state B t) state rt.1 ∧
        (rt.2 = false → flag = false ∧ rt.1.2 = state.2))
      (inheritFollow prodlist (state, flag) item) := by
  have nothing (none_inherits : ∀ A B, ¬ Inherits prodlist state.1 item A B) :
      Adds prodlist (fun _ => False)
        (fun A t => ∃ B, Inherits prodlist state.1 item A B ∧ Has state B t) state state :=
    ⟨ok, .refl _, by simp, by simp [none_inherits]⟩
  obtain ⟨⟨left, left_eq, knows_left⟩, knows_node⟩ := knows
  unfold inheritFollow
  split
  · rename_i index node
    obtain ⟨entry, found⟩ := ok.usable.entries item index node
    have get_eq : state.1.get ⟨item.prodindex, item.prodpos⟩ = .ok entry := by
      unfold FollowMap.get
      rw [found]
    rw [get_eq, ok_bind, left_eq, ok_bind]
    by_cases inherit : entry.inherit = true
    · rw [if_pos inherit]
      obtain ⟨inherited, found_index⟩ := knows_node index node
      obtain ⟨inheriting, found_left⟩ := knows_left
      simp only [found_index, found_left]
      have inherits (A B : Int) : Inherits prodlist state.1 item A B ↔ A = index ∧ B = left := by
        unfold Inherits
        rw [node, left_eq, found]
        constructor
        · rintro ⟨same, same', -⟩
          simp only [Option.some.injEq, ProductionNode.mk.injEq, true_and] at same
          exact ⟨same.symm, (Except.ok.inj same').symm⟩
        · rintro ⟨rfl, rfl⟩
          exact ⟨rfl, rfl, entry, rfl, inherit⟩
      apply (ok.usable.join (ok.known _ _ found_index) (ok.known _ _ found_left)).bind
      intro ⟨fm, follow⟩ _ ⟨usable, le, joined, union⟩
      obtain ⟨ok', knows', here, other⟩ := ok.set (A := index) usable le joined
      have adds : Adds prodlist (fun _ => False)
          (fun A t => ∃ B, Inherits prodlist state.1 item A B ∧ Has state B t) state
          (fm, state.2.set index follow) := by
        refine ⟨ok', le, fun B => ?_, fun B t => ?_⟩
        · rw [knows']
          constructor
          · rintro (old | rfl)
            · exact Or.inl old
            · exact Or.inl ⟨inherited, found_index⟩
          · rintro (old | new)
            · exact Or.inl old
            · exact new.elim
        · by_cases same : B = index
          · subst same
            rw [here, union, has_iff_of_find found_index]
            simp [inherits, has_iff_of_find found_left]
          · simp [other B t same, inherits, same]
      split
      · exact Yields.ok_iff.mpr ⟨adds, by simp⟩
      · rename_i unchanged
        have same : inherited = follow := not_not.mp unchanged
        have set_eq : state.2.set index follow = state.2 := by
          apply SortedMap.eq_of_find_eq
          intro B
          rw [SortedMap.find_set]
          split
          · rename_i here
            rw [← here, found_index, same]
          · rfl
        rw [set_eq] at adds
        exact Yields.ok_iff.mpr ⟨adds, fun unflagged => ⟨unflagged, rfl⟩⟩
    · rw [if_neg inherit]
      refine Yields.ok_iff.mpr ⟨nothing ?_, fun unflagged => ⟨unflagged, rfl⟩⟩
      rintro A B ⟨-, -, entry', found', inherit'⟩
      rw [found] at found'
      obtain rfl := Option.some.inj found'
      exact inherit inherit'
  · rename_i other
    refine Yields.ok_iff.mpr ⟨nothing ?_, fun unflagged => ⟨unflagged, rfl⟩⟩
    rintro A B ⟨node, -⟩
    exact other A node

/-- What the loop keeps: the nonterminals, and their sets as parts of those that are closed. -/
structure Inherited (prodlist : List ProductionDef) (items : List TransitionItem)
    (state state' : FollowState) : Prop where
  ok : Ok prodlist state'
  le : state.1.Le state'.1
  knows : ∀ A, Knows state' A ↔ Knows state A
  grown : ∀ A t, Has state A t → Has state' A t
  least : ∀ U : Int → Int → Prop, (∀ A t, Has state A t → U A t) →
    ClosedUnder prodlist state.1 items U → ∀ A t, Has state' A t → U A t

theorem Inherited.refl {items : List TransitionItem} (ok : Ok prodlist state) :
    Inherited prodlist items state state :=
  ⟨ok, .refl _, fun _ => Iff.rfl, fun _ _ has => has, fun _ start _ => start⟩

theorem Inherited.trans {items : List TransitionItem} {state'' : FollowState}
    (first : Inherited prodlist items state state')
    (second : Inherited prodlist items state' state'') : Inherited prodlist items state state'' := by
  refine ⟨second.ok, first.le.trans second.le, fun A => (second.knows A).trans (first.knows A),
    fun A t has => second.grown A t (first.grown A t has), fun U start closed => ?_⟩
  exact second.least U (first.least U start closed) (closed.congr first.le.nodes.symm)

theorem KnowsItem.congr {item : TransitionItem} (knows : KnowsItem prodlist state item)
    (same : ∀ A, Knows state' A ↔ Knows state A) : KnowsItem prodlist state' item := by
  obtain ⟨⟨left, left_eq, knows_left⟩, knows_node⟩ := knows
  exact ⟨⟨left, left_eq, (same left).mpr knows_left⟩, fun A node => (same A).mpr (knows_node A node)⟩

theorem inheritRound_yields {items : List TransitionItem} (ok : Ok prodlist state)
    (knows : ∀ item ∈ items, KnowsItem prodlist state item) :
    Yields (· = FollowMap.tooManySets)
      (fun rt => Inherited prodlist items state rt.1 ∧
        (rt.2 = false → ClosedUnder prodlist state.1 items (Has rt.1)))
      (items.foldlM (inheritFollow prodlist) (state, false)) := by
  have round : Yields (· = FollowMap.tooManySets)
      (fun rt => Inherited prodlist items state rt.1 ∧
        (rt.2 = false → rt.1.2 = state.2 ∧ ClosedUnder prodlist state.1 items (Has rt.1)))
      (items.foldlM (inheritFollow prodlist) (state, false)) := by
    apply Yields.foldlM (fun past (rt : FollowState × Bool) => Inherited prodlist items state rt.1 ∧
      (rt.2 = false → rt.1.2 = state.2 ∧ ClosedUnder prodlist state.1 past (Has rt.1)))
    · intro past item ⟨s, flag⟩ begins ⟨inherited, still⟩
      have mem : item ∈ items := begins.subset (by simp)
      apply (inheritFollow_yields inherited.ok ((knows item mem).congr inherited.knows)).mono
      intro ⟨s', flag'⟩ _ ⟨adds, quiet⟩
      have nodes : s.1.nodeMap = state.1.nodeMap := inherited.le.nodes
      have step : Inherited prodlist items s s' := by
        refine ⟨adds.ok, adds.le, fun A => ?_, fun A t has => ?_, fun U start closed A t has => ?_⟩
        · rw [adds.knows]
          simp
        · exact (adds.has A t).mpr (Or.inl has)
        · rcases (adds.has A t).mp has with old | ⟨B, inherits, has_left⟩
          · exact start A t old
          · exact closed item mem A B t inherits (start B t has_left)
      refine ⟨inherited.trans step, fun unflagged => ?_⟩
      obtain ⟨unflagged, same⟩ := quiet unflagged
      obtain ⟨same_start, closed⟩ := still unflagged
      have has_iff (A t : Int) : Has s' A t ↔ Has s A t :=
        inherited.ok.has_iff adds.le (congrArg (·.find A) same)
      refine ⟨same.trans same_start, ?_⟩
      intro x mem_x A B t inherits has
      rcases List.mem_append.mp mem_x with old | new
      · exact (has_iff A t).mpr (closed x old A B t inherits ((has_iff B t).mp has))
      · obtain rfl := List.mem_singleton.mp new
        refine (adds.has A t).mpr (Or.inr ⟨B, ?_, (has_iff B t).mp has⟩)
        unfold Inherits at inherits ⊢
        rw [nodes]
        exact inherits
    · exact ⟨.refl ok, fun _ => ⟨rfl, by simp [ClosedUnder]⟩⟩
  apply round.mono
  intro rt _ ⟨inherited, still⟩
  exact ⟨inherited, fun unflagged => (still unflagged).2⟩

theorem inheritLoop_yields {items : List TransitionItem} {fuel : Nat} (ok : Ok prodlist state)
    (knows : ∀ item ∈ items, KnowsItem prodlist state item) :
    Yields (fun e => e = .outOfFuel ∨ e = FollowMap.tooManySets)
      (fun state' => Inherited prodlist items state state' ∧
        ClosedUnder prodlist state.1 items (Has state'))
      (inheritLoop prodlist items fuel state) := by
  induction fuel generalizing state with
  | zero => exact Yields.error_iff.mpr (Or.inl rfl)
  | succ fuel ih =>
    unfold inheritLoop
    apply ((inheritRound_yields ok knows).allow fun e same => Or.inr same).bind
    intro ⟨state1, changed⟩ _ ⟨inherited, still⟩
    cases changed with
    | false => exact Yields.ok_iff.mpr ⟨inherited, still rfl⟩
    | true =>
      apply (ih inherited.ok fun item mem => (knows item mem).congr inherited.knows).mono
      intro state' _ ⟨later, closed⟩
      exact ⟨inherited.trans later, closed.congr inherited.le.nodes⟩

end FollowState

/-! The closure. -/

/-- The terminals that follow the left sides of the items of a closure: those that follow the items
    of the kernel, those that begin what comes behind a nonterminal, and those inherited. -/
inductive FollowsLeft (prodlist : List ProductionDef) (fm : FollowMap)
    (kernel items : List TransitionItem) : Int → Int → Prop
  | kernel {item : TransitionItem} {A t : Int} : item ∈ kernel → leftOf prodlist item = .ok A →
      fm.Has item.follow t → FollowsLeft prodlist fm kernel items A t
  | first {item : TransitionItem} {entry : FollowHandle} {A t : Int} : item ∈ items →
      nodeOf prodlist item = some ⟨.NonTerminal, A⟩ →
      fm.nodeMap.find ⟨item.prodindex, item.prodpos⟩ = some entry → fm.Has entry.handle t →
      FollowsLeft prodlist fm kernel items A t
  | inherit {item : TransitionItem} {A B t : Int} : item ∈ items →
      FollowState.Inherits prodlist fm item A B → FollowsLeft prodlist fm kernel items B t →
      FollowsLeft prodlist fm kernel items A t

structure FollowClosure (prodlist : List ProductionDef) (fm : FollowMap)
    (ts lr0closure : TransitionState) (fm' : FollowMap) (st : TransitionState) : Prop where
  usable : fm'.Usable prodlist
  le : fm.Le fm'
  core : ∀ p k, st.Core p k ↔ lr0closure.Core p k
  known : ∀ item ∈ st.unpack, fm'.Known item.follow
  same : ∀ item ∈ st.unpack, ∀ item' ∈ st.unpack, leftOf prodlist item = leftOf prodlist item' →
    item.follow = item'.follow
  content : ∀ item ∈ st.unpack, ∀ A, leftOf prodlist item = .ok A → ∀ t,
    fm'.Has item.follow t ↔ FollowsLeft prodlist fm ts.unpack lr0closure.unpack A t

section Closure

variable {prodlist : List ProductionDef} {fm : FollowMap} {ts lr0closure : TransitionState}

theorem exists_leftOf {item : TransitionItem} (bound : item.prodindex < prodlist.length) :
    ∃ A, leftOf prodlist item = .ok A := by
  unfold leftOf
  rw [List.getElem?_eq_getElem bound]
  exact ⟨_, rfl⟩

theorem leftOf_of_mem_equal_range {q k follow : Nat} {A : Int}
    (mem : q ∈ equal_range prodlist A) : leftOf prodlist ⟨q, k, follow⟩ = .ok A := by
  obtain ⟨prod, found, rfl⟩ := mem_equal_range.mp mem
  unfold leftOf
  rw [found]

theorem collectStartNonterminals_fails {fuel : Nat} {result : FlatSet Int} {nonterminal : Int} :
    FailsWith (· = .outOfFuel) (collectStartNonterminals prodlist fuel result nonterminal) := by
  induction fuel generalizing result nonterminal with
  | zero => exact FailsWith.error_iff.mpr rfl
  | succ fuel ih =>
    unfold collectStartNonterminals
    split
    · exact .ok _
    · apply FailsWith.foldlM
      intro r q _
      split
      · exact ih
      · exact .ok _

theorem getLr0TransitionStateClosure_fails {fuel : Nat} :
    FailsWith (· = .outOfFuel) (getLr0TransitionStateClosure fuel prodlist ts) := by
  unfold getLr0TransitionStateClosure
  apply FailsWith.bind
  · apply FailsWith.foldlM
    intro result item _
    unfold collectStartsOfItem
    split
    · exact collectStartNonterminals_fails
    · exact .ok _
  · intro nonterminals _
    exact .ok _

theorem mem_closure_cases {fuel : Nat}
    (closed : getLr0TransitionStateClosure fuel prodlist ts = .ok lr0closure)
    {item : TransitionItem} (mem : item ∈ lr0closure.unpack) :
    item ∈ ts.unpack ∨ ∃ A, leftOf prodlist item = .ok A ∧
      ∃ origin ∈ lr0closure.unpack, nodeOf prodlist origin = some ⟨.NonTerminal, A⟩ := by
  obtain ⟨nonterminals, collected, items⟩ := mem_getLr0TransitionStateClosure closed
  obtain ⟨-, -, least⟩ := collectStartsOfItem_spec collected
  rcases (items item).mp mem with old | ⟨A, added, q, range, rfl⟩
  · exact Or.inl old
  · refine Or.inr ⟨A, leftOf_of_mem_equal_range range, ?_⟩
    refine least (fun A => ∃ origin ∈ lr0closure.unpack,
      nodeOf prodlist origin = some ⟨.NonTerminal, A⟩) ?_ ?_ A added
    · intro b c ⟨origin, there, node⟩ ⟨q', range', node'⟩
      refine ⟨⟨q', 0, 0⟩, (items _).mpr (Or.inr ⟨b, ?_, q', range', rfl⟩), node'⟩
      obtain ⟨nodes, starts, -⟩ := collectStartsOfItem_spec collected
      rcases (items origin).mp there with old | ⟨b', added', r, range'', rfl⟩
      · exact nodes origin old b node
      · exact starts b' added' b ⟨r, range'', node⟩
    · intro x mem_x c node
      exact ⟨x, (items x).mpr (Or.inl mem_x), node⟩

/-- The kernel with items whose productions are there and whose handles are in use. -/
structure KernelOk (prodlist : List ProductionDef) (fm : FollowMap) (ts : TransitionState) :
    Prop where
  bound : ∀ item ∈ ts.unpack, item.prodindex < prodlist.length
  known : ∀ item ∈ ts.unpack, fm.Known item.follow

theorem inheritKernel_eq (state : FollowState) (item : TransitionItem) :
    inheritKernel prodlist state item = (leftOf prodlist item >>= fun left =>
      FollowState.addFollow state left item.follow) := rfl

theorem inheritKernel_foldlM_yields (usable : fm.Usable prodlist) (kernel : KernelOk prodlist fm ts) :
    Yields (· = FollowMap.tooManySets)
      (FollowState.Adds prodlist (fun A => ∃ item ∈ ts.unpack, leftOf prodlist item = .ok A)
        (fun A t => ∃ item ∈ ts.unpack, leftOf prodlist item = .ok A ∧ fm.Has item.follow t)
        (fm, SortedMap.empty))
      (ts.unpack.foldlM (inheritKernel prodlist) (fm, SortedMap.empty)) := by
  apply FollowState.foldlM_yields ⟨usable, by simp⟩
  intro s item mem ok le
  obtain ⟨A, left⟩ := exists_leftOf (kernel.bound item mem)
  rw [inheritKernel_eq, left, ok_bind]
  have known := kernel.known item mem
  apply (FollowState.addFollow_yields ok A (le.known known)).mono
  intro s' _ adds
  refine ⟨adds.ok, adds.le, fun B => ?_, fun B t => ?_⟩
  · rw [adds.knows]
    simp [eq_comm]
  · rw [adds.has, le.has_iff known]
    simp [eq_comm]

theorem addFirst_foldlM_yields {items : List TransitionItem} {state : FollowState}
    (ok : FollowState.Ok prodlist state) :
    Yields (· = FollowMap.tooManySets)
      (FollowState.Adds prodlist
        (fun A => ∃ item ∈ items, nodeOf prodlist item = some ⟨.NonTerminal, A⟩)
        (fun A t => ∃ item ∈ items, nodeOf prodlist item = some ⟨.NonTerminal, A⟩ ∧
          ∃ entry, state.1.nodeMap.find ⟨item.prodindex, item.prodpos⟩ = some entry ∧
            state.1.Has entry.handle t) state)
      (items.foldlM (addFirst prodlist) state) := by
  apply FollowState.foldlM_yields ok
  intro s item mem ok_s le
  unfold addFirst
  split
  · rename_i index node
    obtain ⟨entry, found⟩ := ok.usable.entries item index node
    have found_s : s.1.nodeMap.find ⟨item.prodindex, item.prodpos⟩ = some entry := by
      rw [le.nodes]
      exact found
    have get_eq : s.1.get ⟨item.prodindex, item.prodpos⟩ = .ok entry := by
      unfold FollowMap.get
      rw [found_s]
    rw [get_eq, ok_bind]
    have known := ok.usable.entry_known found
    apply (FollowState.addFollow_yields ok_s index (le.known known)).mono
    intro s' _ adds
    refine ⟨adds.ok, adds.le, fun B => ?_, fun B t => ?_⟩
    · rw [adds.knows, node]
      simp [eq_comm]
    · rw [adds.has, le.has_iff known, node, found]
      simp [eq_comm]
  · rename_i other
    have no_node (B : Int) : nodeOf prodlist item ≠ some ⟨.NonTerminal, B⟩ := other B
    refine Yields.ok_iff.mpr ⟨ok_s, .refl _, fun B => ?_, fun B t => ?_⟩
    · simp [no_node]
    · simp [no_node]

theorem assignFollow_foldlM_yields {items : List TransitionItem} {state : FollowState}
    (ok : FollowState.Ok prodlist state) (fits : ∀ item ∈ items, item.Fits)
    (knows : ∀ item ∈ items, ∃ A, leftOf prodlist item = .ok A ∧ FollowState.Knows state A) :
    Yields (fun _ => False)
      (fun rt : TransitionState => ∀ item, item ∈ rt.unpack ↔ ∃ origin ∈ items, ∃ A handle,
        leftOf prodlist origin = .ok A ∧ state.2.find A = some handle ∧
          item = { origin with follow := handle })
      (items.foldlM (assignFollow prodlist state.2) {}) := by
  apply Yields.foldlM (fun past (rt : TransitionState) => ∀ item, item ∈ rt.unpack ↔
    ∃ origin ∈ past, ∃ A handle, leftOf prodlist origin = .ok A ∧ state.2.find A = some handle ∧
      item = { origin with follow := handle })
  · intro past x rt begins inv
    have mem : x ∈ items := begins.subset (by simp)
    obtain ⟨A, left, handle, found⟩ := knows x mem
    unfold assignFollow
    rw [left, ok_bind]
    simp only [found]
    apply Yields.ok_iff.mpr
    intro item
    have room : ({ x with follow := handle } : TransitionItem).Fits :=
      ⟨(fits x mem).1, ok.usable.room (ok.known A handle found)⟩
    rw [TransitionState.mem_unpack_insert room, inv]
    constructor
    · rintro (rfl | ⟨origin, old, rest⟩)
      · exact ⟨x, by simp, A, handle, left, found, rfl⟩
      · exact ⟨origin, List.mem_append_left _ old, rest⟩
    · rintro ⟨origin, here, B, handle', left', found', rfl⟩
      rcases List.mem_append.mp here with old | new
      · exact Or.inr ⟨origin, old, B, handle', left', found', rfl⟩
      · obtain rfl := List.mem_singleton.mp new
        obtain rfl := Except.ok.inj (left.symm.trans left')
        obtain rfl := Option.some.inj (found.symm.trans found')
        exact Or.inl rfl
  · simp

/-- The closure with the sets that follow: the positions are those of the closure without sets, and
    the sets are the least ones that the rules of `FollowsLeft` demand. -/
theorem getLr1TransitionStateClosure_yields {fuel : Nat} (usable : fm.Usable prodlist)
    (kernel : KernelOk prodlist fm ts) :
    Yields (fun e => e = .outOfFuel ∨ e = FollowMap.tooManySets)
      (fun rt => ∃ lr0closure, getLr0TransitionStateClosure fuel prodlist ts = .ok lr0closure ∧
        FollowClosure prodlist fm ts lr0closure rt.1 rt.2)
      (getLr1TransitionStateClosure fuel prodlist fm ts) := by
  unfold getLr1TransitionStateClosure
  cases closed : getLr0TransitionStateClosure fuel prodlist ts with
  | error e => exact Yields.error_iff.mpr (Or.inl (getLr0TransitionStateClosure_fails.kind e closed))
  | ok lr0closure =>
    rw [ok_bind]
    obtain ⟨-, -, items⟩ := mem_getLr0TransitionStateClosure closed
    apply ((inheritKernel_foldlM_yields usable kernel).allow fun e same => Or.inr same).bind
    intro state1 _ adds1
    apply ((addFirst_foldlM_yields adds1.ok).allow fun e same => Or.inr same).bind
    intro state2 _ adds2
    have knows_left : ∀ item ∈ lr0closure.unpack,
        ∃ A, leftOf prodlist item = .ok A ∧ FollowState.Knows state2 A := by
      intro item mem
      rcases mem_closure_cases closed mem with old | ⟨A, left, origin, mem_origin, node⟩
      · obtain ⟨A, left⟩ := exists_leftOf (kernel.bound item old)
        refine ⟨A, left, (adds2.knows A).mpr (Or.inl ?_)⟩
        exact (adds1.knows A).mpr (Or.inr ⟨item, old, left⟩)
      · exact ⟨A, left, (adds2.knows A).mpr (Or.inr ⟨origin, mem_origin, node⟩)⟩
    have knows : ∀ item ∈ lr0closure.unpack, FollowState.KnowsItem prodlist state2 item := by
      intro item mem
      exact ⟨knows_left item mem, fun A node => (adds2.knows A).mpr (Or.inr ⟨item, mem, node⟩)⟩
    apply (FollowState.inheritLoop_yields adds2.ok knows).bind
    intro state3 _ ⟨inherited, closed_under⟩
    have nodes : state1.1.nodeMap = fm.nodeMap := adds1.le.nodes
    have nodes2 : state2.1.nodeMap = fm.nodeMap := adds2.le.nodes.trans nodes
    -- the sets of the nonterminals at the end
    have content (A t : Int) : FollowState.Has state3 A t ↔
        FollowsLeft prodlist fm ts.unpack lr0closure.unpack A t := by
      constructor
      · apply inherited.least (FollowsLeft prodlist fm ts.unpack lr0closure.unpack)
        · intro A t has
          rcases (adds2.has A t).mp has with has | ⟨item, mem, node, entry, found, has⟩
          · rcases (adds1.has A t).mp has with has | ⟨item, mem, left, has⟩
            · obtain ⟨handle, found, -⟩ := has
              simp at found
            · exact .kernel mem left has
          · rw [nodes] at found
            have known : fm.Known entry.handle := usable.entry_known found
            exact .first mem node found ((adds1.le.has_iff known).mp has)
        · intro item mem A B t inherits has
          refine .inherit mem ?_ has
          unfold FollowState.Inherits at inherits ⊢
          rw [← nodes2]
          exact inherits
      · intro follows
        induction follows with
        | kernel mem left has =>
          apply inherited.grown
          refine (adds2.has _ _).mpr (Or.inl ?_)
          exact (adds1.has _ _).mpr (Or.inr ⟨_, mem, left, has⟩)
        | @first item entry A t mem node found has =>
          apply inherited.grown
          refine (adds2.has _ _).mpr (Or.inr ⟨item, mem, node, entry, ?_, ?_⟩)
          · rw [nodes]
            exact found
          · exact (adds1.le.has_iff has.known).mpr has
        | @inherit item A B t mem inherits _ ih =>
          apply closed_under item mem A B t _ ih
          unfold FollowState.Inherits at inherits ⊢
          rw [nodes2]
          exact inherits
    have fits : ∀ item ∈ lr0closure.unpack, item.Fits :=
      fun item mem => (TransitionState.mem_unpack.mp mem).1
    have knows3 : ∀ item ∈ lr0closure.unpack,
        ∃ A, leftOf prodlist item = .ok A ∧ FollowState.Knows state3 A := by
      intro item mem
      obtain ⟨A, left, known⟩ := knows_left item mem
      exact ⟨A, left, (inherited.knows A).mpr known⟩
    apply ((assignFollow_foldlM_yields inherited.ok fits knows3).allow fun e no => no.elim).bind
    intro st _ assigned
    refine Yields.ok_iff.mpr ⟨lr0closure, rfl, inherited.ok.usable,
      (adds1.le.trans adds2.le).trans inherited.le, fun p k => ?_, ?_, ?_, ?_⟩
    · constructor
      · rintro ⟨item, mem, index, pos⟩
        obtain ⟨origin, old, A, handle, -, -, rfl⟩ := (assigned item).mp mem
        exact ⟨origin, old, index, pos⟩
      · rintro ⟨origin, mem, index, pos⟩
        obtain ⟨A, left, handle, found⟩ := knows3 origin mem
        exact ⟨{ origin with follow := handle },
          (assigned _).mpr ⟨origin, mem, A, handle, left, found, rfl⟩, index, pos⟩
    · intro item mem
      obtain ⟨origin, _, A, handle, _, found, rfl⟩ := (assigned item).mp mem
      exact inherited.ok.known A handle found
    · intro item mem item' mem' same
      obtain ⟨origin, _, A, handle, left, found, rfl⟩ := (assigned item).mp mem
      obtain ⟨origin', _, B, handle', left', found', rfl⟩ := (assigned item').mp mem'
      obtain rfl : A = B := Except.ok.inj (left.symm.trans (same.trans left'))
      exact Option.some.inj (found.symm.trans found')
    · intro item mem A left t
      obtain ⟨origin, _, B, handle, left', found, rfl⟩ := (assigned item).mp mem
      obtain rfl : B = A := Except.ok.inj (left'.symm.trans left)
      rw [← content]
      exact (FollowState.has_iff_of_find found).symm

end Closure

end Mewa
