/- Module: Mewa/Automaton/FirstSets
   digest: The nullable nonterminals and the FIRST sets are calculated to the end, and what they
     hold. -/

import Mewa.Automaton.First
import Mewa.Automaton.Rules
import Mewa.Lib.FirstSets
import Mewa.Lib.Rounds

set_option autoImplicit false
set_option relaxedAutoImplicit false

namespace Mewa

open Mewa.Lib Mewa.Lib.FirstSets

def rulesOf (prodlist : List ProductionDef) : Set (ContextFreeRule Int Int) :=
  {r | ∃ prod ∈ prodlist, r = ruleOf prod}

/-- The elements of the productions are terminals and nonterminals that have a production. -/
structure EveryDefined (prodlist : List ProductionDef) : Prop where
  resolved : ∀ prod ∈ prodlist, ∀ nd ∈ prod.right, nd.type ≠ .Unresolved
  terminal : ∀ prod ∈ prodlist, ∀ nd ∈ prod.right, nd.type = .Terminal → nd.index ≠ 0
  nonterminal : ∀ prod ∈ prodlist, ∀ nd ∈ prod.right, nd.type = .NonTerminal →
    ∃ prod' ∈ prodlist, prod'.left.index = nd.index

theorem WellFormed.everyDefined {prodlist : List ProductionDef} {lexer : Lexer}
    (h : WellFormed prodlist lexer) : EveryDefined prodlist where
  resolved := h.resolved
  terminal := by
    intro prod mem nd mem_nd type
    have positive := (h.terminal prod mem nd mem_nd type).1
    omega
  nonterminal prod mem nd mem_nd type := (h.nonterminal prod mem nd mem_nd type).2

def leftsOf (prodlist : List ProductionDef) : Set Int :=
  {A | ∃ prod ∈ prodlist, prod.left.index = A}

theorem leftsOf_finite (prodlist : List ProductionDef) : (leftsOf prodlist).Finite := by
  have image : leftsOf prodlist = {A | A ∈ prodlist.map fun prod => prod.left.index} := by
    ext A
    simp [leftsOf]
  rw [image]
  exact List.finite_toSet _

theorem EveryDefined.known {prodlist : List ProductionDef} (defined : EveryDefined prodlist)
    {prod : ProductionDef} (mem : prod ∈ prodlist) :
    ∀ nd ∈ prod.right, nd.type = .NonTerminal → nd.index ∈ leftsOf prodlist :=
  defined.nonterminal prod mem

def ProductionNodeDef.NullableIn (nullable : FlatSet Int) (nd : ProductionNodeDef) : Prop :=
  nd.type = .NonTerminal ∧ nd.index ∈ nullable

instance (nullable : FlatSet Int) (nd : ProductionNodeDef) : Decidable (nd.NullableIn nullable) :=
  inferInstanceAs (Decidable (_ ∧ _))

/-- An element with nothing but nullable ones before it. -/
def Leading (nullable : FlatSet Int) (right : List ProductionNodeDef) (nd : ProductionNodeDef) :
    Prop :=
  ∃ before after, right = before ++ nd :: after ∧ ∀ e ∈ before, e.NullableIn nullable

section Elements

variable {nullable : FlatSet Int} {right rest : List ProductionNodeDef}
  {nd x : ProductionNodeDef}

theorem not_leading_nil : ¬ Leading nullable [] x := by
  rintro ⟨before, after, same, -⟩
  simp at same

theorem leading_cons : Leading nullable (nd :: rest) x ↔
    x = nd ∨ nd.NullableIn nullable ∧ Leading nullable rest x := by
  constructor
  · rintro ⟨before, after, same, all⟩
    cases before with
    | nil => exact Or.inl (List.cons.inj same).1.symm
    | cons e before =>
      obtain ⟨rfl, behind⟩ := List.cons.inj same
      exact Or.inr ⟨all nd List.mem_cons_self, before, after, behind,
        fun e mem => all e (List.mem_cons_of_mem _ mem)⟩
  · rintro (rfl | ⟨first, before, after, rfl, all⟩)
    · exact ⟨[], rest, rfl, by simp⟩
    · refine ⟨nd :: before, after, rfl, fun e mem => ?_⟩
      rcases List.mem_cons.mp mem with rfl | mem
      · exact first
      · exact all e mem

theorem Leading.mem (leading : Leading nullable right x) : x ∈ right := by
  obtain ⟨before, after, rfl, -⟩ := leading
  simp

end Elements

section Symbols

variable {rules : Set (ContextFreeRule Int Int)} {nd : ProductionNodeDef}

theorem symbolOf_terminal (type : nd.type = .Terminal) :
    symbolOf nd.toProductionNode = .terminal nd.index := if_pos type

theorem symbolOf_nonterminal (type : nd.type = .NonTerminal) :
    symbolOf nd.toProductionNode = .nonterminal nd.index :=
  if_neg fun terminal => by simp [type] at terminal

theorem erasable_symbolOf (resolved : nd.type ≠ .Unresolved) :
    Erasable rules (symbolOf nd.toProductionNode) ↔
      nd.type = .NonTerminal ∧ Erasable rules (.nonterminal nd.index) := by
  cases type : nd.type with
  | Unresolved => exact absurd type resolved
  | NonTerminal => simp [symbolOf_nonterminal type]
  | Terminal => simp [symbolOf_terminal type, not_erasable_terminal]

end Symbols

/-! The nullable nonterminals. -/

section NullableRounds

variable {prodlist : List ProductionDef} {nullable : FlatSet Int}

/-- What a step does to the set: the flag is raised if and only if it grows. -/
structure NullableGrown (before after : FlatSet Int × Bool) : Prop where
  mono : ∀ A ∈ before.1, A ∈ after.1
  flag : before.2 = true → after.2 = true
  strict : after.2 = true → before.2 = true ∨ ∃ A ∈ after.1, A ∉ before.1
  still : after.2 = false → after.1 = before.1

theorem NullableGrown.refl (s : FlatSet Int × Bool) : NullableGrown s s :=
  ⟨fun _ mem => mem, id, Or.inl, fun _ => rfl⟩

theorem NullableGrown.trans {s t r : FlatSet Int × Bool} (first : NullableGrown s t)
    (second : NullableGrown t r) : NullableGrown s r where
  mono A mem := second.mono A (first.mono A mem)
  flag raised := second.flag (first.flag raised)
  strict raised := by
    rcases second.strict raised with raised | ⟨A, mem, new⟩
    · rcases first.strict raised with raised | ⟨A, mem, new⟩
      · exact Or.inl raised
      · exact Or.inr ⟨A, second.mono A mem, new⟩
    · exact Or.inr ⟨A, mem, fun old => new (first.mono A old)⟩
  still lowered := by
    have lowered' : t.2 = false := by
      cases raised : t.2 with
      | false => rfl
      | true => simp [second.flag raised] at lowered
    rw [second.still lowered, first.still lowered']

theorem nullableStep_of_pos {state : FlatSet Int × Bool} {prod : ProductionDef}
    (all : ∀ nd ∈ prod.right, nd.NullableIn state.1) :
    nullableStep state prod =
      (state.1.insert prod.left.index, state.2 || decide (prod.left.index ∉ state.1)) := by
  have condition : (prod.right.all fun nd =>
      nd.type = .NonTerminal && decide (nd.index ∈ state.1)) = true := by
    rw [List.all_eq_true]
    intro nd mem
    simpa [ProductionNodeDef.NullableIn] using all nd mem
  exact if_pos condition

theorem nullableStep_of_neg {state : FlatSet Int × Bool} {prod : ProductionDef}
    (some_not : ¬ ∀ nd ∈ prod.right, nd.NullableIn state.1) :
    nullableStep state prod = state := by
  have condition : ¬ (prod.right.all fun nd =>
      nd.type = .NonTerminal && decide (nd.index ∈ state.1)) = true := by
    rw [List.all_eq_true]
    intro all
    exact some_not fun nd mem => by simpa [ProductionNodeDef.NullableIn] using all nd mem
  exact if_neg condition

theorem nullableStep_grown (state : FlatSet Int × Bool) (prod : ProductionDef) :
    NullableGrown state (nullableStep state prod) := by
  by_cases all : ∀ nd ∈ prod.right, nd.NullableIn state.1
  · rw [nullableStep_of_pos all]
    by_cases old : prod.left.index ∈ state.1
    · have same : state.1.insert prod.left.index = state.1 := SortedSet.insert_of_mem old
      simp only [same, old, not_true, decide_false, Bool.or_false]
      exact .refl state
    · constructor
      · intro A mem
        exact SortedSet.mem_insert.mpr (Or.inr mem)
      · intro raised
        simp [raised]
      · intro _
        exact Or.inr ⟨prod.left.index, SortedSet.mem_insert.mpr (Or.inl rfl), old⟩
      · intro lowered
        simp [old] at lowered
  · rw [nullableStep_of_neg all]
    exact .refl state

def nullableRound (prodlist : List ProductionDef) (rt : FlatSet Int) : FlatSet Int × Bool :=
  prodlist.foldl nullableStep (rt, false)

theorem nullableLoop_succ (prodlist : List ProductionDef) (fuel : Nat) (rt : FlatSet Int) :
    nullableLoop prodlist (fuel + 1) rt =
      if (nullableRound prodlist rt).2 then nullableLoop prodlist fuel (nullableRound prodlist rt).1
      else .ok (nullableRound prodlist rt).1 := rfl

theorem nullableRound_grown (rt : FlatSet Int) :
    NullableGrown (rt, false) (nullableRound prodlist rt) :=
  foldl_related NullableGrown.refl NullableGrown.trans
    (fun state prod _ => nullableStep_grown state prod) _

theorem nullableRound_erasable {rt : FlatSet Int}
    (sound : ∀ A ∈ rt, Erasable (rulesOf prodlist) (.nonterminal A)) :
    ∀ A ∈ (nullableRound prodlist rt).1, Erasable (rulesOf prodlist) (.nonterminal A) := by
  refine List.foldlRecOn prodlist nullableStep (b := (rt, false))
    (motive := fun state => ∀ A ∈ state.1, Erasable (rulesOf prodlist) (.nonterminal A)) sound ?_
  intro state sound prod mem
  by_cases all : ∀ nd ∈ prod.right, nd.NullableIn state.1
  · rw [nullableStep_of_pos all]
    intro A mem_A
    rcases SortedSet.mem_insert.mp mem_A with rfl | old
    · refine .rule (r := ruleOf prod) ⟨prod, mem, rfl⟩ fun s mem_s => ?_
      obtain ⟨nd, mem_nd, rfl⟩ := List.mem_map.mp mem_s
      obtain ⟨type, index⟩ := all nd mem_nd
      rw [symbolOf_nonterminal type]
      exact sound nd.index index
    · exact sound A old
  · rw [nullableStep_of_neg all]
    exact sound

theorem nullableRound_closed {rt : FlatSet Int} (still : (nullableRound prodlist rt).2 = false)
    {prod : ProductionDef} (mem : prod ∈ prodlist)
    (all : ∀ nd ∈ prod.right, nd.NullableIn (nullableRound prodlist rt).1) :
    prod.left.index ∈ (nullableRound prodlist rt).1 := by
  obtain ⟨mid, first, last⟩ := foldl_between NullableGrown.refl NullableGrown.trans
    (fun state prod _ => nullableStep_grown state prod) (rt, false) mem
  have same := last.still still
  have step := nullableStep_grown mid prod
  have lowered : (nullableStep mid prod).2 = false := by
    cases raised : (nullableStep mid prod).2 with
    | false => rfl
    | true => exact absurd ((last.flag raised).symm.trans still) (by simp)
  have here : (nullableRound prodlist rt).1 = mid.1 := same.trans (step.still lowered)
  rw [here] at all
  rw [nullableStep_of_pos all] at same
  show prod.left.index ∈ (prodlist.foldl nullableStep (rt, false)).1
  rw [same]
  exact SortedSet.mem_insert.mpr (Or.inl rfl)

theorem erasable_left {A : Int} (erasable : Erasable (rulesOf prodlist) (.nonterminal A)) :
    ∃ prod ∈ prodlist, prod.left.index = A ∧
      ∀ nd ∈ prod.right, Erasable (rulesOf prodlist) (symbolOf nd.toProductionNode) := by
  cases erasable with
  | rule mem all =>
    obtain ⟨prod, mem_prod, rfl⟩ := mem
    exact ⟨prod, mem_prod, rfl, fun nd mem_nd => all _ (List.mem_map.mpr ⟨nd, mem_nd, rfl⟩)⟩

theorem getNullableNonterminalSet_ends (defined : EveryDefined prodlist) :
    ∃ nullable n, (∀ A, A ∈ nullable ↔ Erasable (rulesOf prodlist) (.nonterminal A)) ∧
      ∀ fuel, n ≤ fuel → getNullableNonterminalSet fuel prodlist = .ok nullable := by
  obtain ⟨last, n, sound, still, ends⟩ := rounds_end
    (fun rt : FlatSet Int => ∀ A ∈ rt, Erasable (rulesOf prodlist) (.nonterminal A))
    (fun rt => {A | A ∈ rt}) (leftsOf prodlist) (nullableLoop_succ prodlist)
    (fun _ => nullableRound_erasable) (leftsOf_finite prodlist)
    (by
      intro rt sound A mem
      obtain ⟨prod, mem_prod, left, -⟩ := erasable_left (sound A mem)
      exact ⟨prod, mem_prod, left⟩)
    (by
      intro rt _ changed
      have grown : NullableGrown (rt, false) (nullableRound prodlist rt) := nullableRound_grown rt
      rcases grown.strict changed with raised | ⟨A, mem, new⟩
      · simp at raised
      · exact Set.ssubset_iff_exists.mpr ⟨grown.mono, A, mem, new⟩)
    (s := SortedSet.empty) (by simp)
  refine ⟨_, n, fun A => ⟨nullableRound_erasable sound A, fun erasable => ?_⟩, ends⟩
  generalize same : Symbol.nonterminal A = s at erasable
  induction erasable generalizing A with
  | @rule r mem all ih =>
    obtain ⟨prod, mem_prod, rfl⟩ := mem
    cases same
    refine nullableRound_closed still mem_prod fun nd mem_nd => ?_
    have mem_symbol : symbolOf nd.toProductionNode ∈ (ruleOf prod).output :=
      List.mem_map.mpr ⟨nd, mem_nd, rfl⟩
    obtain ⟨type, -⟩ := (erasable_symbolOf (defined.resolved prod mem_prod nd mem_nd)).mp
      (all _ mem_symbol)
    exact ⟨type, ih _ mem_symbol nd.index (symbolOf_nonterminal type).symm⟩

end NullableRounds

/-! The FIRST sets. -/

def HasFirst (m : FirstSetMap) (A t : Int) : Prop := ∃ elems, m.find A = some elems ∧ t ∈ elems

def HasKey (m : FirstSetMap) (A : Int) : Prop := ∃ elems, m.find A = some elems

theorem length_lt_insertAll {s : FlatSet Int} {l : List Int} :
    s.elems.length < (s.insertAll l).elems.length ↔ ∃ t ∈ l, t ∉ s := by
  constructor
  · intro longer
    by_contra none_new
    push Not at none_new
    have same : s.insertAll l = s := SortedSet.eq_of_mem_iff fun t => by
      rw [SortedSet.mem_insertAll]
      exact ⟨fun mem => mem.elim (none_new t) id, Or.inr⟩
    rw [same] at longer
    omega
  · rintro ⟨t, mem, new⟩
    have nodup : (t :: s.elems).Nodup :=
      List.nodup_cons.mpr ⟨new, s.sorted.imp ne_of_lt⟩
    have sub : t :: s.elems ⊆ (s.insertAll l).elems := by
      intro e mem_e
      apply SortedSet.mem_insertAll.mpr
      rcases List.mem_cons.mp mem_e with rfl | old
      · exact Or.inl mem
      · exact Or.inr old
    have longer := (List.subperm_of_subset nodup sub).length_le
    simpa using longer

section Insertion

variable {left A t : Int} {elems : List Int} {state : FirstSetMap × Bool}

theorem hasKey_of_hasFirst {m : FirstSetMap} (has : HasFirst m A t) : HasKey m A := by
  obtain ⟨elems, found, -⟩ := has
  exact ⟨elems, found⟩

theorem mem_getD_find {m : FirstSetMap} :
    t ∈ (m.find A).getD SortedSet.empty ↔ HasFirst m A t := by
  unfold HasFirst
  cases found : m.find A with
  | none => simp
  | some elems => simp

theorem hasFirst_insertFirst : HasFirst (insertFirst left elems state).1 A t ↔
    HasFirst state.1 A t ∨ A = left ∧ t ∈ elems := by
  show (∃ set, (state.1.set left _).find A = some set ∧ t ∈ set) ↔ _
  rw [SortedMap.find_set]
  by_cases same : left = A
  · subst same
    rw [if_pos rfl, ← mem_getD_find]
    simp [or_comm]
  · rw [if_neg same]
    show HasFirst state.1 A t ↔ _
    have other : ¬ A = left := fun h => same h.symm
    simp [other]

theorem hasKey_insertFirst :
    HasKey (insertFirst left elems state).1 A ↔ HasKey state.1 A ∨ A = left := by
  show (∃ set, (state.1.set left _).find A = some set) ↔ _
  rw [SortedMap.find_set]
  by_cases same : left = A
  · simp [same]
  · rw [if_neg same]
    have other : ¬ A = left := fun h => same h.symm
    simp [other, HasKey]

theorem insertFirst_flag : (insertFirst left elems state).2 = true ↔
    state.2 = true ∨ ∃ t ∈ elems, ¬ HasFirst state.1 left t := by
  show (state.2 || decide _) = true ↔ _
  rw [Bool.or_eq_true, decide_eq_true_iff, length_lt_insertAll]
  simp only [mem_getD_find]

end Insertion

/-- What a step does to the map: elements and keys are added, and the flag is raised if there is a
    new element, and otherwise only because one of the needed nonterminals has no set yet. -/
structure FirstGrown (needed : Set Int) (before after : FirstSetMap × Bool) : Prop where
  elements : ∀ A t, HasFirst before.1 A t → HasFirst after.1 A t
  keys : ∀ A, HasKey before.1 A → HasKey after.1 A
  flag : before.2 = true → after.2 = true
  strict : after.2 = true → before.2 = true ∨
    (∃ A t, HasFirst after.1 A t ∧ ¬ HasFirst before.1 A t) ∨ ∃ A ∈ needed, ¬ HasKey before.1 A
  still : after.2 = false → ∀ A t, HasFirst after.1 A t → HasFirst before.1 A t

section Grown

variable {needed : Set Int} {left : Int} {nullable : FlatSet Int}
  {right : List ProductionNodeDef}

namespace FirstGrown

theorem refl (s : FirstSetMap × Bool) : FirstGrown needed s s :=
  ⟨fun _ _ has => has, fun _ key => key, id, Or.inl, fun _ _ _ has => has⟩

theorem lowered {s t : FirstSetMap × Bool} (grown : FirstGrown needed s t) (low : t.2 = false) :
    s.2 = false := by
  cases raised : s.2 with
  | false => rfl
  | true => simp [grown.flag raised] at low

theorem trans {s t r : FirstSetMap × Bool} (first : FirstGrown needed s t)
    (second : FirstGrown needed t r) : FirstGrown needed s r where
  elements A e has := second.elements A e (first.elements A e has)
  keys A key := second.keys A (first.keys A key)
  flag raised := second.flag (first.flag raised)
  strict raised := by
    rcases second.strict raised with raised | ⟨A, e, has, new⟩ | ⟨A, mem, new⟩
    · rcases first.strict raised with raised | ⟨A, e, has, new⟩ | ⟨A, mem, new⟩
      · exact Or.inl raised
      · exact Or.inr (Or.inl ⟨A, e, second.elements A e has, new⟩)
      · exact Or.inr (Or.inr ⟨A, mem, new⟩)
    · exact Or.inr (Or.inl ⟨A, e, has, fun old => new (first.elements A e old)⟩)
    · exact Or.inr (Or.inr ⟨A, mem, fun old => new (first.keys A old)⟩)
  still low A e has := first.still (second.lowered low) A e (second.still low A e has)

theorem insertFirst (left : Int) (elems : List Int) (s : FirstSetMap × Bool) :
    FirstGrown needed s (Mewa.insertFirst left elems s) where
  elements A e has := hasFirst_insertFirst.mpr (Or.inl has)
  keys A key := hasKey_insertFirst.mpr (Or.inl key)
  flag raised := insertFirst_flag.mpr (Or.inl raised)
  strict raised := by
    rcases insertFirst_flag.mp raised with raised | ⟨e, mem, new⟩
    · exact Or.inl raised
    · exact Or.inr (Or.inl ⟨left, e, hasFirst_insertFirst.mpr (Or.inr ⟨rfl, mem⟩), new⟩)
  still low A e has := by
    rcases hasFirst_insertFirst.mp has with old | ⟨rfl, mem⟩
    · exact old
    · by_contra new
      have raised := insertFirst_flag.mpr (Or.inr ⟨e, mem, new⟩)
      simp [raised] at low

end FirstGrown

/-- What is inserted for a nonterminal of a right side. -/
def insertNonTerminal (left B : Int) (state : FirstSetMap × Bool) : FirstSetMap × Bool :=
  match state.1.find B with
  | some elems => insertFirst left elems.elems state
  | none => ((insertFirst left [] state).1, true)

theorem firstOfRight_terminal {nd : ProductionNodeDef} {rest : List ProductionNodeDef}
    {state : FirstSetMap × Bool} (type : nd.type = .Terminal) :
    firstOfRight left nullable (nd :: rest) state =
      (insertFirst left [nd.index] state, false) := by
  simp [firstOfRight, type]

theorem firstOfRight_nonterminal {nd : ProductionNodeDef} {rest : List ProductionNodeDef}
    {state : FirstSetMap × Bool} (type : nd.type = .NonTerminal) :
    firstOfRight left nullable (nd :: rest) state =
      if nd.index ∈ nullable then
        firstOfRight left nullable rest (insertNonTerminal left nd.index state)
      else (insertNonTerminal left nd.index state, false) := by
  simp only [firstOfRight, type]
  rfl

theorem insertNonTerminal_grown {B : Int} (mem : B ∈ needed) (state : FirstSetMap × Bool) :
    FirstGrown needed state (insertNonTerminal left B state) := by
  unfold insertNonTerminal
  cases found : state.1.find B with
  | some elems => exact .insertFirst left elems.elems state
  | none =>
    have grown : FirstGrown needed state (insertFirst left [] state) := .insertFirst left [] state
    have missing : ¬ HasKey state.1 B := by simp [HasKey, found]
    exact ⟨grown.elements, grown.keys, fun _ => rfl, fun _ => Or.inr (Or.inr ⟨B, mem, missing⟩),
      by simp⟩

theorem hasKey_insertNonTerminal {B A : Int} {state : FirstSetMap × Bool} :
    HasKey (insertNonTerminal left B state).1 A ↔ HasKey state.1 A ∨ A = left := by
  unfold insertNonTerminal
  cases state.1.find B <;> exact hasKey_insertFirst

theorem hasFirst_insertNonTerminal {B A t : Int} {state : FirstSetMap × Bool} :
    HasFirst (insertNonTerminal left B state).1 A t ↔
      HasFirst state.1 A t ∨ A = left ∧ HasFirst state.1 B t := by
  unfold insertNonTerminal
  cases found : state.1.find B with
  | some elems =>
    have content : HasFirst state.1 B t ↔ t ∈ elems := by simp [HasFirst, found]
    rw [content]
    exact hasFirst_insertFirst
  | none =>
    have content : ¬ HasFirst state.1 B t := by simp [HasFirst, found]
    show HasFirst (insertFirst left [] state).1 A t ↔ _
    rw [hasFirst_insertFirst]
    simp [content]

theorem firstOfRight_grown
    (known : ∀ nd ∈ right, nd.type = .NonTerminal → nd.index ∈ needed)
    (state : FirstSetMap × Bool) :
    FirstGrown needed state (firstOfRight left nullable right state).1 := by
  induction right generalizing state with
  | nil => exact .refl state
  | cons nd rest ih =>
    have later := ih fun e mem => known e (List.mem_cons_of_mem nd mem)
    cases type : nd.type with
    | Unresolved =>
      simp only [firstOfRight, type]
      exact .refl state
    | Terminal =>
      rw [firstOfRight_terminal type]
      exact .insertFirst left [nd.index] state
    | NonTerminal =>
      have first : FirstGrown needed state (insertNonTerminal left nd.index state) :=
        insertNonTerminal_grown (known nd List.mem_cons_self type) state
      rw [firstOfRight_nonterminal type]
      split
      · exact first.trans (later _)
      · exact first

theorem firstOfRight_end {state : FirstSetMap × Bool} :
    (firstOfRight left nullable right state).2 = true ↔
      ∀ nd ∈ right, nd.NullableIn nullable := by
  induction right generalizing state with
  | nil => simp [firstOfRight]
  | cons nd rest ih =>
    rw [List.forall_mem_cons]
    cases type : nd.type with
    | Unresolved => simp [firstOfRight, type, ProductionNodeDef.NullableIn]
    | Terminal => simp [firstOfRight_terminal type, ProductionNodeDef.NullableIn, type]
    | NonTerminal =>
      rw [firstOfRight_nonterminal type]
      by_cases mem : nd.index ∈ nullable
      · rw [if_pos mem, ih]
        simp [ProductionNodeDef.NullableIn, type, mem]
      · rw [if_neg mem]
        simp [ProductionNodeDef.NullableIn, mem]

theorem hasKey_firstOfRight (resolved : ∀ nd ∈ right, nd.type ≠ .Unresolved) (filled : right ≠ [])
    (state : FirstSetMap × Bool) : HasKey (firstOfRight left nullable right state).1.1 left := by
  cases right with
  | nil => exact absurd rfl filled
  | cons nd rest =>
    cases type : nd.type with
    | Unresolved => exact absurd type (resolved nd List.mem_cons_self)
    | Terminal =>
      rw [firstOfRight_terminal type]
      exact hasKey_insertFirst.mpr (Or.inr rfl)
    | NonTerminal =>
      have key : HasKey (insertNonTerminal left nd.index state).1 left :=
        hasKey_insertNonTerminal.mpr (Or.inr rfl)
      rw [firstOfRight_nonterminal type]
      split
      · have grown : FirstGrown Set.univ (insertNonTerminal left nd.index state)
            (firstOfRight left nullable rest (insertNonTerminal left nd.index state)).1 :=
          firstOfRight_grown (by simp) _
        exact grown.keys left key
      · exact key

theorem hasKey_of_firstOfRight {A : Int} {state : FirstSetMap × Bool}
    (key : HasKey (firstOfRight left nullable right state).1.1 A) :
    HasKey state.1 A ∨ A = left := by
  induction right generalizing state with
  | nil => exact Or.inl key
  | cons nd rest ih =>
    cases type : nd.type with
    | Unresolved =>
      simp only [firstOfRight, type] at key
      exact Or.inl key
    | Terminal =>
      rw [firstOfRight_terminal type] at key
      exact hasKey_insertFirst.mp key
    | NonTerminal =>
      rw [firstOfRight_nonterminal type] at key
      split at key
      · rcases ih key with old | same
        · exact hasKey_insertNonTerminal.mp old
        · exact Or.inr same
      · exact hasKey_insertNonTerminal.mp key

/-- What is collected from a right side: its leading terminals, and what the sets of the leading
    nonterminals have. -/
def FeedsLeft (nullable : FlatSet Int) (P : Int → Int → Prop) (left : Int)
    (right : List ProductionNodeDef) : Prop :=
  ∀ x, Leading nullable right x → (x.type = .Terminal → P left x.index) ∧
    (x.type = .NonTerminal → ∀ t, P x.index t → P left t)

theorem feedsLeft_cons {P : Int → Int → Prop} {nd : ProductionNodeDef}
    {rest : List ProductionNodeDef} : FeedsLeft nullable P left (nd :: rest) ↔
      ((nd.type = .Terminal → P left nd.index) ∧
        (nd.type = .NonTerminal → ∀ t, P nd.index t → P left t)) ∧
      (nd.NullableIn nullable → FeedsLeft nullable P left rest) := by
  constructor
  · intro feeds
    exact ⟨feeds nd (leading_cons.mpr (Or.inl rfl)), fun first x leading =>
      feeds x (leading_cons.mpr (Or.inr ⟨first, leading⟩))⟩
  · rintro ⟨here, later⟩ x leading
    rcases leading_cons.mp leading with rfl | ⟨first, leading⟩
    · exact here
    · exact later first x leading

theorem firstOfRight_within {P : Int → Int → Prop} (feeds : FeedsLeft nullable P left right)
    {state : FirstSetMap × Bool} (within : ∀ A t, HasFirst state.1 A t → P A t) :
    ∀ A t, HasFirst (firstOfRight left nullable right state).1.1 A t → P A t := by
  induction right generalizing state with
  | nil => exact within
  | cons nd rest ih =>
    obtain ⟨⟨terminal, nonterminal⟩, later⟩ := feedsLeft_cons.mp feeds
    cases type : nd.type with
    | Unresolved =>
      simp only [firstOfRight, type]
      exact within
    | Terminal =>
      rw [firstOfRight_terminal type]
      intro A t has
      rcases hasFirst_insertFirst.mp has with old | ⟨rfl, mem⟩
      · exact within A t old
      · rw [List.mem_singleton.mp mem]
        exact terminal type
    | NonTerminal =>
      have within' : ∀ A t, HasFirst (insertNonTerminal left nd.index state).1 A t → P A t := by
        intro A t has
        rcases hasFirst_insertNonTerminal.mp has with old | ⟨rfl, other⟩
        · exact within A t old
        · exact nonterminal type t (within _ t other)
      rw [firstOfRight_nonterminal type]
      split
      · rename_i mem
        exact ih (later ⟨type, mem⟩) within'
      · exact within'

theorem firstOfRight_still (known : ∀ nd ∈ right, nd.type = .NonTerminal → nd.index ∈ needed)
    {state : FirstSetMap × Bool} (low : (firstOfRight left nullable right state).1.2 = false) :
    FeedsLeft nullable (HasFirst state.1) left right := by
  induction right generalizing state with
  | nil => exact fun x leading => absurd leading not_leading_nil
  | cons nd rest ih =>
    rw [feedsLeft_cons]
    have known' := fun e mem => known e (List.mem_cons_of_mem nd mem)
    cases type : nd.type with
    | Unresolved => simp [ProductionNodeDef.NullableIn, type]
    | Terminal =>
      rw [firstOfRight_terminal type] at low
      have grown : FirstGrown needed state (insertFirst left [nd.index] state) :=
        .insertFirst left [nd.index] state
      have has : HasFirst (insertFirst left [nd.index] state).1 left nd.index :=
        hasFirst_insertFirst.mpr (Or.inr ⟨rfl, List.mem_singleton_self _⟩)
      refine ⟨⟨fun _ => grown.still low left nd.index has, by simp⟩, fun ⟨other, _⟩ => ?_⟩
      exact absurd (type.symm.trans other) (by simp)
    | NonTerminal =>
      have grown : FirstGrown needed state (insertNonTerminal left nd.index state) :=
        insertNonTerminal_grown (known nd List.mem_cons_self type) state
      have here (low : (insertNonTerminal left nd.index state).2 = false) (t : Int)
          (has : HasFirst state.1 nd.index t) : HasFirst state.1 left t :=
        grown.still low left t (hasFirst_insertNonTerminal.mpr (Or.inr ⟨rfl, has⟩))
      rw [firstOfRight_nonterminal type] at low
      split at low
      · rename_i mem
        have along : FirstGrown needed (insertNonTerminal left nd.index state)
            (firstOfRight left nullable rest (insertNonTerminal left nd.index state)).1 :=
          firstOfRight_grown known' _
        have later := along.lowered low
        have same (A t : Int) : HasFirst (insertNonTerminal left nd.index state).1 A t ↔
            HasFirst state.1 A t := ⟨grown.still later A t, grown.elements A t⟩
        have feeds := ih known' low
        refine ⟨⟨by simp, fun _ => here later⟩, fun _ x leading => ?_⟩
        simpa only [same] using feeds x leading
      · rename_i not_mem
        exact ⟨⟨by simp, fun _ => here low⟩, fun ⟨_, mem⟩ => absurd mem not_mem⟩

end Grown

section FirstRounds

variable {prodlist : List ProductionDef} {nullable : FlatSet Int}

/-- What is collected for a symbol in front: a terminal, or the marker 0 if it can be erased. -/
def Marks (rules : Set (ContextFreeRule Int Int)) (e : Symbol Int Int) (t : Int) : Prop :=
  e = .terminal t ∨ t = 0 ∧ Erasable rules e

theorem marks_of_front_terminal {rules : Set (ContextFreeRule Int Int)} {e : Symbol Int Int}
    {i t : Int} (front : Front rules (.terminal i) e) (marks : Marks rules e t) : i = t := by
  rw [front_terminal front] at marks
  rcases marks with same | ⟨-, erasable⟩
  · exact Symbol.terminal.inj same
  · exact absurd erasable not_erasable_terminal

def Collected (rules : Set (ContextFreeRule Int Int)) (A t : Int) : Prop :=
  ∃ e, Front rules (.nonterminal A) e ∧ Marks rules e t

theorem firstStep_eq (state : (FirstSetMap × Bool) × FlatSet Int) (prod : ProductionDef) :
    firstStep nullable state prod =
      if ∀ nd ∈ prod.right, nd.NullableIn nullable then
        (insertFirst prod.left.index [0]
          (firstOfRight prod.left.index nullable prod.right state.1).1,
          state.2.insert prod.left.index)
      else ((firstOfRight prod.left.index nullable prod.right state.1).1, state.2) := by
  have at_end : (firstOfRight prod.left.index nullable prod.right state.1).2 = true ↔
      ∀ nd ∈ prod.right, nd.NullableIn nullable := firstOfRight_end
  unfold firstStep
  rcases result : firstOfRight prod.left.index nullable prod.right state.1 with ⟨map, ended⟩
  rw [result] at at_end
  cases ended with
  | false => rw [if_neg fun all => by simpa using at_end.mpr all]
  | true => rw [if_pos (at_end.mp rfl)]

theorem firstStep_fst (state : (FirstSetMap × Bool) × FlatSet Int) (prod : ProductionDef) :
    (firstStep nullable state prod).1 =
      if ∀ nd ∈ prod.right, nd.NullableIn nullable then
        insertFirst prod.left.index [0]
          (firstOfRight prod.left.index nullable prod.right state.1).1
      else (firstOfRight prod.left.index nullable prod.right state.1).1 := by
  rw [firstStep_eq, apply_ite Prod.fst]

theorem firstStep_snd (state : (FirstSetMap × Bool) × FlatSet Int) (prod : ProductionDef) :
    (firstStep nullable state prod).2 =
      if ∀ nd ∈ prod.right, nd.NullableIn nullable then state.2.insert prod.left.index
      else state.2 := by
  rw [firstStep_eq, apply_ite Prod.snd]

/-- One round over the productions, with the set of the nonterminals found to be nullable. -/
def firstRound (prodlist : List ProductionDef) (nullable : FlatSet Int)
    (rt : FirstSetMap × FlatSet Int) : (FirstSetMap × FlatSet Int) × Bool :=
  let ((map, changed), verify) := prodlist.foldl (firstStep nullable) ((rt.1, false), rt.2)
  ((map, verify), changed)

theorem firstLoop_succ (prodlist : List ProductionDef) (nullable : FlatSet Int) (fuel : Nat)
    (rt : FirstSetMap × FlatSet Int) :
    firstLoop prodlist nullable (fuel + 1) rt.1 rt.2 =
      if (firstRound prodlist nullable rt).2 then
        firstLoop prodlist nullable fuel (firstRound prodlist nullable rt).1.1
          (firstRound prodlist nullable rt).1.2
      else .ok (firstRound prodlist nullable rt).1 := rfl

variable (defined : EveryDefined prodlist)
include defined

theorem firstStep_grown (state : (FirstSetMap × Bool) × FlatSet Int) (prod : ProductionDef)
    (mem : prod ∈ prodlist) :
    FirstGrown (leftsOf prodlist) state.1 (firstStep nullable state prod).1 := by
  have along : FirstGrown (leftsOf prodlist) state.1
      (firstOfRight prod.left.index nullable prod.right state.1).1 :=
    firstOfRight_grown (defined.known mem) state.1
  rw [firstStep_fst]
  split
  · exact along.trans (.insertFirst _ _ _)
  · exact along

theorem firstRound_grown (rt : FirstSetMap × FlatSet Int) :
    FirstGrown (leftsOf prodlist) (rt.1, false)
      ((firstRound prodlist nullable rt).1.1, (firstRound prodlist nullable rt).2) :=
  foldl_related (R := fun s t : (FirstSetMap × Bool) × FlatSet Int =>
      FirstGrown (leftsOf prodlist) s.1 t.1)
    (fun s => .refl s.1) (fun first second => first.trans second) (firstStep_grown defined)
    ((rt.1, false), rt.2)

theorem firstRound_between (rt : FirstSetMap × FlatSet Int) {prod : ProductionDef}
    (mem : prod ∈ prodlist) :
    ∃ mid, FirstGrown (leftsOf prodlist) (rt.1, false) mid.1 ∧
      FirstGrown (leftsOf prodlist) (firstStep nullable mid prod).1
        ((firstRound prodlist nullable rt).1.1, (firstRound prodlist nullable rt).2) :=
  foldl_between (R := fun s t : (FirstSetMap × Bool) × FlatSet Int =>
      FirstGrown (leftsOf prodlist) s.1 t.1)
    (fun s => .refl s.1) (fun first second => first.trans second) (firstStep_grown defined)
    ((rt.1, false), rt.2) mem

theorem hasKey_firstRound (rt : FirstSetMap × FlatSet Int) {A : Int}
    (left : A ∈ leftsOf prodlist) : HasKey (firstRound prodlist nullable rt).1.1 A := by
  obtain ⟨prod, mem, rfl⟩ := left
  obtain ⟨mid, -, last⟩ := firstRound_between defined rt mem
  apply last.keys
  rw [firstStep_fst]
  split
  · exact hasKey_insertFirst.mpr (Or.inr rfl)
  · rename_i some_not
    refine hasKey_firstOfRight (defined.resolved prod mem) (fun empty => some_not ?_) mid.1
    simp [empty]

omit defined in
theorem hasKey_of_firstRound {rt : FirstSetMap × FlatSet Int}
    (within : ∀ A, HasKey rt.1 A → A ∈ leftsOf prodlist) :
    ∀ A, HasKey (firstRound prodlist nullable rt).1.1 A → A ∈ leftsOf prodlist := by
  refine List.foldlRecOn prodlist (firstStep nullable) (b := ((rt.1, false), rt.2))
    (motive := fun state => ∀ A, HasKey state.1.1 A → A ∈ leftsOf prodlist) within ?_
  intro state within prod mem A key
  have along (key : HasKey (firstOfRight prod.left.index nullable prod.right state.1).1.1 A) :
      A ∈ leftsOf prodlist := by
    rcases hasKey_of_firstOfRight key with old | rfl
    · exact within A old
    · exact ⟨prod, mem, rfl⟩
  rw [firstStep_fst] at key
  split at key
  · rcases hasKey_insertFirst.mp key with old | rfl
    · exact along old
    · exact ⟨prod, mem, rfl⟩
  · exact along key

end FirstRounds

/-! What the sets hold at the end, if the nullable nonterminals are exact. -/

/-- The set of nonterminals from which the empty string is derived. -/
def NullableExact (prodlist : List ProductionDef) (nullable : FlatSet Int) : Prop :=
  ∀ A, A ∈ nullable ↔ Erasable (rulesOf prodlist) (.nonterminal A)

section Content

variable {prodlist : List ProductionDef} {nullable : FlatSet Int}
  {right : List ProductionNodeDef} {x : ProductionNodeDef}
  (exact_nullable : NullableExact prodlist nullable)
include exact_nullable

theorem nullableIn_iff (resolved : x.type ≠ .Unresolved) :
    x.NullableIn nullable ↔ Erasable (rulesOf prodlist) (symbolOf x.toProductionNode) := by
  rw [erasable_symbolOf resolved, ← exact_nullable]
  rfl

theorem Leading.symbols (leading : Leading nullable right x)
    (resolved : ∀ nd ∈ right, nd.type ≠ .Unresolved) :
    ∃ before after,
      right.map (fun nd => symbolOf nd.toProductionNode) =
        before ++ symbolOf x.toProductionNode :: after ∧
      ∀ e ∈ before, Erasable (rulesOf prodlist) e := by
  obtain ⟨before, after, rfl, all⟩ := leading
  rw [List.map_append, List.map_cons]
  refine ⟨_, _, rfl, fun e mem => ?_⟩
  obtain ⟨nd, mem_nd, rfl⟩ := List.mem_map.mp mem
  exact (nullableIn_iff exact_nullable (resolved nd (by simp [mem_nd]))).mp (all nd mem_nd)

theorem leading_of_symbols (resolved : ∀ nd ∈ right, nd.type ≠ .Unresolved)
    {before after : List (Symbol Int Int)} {s : Symbol Int Int}
    (split : right.map (fun nd => symbolOf nd.toProductionNode) = before ++ s :: after)
    (erased : ∀ e ∈ before, Erasable (rulesOf prodlist) e) :
    ∃ x, Leading nullable right x ∧ symbolOf x.toProductionNode = s := by
  obtain ⟨first, rest, rfl, rfl, behind⟩ := List.map_eq_append_iff.mp split
  obtain ⟨x, after', rfl, rfl, rfl⟩ := List.map_eq_cons_iff.mp behind
  refine ⟨x, ⟨first, after', rfl, fun e mem => ?_⟩, rfl⟩
  refine (nullableIn_iff exact_nullable (resolved e (by simp [mem]))).mpr (erased _ ?_)
  exact List.mem_map.mpr ⟨e, mem, rfl⟩

variable (defined : EveryDefined prodlist)
include defined

theorem feedsLeft_collected {prod : ProductionDef} (mem : prod ∈ prodlist) :
    FeedsLeft nullable (Collected (rulesOf prodlist))
      prod.left.index prod.right := by
  have rule : ruleOf prod ∈ rulesOf prodlist := ⟨prod, mem, rfl⟩
  intro x leading
  obtain ⟨before, after, split, erased⟩ :=
    leading.symbols exact_nullable (defined.resolved prod mem)
  constructor
  · intro type
    rw [symbolOf_terminal type] at split
    exact ⟨_, .rule (r := ruleOf prod) rule split erased (.refl _), Or.inl rfl⟩
  · rintro type t ⟨e, front, marks⟩
    rw [symbolOf_nonterminal type] at split
    exact ⟨e, .rule (r := ruleOf prod) rule split erased front, marks⟩

theorem erasable_of_all {prod : ProductionDef} (mem : prod ∈ prodlist)
    (all : ∀ nd ∈ prod.right, nd.NullableIn nullable) :
    Erasable (rulesOf prodlist) (.nonterminal prod.left.index) := by
  refine .rule (r := ruleOf prod) ⟨prod, mem, rfl⟩ fun s mem_s => ?_
  obtain ⟨nd, mem_nd, rfl⟩ := List.mem_map.mp mem_s
  exact (nullableIn_iff exact_nullable (defined.resolved prod mem nd mem_nd)).mp (all nd mem_nd)

theorem all_of_erasable {A : Int} (erasable : Erasable (rulesOf prodlist) (.nonterminal A)) :
    ∃ prod ∈ prodlist, prod.left.index = A ∧ ∀ nd ∈ prod.right, nd.NullableIn nullable := by
  obtain ⟨prod, mem, left, all⟩ := erasable_left erasable
  refine ⟨prod, mem, left, fun nd mem_nd => ?_⟩
  exact (nullableIn_iff exact_nullable (defined.resolved prod mem nd mem_nd)).mpr (all nd mem_nd)

theorem firstRound_collected {rt : FirstSetMap × FlatSet Int}
    (sound : ∀ A t, HasFirst rt.1 A t → Collected (rulesOf prodlist) A t) :
    ∀ A t, HasFirst (firstRound prodlist nullable rt).1.1 A t →
      Collected (rulesOf prodlist) A t := by
  refine List.foldlRecOn prodlist (firstStep nullable) (b := ((rt.1, false), rt.2))
    (motive := fun state => ∀ A t, HasFirst state.1.1 A t →
      Collected (rulesOf prodlist) A t) sound ?_
  intro state sound prod mem
  have along := firstOfRight_within
    (feedsLeft_collected exact_nullable defined mem) sound
  rw [firstStep_fst]
  split
  · rename_i all
    intro A t has
    rcases hasFirst_insertFirst.mp has with old | ⟨rfl, marker⟩
    · exact along A t old
    · exact ⟨_, .refl _, Or.inr ⟨List.mem_singleton.mp marker,
        erasable_of_all exact_nullable defined mem all⟩⟩
  · exact along

omit exact_nullable in
/-- After a round without a change nothing is left to collect from a production. -/
theorem firstRound_closed {rt : FirstSetMap × FlatSet Int}
    (still : (firstRound prodlist nullable rt).2 = false) {prod : ProductionDef}
    (mem : prod ∈ prodlist) :
    FeedsLeft nullable (HasFirst (firstRound prodlist nullable rt).1.1) prod.left.index
        prod.right ∧
      ((∀ nd ∈ prod.right, nd.NullableIn nullable) →
        HasFirst (firstRound prodlist nullable rt).1.1 prod.left.index 0) := by
  obtain ⟨mid, -, last⟩ := firstRound_between defined rt mem
  have step : FirstGrown (leftsOf prodlist) mid.1 (firstStep nullable mid prod).1 :=
    firstStep_grown defined mid prod mem
  have low := last.lowered still
  have same (A t : Int) : HasFirst mid.1.1 A t ↔
      HasFirst (firstRound prodlist nullable rt).1.1 A t :=
    ⟨fun has => last.elements A t (step.elements A t has),
      fun has => step.still low A t (last.still still A t has)⟩
  have along : FirstGrown (leftsOf prodlist) mid.1
      (firstOfRight prod.left.index nullable prod.right mid.1).1 :=
    firstOfRight_grown (defined.known mem) mid.1
  constructor
  · have low' : (firstOfRight prod.left.index nullable prod.right mid.1).1.2 = false := by
      rw [firstStep_fst] at low
      split at low
      · have grown : FirstGrown (leftsOf prodlist)
            (firstOfRight prod.left.index nullable prod.right mid.1).1
            (insertFirst prod.left.index [0]
              (firstOfRight prod.left.index nullable prod.right mid.1).1) := .insertFirst _ _ _
        exact grown.lowered low
      · exact low
    have feeds := firstOfRight_still (defined.known mem) low'
    intro x leading
    simpa only [same] using feeds x leading
  · intro all
    apply last.elements
    rw [firstStep_fst, if_pos all]
    exact hasFirst_insertFirst.mpr (Or.inr ⟨rfl, List.mem_singleton_self 0⟩)

theorem hasFirst_of_front {rt : FirstSetMap × FlatSet Int}
    (still : (firstRound prodlist nullable rt).2 = false) {s e : Symbol Int Int} {t : Int}
    (front : Front (rulesOf prodlist) s e) (marks : Marks (rulesOf prodlist) e t) :
    ∀ A, s = .nonterminal A → HasFirst (firstRound prodlist nullable rt).1.1 A t := by
  induction front with
  | refl s =>
    rintro A rfl
    rcases marks with terminal | ⟨rfl, erasable⟩
    · simp at terminal
    · obtain ⟨prod, mem, rfl, all⟩ := all_of_erasable exact_nullable defined erasable
      exact (firstRound_closed defined still mem).2 all
  | @rule r before after s e rule split erased front ih =>
    rintro A same
    obtain ⟨prod, mem, rfl⟩ := rule
    cases same
    obtain ⟨x, leading, rfl⟩ := leading_of_symbols exact_nullable
      (defined.resolved prod mem) split erased
    obtain ⟨terminal, nonterminal⟩ := (firstRound_closed defined still mem).1 x leading
    cases type : x.type with
    | Unresolved => exact absurd type (defined.resolved prod mem x leading.mem)
    | Terminal =>
      rw [symbolOf_terminal type] at front
      rw [← (marks_of_front_terminal front marks)]
      exact terminal type
    | NonTerminal => exact nonterminal type t (ih marks x.index (symbolOf_nonterminal type))

theorem firstRound_verify {rt : FirstSetMap × FlatSet Int} (within : ∀ A ∈ rt.2, A ∈ nullable) :
    (firstRound prodlist nullable rt).1.2 = nullable := by
  have content : ∀ (l : List ProductionDef) (state : (FirstSetMap × Bool) × FlatSet Int) (A : Int),
      A ∈ (l.foldl (firstStep nullable) state).2 ↔ A ∈ state.2 ∨
        ∃ prod ∈ l, prod.left.index = A ∧ ∀ nd ∈ prod.right, nd.NullableIn nullable := by
    intro l
    induction l with
    | nil => simp
    | cons prod l ih =>
      intro state A
      rw [List.foldl_cons, ih, firstStep_snd, List.exists_mem_cons_iff]
      by_cases all : ∀ nd ∈ prod.right, nd.NullableIn nullable
      · rw [if_pos all, SortedSet.mem_insert]
        simp only [eq_comm (a := A)]
        tauto
      · rw [if_neg all]
        tauto
  refine SortedSet.eq_of_mem_iff fun A => ?_
  show A ∈ (prodlist.foldl (firstStep nullable) ((rt.1, false), rt.2)).2 ↔ _
  rw [content]
  constructor
  · rintro (old | ⟨prod, mem, rfl, all⟩)
    · exact within A old
    · exact (exact_nullable _).mpr (erasable_of_all exact_nullable defined mem all)
  · intro mem
    exact Or.inr (all_of_erasable exact_nullable defined ((exact_nullable A).mp mem))

/-- The view of a map in which every round with a change adds something: its keys, and what it has
    for them. -/
def entriesOf (rt : FirstSetMap × FlatSet Int) : Set (Int × Option Int) :=
  {e | HasKey rt.1 e.1 ∧ ∀ t, e.2 = some t → HasFirst rt.1 e.1 t}

omit exact_nullable in
theorem entriesOf_grow {rt : FirstSetMap × FlatSet Int}
    (changed : (firstRound prodlist nullable rt).2 = true) :
    entriesOf rt ⊂ entriesOf (firstRound prodlist nullable rt).1 := by
  have grown : FirstGrown (leftsOf prodlist) (rt.1, false)
      ((firstRound prodlist nullable rt).1.1, (firstRound prodlist nullable rt).2) :=
    firstRound_grown defined rt
  apply Set.ssubset_iff_exists.mpr
  constructor
  · rintro ⟨A, t⟩ ⟨key, has⟩
    exact ⟨grown.keys A key, fun t same => grown.elements A t (has t same)⟩
  · rcases grown.strict changed with raised | ⟨A, t, has, new⟩ | ⟨A, mem, new⟩
    · simp at raised
    · refine ⟨(A, some t), ⟨hasKey_of_hasFirst has, fun t' same => ?_⟩, fun old => ?_⟩
      · rw [← Option.some.inj same]
        exact has
      · exact new (old.2 t rfl)
    · refine ⟨(A, none), ⟨hasKey_firstRound defined rt mem, by simp⟩, fun old => ?_⟩
      exact new old.1

theorem getNonTerminalFirstSetMap_ends :
    ∃ (firstMap : FirstSetMap) (n : Nat), (∀ A, HasKey firstMap A ↔ A ∈ leftsOf prodlist) ∧
      (∀ A t, HasFirst firstMap A t ↔ Collected (rulesOf prodlist) A t) ∧
      ∀ fuel, n ≤ fuel → getNonTerminalFirstSetMap fuel prodlist nullable = .ok firstMap := by
  let marks : Set (Option Int) :=
    {t | t = none ∨ t = some 0 ∨ ∃ prod ∈ prodlist, ∃ nd ∈ prod.right, t = some nd.index}
  have marks_finite : marks.Finite := by
    have image : marks = {t | t ∈ none :: some 0 ::
        prodlist.flatMap fun prod => prod.right.map fun nd => some nd.index} := by
      ext t
      simp [marks, eq_comm]
    rw [image]
    exact List.finite_toSet _
  have bounded {A t : Int} (collected : Collected (rulesOf prodlist) A t) :
      some t ∈ marks := by
    obtain ⟨e, front, rfl | ⟨rfl, -⟩⟩ := collected
    · obtain ⟨r, ⟨prod, mem, rfl⟩, mem_t⟩ := front.terminal_mem (by simp)
      obtain ⟨nd, mem_nd, symbol⟩ := List.mem_map.mp mem_t
      refine Or.inr (Or.inr ⟨prod, mem, nd, mem_nd, ?_⟩)
      unfold symbolOf at symbol
      split at symbol
      · rw [Symbol.terminal.inj symbol]
      · simp at symbol
    · exact Or.inr (Or.inl rfl)
  let loop (fuel : Nat) (rt : FirstSetMap × FlatSet Int) :=
    firstLoop prodlist nullable fuel rt.1 rt.2
  have succ (fuel : Nat) (rt : FirstSetMap × FlatSet Int) : loop (fuel + 1) rt =
      if (firstRound prodlist nullable rt).2 then loop fuel (firstRound prodlist nullable rt).1
      else .ok (firstRound prodlist nullable rt).1 := firstLoop_succ prodlist nullable fuel rt
  obtain ⟨last, n, ⟨keys, sound, verify⟩, still, ends⟩ := rounds_end
    (fun rt => (∀ A, HasKey rt.1 A → A ∈ leftsOf prodlist) ∧
      (∀ A t, HasFirst rt.1 A t → Collected (rulesOf prodlist) A t) ∧
      ∀ A ∈ rt.2, A ∈ nullable)
    entriesOf (leftsOf prodlist ×ˢ marks) succ
    (by
      rintro rt ⟨keys, sound, verify⟩
      refine ⟨hasKey_of_firstRound keys, firstRound_collected exact_nullable defined sound, ?_⟩
      rw [firstRound_verify exact_nullable defined verify]
      exact fun A mem => mem)
    ((leftsOf_finite prodlist).prod marks_finite)
    (by
      rintro rt ⟨keys, sound, -⟩ ⟨A, t⟩ ⟨key, has⟩
      refine ⟨keys A key, ?_⟩
      cases t with
      | none => exact Or.inl rfl
      | some t => exact bounded (sound A t (has t rfl)))
    (fun rt _ changed => entriesOf_grow defined changed)
    (s := (SortedMap.empty, SortedSet.empty)) (by simp [HasKey, HasFirst])
  refine ⟨(firstRound prodlist nullable last).1.1, n, fun A => ?_, fun A t => ?_,
    fun fuel enough => ?_⟩
  · exact ⟨hasKey_of_firstRound keys A, hasKey_firstRound defined last⟩
  · constructor
    · exact firstRound_collected exact_nullable defined sound A t
    · rintro ⟨e, front, marks⟩
      exact hasFirst_of_front exact_nullable defined still front marks A rfl
  · have found := firstRound_verify exact_nullable defined verify
    have run : firstLoop prodlist nullable fuel SortedMap.empty SortedSet.empty =
        .ok (firstRound prodlist nullable last).1 := ends fuel enough
    unfold getNonTerminalFirstSetMap
    rw [run, ok_bind]
    simp [found]

end Content

/-! Whatever the bound, only the bound can make a calculation fail. -/

section Calculated

variable {prodlist : List ProductionDef} {nullable : FlatSet Int} {firstMap : FirstSetMap}

theorem getNullableNonterminalSet_yields (defined : EveryDefined prodlist) (fuel : Nat) :
    Yields (· = Failure.outOfFuel) (NullableExact prodlist)
      (getNullableNonterminalSet fuel prodlist) := by
  obtain ⟨nullable, n, exact_nullable, ends⟩ := getNullableNonterminalSet_ends defined
  have settled := rounds_settled (fun _ => rfl) (nullableLoop_succ prodlist) ends fuel
  unfold getNullableNonterminalSet
  rcases settled with done | failed
  · rw [done]
    exact Yields.ok_iff.mpr exact_nullable
  · rw [failed]
    exact Yields.error_iff.mpr rfl

structure FirstsFound (prodlist : List ProductionDef) (nullable : FlatSet Int)
    (firstMap : FirstSetMap) : Prop where
  nullable : NullableExact prodlist nullable
  keys : ∀ A, HasKey firstMap A ↔ A ∈ leftsOf prodlist
  content : ∀ A t, HasFirst firstMap A t ↔ Collected (rulesOf prodlist) A t

theorem getNonTerminalFirstSetMap_yields (defined : EveryDefined prodlist)
    (exact_nullable : NullableExact prodlist nullable) (fuel : Nat) :
    Yields (· = Failure.outOfFuel) (FirstsFound prodlist nullable)
      (getNonTerminalFirstSetMap fuel prodlist nullable) := by
  obtain ⟨firstMap, n, keys, content, ends⟩ :=
    getNonTerminalFirstSetMap_ends exact_nullable defined
  let loop (fuel : Nat) (rt : FirstSetMap × FlatSet Int) :=
    firstLoop prodlist nullable fuel rt.1 rt.2
  have loop_ends (fuel : Nat) (enough : n ≤ fuel) :
      loop fuel (SortedMap.empty, SortedSet.empty) = .ok (firstMap, nullable) := by
    obtain ⟨⟨rt, verify⟩, run, verified⟩ := bind_eq_ok.mp (ends fuel enough)
    simp only at verified
    split at verified
    · simp [logicError] at verified
    · rename_i same
      rw [← Except.ok.inj verified, ← not_not.mp same]
      exact run
  have settled := rounds_settled (fun _ => rfl)
    (fun fuel rt => firstLoop_succ prodlist nullable fuel rt) loop_ends fuel
  have calculated : getNonTerminalFirstSetMap fuel prodlist nullable =
      loop fuel (SortedMap.empty, SortedSet.empty) >>= fun rt =>
        if rt.2 ≠ nullable then logicError else .ok rt.1 := rfl
  rw [calculated]
  rcases settled with done | failed
  · rw [done, ok_bind, if_neg (not_not.mpr rfl)]
    exact Yields.ok_iff.mpr ⟨exact_nullable, keys, content⟩
  · rw [failed, error_bind]
    exact Yields.error_iff.mpr rfl

end Calculated

/-! The sets of the rests of the right sides. -/

section Rest

variable {prodlist : List ProductionDef} {nullable : FlatSet Int} {firstMap : FirstSetMap}
  {rest : List ProductionNodeDef}

theorem mem_getLr1FirstSet (resolved : ∀ nd ∈ rest, nd.type ≠ .Unresolved)
    (keys : ∀ nd ∈ rest, nd.type = .NonTerminal → HasKey firstMap nd.index) {rt : FlatSet Int}
    {t : Int} :
    t ∈ (getLr1FirstSet firstMap nullable rest rt).1 ↔ t ∈ rt ∨ ∃ x, Leading nullable rest x ∧
      (x.type = .Terminal ∧ t = x.index ∨ x.type = .NonTerminal ∧ HasFirst firstMap x.index t) := by
  induction rest generalizing rt with
  | nil => simp [getLr1FirstSet, not_leading_nil]
  | cons nd rest ih =>
    have resolved' := fun e mem => resolved e (List.mem_cons_of_mem nd mem)
    have keys' := fun e mem => keys e (List.mem_cons_of_mem nd mem)
    simp only [leading_cons, or_and_right, exists_or, exists_eq_left]
    cases type : nd.type with
    | Unresolved => exact absurd type (resolved nd List.mem_cons_self)
    | Terminal =>
      simp [getLr1FirstSet, type, ProductionNodeDef.NullableIn, or_comm]
    | NonTerminal =>
      obtain ⟨elems, found⟩ := keys nd List.mem_cons_self type
      have here : HasFirst firstMap nd.index t ↔ t ∈ elems := by simp [HasFirst, found]
      simp only [getLr1FirstSet, type, found, here]
      by_cases mem : nd.index ∈ nullable
      · rw [if_pos mem, ih resolved' keys', SortedSet.mem_insertAll, ← SortedSet.mem_def]
        simp only [ProductionNodeDef.NullableIn, type, mem]
        simp only [reduceCtorEq, false_and, true_and, false_or]
        rw [or_comm (a := t ∈ elems), or_assoc]
      · rw [if_neg mem, SortedSet.mem_insertAll, ← SortedSet.mem_def]
        simp [ProductionNodeDef.NullableIn, mem, or_comm]

theorem getLr1FirstSet_inherit (resolved : ∀ nd ∈ rest, nd.type ≠ .Unresolved)
    (keys : ∀ nd ∈ rest, nd.type = .NonTerminal → HasKey firstMap nd.index) {rt : FlatSet Int} :
    (getLr1FirstSet firstMap nullable rest rt).2 = true ↔
      ∀ nd ∈ rest, nd.NullableIn nullable := by
  induction rest generalizing rt with
  | nil => simp [getLr1FirstSet]
  | cons nd rest ih =>
    have resolved' := fun e mem => resolved e (List.mem_cons_of_mem nd mem)
    have keys' := fun e mem => keys e (List.mem_cons_of_mem nd mem)
    rw [List.forall_mem_cons]
    cases type : nd.type with
    | Unresolved => exact absurd type (resolved nd List.mem_cons_self)
    | Terminal => simp [getLr1FirstSet, type, ProductionNodeDef.NullableIn]
    | NonTerminal =>
      obtain ⟨elems, found⟩ := keys nd List.mem_cons_self type
      simp only [getLr1FirstSet, type, found]
      by_cases mem : nd.index ∈ nullable
      · rw [if_pos mem, ih resolved' keys']
        simp [ProductionNodeDef.NullableIn, type, mem]
      · rw [if_neg mem]
        simp [ProductionNodeDef.NullableIn, mem]

end Rest

def symbolsOf (right : List ProductionNodeDef) : List (Symbol Int Int) :=
  right.map fun nd => symbolOf nd.toProductionNode

/-- The set of a nonterminal has the terminals that begin a string derived from it, and 0 if and
    only if the empty string is derived. -/
def FirstExact (prodlist : List ProductionDef) (firstMap : FirstSetMap) (A : Int) : Prop :=
  ∃ elems, firstMap.find A = some elems ∧ ∀ t, t ∈ elems ↔
    (∃ v, Derives (rulesOf prodlist) [.nonterminal A] (.terminal t :: v)) ∨
      t = 0 ∧ Derives (rulesOf prodlist) [.nonterminal A] []

/-- The set of the rest of a right side has the terminals that can begin it. -/
def RestExact (prodlist : List ProductionDef) (nullable : FlatSet Int) (firstMap : FirstSetMap)
    (rest : List ProductionNodeDef) : Prop :=
  ∀ t, t ∈ (getLr1FirstSet firstMap nullable rest SortedSet.empty).1 ↔
    ∃ v, Derives (rulesOf prodlist) (symbolsOf rest) (.terminal t :: v)

def InheritExact (prodlist : List ProductionDef) (nullable : FlatSet Int)
    (firstMap : FirstSetMap) (rest : List ProductionNodeDef) : Prop :=
  (getLr1FirstSet firstMap nullable rest SortedSet.empty).2 = true ↔
    Derives (rulesOf prodlist) (symbolsOf rest) []

structure SetsExact (prodlist : List ProductionDef) (nullable : FlatSet Int)
    (firstMap : FirstSetMap) : Prop where
  erased : ∀ A, A ∈ nullable ↔ Derives (rulesOf prodlist) [.nonterminal A] []
  first : ∀ A ∈ leftsOf prodlist, FirstExact prodlist firstMap A
  rest : ∀ prod ∈ prodlist, ∀ pos,
    RestExact prodlist nullable firstMap (prod.right.drop pos)
  inherit : ∀ prod ∈ prodlist, ∀ pos,
    InheritExact prodlist nullable firstMap (prod.right.drop pos)

/-- A string from which one is derived that begins with a symbol that can be erased. -/
def BeginsErasable (prodlist : List ProductionDef) (u : List (Symbol Int Int)) : Prop :=
  ∃ e v, Derives (rulesOf prodlist) u (e :: v) ∧ Derives (rulesOf prodlist) [e] []

section Exact

variable {prodlist : List ProductionDef} {nullable : FlatSet Int} {firstMap : FirstSetMap}

theorem erasable_iff {s : Symbol Int Int} :
    Erasable (rulesOf prodlist) s ↔ Derives (rulesOf prodlist) [s] [] := by
  rw [derives_nil_iff]
  simp

theorem frontOf_marks_iff {u : List (Symbol Int Int)} {t : Int} :
    (∃ e, FrontOf (rulesOf prodlist) u e ∧ Marks (rulesOf prodlist) e t) ↔
      (∃ v, Derives (rulesOf prodlist) u (.terminal t :: v)) ∨
        t = 0 ∧ BeginsErasable prodlist u := by
  constructor
  · rintro ⟨e, front, rfl | ⟨rfl, erasable⟩⟩
    · exact Or.inl (derives_front_iff.mpr front)
    · obtain ⟨v, derives⟩ := derives_front_iff.mpr front
      exact Or.inr ⟨rfl, e, v, derives, erasable.derives⟩
  · rintro (derives | ⟨rfl, e, v, derives, erased⟩)
    · exact ⟨_, derives_front_iff.mp derives, Or.inl rfl⟩
    · exact ⟨e, frontOf_of_derives derives, Or.inr ⟨rfl, erasable_iff.mpr erased⟩⟩

variable (defined : EveryDefined prodlist)
include defined

theorem symbolOf_ne_zero {prod : ProductionDef} (mem : prod ∈ prodlist) {nd : ProductionNodeDef}
    (mem_nd : nd ∈ prod.right) : symbolOf nd.toProductionNode ≠ .terminal 0 := by
  intro symbol
  unfold symbolOf at symbol
  split at symbol
  · rename_i type
    exact defined.terminal prod mem nd mem_nd type (Symbol.terminal.inj symbol)
  · simp at symbol

theorem not_derives_zero {u : List (Symbol Int Int)} (absent : .terminal 0 ∉ u) :
    ¬ ∃ v, Derives (rulesOf prodlist) u (.terminal 0 :: v) := by
  intro derives
  obtain ⟨before, s, after, rfl, -, front⟩ := derives_front_iff.mp derives
  have other : s ≠ .terminal 0 := fun same => absent (by simp [same])
  obtain ⟨r, ⟨prod, mem, rfl⟩, mem_zero⟩ := front.terminal_mem other
  obtain ⟨nd, mem_nd, symbol⟩ := List.mem_map.mp mem_zero
  exact symbolOf_ne_zero defined mem mem_nd symbol

theorem firstExact_iff {A : Int} (key : HasKey firstMap A)
    (content : ∀ t, HasFirst firstMap A t ↔ Collected (rulesOf prodlist) A t) :
    FirstExact prodlist firstMap A ↔
      (BeginsErasable prodlist [.nonterminal A] →
        Derives (rulesOf prodlist) [.nonterminal A] []) := by
  obtain ⟨elems, found⟩ := key
  have members (t : Int) : t ∈ elems ↔
      (∃ v, Derives (rulesOf prodlist) [.nonterminal A] (.terminal t :: v)) ∨
        t = 0 ∧ BeginsErasable prodlist [.nonterminal A] := by
    have has : HasFirst firstMap A t ↔ t ∈ elems := by simp [HasFirst, found]
    rw [← has, content, ← frontOf_marks_iff]
    simp only [frontOf_singleton, Collected]
  constructor
  · rintro ⟨elems', found', correct⟩ begins
    obtain rfl := Option.some.inj (found.symm.trans found')
    rcases (correct 0).mp ((members 0).mpr (Or.inr ⟨rfl, begins⟩)) with derives | ⟨-, erased⟩
    · exact absurd derives (not_derives_zero defined (by simp))
    · exact erased
  · intro only
    refine ⟨elems, found, fun t => (members t).trans ?_⟩
    have begins (erased : Derives (rulesOf prodlist) [.nonterminal A] []) :
        BeginsErasable prodlist [.nonterminal A] := ⟨_, [], .refl, erased⟩
    have same : BeginsErasable prodlist [.nonterminal A] ↔
        Derives (rulesOf prodlist) [.nonterminal A] [] := ⟨only, begins⟩
    rw [same]

section OfProduction

variable {prod : ProductionDef} {rest : List ProductionNodeDef} (mem : prod ∈ prodlist)
  (sub : ∀ nd ∈ rest, nd ∈ prod.right) (exact_nullable : NullableExact prodlist nullable)
  (keys : ∀ A ∈ leftsOf prodlist, HasKey firstMap A)
include mem sub exact_nullable keys

theorem rest_content
    (content : ∀ A t, HasFirst firstMap A t ↔ Collected (rulesOf prodlist) A t) {t : Int} :
    t ∈ (getLr1FirstSet firstMap nullable rest SortedSet.empty).1 ↔
      (∃ v, Derives (rulesOf prodlist) (symbolsOf rest) (.terminal t :: v)) ∨
        t = 0 ∧ BeginsErasable prodlist (symbolsOf rest) := by
  have resolved : ∀ nd ∈ rest, nd.type ≠ .Unresolved :=
    fun nd mem_nd => defined.resolved prod mem nd (sub nd mem_nd)
  rw [mem_getLr1FirstSet resolved
    (fun nd mem_nd type => keys _ (defined.known mem nd (sub nd mem_nd) type)),
    SortedSet.mem_empty, false_or, ← frontOf_marks_iff]
  constructor
  · rintro ⟨x, leading, here⟩
    obtain ⟨before, after, split, erased⟩ := leading.symbols exact_nullable resolved
    rcases here with ⟨type, rfl⟩ | ⟨type, has⟩
    · rw [symbolOf_terminal type] at split
      exact ⟨_, ⟨before, _, after, split, erased, .refl _⟩, Or.inl rfl⟩
    · obtain ⟨e, front, marks⟩ := (content x.index t).mp has
      rw [symbolOf_nonterminal type] at split
      exact ⟨e, ⟨before, _, after, split, erased, front⟩, marks⟩
  · rintro ⟨e, ⟨before, s, after, split, erased, front⟩, marks⟩
    obtain ⟨x, leading, rfl⟩ := leading_of_symbols exact_nullable resolved split erased
    refine ⟨x, leading, ?_⟩
    cases type : x.type with
    | Unresolved => exact absurd type (resolved x leading.mem)
    | Terminal =>
      rw [symbolOf_terminal type] at front
      exact Or.inl ⟨rfl, (marks_of_front_terminal front marks).symm⟩
    | NonTerminal =>
      rw [symbolOf_nonterminal type] at front
      exact Or.inr ⟨rfl, (content x.index t).mpr ⟨e, front, marks⟩⟩

theorem inheritExact :
    InheritExact prodlist nullable firstMap rest := by
  have resolved : ∀ nd ∈ rest, nd.type ≠ .Unresolved :=
    fun nd mem_nd => defined.resolved prod mem nd (sub nd mem_nd)
  unfold InheritExact
  rw [getLr1FirstSet_inherit resolved
    (fun nd mem_nd type => keys _ (defined.known mem nd (sub nd mem_nd) type)), derives_nil_iff]
  constructor
  · intro all s mem_s
    obtain ⟨nd, mem_nd, rfl⟩ := List.mem_map.mp mem_s
    exact (nullableIn_iff exact_nullable (resolved nd mem_nd)).mp (all nd mem_nd)
  · intro all nd mem_nd
    exact (nullableIn_iff exact_nullable (resolved nd mem_nd)).mpr
      (all _ (List.mem_map.mpr ⟨nd, mem_nd, rfl⟩))

theorem restExact_iff
    (content : ∀ A t, HasFirst firstMap A t ↔ Collected (rulesOf prodlist) A t) :
    RestExact prodlist nullable firstMap rest ↔
      ¬ BeginsErasable prodlist (symbolsOf rest) := by
  have members (t : Int) :=
    rest_content defined mem sub exact_nullable keys content (t := t)
  have absent : Symbol.terminal 0 ∉ symbolsOf rest := by
    intro mem_zero
    obtain ⟨nd, mem_nd, symbol⟩ := List.mem_map.mp mem_zero
    exact symbolOf_ne_zero defined mem (sub nd mem_nd) symbol
  constructor
  · intro correct begins
    have zero := (members 0).mpr (Or.inr ⟨rfl, begins⟩)
    exact not_derives_zero defined absent ((correct 0).mp zero)
  · intro none t
    rw [members]
    simp [none]

end OfProduction

omit defined in
theorem erasable_of_beginsErasable {u : List (Symbol Int Int)}
    (none : ∀ prod ∈ prodlist, ∀ nd ∈ prod.right,
      ¬ Derives (rulesOf prodlist) [symbolOf nd.toProductionNode] [])
    (begins : BeginsErasable prodlist u) : ∃ s ∈ u, Derives (rulesOf prodlist) [s] [] := by
  obtain ⟨e, v, derives, erased⟩ := begins
  obtain ⟨before, s, after, rfl, -, front⟩ := frontOf_of_derives derives
  refine ⟨s, by simp, (front.erasable (erasable_iff.mpr erased) ?_).derives⟩
  rintro r ⟨prod, mem, rfl⟩ d mem_d erasable
  obtain ⟨nd, mem_nd, rfl⟩ := List.mem_map.mp mem_d
  exact none prod mem nd mem_nd erasable.derives

end Exact

/-- For productions in which every nonterminal has one, both calculations come to their end. The
    nullable nonterminals are those from which the empty string is derived, and a rest is inherited
    if and only if the empty string is derived from it. The marker 0 is copied into the set of a
    nonterminal that is not nullable if a nullable one can be in front, and likewise into the set
    of a rest. So all the sets are right if and only if no nullable nonterminal is on a right
    side. -/
theorem firstSets_exact_iff {prodlist : List ProductionDef} (defined : EveryDefined prodlist) :
    ∃ (nullable : FlatSet Int) (firstMap : FirstSetMap) (n : Nat),
      (∀ fuel, n ≤ fuel → getNullableNonterminalSet fuel prodlist = .ok nullable ∧
        getNonTerminalFirstSetMap fuel prodlist nullable = .ok firstMap) ∧
      (∀ A, A ∈ nullable ↔ Derives (rulesOf prodlist) [.nonterminal A] []) ∧
      (∀ prod ∈ prodlist, ∀ pos,
        InheritExact prodlist nullable firstMap (prod.right.drop pos)) ∧
      (∀ A ∈ leftsOf prodlist, FirstExact prodlist firstMap A ↔
        (BeginsErasable prodlist [.nonterminal A] →
          Derives (rulesOf prodlist) [.nonterminal A] [])) ∧
      (∀ prod ∈ prodlist, ∀ pos, RestExact prodlist nullable firstMap (prod.right.drop pos) ↔
        ¬ BeginsErasable prodlist (symbolsOf (prod.right.drop pos))) ∧
      (SetsExact prodlist nullable firstMap ↔ ∀ prod ∈ prodlist, ∀ nd ∈ prod.right,
        ¬ Derives (rulesOf prodlist) [symbolOf nd.toProductionNode] []) := by
  obtain ⟨nullable, n, exact_nullable, nullable_ends⟩ := getNullableNonterminalSet_ends defined
  obtain ⟨firstMap, n', keys, content, first_ends⟩ :=
    getNonTerminalFirstSetMap_ends exact_nullable defined
  have keys' : ∀ A ∈ leftsOf prodlist, HasKey firstMap A := fun A => (keys A).mpr
  have sub (prod : ProductionDef) (pos : Nat) : ∀ nd ∈ prod.right.drop pos, nd ∈ prod.right :=
    fun nd mem => List.mem_of_mem_drop mem
  have erased (A : Int) : A ∈ nullable ↔ Derives (rulesOf prodlist) [.nonterminal A] [] :=
    (exact_nullable A).trans erasable_iff
  have inherit (prod) (mem : prod ∈ prodlist) (pos : Nat) :=
    inheritExact defined mem (sub prod pos) exact_nullable keys'
  have first (A : Int) (left : A ∈ leftsOf prodlist) :=
    firstExact_iff defined (keys' A left) (content A)
  have rest (prod) (mem : prod ∈ prodlist) (pos : Nat) :=
    restExact_iff defined mem (sub prod pos) exact_nullable keys' content
  refine ⟨nullable, firstMap, max n n', fun fuel enough => ?_, erased, inherit, first, rest, ?_⟩
  · exact ⟨nullable_ends fuel (by omega), first_ends fuel (by omega)⟩
  constructor
  · -- a nullable nonterminal is at the front of the rest that begins with it
    intro all prod mem nd mem_nd nullable_nd
    obtain ⟨before, after, split⟩ := List.append_of_mem mem_nd
    have behind : prod.right.drop before.length = nd :: after := by simp [split]
    refine (rest prod mem before.length).mp (all.rest prod mem before.length) ?_
    rw [behind]
    exact ⟨_, _, .refl, nullable_nd⟩
  · intro none
    refine ⟨erased, fun A left => (first A left).mpr fun begins => ?_,
      fun prod mem pos => (rest prod mem pos).mpr fun begins => ?_, inherit⟩
    · obtain ⟨s, mem_s, derives⟩ := erasable_of_beginsErasable none begins
      rw [List.mem_singleton.mp mem_s] at derives
      exact derives
    · obtain ⟨s, mem_s, derives⟩ := erasable_of_beginsErasable none begins
      obtain ⟨nd, mem_nd, rfl⟩ := List.mem_map.mp mem_s
      exact none prod mem nd (sub prod pos nd mem_nd) derives

/-- An element and a production without a name, for lists of productions as they are numbered. -/
def unnamed (type : NodeType) (index : Int) : ProductionNodeDef := ⟨⟨type, index⟩, "", true⟩

def unnamedProduction (left : Int) (right : List ProductionNodeDef) : ProductionDef :=
  { left := unnamed .NonTerminal left, right := right, priority := {}, line := 0 }

/-- `S = A "c" ; A = "a" ;` -/
def withoutNullable : List ProductionDef :=
  [unnamedProduction 1 [unnamed .NonTerminal 2, unnamed .Terminal 1],
    unnamedProduction 2 [unnamed .Terminal 2]]

theorem firstSets_exact_withoutNullable :
    ∃ (nullable : FlatSet Int) (firstMap : FirstSetMap) (n : Nat),
      (∀ fuel, n ≤ fuel → getNullableNonterminalSet fuel withoutNullable = .ok nullable ∧
        getNonTerminalFirstSetMap fuel withoutNullable nullable = .ok firstMap) ∧
      SetsExact withoutNullable nullable firstMap := by
  have defined : EveryDefined withoutNullable := ⟨by decide, by decide, by decide⟩
  obtain ⟨nullable, firstMap, n, ends, -, -, -, -, all⟩ := firstSets_exact_iff defined
  refine ⟨nullable, firstMap, n, ends, all.mpr fun prod mem nd mem_nd derives => ?_⟩
  -- every production has a terminal, so nothing can be erased
  have terminal : ∀ prod ∈ withoutNullable, ∃ nd ∈ prod.right, nd.type = .Terminal := by decide
  obtain ⟨type, erasable⟩ :=
    (erasable_symbolOf (defined.resolved prod mem nd mem_nd)).mp (erasable_iff.mpr derives)
  obtain ⟨prod', mem', -, erased⟩ := erasable_left erasable
  obtain ⟨nd', mem_nd', type'⟩ := terminal prod' mem'
  have last := erased nd' mem_nd'
  rw [symbolOf_terminal type'] at last
  exact not_erasable_terminal last

/-- `S = A ; A = B "c" ; B = ;` -/
def nullableInFront : List ProductionDef :=
  [unnamedProduction 1 [unnamed .NonTerminal 2],
    unnamedProduction 2 [unnamed .NonTerminal 3, unnamed .Terminal 1],
    unnamedProduction 3 []]

/-- The set of `A` is calculated as the one of a nullable nonterminal. -/
theorem firstSets_not_exact : ¬ ∀ prodlist : List ProductionDef, EveryDefined prodlist →
    ∃ (nullable : FlatSet Int) (firstMap : FirstSetMap) (n : Nat),
      (∀ fuel, n ≤ fuel → getNullableNonterminalSet fuel prodlist = .ok nullable ∧
        getNonTerminalFirstSetMap fuel prodlist nullable = .ok firstMap) ∧
      SetsExact prodlist nullable firstMap := by
  intro all
  have defined : EveryDefined nullableInFront := ⟨by decide, by decide, by decide⟩
  obtain ⟨nullable, firstMap, n, ends, sets⟩ := all nullableInFront defined
  obtain ⟨nullable_run, first_run⟩ := ends (n + 5) (by omega)
  have nullable_value : getNullableNonterminalSet (n + 5) nullableInFront =
      .ok (SortedSet.ofList [3]) := rfl
  obtain rfl := Except.ok.inj (nullable_value.symm.trans nullable_run)
  have first_value : getNonTerminalFirstSetMap (n + 5) nullableInFront (SortedSet.ofList [3]) =
      .ok (((SortedMap.empty.set 1 (SortedSet.ofList [0, 1])).set 2
        (SortedSet.ofList [0, 1])).set 3 (SortedSet.ofList [0])) := rfl
  obtain rfl := Except.ok.inj (first_value.symm.trans first_run)
  have left : (2 : Int) ∈ leftsOf nullableInFront :=
    ⟨unnamedProduction 2 [unnamed .NonTerminal 3, unnamed .Terminal 1],
      by simp [nullableInFront], rfl⟩
  obtain ⟨elems, found, exact_elems⟩ := sets.first 2 left
  change some (SortedSet.ofList [0, 1]) = some elems at found
  obtain rfl := Option.some.inj found
  rcases (exact_elems 0).mp (by decide) with derives | ⟨-, erased⟩
  · exact not_derives_zero defined (by simp) derives
  · have mem : (2 : Int) ∈ SortedSet.ofList [3] := (sets.erased 2).mpr erased
    exact absurd mem (by decide)

end Mewa
