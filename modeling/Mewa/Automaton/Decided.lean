/- Module: Mewa/Automaton/Decided
   digest: The tables of a grammar without priorities and warnings act on every item, and they never
   leave a choice. The grammar is not ambiguous. -/

import Mewa.Automaton.Accepting
import Mewa.Lib.Lockstep

set_option autoImplicit false
set_option relaxedAutoImplicit false

namespace Mewa

open Mewa.Lib

section Tables

variable {prodlist : List ProductionDef} {lexer : Lexer} (h : WellFormed prodlist lexer)
  (lalr : LalrStates) (actions : SortedMap ActionKey Action)

/-- What the tables do behind a prefix, in front of a terminal or the end of the input: a shift, or
    the reduction of a production that ends there. -/
def Acts (γ : List (Symbol Int Int)) (a : Option Int) : Option (Fin prodlist.length) → Prop
  | none => ∃ n st, lalr.states.find n = some st ∧ Lr1State h lalr.fm γ st ∧
      ∃ next, actions.find ⟨n, a.getD 0⟩ = some (.shift next)
  | some q => ∃ n st, lalr.states.find n = some st ∧ Lr1State h lalr.fm γ st ∧
      (productionsOf prodlist h).Item γ q ((productionsOf prodlist h).rule q).output.length ∧
      (actions.find ⟨n, a.getD 0⟩ = some (prodlist.get q).reduceAction ∨
        q = (productionsOf prodlist h).start ∧
          actions.find ⟨n, a.getD 0⟩ = some (prodlist.get q).acceptAction)

/-- The tables act on every item, and they do not leave a choice but that between productions with
    the same rule. -/
structure Decided : Prop where
  complete : (productionsOf prodlist h).Complete (Acts h lalr actions)
  single : (productionsOf prodlist h).Single (Acts h lalr actions)

variable {h lalr actions}

theorem head_start (h : WellFormed prodlist lexer) :
    (productionsOf prodlist h).head (productionsOf prodlist h).start = .nonterminal 1 := by
  obtain ⟨prod, first, index⟩ := h.first
  obtain ⟨bound, rfl⟩ := List.getElem?_eq_some_iff.mp first
  exact congrArg Symbol.nonterminal index

theorem rule_eq_of_item {γ : List (Symbol Int Int)} {p q : Fin prodlist.length}
    (item : (productionsOf prodlist h).Item γ p ((productionsOf prodlist h).rule p).output.length)
    (item' : (productionsOf prodlist h).Item γ q ((productionsOf prodlist h).rule q).output.length)
    (head : (prodlist.get p).left.index = (prodlist.get q).left.index)
    (count : (prodlist.get p).right.length = (prodlist.get q).right.length) :
    (productionsOf prodlist h).rule p = (productionsOf prodlist h).rule q := by
  obtain ⟨δ, whole, -⟩ := item.exists_origin
  obtain ⟨δ', whole', -⟩ := item'.exists_origin
  rw [List.take_length] at whole whole'
  have length (p : Fin prodlist.length) :
      ((productionsOf prodlist h).rule p).output.length = (prodlist.get p).right.length :=
    List.length_map _
  have output := (List.append_inj' (whole.symm.trans whole') (by rw [length, length, count])).2
  ext
  · exact head
  · rw [output]

theorem single_acts (exact : lalr.Exact h) :
    (productionsOf prodlist h).Single (Acts h lalr actions) := by
  intro γ a o o' first second
  have same {n n' : Int} {st st' : TransitionState} (found : lalr.states.find n = some st)
      (found' : lalr.states.find n' = some st') (lr1 : Lr1State h lalr.fm γ st)
      (lr1' : Lr1State h lalr.fm γ st') : n = n' :=
    exact.unique found found' lr1.represents lr1'.represents
  cases o with
  | none =>
    obtain ⟨n, st, found, lr1, next, entry⟩ := first
    cases o' with
    | none => rfl
    | some q =>
      obtain ⟨n', st', found', lr1', -, other⟩ := second
      obtain rfl := same found found' lr1 lr1'
      rcases other with reduce | ⟨-, accept⟩
      · cases Option.some.inj (entry.symm.trans reduce)
      · cases Option.some.inj (entry.symm.trans accept)
  | some p =>
    obtain ⟨n, st, found, lr1, item, entry⟩ := first
    cases o' with
    | none =>
      obtain ⟨n', st', found', lr1', next, shift⟩ := second
      obtain rfl := same found found' lr1 lr1'
      rcases entry with reduce | ⟨-, accept⟩
      · cases Option.some.inj (shift.symm.trans reduce)
      · cases Option.some.inj (shift.symm.trans accept)
    | some q =>
      obtain ⟨n', st', found', lr1', item', other⟩ := second
      obtain rfl := same found found' lr1 lr1'
      show some _ = some _
      congr 1
      rcases entry with reduce | ⟨rfl, accept⟩
      · rcases other with reduce' | ⟨-, accept'⟩
        · have action := Option.some.inj (reduce.symm.trans reduce')
          exact rule_eq_of_item item item' (congrArg Action.value action)
            (congrArg Action.count action)
        · cases Option.some.inj (reduce.symm.trans accept')
      · rcases other with reduce' | ⟨rfl, -⟩
        · cases Option.some.inj (accept.symm.trans reduce')
        · rfl

end Tables

section Build

variable {engine : PatternEngine} {source : GrammarSource} {langdef : LanguageDef}
  {lalr : LalrStates} {fuel : Nat} {order : HashOrder (TransitionState × Int)}
  {warnings : List Error} {automaton : Automaton} {b : BuildState}

theorem Built.inserted
    (built : Built fuel engine order source warnings automaton warnings langdef lalr b)
    {n : Int} {st : TransitionState} (found : lalr.states.find n = some st) :
    ∃ nodes c c', StateInserted (lalr.input langdef) n st nodes c c' ∧
      c'.warnings = c.warnings ∧
      ∀ terminal, automaton.actions.find ⟨n, terminal⟩ = (c'.slot ⟨n, terminal⟩).1 := by
  obtain ⟨reports, all, states⟩ := fillTables_spec built.tables
  have mem := SortedMap.find_eq_some.mp found
  obtain ⟨nodes, c, c', inserted, slot, mine⟩ := states (n, st) mem
  have nothing : reports n = [] :=
    List.flatMap_eq_nil_iff.mp (List.append_right_eq_self.mp (all.symm.trans built.warned.symm))
      (n, st) mem
  rw [nothing, List.append_nil] at mine
  refine ⟨nodes, c, c', inserted, mine, fun terminal => ?_⟩
  rw [built.actions, ← slot terminal]
  rfl

theorem decided_of_built
    (built : Built fuel engine order source warnings automaton warnings langdef lalr b)
    (fit : FollowSetsFit langdef.prodlist) (plain : Plain langdef.prodlist) :
    Decided (wellFormed_of_parseLanguageDef built.parsed) lalr automaton.actions := by
  have exact := built.exact fit
  refine ⟨⟨?_, ?_⟩, single_acts exact⟩
  · intro γ p k t item next
    obtain ⟨n, st, found, lr1⟩ := exact.exists_state ⟨p, k, item⟩
    obtain ⟨x, mem, index, rfl⟩ := (lr1.represents.core p k).mpr item
    have at_item : nodeOf langdef.prodlist x = some ⟨.Terminal, t⟩ :=
      (nodeOf_eq_some_iff (wellFormed_of_parseLanguageDef built.parsed) index (by simp)).mpr next
    obtain ⟨nodes, c, c', inserted, silent, slot⟩ := built.inserted found
    have positive := (terminal_of_nodeOf (wellFormed_of_parseLanguageDef built.parsed) at_item).1
    have chosen : Chosen (lalr.input langdef) st t (c'.slot ⟨n, t⟩).1 := by
      apply inserted.chosen plain silent
      rintro ⟨rfl, -⟩
      omega
    obtain ⟨next, -, stored⟩ := chosen.shift x mem at_item
    exact ⟨n, st, found, lr1, next, (slot t).trans stored⟩
  · intro γ p a look
    obtain ⟨n, st, found, lr1⟩ := exact.exists_state ⟨p, _, look.item⟩
    obtain ⟨x, mem, index, pos, elems, here, contains⟩ := lr1.looks p _ a look
    have length :
        ((productionsOf langdef.prodlist (wellFormed_of_parseLanguageDef built.parsed)).rule
          p).output.length = (langdef.prodlist.get p).right.length := List.length_map _
    have completed : completedOf langdef.prodlist x = some (langdef.prodlist.get p) := by
      unfold completedOf
      rw [index, List.getElem?_eq_getElem p.isLt, pos, length]
      simp
    have asked : (langdef.prodlist.get p) ∈ (groupsAt (lalr.input langdef) st (a.getD 0)).flatten :=
      mem_groupsAt.mpr ⟨x, mem, completed, elems, exact.usable.sound.content_iff.mpr here, contains⟩
    obtain ⟨nodes, c, c', inserted, silent, slot⟩ := built.inserted found
    by_cases accepts : a.getD 0 = 0 ∧ isAcceptState langdef.prodlist st = true
    · obtain ⟨start, first, one⟩ := (wellFormed_of_parseLanguageDef built.parsed).first
      have head : langdef.prodlist.head? = some start := by rw [List.head?_eq_getElem?, first]
      obtain ⟨stored, all⟩ := inserted.accepted plain silent accepts.2 head (content_zero exact)
      have same_left := all _ (accepts.1 ▸ asked)
      obtain ⟨zero, -⟩ := start_of_index (wellFormed_of_parseLanguageDef built.parsed)
        (List.getElem?_eq_getElem p.isLt) (same_left.symm.trans one)
      obtain rfl : p = (productionsOf langdef.prodlist
        (wellFormed_of_parseLanguageDef built.parsed)).start := Fin.ext zero
      refine ⟨_, rfl, n, st, found, lr1, look.item, Or.inr ⟨rfl, ?_⟩⟩
      rw [accepts.1, slot 0, stored]
      obtain ⟨bound, rfl⟩ := List.getElem?_eq_some_iff.mp first
      rfl
    · have chosen := inserted.chosen plain silent accepts
      obtain ⟨prod', ⟨x', mem', completed'⟩, agrees, stored⟩ := chosen.reduce _ asked
      obtain ⟨q, rfl, -, item'⟩ := completed_inv lr1 mem' completed'
      refine ⟨q, rule_eq_of_item item' look.item agrees.head agrees.count, n, st, found, lr1, item',
        Or.inl ?_⟩
      rw [slot, stored]

/-- Two actions do the same, but for the scope of the production. -/
structure Action.Agrees (a b : Action) : Prop where
  kind : a.type = .Shift ↔ b.type = .Shift
  value : a.value = b.value
  call : a.call = b.call
  count : a.count = b.count

/-- No action is dropped without a warning: whatever the items of a merged state ask for agrees with
    the entry of the table. -/
theorem candidates_agree (parsed : parseLanguageDef engine source = .ok langdef)
    (fit : FollowSetsFit langdef.prodlist) (plain : Plain langdef.prodlist)
    (built : Automaton.build fuel engine order source warnings {} =
      ((automaton, warnings), .ok ())) :
    ∃ lalr, calculateStates fuel order langdef.prodlist = .ok lalr ∧
      ∀ n st, lalr.states.find n = some st → ∀ terminal action,
        Candidate (lalr.input langdef) st terminal action →
        ∃ stored, automaton.actions.find ⟨n, terminal⟩ = some stored ∧ action.Agrees stored := by
  obtain ⟨langdef', lalr, b, built⟩ := built_of_build built
  obtain rfl := Except.ok.inj (parsed.symm.trans built.parsed)
  refine ⟨lalr, built.states, fun n st found terminal action candidate => ?_⟩
  have h := wellFormed_of_parseLanguageDef built.parsed
  have exact := built.exact fit
  obtain ⟨start, first, one⟩ := h.first
  have head : langdef.prodlist.head? = some start := by rw [List.head?_eq_getElem?, first]
  obtain ⟨nodes, c, c', inserted, silent, slot⟩ := built.inserted found
  cases candidate with
  | @shift item next mem at_item number =>
    have positive := (terminal_of_nodeOf h at_item).1
    have chosen : Chosen (lalr.input langdef) st terminal (c'.slot ⟨n, terminal⟩).1 := by
      apply inserted.chosen plain silent
      rintro ⟨rfl, -⟩
      omega
    obtain ⟨next', number', stored⟩ := chosen.shift item mem at_item
    obtain rfl := Option.some.inj (number.symm.trans number')
    exact ⟨_, (slot terminal).trans stored, Iff.rfl, rfl, rfl, rfl⟩
  | @reduce item prod elems mem completed content contains =>
    have asked : prod ∈ (groupsAt (lalr.input langdef) st terminal).flatten :=
      mem_groupsAt.mpr ⟨item, mem, completed, elems, content, contains⟩
    by_cases accepts : terminal = 0 ∧ isAcceptState langdef.prodlist st = true
    · obtain ⟨rfl, accepts⟩ := accepts
      obtain ⟨stored, all⟩ := inserted.accepted plain silent accepts head (content_zero exact)
      obtain ⟨here, -⟩ := Option.filter_eq_some_iff.mp completed
      obtain ⟨zero, -⟩ := start_of_index h here ((all prod asked).symm.trans one)
      -- the production is the first one
      obtain rfl : prod = start := by
        rw [zero] at here
        exact Option.some.inj (here.symm.trans first)
      refine ⟨_, (slot 0).trans stored, ⟨?_, ?_⟩, rfl, rfl, rfl⟩
      · intro kind
        cases kind
      · intro kind
        cases kind
    · obtain ⟨prod', -, agrees, stored⟩ :=
        (inserted.chosen plain silent accepts).reduce prod asked
      exact ⟨_, (slot terminal).trans stored, Iff.rfl, agrees.head.symm, agrees.callidx.symm,
        agrees.count.symm⟩
  | @accept prod zero accepts at_head =>
    obtain ⟨stored, -⟩ := inserted.accepted plain silent accepts head (content_zero exact)
    obtain rfl := Option.some.inj (head.symm.trans at_head)
    rw [zero]
    exact ⟨_, (slot 0).trans stored, Iff.rfl, rfl, rfl, rfl⟩

theorem candidates_agree_comma :
    ∃ langdef, parseLanguageDef Sample.engine (Sample.grammar Sample.commaLexems) = .ok langdef ∧
      ∃ lalr, calculateStates 100 .insertion langdef.prodlist = .ok lalr ∧
        ∀ n st, lalr.states.find n = some st → ∀ terminal action,
          Candidate (lalr.input langdef) st terminal action →
          ∃ stored, (Sample.automaton Sample.commaLexems).actions.find ⟨n, terminal⟩ = some stored ∧
            action.Agrees stored := by
  obtain ⟨langdef, buildable, plain, -⟩ := Sample.exists_buildable_comma
  exact ⟨langdef, buildable.parsed,
    candidates_agree buildable.parsed buildable.fit plain Sample.build_comma⟩

/-- A grammar without priorities whose build has no warnings is not ambiguous: all parse trees of a
    word are the same, up to productions with the same rule. -/
theorem build_unambiguous (parsed : parseLanguageDef engine source = .ok langdef)
    (fit : FollowSetsFit langdef.prodlist) (plain : Plain langdef.prodlist)
    (built : Automaton.build fuel engine order source warnings {} =
      ((automaton, warnings), .ok ())) {ids : List Int} {ps qs : List (Fin langdef.prodlist.length)}
    (first : (productionsOf langdef.prodlist (wellFormed_of_parseLanguageDef parsed)).Rightmost
      [.nonterminal 1] ps (ids.map .terminal))
    (second : (productionsOf langdef.prodlist (wellFormed_of_parseLanguageDef parsed)).Rightmost
      [.nonterminal 1] qs (ids.map .terminal)) :
    ps.map (productionsOf langdef.prodlist (wellFormed_of_parseLanguageDef parsed)).rule =
      qs.map (productionsOf langdef.prodlist (wellFormed_of_parseLanguageDef parsed)).rule := by
  obtain ⟨langdef', lalr, b, built⟩ := built_of_build built
  obtain rfl := Except.ok.inj (parsed.symm.trans built.parsed)
  have decided := decided_of_built built fit plain
  have head := head_start (wellFormed_of_parseLanguageDef parsed)
  exact decided.complete.rightmost_unique decided.single (head ▸ first) (head ▸ second)

theorem Sample.exists_derivation_comma {h : WellFormed langdef.prodlist langdef.lexer}
    (rules : langdef.prodlist.map ruleOf = commaRules) :
    ∃ ps, (productionsOf langdef.prodlist h).Rightmost [.nonterminal 1] ps
      ([1, 2].map .terminal) ∧ ps.length = 3 := by
  obtain ⟨p, start⟩ := exists_rule (h := h) (r := ⟨1, [.nonterminal 2]⟩) rules
    (by simp [commaRules])
  obtain ⟨q, more⟩ := exists_rule (h := h) (r := ⟨2, [.terminal 1, .terminal 2, .nonterminal 2]⟩)
    rules (by simp [commaRules])
  obtain ⟨e, none_left⟩ := exists_rule (h := h) (r := ⟨2, []⟩) rules (by simp [commaRules])
  have last : (productionsOf langdef.prodlist h).Rightmost
      [.terminal 1, .terminal 2, .nonterminal 2] [e] ([1, 2].map .terminal) := by
    have step := Productions.Rightmost.step (G := productionsOf langdef.prodlist h)
      [.terminal 1, .terminal 2] e [] (.refl _)
    simpa [Productions.head, none_left] using step
  have list : (productionsOf langdef.prodlist h).Rightmost [.nonterminal 2] [q, e]
      ([1, 2].map .terminal) := by
    have expanded : (productionsOf langdef.prodlist h).Rightmost
        ([] ++ ((productionsOf langdef.prodlist h).rule q).output ++ ([] : List Int).map .terminal)
        [e] ([1, 2].map .terminal) := by simpa [more] using last
    simpa [Productions.head, more] using Productions.Rightmost.step [] q [] expanded
  have expanded : (productionsOf langdef.prodlist h).Rightmost
      ([] ++ ((productionsOf langdef.prodlist h).rule p).output ++ ([] : List Int).map .terminal)
      [q, e] ([1, 2].map .terminal) := by simpa [start] using list
  have first := Productions.Rightmost.step [] p [] expanded
  exact ⟨[p, q, e], by simpa [Productions.head, start] using first, rfl⟩

theorem build_unambiguous_comma :
    ∃ langdef, ∃ parsed : parseLanguageDef Sample.engine (Sample.grammar Sample.commaLexems) =
        .ok langdef,
      ∃ ps, (productionsOf langdef.prodlist (wellFormed_of_parseLanguageDef parsed)).Rightmost
          [.nonterminal 1] ps ([1, 2].map .terminal) ∧
        ∀ qs, (productionsOf langdef.prodlist (wellFormed_of_parseLanguageDef parsed)).Rightmost
            [.nonterminal 1] qs ([1, 2].map .terminal) →
          qs.map (productionsOf langdef.prodlist (wellFormed_of_parseLanguageDef parsed)).rule =
            ps.map (productionsOf langdef.prodlist (wellFormed_of_parseLanguageDef parsed)).rule := by
  obtain ⟨langdef, buildable, plain, rules⟩ := Sample.exists_buildable_comma
  obtain ⟨ps, derivation, -⟩ := Sample.exists_derivation_comma rules
  exact ⟨langdef, buildable.parsed, ps, derivation, fun qs other =>
    build_unambiguous buildable.parsed buildable.fit plain Sample.build_comma other derivation⟩

end Build

end Mewa
