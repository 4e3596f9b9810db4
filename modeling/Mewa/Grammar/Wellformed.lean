/- Module: Mewa/Grammar/Wellformed
   digest: What the reader of grammars guarantees for the productions of a grammar it accepts. -/

import Mewa.Grammar.Parser
import Mewa.Lexer.Keywords

set_option autoImplicit false
set_option relaxedAutoImplicit false

namespace Mewa

open Mewa.Lib

/-- The start production is the first one and the only one with its nonterminal, which is on no
    right side. The elements of right sides are terminals of the lexer or nonterminals with
    productions. -/
structure WellFormed (prodlist : List ProductionDef) (lexer : Lexer) : Prop where
  first : ∃ prod : ProductionDef, prodlist[0]? = some prod ∧ prod.left.index = 1
  unique : ∀ (i : Nat) (prod : ProductionDef), prodlist[i]? = some prod → prod.left.index = 1 → i = 0
  terminal : ∀ prod ∈ prodlist, ∀ nd ∈ prod.right, nd.type = .Terminal →
    0 < nd.index ∧ ∃ keyword, lexer.isKeyword nd.index = .ok keyword
  nonterminal : ∀ prod ∈ prodlist, ∀ nd ∈ prod.right, nd.type = .NonTerminal →
    nd.index ≠ 1 ∧ ∃ prod' ∈ prodlist, prod'.left.index = nd.index
  resolved : ∀ prod ∈ prodlist, ∀ nd ∈ prod.right, nd.type ≠ .Unresolved

namespace Grammar

/-- The states inside of a rule, behind its head. -/
def InRule : ParserState → Bool
  | .Init | .ParseProductionAttributes | .ParsePriority | .ParseAssign => false
  | .ParsePattern | .ParsePatternSelect | .ParseEndOfLexemDef => false
  | .ParseLexerCommand | .ParseLexerCommandArg => false
  | _ => true

def leftNames (ctx : ParserContext) : List String := ctx.rt.prodlist.map fun prod => prod.left.name

/-- What holds while a grammar is read: the names of rules have numbers and productions, and the
    first one has the number 1. -/
structure Consistent (ctx : ParserContext) : Prop where
  defined : ∀ name i, (name, i) ∈ ctx.prodmap → (leftNames ctx)[i]? = some name
  known : ∀ name id, ctx.nonTerminalIdMap.find name = some id → ∃ i, (name, i) ∈ ctx.prodmap
  fresh : leftNames ctx = [] → ctx.nonTerminalIdMap.entries = []
  first : ∀ name, (leftNames ctx).head? = some name → ctx.nonTerminalIdMap.find name = some 1
  inRule : InRule ctx.state = true → leftNames ctx ≠ []
  lexer : ctx.rt.lexer.Numbered

theorem consistent_start : Consistent {} where
  defined := by simp
  known := by simp
  fresh := fun _ => rfl
  first := by simp [leftNames]
  inRule := by simp [InRule]
  lexer := Lexer.numbered_empty

/-- What most of the steps keep: the rules with their names and numbers. -/
structure Keeps (ctx ctx' : ParserContext) : Prop where
  names : leftNames ctx' = leftNames ctx
  prodmap : ctx'.prodmap = ctx.prodmap
  idMap : ctx'.nonTerminalIdMap = ctx.nonTerminalIdMap
  inRule : InRule ctx'.state = true → InRule ctx.state = true
  lexer : ctx.rt.lexer.Numbered → ctx'.rt.lexer.Numbered

theorem Keeps.consistent {ctx ctx' : ParserContext} (keeps : Keeps ctx ctx')
    (h : Consistent ctx) : Consistent ctx' where
  defined := by
    rw [keeps.names, keeps.prodmap]
    exact h.defined
  known := by
    rw [keeps.idMap, keeps.prodmap]
    exact h.known
  fresh := by
    rw [keeps.names, keeps.idMap]
    exact h.fresh
  first := by
    rw [keeps.names, keeps.idMap]
    exact h.first
  inRule := fun inside => keeps.names ▸ h.inRule (keeps.inRule inside)
  lexer := keeps.lexer h.lexer

theorem mem_multimapInsert {key : String} {value : Nat} {l : List (String × Nat)}
    {e : String × Nat} : e ∈ multimapInsert key value l ↔ e = (key, value) ∨ e ∈ l := by
  induction l with
  | nil => simp [multimapInsert]
  | cons e' l ih =>
    simp only [multimapInsert]
    split
    · simp
    · simp only [List.mem_cons, ih]
      tauto

theorem updateBack_keeps {f : ProductionDef → ProductionDef} {ctx ctx' : ParserContext}
    (left : ∀ prod, (f prod).left = prod.left) (h : updateBack f ctx = .ok ctx') :
    leftNames ctx' = leftNames ctx ∧ ctx'.prodmap = ctx.prodmap ∧
      ctx'.nonTerminalIdMap = ctx.nonTerminalIdMap ∧ ctx'.state = ctx.state ∧
      ctx'.rt.lexer = ctx.rt.lexer := by
  unfold updateBack at h
  cases last : ctx.rt.prodlist.getLast? with
  | none => simp [last] at h
  | some prod =>
    simp only [last] at h
    obtain rfl := Except.ok.inj h
    refine ⟨?_, rfl, rfl, rfl, rfl⟩
    have whole := List.dropLast_append_getLast? prod last
    conv_rhs => rw [leftNames, ← whole]
    simp [leftNames, left]

section Handlers

variable {value : String} {line : Int} {engine : PatternEngine} {ctx ctx' : ParserContext}

private theorem keeps_of_eq (rt : ctx'.rt = ctx.rt) (prodmap : ctx'.prodmap = ctx.prodmap)
    (idMap : ctx'.nonTerminalIdMap = ctx.nonTerminalIdMap)
    (inside : InRule ctx'.state = true → InRule ctx.state = true) : Keeps ctx ctx' :=
  ⟨by rw [leftNames, leftNames, rt], prodmap, idMap, inside, by rw [rt]; exact id⟩

theorem updatePriority_keeps
    (h : (do .ok { ctx with priority := ← convertStringToPriority value, state := .ParseAssign }) =
      (.ok ctx' : Except Failure ParserContext)) : Keeps ctx ctx' := by
  obtain ⟨priority, _, h⟩ := bind_eq_ok.mp h
  obtain rfl := Except.ok.inj h
  exact keeps_of_eq rfl rfl rfl (by simp [InRule])

theorem pushElement_keeps {name : String} {symbol : Bool}
    (h : pushElement name symbol ctx = .ok ctx') : Keeps ctx ctx' := by
  obtain ⟨names, prodmap, idMap, state, lexer⟩ := updateBack_keeps (by simp) h
  exact ⟨names, prodmap, idMap, by rw [state]; exact id, by rw [lexer]; exact id⟩

theorem onIdent_keeps (h : onIdent value ctx = .ok ctx') : Keeps ctx ctx' := by
  unfold onIdent at h
  cases state : ctx.state <;> simp only [state, throw, reduceCtorEq] at h
  case ParsePriority => exact updatePriority_keeps h
  case ParseProductionElement => exact pushElement_keeps h
  all_goals
    obtain rfl := Except.ok.inj h
    exact keeps_of_eq rfl rfl rfl (by simp [state, InRule])

theorem onCall_keeps (h : onCall value ctx = .ok ctx') : Keeps ctx ctx' := by
  unfold onCall at h
  cases state : ctx.state <;> simp only [state, throw, reduceCtorEq] at h
  all_goals
    obtain rfl := Except.ok.inj h
    exact keeps_of_eq rfl rfl rfl (by simp [state, InRule])

theorem onOpenBracket_keeps (h : onOpenBracket value ctx = .ok ctx') : Keeps ctx ctx' := by
  unfold onOpenBracket at h
  cases state : ctx.state <;> simp only [state, throw, reduceCtorEq] at h
  all_goals
    obtain rfl := Except.ok.inj h
    exact keeps_of_eq rfl rfl rfl (by simp [state, InRule])

theorem assignCall_keeps (h : assignCall ctx = .ok ctx') : Keeps ctx ctx' := by
  unfold assignCall at h
  dsimp only at h
  split at h
  · obtain ⟨names, prodmap, idMap, state, lexer⟩ := updateBack_keeps (by simp) h
    exact ⟨names, prodmap, idMap, by rw [state]; exact id, by rw [lexer]; exact id⟩
  · obtain ⟨names, prodmap, idMap, state, lexer⟩ := updateBack_keeps (by simp) h
    exact ⟨names, prodmap, idMap, by rw [state]; exact id, by rw [lexer]; exact id⟩

theorem onCloseBracket_keeps (h : onCloseBracket value ctx = .ok ctx') : Keeps ctx ctx' := by
  unfold onCloseBracket at h
  cases state : ctx.state <;> simp only [state, throw, reduceCtorEq] at h
  case ParseCallName =>
    obtain rfl := Except.ok.inj h
    exact keeps_of_eq rfl rfl rfl (by simp [state, InRule])
  all_goals
    obtain ⟨assigned, ha, h⟩ := bind_eq_ok.mp h
    obtain rfl := Except.ok.inj h
    have keeps := assignCall_keeps ha
    exact ⟨keeps.names, keeps.prodmap, keeps.idMap, by simp [state, InRule], keeps.lexer⟩

theorem onScope_keeps {scope : ScopeFlag} (h : onScope scope value ctx = .ok ctx') :
    Keeps ctx ctx' := by
  unfold onScope at h
  cases state : ctx.state <;> simp only [state, throw, reduceCtorEq] at h
  split at h
  · simp at h
  · split at h
    · simp at h
    · obtain ⟨names, prodmap, idMap, same, lexer⟩ := updateBack_keeps (by simp) h
      exact ⟨names, prodmap, idMap, by rw [same]; exact id, by rw [lexer]; exact id⟩

theorem onPriority_keeps (h : onPriority value ctx = .ok ctx') : Keeps ctx ctx' := by
  unfold onPriority at h
  cases state : ctx.state <;> simp only [state, throw, reduceCtorEq] at h
  exact updatePriority_keeps h

theorem onNumber_keeps (h : onNumber value ctx = .ok ctx') : Keeps ctx ctx' := by
  unfold onNumber at h
  cases state : ctx.state <;> simp only [state, throw, reduceCtorEq] at h
  case ParsePriority => exact updatePriority_keeps h
  case ParsePatternSelect =>
    obtain ⟨index, _, h⟩ := bind_eq_ok.mp h
    obtain rfl := Except.ok.inj h
    exact keeps_of_eq rfl rfl rfl (by simp [state, InRule])
  all_goals
    obtain rfl := Except.ok.inj h
    exact keeps_of_eq rfl rfl rfl (by simp [state, InRule])

theorem onOpenCurly_keeps (h : onOpenCurly value ctx = .ok ctx') : Keeps ctx ctx' := by
  unfold onOpenCurly at h
  cases state : ctx.state <;> simp only [state, throw, reduceCtorEq] at h
  obtain rfl := Except.ok.inj h
  exact keeps_of_eq rfl rfl rfl (by simp [state, InRule])

theorem onCloseCurly_keeps (h : onCloseCurly value ctx = .ok ctx') : Keeps ctx ctx' := by
  unfold onCloseCurly at h
  cases state : ctx.state <;> simp only [state, throw, reduceCtorEq] at h
  obtain rfl := Except.ok.inj h
  exact keeps_of_eq rfl rfl rfl (by simp [state, InRule])

theorem onComma_keeps (h : onComma value ctx = .ok ctx') : Keeps ctx ctx' := by
  unfold onComma at h
  cases state : ctx.state <;> simp only [state, throw, reduceCtorEq] at h
  obtain rfl := Except.ok.inj h
  exact keeps_of_eq rfl rfl rfl (by simp [state, InRule])

theorem onString_keeps {quote tail : String} (h : onString engine quote value tail ctx = .ok ctx') :
    Keeps ctx ctx' := by
  unfold onString at h
  cases state : ctx.state <;> simp only [state, throw, reduceCtorEq] at h
  case ParseProductionElement =>
    have of_lexer : ∀ lexer, (ctx.rt.lexer.Numbered → lexer.Numbered) →
        pushElement value false { ctx with rt := { ctx.rt with lexer := lexer } } = .ok ctx' →
        Keeps ctx ctx' := by
      intro lexer numbered pushed
      have keeps := pushElement_keeps pushed
      exact ⟨keeps.names, keeps.prodmap, keeps.idMap, fun _ => by simp [state, InRule],
        fun before => keeps.lexer (numbered before)⟩
    simp only [← state] at h
    split at h
    · obtain ⟨lexer, hl, h⟩ := bind_eq_ok.mp h
      exact of_lexer lexer (fun numbered => numbered.defineKeyword hl) h
    · exact of_lexer ctx.rt.lexer id h
  all_goals
    obtain rfl := Except.ok.inj h
    exact keeps_of_eq rfl rfl rfl (by simp [state, InRule])

theorem onEpsilon_keeps (h : onEpsilon value ctx = .ok ctx') : Keeps ctx ctx' := by
  unfold onEpsilon at h
  cases state : ctx.state <;> simp only [state, throw, reduceCtorEq] at h
  split at h
  · simp at h
  · split at h
    · obtain rfl := Except.ok.inj h
      exact keeps_of_eq rfl rfl rfl (by simp [state, InRule])
    · simp at h

theorem onPercent_keeps (h : onPercent value ctx = .ok ctx') : Keeps ctx ctx' := by
  unfold onPercent at h
  cases state : ctx.state <;> simp only [state, throw, reduceCtorEq] at h
  obtain rfl := Except.ok.inj h
  exact keeps_of_eq rfl rfl rfl (by simp [state, InRule])

theorem onSlash_keeps (h : onSlash value ctx = .ok ctx') : Keeps ctx ctx' := by
  unfold onSlash at h
  cases state : ctx.state <;> simp only [state, throw, reduceCtorEq] at h
  obtain rfl := Except.ok.inj h
  exact keeps_of_eq rfl rfl rfl (by simp [state, InRule])

theorem onDdot_keeps (h : onDdot value ctx = .ok ctx') : Keeps ctx ctx' := by
  unfold onDdot at h
  cases state : ctx.state <;> simp only [state, throw, reduceCtorEq] at h
  obtain rfl := Except.ok.inj h
  exact keeps_of_eq rfl rfl rfl (by simp [state, InRule])

theorem lexerCommand_keeps {rt : LanguageDef} (h : lexerCommand engine line ctx = .ok rt) :
    rt.prodlist = ctx.rt.prodlist ∧ (ctx.rt.lexer.Numbered → rt.lexer.Numbered) := by
  unfold lexerCommand at h
  dsimp only at h
  have argument : ∀ {f : String → Except Failure LanguageDef}, withArgument ctx f = .ok rt →
      (∀ arg, f arg = .ok rt → rt.prodlist = ctx.rt.prodlist ∧
        (ctx.rt.lexer.Numbered → rt.lexer.Numbered)) →
      rt.prodlist = ctx.rt.prodlist ∧ (ctx.rt.lexer.Numbered → rt.lexer.Numbered) := by
    intro f called of_arg
    unfold withArgument at called
    split at called
    · exact of_arg _ called
    · simp [throw] at called
  split at h
  · refine argument h fun arg ha => ?_
    obtain rfl := Except.ok.inj ha
    exact ⟨rfl, id⟩
  split at h
  · refine argument h fun arg ha => ?_
    obtain rfl := Except.ok.inj ha
    exact ⟨rfl, id⟩
  split at h
  · refine argument h fun arg ha => ?_
    obtain rfl := Except.ok.inj ha
    exact ⟨rfl, id⟩
  split at h
  · refine argument h fun arg ha => ?_
    obtain ⟨lexer, hl, ha⟩ := bind_eq_ok.mp ha
    obtain rfl := Except.ok.inj ha
    exact ⟨rfl, fun numbered => numbered.defineIgnore hl⟩
  split at h
  · refine argument h fun arg ha => ?_
    obtain rfl := Except.ok.inj ha
    exact ⟨rfl, id⟩
  split at h
  · split at h
    · obtain ⟨lexer, hl, h⟩ := bind_eq_ok.mp h
      obtain rfl := Except.ok.inj h
      exact ⟨rfl, fun numbered => numbered.defineEolnComment hl⟩
    · obtain ⟨lexer, hl, h⟩ := bind_eq_ok.mp h
      obtain rfl := Except.ok.inj h
      exact ⟨rfl, fun numbered => numbered.defineBracketComment hl⟩
    · simp [throw] at h
  split at h
  · split at h
    · obtain ⟨indent, _, h⟩ := bind_eq_ok.mp h
      obtain ⟨lexer, hl, h⟩ := bind_eq_ok.mp h
      obtain rfl := Except.ok.inj h
      exact ⟨rfl, fun numbered => numbered.defineIndentLexems hl⟩
    · simp [throw] at h
  · simp [throw] at h

theorem onSemicolon_keeps (h : onSemicolon engine line ctx = .ok ctx') : Keeps ctx ctx' := by
  have of_rt : ∀ rt : LanguageDef, rt.prodlist = ctx.rt.prodlist →
      (ctx.rt.lexer.Numbered → rt.lexer.Numbered) →
      (.ok { ctx with rt := rt, state := .Init } : Except Failure ParserContext) = .ok ctx' →
      Keeps ctx ctx' := by
    intro rt prodlist numbered done
    obtain rfl := Except.ok.inj done
    exact ⟨by rw [leftNames, leftNames, prodlist], rfl, rfl, by simp [InRule], numbered⟩
  unfold onSemicolon at h
  cases state : ctx.state <;> simp only [state, throw] at h
  case ParseLexerCommandArg =>
    obtain ⟨rt, hr, h⟩ := bind_eq_ok.mp h
    obtain ⟨prodlist, numbered⟩ := lexerCommand_keeps hr
    exact of_rt rt prodlist numbered h
  case ParsePatternSelect =>
    obtain ⟨lexer, hl, h⟩ := bind_eq_ok.mp h
    exact of_rt { ctx.rt with lexer := lexer } rfl (fun numbered => numbered.defineLexem hl) h
  case ParseEndOfLexemDef =>
    obtain ⟨lexer, hl, h⟩ := bind_eq_ok.mp h
    exact of_rt { ctx.rt with lexer := lexer } rfl (fun numbered => numbered.defineLexem hl) h
  case ParseProductionElement => exact of_rt ctx.rt rfl id h
  case ParseEndOfProduction => exact of_rt ctx.rt rfl id h
  case ParseCall => exact of_rt ctx.rt rfl id h
  all_goals simp at h

end Handlers

theorem Consistent.push {ctx next : ParserContext} (h : Consistent ctx)
    (names : leftNames next = leftNames ctx ++ [ctx.rulename])
    (prodmap : next.prodmap = multimapInsert ctx.rulename (leftNames ctx).length ctx.prodmap)
    (known : ∀ name id, next.nonTerminalIdMap.find name = some id →
      name = ctx.rulename ∨ ctx.nonTerminalIdMap.find name = some id)
    (first : ∀ name, (leftNames next).head? = some name →
      next.nonTerminalIdMap.find name = some 1)
    (lexer : next.rt.lexer = ctx.rt.lexer) : Consistent next where
  defined := by
    intro name i mem
    rw [prodmap, mem_multimapInsert] at mem
    rw [names]
    rcases mem with same | old
    · obtain ⟨rfl, rfl⟩ := Prod.mk.inj same
      simp
    · have before := h.defined name i old
      rwa [List.getElem?_append_left (List.getElem?_eq_some_iff.mp before).1]
  known := by
    intro name id found
    rw [prodmap]
    rcases known name id found with rfl | old
    · exact ⟨_, mem_multimapInsert.mpr (Or.inl rfl)⟩
    · obtain ⟨i, mem⟩ := h.known name id old
      exact ⟨i, mem_multimapInsert.mpr (Or.inr mem)⟩
  fresh := by simp [names]
  first := first
  inRule := by simp [names]
  lexer := lexer ▸ h.lexer

theorem leftNames_pushProduction (line : Int) (ctx : ParserContext) :
    leftNames (pushProduction line ctx) = leftNames ctx ++ [ctx.rulename] := by
  simp [leftNames, pushProduction]

theorem Consistent.onOr {value : String} {line : Int} {ctx ctx' : ParserContext}
    (h : Consistent ctx) (stepped : onOr value line ctx = .ok ctx') : Consistent ctx' := by
  have pushed : ∀ {next : ParserContext}, InRule ctx.state = true →
      leftNames next = leftNames ctx ++ [ctx.rulename] →
      next.prodmap = multimapInsert ctx.rulename (leftNames ctx).length ctx.prodmap →
      next.nonTerminalIdMap = ctx.nonTerminalIdMap → next.rt.lexer = ctx.rt.lexer →
      Consistent next := by
    intro next inside names prodmap idMap lexer
    refine h.push names prodmap (fun name id found => Or.inr (idMap ▸ found)) ?_ lexer
    intro name head
    rw [names, List.head?_append_of_ne_nil _ (h.inRule inside)] at head
    rw [idMap]
    exact h.first name head
  unfold Grammar.onOr at stepped
  cases state : ctx.state <;> simp only [state, throw, reduceCtorEq] at stepped
  all_goals
    obtain rfl := Except.ok.inj stepped
    exact pushed (by simp [state, InRule]) (leftNames_pushProduction line ctx)
      (by simp [pushProduction, leftNames]) rfl rfl

theorem Consistent.startRule {line : Int} {ctx : ParserContext} (h : Consistent ctx) :
    Consistent (startRule line ctx) := by
  unfold Grammar.startRule
  cases found : ctx.nonTerminalIdMap.find ctx.rulename with
  | none =>
    have fresh := SortedMap.insertNew_of_none (v := ctx.nonTerminalIdMap.entries.length + 1) found
    simp only [pushProduction, fresh]
    refine h.push (by simp [leftNames]) (by simp [leftNames]) ?_ ?_ rfl
    · intro name id known
      rw [SortedMap.find_set] at known
      split at known
      · exact Or.inl (Eq.symm ‹_›)
      · exact Or.inr known
    · intro name head
      rw [SortedMap.find_set]
      by_cases none_before : leftNames ctx = []
      · have entries := h.fresh none_before
        have only : name = ctx.rulename := by
          have none_left : ctx.rt.prodlist = [] := by simpa [leftNames] using none_before
          simpa [leftNames, none_left, eq_comm] using head
        simp [only, entries]
      · have whole : (leftNames ctx ++ [ctx.rulename]).head? = (leftNames ctx).head? :=
          List.head?_append_of_ne_nil _ none_before
        have old : (leftNames ctx).head? = some name := by
          rw [← whole]
          simpa [leftNames] using head
        have one := h.first name old
        have different : ctx.rulename ≠ name := by
          rintro rfl
          simp [found] at one
        rw [if_neg different]
        exact one
  | some old =>
    have known := SortedMap.insertNew_of_some (v := ctx.nonTerminalIdMap.entries.length + 1) found
    simp only [pushProduction, known]
    refine h.push (by simp [leftNames]) (by simp [leftNames]) (fun _ _ same => Or.inr same) ?_ rfl
    intro name head
    have some_before : leftNames ctx ≠ [] := by
      intro none_before
      have entries := h.fresh none_before
      have mem := SortedMap.find_eq_some.mp found
      simp [entries] at mem
    have whole : (leftNames ctx ++ [ctx.rulename]).head? = (leftNames ctx).head? :=
      List.head?_append_of_ne_nil _ some_before
    refine h.first name ?_
    rw [← whole]
    simpa [leftNames] using head

theorem parseLexem_cases {engine : PatternEngine} {ctx ctx' : ParserContext} {lexem : GrammarLexem}
    (stepped : parseLexem engine ctx lexem = .ok ctx') :
    Keeps ctx ctx' ∨ (∃ line, ctx' = startRule line ctx) ∨
      ∃ value line, onOr value line ctx = .ok ctx' := by
  have started {line : Int} (h : (.ok (startRule line ctx) : Except Failure ParserContext) =
      .ok ctx') : Keeps ctx ctx' ∨ (∃ line, ctx' = startRule line ctx) ∨
        ∃ value line, onOr value line ctx = .ok ctx' :=
    Or.inr (Or.inl ⟨line, (Except.ok.inj h).symm⟩)
  unfold Grammar.parseLexem at stepped
  cases kind : lexem.type <;> simp only [kind, throw, reduceCtorEq] at stepped
  case IDENT => exact Or.inl (onIdent_keeps stepped)
  case CALL => exact Or.inl (onCall_keeps stepped)
  case OPENBRK => exact Or.inl (onOpenBracket_keeps stepped)
  case CLOSEBRK => exact Or.inl (onCloseBracket_keeps stepped)
  case STEP => exact Or.inl (onScope_keeps stepped)
  case SCOPE => exact Or.inl (onScope_keeps stepped)
  case PRIORITY => exact Or.inl (onPriority_keeps stepped)
  case NUMBER => exact Or.inl (onNumber_keeps stepped)
  case OPENCURLYBRK => exact Or.inl (onOpenCurly_keeps stepped)
  case CLOSECURLYBRK => exact Or.inl (onCloseCurly_keeps stepped)
  case COMMA => exact Or.inl (onComma_keeps stepped)
  case DQSTRING => exact Or.inl (onString_keeps stepped)
  case SQSTRING => exact Or.inl (onString_keeps stepped)
  case EPSILON => exact Or.inl (onEpsilon_keeps stepped)
  case PERCENT => exact Or.inl (onPercent_keeps stepped)
  case SLASH => exact Or.inl (onSlash_keeps stepped)
  case DDOT => exact Or.inl (onDdot_keeps stepped)
  case SEMICOLON => exact Or.inl (onSemicolon_keeps stepped)
  case OR => exact Or.inr (Or.inr ⟨_, _, stepped⟩)
  case EQUAL =>
    unfold Grammar.onEqual at stepped
    cases state : ctx.state <;> simp only [state, throw, reduceCtorEq] at stepped
    case ParseCallArgMemberEquals =>
      obtain rfl := Except.ok.inj stepped
      exact Or.inl (keeps_of_eq rfl rfl rfl (by simp [state, InRule]))
    all_goals exact started stepped
  case ARROW =>
    unfold Grammar.onArrow at stepped
    cases state : ctx.state <;> simp only [state, throw, reduceCtorEq] at stepped
    all_goals exact started stepped

theorem Consistent.parseLexem {engine : PatternEngine} {ctx ctx' : ParserContext}
    {lexem : GrammarLexem} (h : Consistent ctx)
    (stepped : parseLexem engine ctx lexem = .ok ctx') : Consistent ctx' := by
  rcases parseLexem_cases stepped with keeps | ⟨line, rfl⟩ | ⟨value, line, pushed⟩
  · exact keeps.consistent h
  · exact h.startRule
  · exact h.onOr pushed

theorem atLine_eq_ok {α : Type} {line : Int} {x : Except Failure α} {a : α}
    (h : atLine line x = .ok a) : x = .ok a := by
  cases x with
  | error e => cases e <;> simp [atLine] at h
  | ok b => exact h

theorem consistent_of_parseLexems {engine : PatternEngine} {lexems : List GrammarLexem}
    {ctx : ParserContext} (h : parseLexems engine lexems = .ok ctx) : Consistent ctx :=
  foldlM_invariant Consistent
    (fun _ _ _ _ consistent stepped => consistent.parseLexem (atLine_eq_ok stepped))
    consistent_start h

theorem checkLanguageDef_inv {ctx : ParserContext} {rt : LanguageDef}
    (h : checkLanguageDef ctx = .ok rt) : ∃ labeled,
      ctx.rt.prodlist.mapM (labelProduction ctx.rt.lexer ctx.nonTerminalIdMap) = .ok labeled ∧
      rt = { ctx.rt with prodlist := labeled.map Prod.fst } ∧
      (∃ unreachable, ctx.prodmap.foldlM (collectUnreachable ctx.nonTerminalIdMap
        (SortedSet.ofList (labeled.flatMap Prod.snd))) [] = .ok unreachable) ∧
      (rt.prodlist.countP fun prod => prod.left.index = 1) = 1 ∧
      ∃ prodset, rt.prodlist.foldlM checkDuplicate SortedSet.empty = .ok prodset := by
  unfold checkLanguageDef at h
  dsimp only at h
  split at h
  · simp [throw] at h
  obtain ⟨labeled, hl, h⟩ := bind_eq_ok.mp h
  obtain ⟨unreachable, hu, h⟩ := bind_eq_ok.mp h
  split at h
  · simp [throw] at h
  split at h
  · simp [throw] at h
  rename_i some_start
  split at h
  · simp [throw] at h
  rename_i one_start
  split at h
  · simp [throw] at h
  obtain ⟨prodset, hp, h⟩ := bind_eq_ok.mp h
  obtain rfl := Except.ok.inj h
  exact ⟨labeled, hl, rfl, ⟨unreachable, hu⟩,
    Nat.le_antisymm (not_lt.mp one_start) (Nat.one_le_iff_ne_zero.mpr some_start), prodset, hp⟩

theorem labelElement_inv {lexer : Lexer} {idMap : SortedMap String Nat}
    {element : ProductionNodeDef} {nd : ProductionNodeDef} {used : Option String}
    (h : labelElement lexer idMap element = .ok (nd, used)) :
    (nd.type = .Terminal ∧ lexer.lexemId element.name ≠ 0 ∧ nd.index = lexer.lexemId element.name) ∨
      (nd.type = .NonTerminal ∧ ∃ nt, idMap.find element.name = some nt ∧ nd.index = nt ∧
        used = some element.name) := by
  unfold labelElement at h
  dsimp only at h
  cases found : idMap.find element.name with
  | none =>
    simp only [found] at h
    split at h
    · simp [throw] at h
    · obtain ⟨rfl, rfl⟩ := Prod.mk.inj (Except.ok.inj h)
      exact Or.inl ⟨rfl, ‹_›, rfl⟩
  | some nt =>
    simp only [found] at h
    split at h
    · simp [throw] at h
    · obtain ⟨rfl, rfl⟩ := Prod.mk.inj (Except.ok.inj h)
      exact Or.inr ⟨rfl, nt, rfl, rfl, rfl⟩

/-- A labeled production has the number of its name at its left side and labeled elements. -/
theorem labelProduction_inv {lexer : Lexer} {idMap : SortedMap String Nat}
    {prod : ProductionDef} {labeled : ProductionDef × List String}
    (h : labelProduction lexer idMap prod = .ok labeled) :
    (∃ nt, idMap.find prod.left.name = some nt ∧ labeled.1.left.index = nt) ∧
      ∀ nd ∈ labeled.1.right, ∃ element used, labelElement lexer idMap element = .ok (nd, used) ∧
        ∀ name, used = some name → name ∈ labeled.2 := by
  unfold labelProduction at h
  split at h
  · simp [throw] at h
  cases found : idMap.find prod.left.name with
  | none => simp [found] at h
  | some nt =>
    simp only [found] at h
    obtain ⟨elements, he, h⟩ := bind_eq_ok.mp h
    obtain rfl := Except.ok.inj h
    refine ⟨⟨nt, rfl, rfl⟩, ?_⟩
    intro nd mem
    obtain ⟨⟨nd', used⟩, mem', rfl⟩ := List.mem_map.mp mem
    obtain ⟨i, bound, at_i⟩ := List.getElem_of_mem mem'
    have related := List.forall₂_iff_get.mp (mapM_eq_ok he)
    have step := related.2 i (by rw [related.1]; exact bound) bound
    refine ⟨prod.right.get ⟨i, by rw [related.1]; exact bound⟩, used, ?_, ?_⟩
    · rw [← at_i]
      exact step
    · rintro name rfl
      exact List.mem_filterMap.mpr ⟨_, mem', rfl⟩

end Grammar

open Grammar in
theorem wellFormed_of_parseLanguageDef {engine : PatternEngine} {source : GrammarSource}
    {rt : LanguageDef} (h : parseLanguageDef engine source = .ok rt) :
    WellFormed rt.prodlist rt.lexer := by
  obtain ⟨ctx, parsed, h⟩ := bind_eq_ok.mp h
  have consistent := consistent_of_parseLexems parsed
  obtain ⟨labeled, hl, rfl, ⟨unreachable, hu⟩, one, -⟩ := checkLanguageDef_inv (atLine_eq_ok h)
  have related := List.forall₂_iff_get.mp (mapM_eq_ok hl)
  have step : ∀ (i : Nat) (prod : ProductionDef), (labeled.map Prod.fst)[i]? = some prod →
      ∃ prod0 labels, ctx.rt.prodlist[i]? = some prod0 ∧ labeled[i]? = some (prod, labels) ∧
        labelProduction ctx.rt.lexer ctx.nonTerminalIdMap prod0 = .ok (prod, labels) := by
    intro i prod at_i
    rw [List.getElem?_map, Option.map_eq_some_iff] at at_i
    obtain ⟨⟨prod', labels⟩, at_i, rfl⟩ := at_i
    obtain ⟨bound, eq⟩ := List.getElem?_eq_some_iff.mp at_i
    have bound' : i < ctx.rt.prodlist.length := by rw [related.1]; exact bound
    refine ⟨ctx.rt.prodlist[i], labels, List.getElem?_eq_getElem bound', at_i, ?_⟩
    have := related.2 i bound' bound
    simpa [eq] using this
  have element : ∀ prod ∈ labeled.map Prod.fst, ∀ nd ∈ prod.right, ∃ element used,
      labelElement ctx.rt.lexer ctx.nonTerminalIdMap element = .ok (nd, used) ∧
        ∀ name, used = some name → name ∈ labeled.flatMap Prod.snd := by
    intro prod mem nd hnd
    obtain ⟨i, at_i⟩ := List.mem_iff_getElem?.mp mem
    obtain ⟨prod0, labels, -, at_i, label⟩ := step i prod at_i
    obtain ⟨element, used, he, names⟩ := (labelProduction_inv label).2 nd hnd
    exact ⟨element, used, he, fun name hname =>
      List.mem_flatMap.mpr ⟨_, List.mem_of_getElem? at_i, names name hname⟩⟩
  have first : ∃ prod : ProductionDef, (labeled.map Prod.fst)[0]? = some prod ∧
      prod.left.index = 1 := by
    have some_prod : 0 < (labeled.map Prod.fst).length := by
      by_contra none_left
      have nil : labeled.map Prod.fst = [] := List.length_eq_zero_iff.mp (by omega)
      simp [nil] at one
    refine ⟨_, List.getElem?_eq_getElem some_prod, ?_⟩
    obtain ⟨prod0, labels, at0, -, label⟩ := step 0 _ (List.getElem?_eq_getElem some_prod)
    obtain ⟨⟨nt, found, index⟩, -⟩ := labelProduction_inv label
    have head : (leftNames ctx).head? = some prod0.left.name := by
      rw [leftNames, List.head?_map, List.head?_eq_getElem?, at0]
      rfl
    rw [consistent.first _ head] at found
    rw [index, ← Option.some.inj found]
    rfl
  refine ⟨first, ?_, ?_, ?_, ?_⟩
  · intro i prod at_i index
    obtain ⟨prod0, at_0, index0⟩ := first
    cases prods : labeled.map Prod.fst with
    | nil => simp [prods] at at_i
    | cons head tail =>
      rw [prods] at at_0 at_i
      simp only [prods] at one
      obtain rfl : head = prod0 := by simpa using at_0
      cases i with
      | zero => rfl
      | succ i =>
        rw [List.countP_cons_of_pos (by simpa using index0)] at one
        have none_left : (tail.countP fun prod => decide (prod.left.index = 1)) = 0 := by omega
        rw [List.countP_eq_zero] at none_left
        have mem : prod ∈ tail := List.mem_of_getElem? (by simpa using at_i)
        exact absurd (by simpa using index) (none_left prod mem)
  · intro prod mem nd hnd kind
    obtain ⟨element, used, he, -⟩ := element prod mem nd hnd
    rcases labelElement_inv he with ⟨-, known, index⟩ | ⟨kind', -⟩
    · rw [index]
      exact ⟨by omega, consistent.lexer.lexemId known⟩
    · simp [kind] at kind'
  · intro prod mem nd hnd kind
    obtain ⟨element, used, he, names⟩ := element prod mem nd hnd
    rcases labelElement_inv he with ⟨kind', -⟩ | ⟨-, nt, found, index, rfl⟩
    · simp [kind] at kind'
    · obtain ⟨i, entry⟩ := consistent.known _ _ found
      refine ⟨?_, ?_⟩
      · intro is_start
        obtain ⟨t, t', checked⟩ := foldlM_step hu entry
        have is_used : element.name ∈ (SortedSet.ofList (labeled.flatMap Prod.snd)) :=
          SortedSet.mem_ofList.mpr (names _ rfl)
        have one : nt = 1 := by omega
        simp [collectUnreachable, found, is_used, one, Grammar.throw] at checked
      · have at_i := consistent.defined _ _ entry
        rw [leftNames, List.getElem?_map, Option.map_eq_some_iff] at at_i
        obtain ⟨prod0, at_i, name_eq⟩ := at_i
        have bound : i < (labeled.map Prod.fst).length := by
          rw [List.length_map, ← related.1]
          exact (List.getElem?_eq_some_iff.mp at_i).1
        refine ⟨_, List.getElem_mem bound, ?_⟩
        obtain ⟨prod1, labels, at_1, -, label⟩ := step i _ (List.getElem?_eq_getElem bound)
        obtain rfl := Option.some.inj (at_1.symm.trans at_i)
        obtain ⟨⟨nt', found', index'⟩, -⟩ := labelProduction_inv label
        rw [name_eq, found] at found'
        rw [index', index, Option.some.inj found']
  · intro prod mem nd hnd kind
    obtain ⟨element, used, he, -⟩ := element prod mem nd hnd
    rcases labelElement_inv he with ⟨kind', -⟩ | ⟨kind', -⟩
    · simp [kind] at kind'
    · simp [kind] at kind'


end Mewa
