/- Module: Mewa/Grammar/Lexing
   digest: The lexer of a grammar is made by definitions, and every terminal has a name in it. -/

import Mewa.Grammar.Wellformed
import Mewa.Lexer.Defined

set_option autoImplicit false
set_option relaxedAutoImplicit false

namespace Mewa

open Mewa.Lib

namespace Grammar

variable {engine : PatternEngine} {ctx ctx' : ParserContext} {value : String} {line : Int}

theorem updateBack_lexer {f : ProductionDef → ProductionDef} (h : updateBack f ctx = .ok ctx') :
    ctx'.rt.lexer = ctx.rt.lexer := by
  unfold updateBack at h
  split at h
  · cases h
  · obtain rfl := Except.ok.inj h
    rfl

theorem assignCall_lexer (h : assignCall ctx = .ok ctx') : ctx'.rt.lexer = ctx.rt.lexer := by
  unfold assignCall at h
  dsimp only at h
  split at h
  · exact updateBack_lexer h
  · rw [updateBack_lexer h]

theorem onString_defined {quote tail : String} (defined : Lexer.Defined engine ctx.rt.lexer)
    (h : onString engine quote value tail ctx = .ok ctx') :
    Lexer.Defined engine ctx'.rt.lexer := by
  unfold onString at h
  cases state : ctx.state <;> simp only [state, throw, reduceCtorEq] at h
  case ParseProductionElement =>
    split at h
    · obtain ⟨lexer, made, h⟩ := bind_eq_ok.mp h
      rw [updateBack_lexer h]
      exact .keyword defined made
    · rw [updateBack_lexer h]
      exact defined
  all_goals
    obtain rfl := Except.ok.inj h
    exact defined

theorem withArgument_cases {f : String → Except Failure LanguageDef} {rt : LanguageDef}
    (h : withArgument ctx f = .ok rt) : ∃ arg, f arg = .ok rt := by
  unfold withArgument at h
  split at h
  · exact ⟨_, h⟩
  · cases h

theorem lexerCommand_defined {rt : LanguageDef} (defined : Lexer.Defined engine ctx.rt.lexer)
    (h : lexerCommand engine line ctx = .ok rt) : Lexer.Defined engine rt.lexer := by
  unfold lexerCommand at h
  dsimp only at h
  -- the three commands that set a text
  split at h
  · obtain ⟨arg, h⟩ := withArgument_cases h
    obtain rfl := Except.ok.inj h
    exact defined
  split at h
  · obtain ⟨arg, h⟩ := withArgument_cases h
    obtain rfl := Except.ok.inj h
    exact defined
  split at h
  · obtain ⟨arg, h⟩ := withArgument_cases h
    obtain rfl := Except.ok.inj h
    exact defined
  split at h
  · obtain ⟨arg, h⟩ := withArgument_cases h
    obtain ⟨lexer, made, h⟩ := bind_eq_ok.mp h
    obtain rfl := Except.ok.inj h
    exact .ignore defined made
  split at h
  · obtain ⟨arg, h⟩ := withArgument_cases h
    obtain rfl := Except.ok.inj h
    exact .badLexem line arg defined
  split at h
  · split at h
    · obtain ⟨lexer, made, h⟩ := bind_eq_ok.mp h
      obtain rfl := Except.ok.inj h
      exact .eolnComment defined made
    · obtain ⟨lexer, made, h⟩ := bind_eq_ok.mp h
      obtain rfl := Except.ok.inj h
      exact .bracketComment defined made
    · cases h
  split at h
  · split at h
    · obtain ⟨indent, -, h⟩ := bind_eq_ok.mp h
      obtain ⟨lexer, made, h⟩ := bind_eq_ok.mp h
      obtain rfl := Except.ok.inj h
      exact .indentLexems defined made
    · cases h
  · cases h

theorem onSemicolon_defined (defined : Lexer.Defined engine ctx.rt.lexer)
    (h : onSemicolon engine line ctx = .ok ctx') : Lexer.Defined engine ctx'.rt.lexer := by
  unfold onSemicolon at h
  cases state : ctx.state <;> simp only [state, throw] at h
  case ParseLexerCommandArg =>
    obtain ⟨rt, made, h⟩ := bind_eq_ok.mp h
    obtain rfl := Except.ok.inj h
    exact lexerCommand_defined defined made
  case ParsePatternSelect =>
    obtain ⟨lexer, made, h⟩ := bind_eq_ok.mp h
    obtain rfl := Except.ok.inj h
    exact .lexem defined made
  case ParseEndOfLexemDef =>
    obtain ⟨lexer, made, h⟩ := bind_eq_ok.mp h
    obtain rfl := Except.ok.inj h
    exact .lexem defined made
  case ParseProductionElement | ParseEndOfProduction | ParseCall =>
    obtain rfl := Except.ok.inj h
    exact defined
  all_goals cases h

theorem startRule_lexer : (startRule line ctx).rt.lexer = ctx.rt.lexer := by
  unfold startRule
  dsimp only
  split <;> rfl

theorem parseLexem_lexer {lexem : GrammarLexem} (h : parseLexem engine ctx lexem = .ok ctx')
    (not_string : lexem.type ≠ .DQSTRING ∧ lexem.type ≠ .SQSTRING)
    (not_semicolon : lexem.type ≠ .SEMICOLON) : ctx'.rt.lexer = ctx.rt.lexer := by
  have prioritized {text : String} (h : (do
      .ok { ctx with priority := ← convertStringToPriority text, state := .ParseAssign } :
        Except Failure ParserContext) = .ok ctx') : ctx'.rt.lexer = ctx.rt.lexer := by
    obtain ⟨priority, -, h⟩ := bind_eq_ok.mp h
    obtain rfl := Except.ok.inj h
    rfl
  unfold parseLexem at h
  cases kind : lexem.type <;> simp only [kind, throw, reduceCtorEq] at h not_string not_semicolon
  case IDENT =>
    unfold onIdent at h
    cases state : ctx.state <;> simp only [state, throw, reduceCtorEq] at h
    case ParsePriority => exact prioritized h
    case ParseProductionElement => exact updateBack_lexer h
    all_goals
      obtain rfl := Except.ok.inj h
      rfl
  case PRIORITY =>
    unfold onPriority at h
    cases state : ctx.state <;> simp only [state, throw, reduceCtorEq] at h
    exact prioritized h
  case NUMBER =>
    unfold onNumber at h
    cases state : ctx.state <;> simp only [state, throw, reduceCtorEq] at h
    case ParsePriority => exact prioritized h
    case ParsePatternSelect =>
      obtain ⟨index, -, h⟩ := bind_eq_ok.mp h
      obtain rfl := Except.ok.inj h
      rfl
    all_goals
      obtain rfl := Except.ok.inj h
      rfl
  case CLOSEBRK =>
    unfold onCloseBracket at h
    cases state : ctx.state <;> simp only [state, throw, reduceCtorEq] at h
    case ParseCallName =>
      obtain rfl := Except.ok.inj h
      rfl
    all_goals
      obtain ⟨assigned, called, h⟩ := bind_eq_ok.mp h
      have same := assignCall_lexer called
      obtain rfl := Except.ok.inj h
      exact same
  case EPSILON =>
    unfold onEpsilon at h
    cases state : ctx.state <;> simp only [state, throw, reduceCtorEq] at h
    split at h
    · cases h
    · split at h
      · obtain rfl := Except.ok.inj h
        rfl
      · cases h
  case EQUAL =>
    unfold onEqual at h
    cases state : ctx.state <;> simp only [state, throw, reduceCtorEq] at h
    case ParseCallArgMemberEquals =>
      obtain rfl := Except.ok.inj h
      rfl
    all_goals
      obtain rfl := Except.ok.inj h
      exact startRule_lexer
  case ARROW =>
    unfold onArrow at h
    cases state : ctx.state <;> simp only [state, throw, reduceCtorEq] at h
    all_goals
      obtain rfl := Except.ok.inj h
      exact startRule_lexer
  case DQSTRING => exact absurd rfl not_string.1
  case SQSTRING => exact absurd rfl not_string.2
  case SEMICOLON => exact absurd rfl not_semicolon
  case STEP | SCOPE =>
    unfold onScope at h
    cases state : ctx.state <;> simp only [state, throw, reduceCtorEq] at h
    split at h
    · cases h
    · split at h
      · cases h
      · exact updateBack_lexer h
  case OR =>
    unfold onOr at h
    cases state : ctx.state <;> simp only [state, throw, reduceCtorEq] at h
    all_goals
      obtain rfl := Except.ok.inj h
      rfl
  case CALL | OPENBRK | OPENCURLYBRK | CLOSECURLYBRK | COMMA | PERCENT | SLASH | DDOT =>
    cases state : ctx.state <;>
      simp only [onCall, onOpenBracket, onOpenCurly, onCloseCurly, onComma, onPercent, onSlash,
        onDdot, state, throw, reduceCtorEq] at h
    all_goals
      obtain rfl := Except.ok.inj h
      rfl

theorem defined_of_parseLexem {lexem : GrammarLexem} (defined : Lexer.Defined engine ctx.rt.lexer)
    (h : parseLexem engine ctx lexem = .ok ctx') : Lexer.Defined engine ctx'.rt.lexer := by
  by_cases string : lexem.type = .DQSTRING ∨ lexem.type = .SQSTRING
  · unfold parseLexem at h
    rcases string with kind | kind
    · rw [kind] at h
      exact onString_defined defined h
    · rw [kind] at h
      exact onString_defined defined h
  by_cases semicolon : lexem.type = .SEMICOLON
  · unfold parseLexem at h
    rw [semicolon] at h
    exact onSemicolon_defined defined h
  · rw [parseLexem_lexer h (not_or.mp string) semicolon]
    exact defined

end Grammar

open Grammar

variable {engine : PatternEngine} {source : GrammarSource} {rt : LanguageDef}

theorem defined_of_parseLanguageDef (h : parseLanguageDef engine source = .ok rt) :
    Lexer.Defined engine rt.lexer := by
  obtain ⟨ctx, parsed, h⟩ := bind_eq_ok.mp h
  obtain ⟨labeled, -, rfl, -⟩ := checkLanguageDef_inv (atLine_eq_ok h)
  exact foldlM_invariant (fun ctx : ParserContext => Lexer.Defined engine ctx.rt.lexer)
    (fun _ _ _ _ defined stepped => defined_of_parseLexem defined (atLine_eq_ok stepped))
    .empty parsed

theorem lexemName_of_parseLanguageDef (h : parseLanguageDef engine source = .ok rt)
    {prod : ProductionDef} (mem : prod ∈ rt.prodlist) {nd : ProductionNodeDef}
    (here : nd ∈ prod.right) (kind : nd.type = .Terminal) :
    ∃ name, rt.lexer.lexemName nd.index = .ok name := by
  have named := (Lexer.Defined.invariants (defined_of_parseLanguageDef h)).1
  obtain ⟨ctx, -, h⟩ := bind_eq_ok.mp h
  obtain ⟨labeled, made, rfl, -⟩ := checkLanguageDef_inv (atLine_eq_ok h)
  obtain ⟨⟨labels, used⟩, in_labeled, rfl⟩ := List.mem_map.mp mem
  obtain ⟨prod0, -, label⟩ := (mem_mapM made).1 _ in_labeled
  obtain ⟨element, used, labeled_element, -⟩ := (labelProduction_inv label).2 nd here
  rcases labelElement_inv labeled_element with ⟨-, known, index⟩ | ⟨kind', -⟩
  · unfold Lexer.lexemId at known index
    cases found : ctx.rt.lexer.nameidmap.find element.name with
    | none => simp [found] at known
    | some id =>
      obtain ⟨low, high⟩ := named.bound _ _ found
      simp only [found, Option.getD_some] at index
      have inside : (id : Int) - 1 < ctx.rt.lexer.namelist.length := by
        have high : id ≤ ctx.rt.lexer.namelist.length := high
        omega
      have at_index : (nd.index - 1).toNat < ctx.rt.lexer.namelist.length := by omega
      refine ⟨ctx.rt.lexer.namelist[(nd.index - 1).toNat], ?_⟩
      show ctx.rt.lexer.lexemName nd.index = _
      unfold Lexer.lexemName
      rw [if_neg (by omega), List.getElem?_eq_getElem at_index]
  · rw [kind] at kind'
    cases kind'

end Mewa
