/- Module: Mewa/Grammar/Called
   digest: How the reader counts: a production has one call at most, the calls and the nonterminals are
   numbered without gaps, and no number is larger than its limit. -/

import Mewa.Grammar.Wellformed

set_option autoImplicit false
set_option relaxedAutoImplicit false

namespace Mewa

open Mewa.Lib

namespace Grammar

def callidxs (rt : LanguageDef) : List Nat := rt.prodlist.map ProductionDef.callidx

/-- The states in which the last production may still get a call. -/
def Open : ParserState → Bool
  | .ParseProductionElement | .ParseCall | .ParseCallName | .ParseCallArg | .ParseCallClose => true
  | .ParseCallArgMemberName | .ParseCallArgMemberEquals => true
  | .ParseCallArgMemberValue | .ParseCallArgMemberDelim => true
  | _ => false

/-- What a step does with the calls and the nonterminals: it leaves them alone, or it gives the last
    production a call that is known or new, or it starts another production. -/
inductive Effect (ctx ctx' : ParserContext) : Prop
  | keep : callidxs ctx'.rt = callidxs ctx.rt → ctx'.rt.calls = ctx.rt.calls →
      ctx'.nonTerminalIdMap = ctx.nonTerminalIdMap →
      (Open ctx'.state = true → Open ctx.state = true) → Effect ctx ctx'
  | known {front : List Nat} {last i : Nat} : callidxs ctx.rt = front ++ [last] →
      callidxs ctx'.rt = front ++ [i + 1] → Open ctx.state = true → Open ctx'.state = false →
      i < ctx.rt.calls.length → ctx'.rt.calls = ctx.rt.calls →
      ctx'.nonTerminalIdMap = ctx.nonTerminalIdMap → Effect ctx ctx'
  | new {front : List Nat} {last : Nat} {call : Call} : callidxs ctx.rt = front ++ [last] →
      callidxs ctx'.rt = front ++ [ctx.rt.calls.length + 1] → Open ctx.state = true →
      Open ctx'.state = false → ctx'.rt.calls = ctx.rt.calls ++ [call] →
      ctx'.nonTerminalIdMap = ctx.nonTerminalIdMap → Effect ctx ctx'
  | push : callidxs ctx'.rt = callidxs ctx.rt ++ [0] → ctx'.rt.calls = ctx.rt.calls →
      (ctx'.nonTerminalIdMap = ctx.nonTerminalIdMap ∨
        ∃ name, ctx.nonTerminalIdMap.find name = none ∧ ctx'.nonTerminalIdMap =
          ctx.nonTerminalIdMap.set name (ctx.nonTerminalIdMap.entries.length + 1)) →
      Effect ctx ctx'

section Handlers

variable {value : String} {line : Int} {engine : PatternEngine} {ctx ctx' : ParserContext}

private theorem effect_of_rt (rt : ctx'.rt = ctx.rt)
    (idMap : ctx'.nonTerminalIdMap = ctx.nonTerminalIdMap)
    (inside : Open ctx'.state = true → Open ctx.state = true) : Effect ctx ctx' :=
  .keep (by rw [rt]) (by rw [rt]) idMap inside

theorem updateBack_callidxs {f : ProductionDef → ProductionDef} (h : updateBack f ctx = .ok ctx') :
    ∃ front prod, ctx.rt.prodlist = front ++ [prod] ∧ ctx'.rt.prodlist = front ++ [f prod] ∧
      ctx'.rt.calls = ctx.rt.calls ∧ ctx'.nonTerminalIdMap = ctx.nonTerminalIdMap ∧
      ctx'.state = ctx.state := by
  unfold updateBack at h
  cases last : ctx.rt.prodlist.getLast? with
  | none => simp [last] at h
  | some prod =>
    simp only [last] at h
    obtain rfl := Except.ok.inj h
    exact ⟨_, prod, (List.dropLast_append_getLast? prod last).symm, rfl, rfl, rfl, rfl⟩

theorem updateBack_effect {f : ProductionDef → ProductionDef} (h : updateBack f ctx = .ok ctx')
    (same : ∀ prod, (f prod).callidx = prod.callidx) : Effect ctx ctx' := by
  obtain ⟨front, prod, before, after, calls, idMap, state⟩ := updateBack_callidxs h
  refine .keep ?_ calls idMap (by rw [state]; exact id)
  unfold callidxs
  rw [before, after, List.map_append, List.map_append, List.map_singleton, List.map_singleton, same]

theorem assignCall_effect (inside : Open ctx.state = true) (h : assignCall ctx = .ok ctx') :
    Effect ctx { ctx' with state := .ParseEndOfProduction } := by
  unfold assignCall at h
  dsimp only at h
  split at h
  · rename_i i found
    obtain ⟨bound, -⟩ := List.findIdx?_eq_some_iff_getElem.mp found
    obtain ⟨front, prod, before, after, calls, idMap, -⟩ := updateBack_callidxs h
    have before : callidxs ctx.rt = front.map ProductionDef.callidx ++ [prod.callidx] := by
      simp [callidxs, before]
    have after : callidxs ctx'.rt = front.map ProductionDef.callidx ++ [i + 1] := by
      simp [callidxs, after]
    exact .known before after inside rfl bound calls idMap
  · obtain ⟨front, prod, before, after, calls, idMap, -⟩ := updateBack_callidxs h
    have before : ctx.rt.prodlist = front ++ [prod] := before
    have before : callidxs ctx.rt = front.map ProductionDef.callidx ++ [prod.callidx] := by
      simp [callidxs, before]
    have after : callidxs ctx'.rt =
        front.map ProductionDef.callidx ++ [ctx.rt.calls.length + 1] := by
      simp [callidxs, after]
    exact .new before after inside rfl calls idMap

theorem startRule_effect : Effect ctx (startRule line ctx) := by
  unfold startRule
  cases found : ctx.nonTerminalIdMap.find ctx.rulename with
  | none =>
    have fresh := SortedMap.insertNew_of_none (v := ctx.nonTerminalIdMap.entries.length + 1) found
    simp only [pushProduction, fresh]
    exact .push (by simp [callidxs]) rfl (Or.inr ⟨ctx.rulename, found, rfl⟩)
  | some id =>
    have old := SortedMap.insertNew_of_some (v := ctx.nonTerminalIdMap.entries.length + 1) found
    simp only [pushProduction, old]
    exact .push (by simp [callidxs]) rfl (Or.inl rfl)

theorem lexerCommand_rt {rt : LanguageDef} (h : lexerCommand engine line ctx = .ok rt) :
    rt.prodlist = ctx.rt.prodlist ∧ rt.calls = ctx.rt.calls := by
  have argument {f : String → Except Failure LanguageDef} (called : withArgument ctx f = .ok rt)
      (of_arg : ∀ arg, f arg = .ok rt →
        rt.prodlist = ctx.rt.prodlist ∧ rt.calls = ctx.rt.calls) :
      rt.prodlist = ctx.rt.prodlist ∧ rt.calls = ctx.rt.calls := by
    unfold withArgument at called
    split at called
    · exact of_arg _ called
    · cases called
  have of_lexer {x : Except Failure Lexer} (made : (do .ok { ctx.rt with lexer := ← x } :
      Except Failure LanguageDef) = .ok rt) :
      rt.prodlist = ctx.rt.prodlist ∧ rt.calls = ctx.rt.calls := by
    obtain ⟨lexer, -, made⟩ := bind_eq_ok.mp made
    obtain rfl := Except.ok.inj made
    exact ⟨rfl, rfl⟩
  have of_text {text : LanguageDef} (made : (.ok text : Except Failure LanguageDef) = .ok rt)
      (same : text.prodlist = ctx.rt.prodlist ∧ text.calls = ctx.rt.calls) :
      rt.prodlist = ctx.rt.prodlist ∧ rt.calls = ctx.rt.calls := by
    obtain rfl := Except.ok.inj made
    exact same
  unfold lexerCommand at h
  dsimp only at h
  split at h
  · exact argument h fun arg made => of_text made ⟨rfl, rfl⟩
  split at h
  · exact argument h fun arg made => of_text made ⟨rfl, rfl⟩
  split at h
  · exact argument h fun arg made => of_text made ⟨rfl, rfl⟩
  split at h
  · exact argument h fun arg made => of_lexer made
  split at h
  · exact argument h fun arg made => of_text made ⟨rfl, rfl⟩
  split at h
  · split at h
    · exact of_lexer h
    · exact of_lexer h
    · cases h
  split at h
  · split at h
    · obtain ⟨indent, -, h⟩ := bind_eq_ok.mp h
      exact of_lexer h
    · cases h
  · cases h

theorem onSemicolon_effect (h : onSemicolon engine line ctx = .ok ctx') : Effect ctx ctx' := by
  have of_rt {rt : LanguageDef} (made : (.ok { ctx with rt := rt, state := .Init } :
      Except Failure ParserContext) = .ok ctx')
      (same : rt.prodlist = ctx.rt.prodlist ∧ rt.calls = ctx.rt.calls) : Effect ctx ctx' := by
    obtain rfl := Except.ok.inj made
    exact .keep (by unfold callidxs; rw [same.1]) same.2 rfl (fun inside => by cases inside)
  have of_lexer {x : Except Failure Lexer} (made : (do
      .ok { ctx with rt := { ctx.rt with lexer := ← x }, state := .Init } :
        Except Failure ParserContext) = .ok ctx') : Effect ctx ctx' := by
    obtain ⟨lexer, -, made⟩ := bind_eq_ok.mp made
    obtain rfl := Except.ok.inj made
    exact .keep rfl rfl rfl (fun inside => by cases inside)
  unfold onSemicolon at h
  cases state : ctx.state <;> simp only [state, throw] at h
  case ParseLexerCommandArg =>
    obtain ⟨rt, made, h⟩ := bind_eq_ok.mp h
    exact of_rt h (lexerCommand_rt made)
  case ParsePatternSelect => exact of_lexer h
  case ParseEndOfLexemDef => exact of_lexer h
  case ParseProductionElement | ParseEndOfProduction | ParseCall => exact of_rt h ⟨rfl, rfl⟩
  all_goals cases h

theorem onString_effect {quote tail : String} (h : onString engine quote value tail ctx = .ok ctx') :
    Effect ctx ctx' := by
  unfold onString at h
  cases state : ctx.state <;> simp only [state, throw, reduceCtorEq] at h
  case ParseProductionElement =>
    have of_lexer : ∀ lexer, pushElement value false
        { ctx with rt := { ctx.rt with lexer := lexer } } = .ok ctx' → Effect ctx ctx' := by
      intro lexer pushed
      obtain ⟨front, prod, before, after, calls, idMap, same⟩ := updateBack_callidxs pushed
      have before : ctx.rt.prodlist = front ++ [prod] := before
      refine .keep ?_ calls idMap (by rw [same]; exact id)
      unfold callidxs
      rw [before, after, List.map_append, List.map_append, List.map_singleton, List.map_singleton]
    simp only [← state] at h
    split at h
    · obtain ⟨lexer, -, h⟩ := bind_eq_ok.mp h
      exact of_lexer lexer h
    · exact of_lexer ctx.rt.lexer h
  all_goals
    obtain rfl := Except.ok.inj h
    exact effect_of_rt rfl rfl (by simp [state, Open])

theorem parseLexem_effect {lexem : GrammarLexem} (h : parseLexem engine ctx lexem = .ok ctx') :
    Effect ctx ctx' := by
  have prioritized {text : String} (h : (do
      .ok { ctx with priority := ← convertStringToPriority text, state := .ParseAssign } :
        Except Failure ParserContext) = .ok ctx') : Effect ctx ctx' := by
    obtain ⟨priority, -, h⟩ := bind_eq_ok.mp h
    obtain rfl := Except.ok.inj h
    exact effect_of_rt rfl rfl (fun inside => by cases inside)
  unfold parseLexem at h
  cases kind : lexem.type <;> simp only [kind, throw, reduceCtorEq] at h
  case IDENT =>
    unfold onIdent at h
    cases state : ctx.state <;> simp only [state, throw, reduceCtorEq] at h
    case ParsePriority => exact prioritized h
    case ParseProductionElement => exact updateBack_effect h (fun _ => rfl)
    all_goals
      obtain rfl := Except.ok.inj h
      exact effect_of_rt rfl rfl (by simp [state, Open])
  case PRIORITY =>
    unfold onPriority at h
    cases state : ctx.state <;> simp only [state, throw, reduceCtorEq] at h
    exact prioritized h
  case NUMBER =>
    unfold onNumber at h
    cases state : ctx.state <;> simp only [state, throw, reduceCtorEq] at h
    case ParsePriority => exact prioritized h
    case ParsePatternSelect =>
      obtain ⟨index, -, h⟩ := bind_eq_ok.mp h
      obtain rfl := Except.ok.inj h
      exact effect_of_rt rfl rfl (by simp [Open])
    all_goals
      obtain rfl := Except.ok.inj h
      exact effect_of_rt rfl rfl (by simp [state, Open])
  case CLOSEBRK =>
    unfold onCloseBracket at h
    cases state : ctx.state <;> simp only [state, throw, reduceCtorEq] at h
    case ParseCallName =>
      obtain rfl := Except.ok.inj h
      exact effect_of_rt rfl rfl (by simp [Open])
    all_goals
      obtain ⟨assigned, called, h⟩ := bind_eq_ok.mp h
      have effect := assignCall_effect (by simp [state, Open]) called
      obtain rfl := Except.ok.inj h
      exact effect
  case EPSILON =>
    unfold onEpsilon at h
    cases state : ctx.state <;> simp only [state, throw, reduceCtorEq] at h
    split at h
    · cases h
    · split at h
      · obtain rfl := Except.ok.inj h
        exact effect_of_rt rfl rfl (by simp [state, Open])
      · cases h
  case EQUAL =>
    unfold onEqual at h
    cases state : ctx.state <;> simp only [state, throw, reduceCtorEq] at h
    case ParseCallArgMemberEquals =>
      obtain rfl := Except.ok.inj h
      exact effect_of_rt rfl rfl (by simp [state, Open])
    all_goals
      obtain rfl := Except.ok.inj h
      exact startRule_effect
  case ARROW =>
    unfold onArrow at h
    cases state : ctx.state <;> simp only [state, throw, reduceCtorEq] at h
    all_goals
      obtain rfl := Except.ok.inj h
      exact startRule_effect
  case DQSTRING => exact onString_effect h
  case SQSTRING => exact onString_effect h
  case SEMICOLON => exact onSemicolon_effect h
  case STEP | SCOPE =>
    unfold onScope at h
    cases state : ctx.state <;> simp only [state, throw, reduceCtorEq] at h
    split at h
    · cases h
    · split at h
      · cases h
      · exact updateBack_effect h (fun _ => rfl)
  case OR =>
    unfold onOr at h
    cases state : ctx.state <;> simp only [state, throw, reduceCtorEq] at h
    all_goals
      obtain rfl := Except.ok.inj h
      exact .push (by simp [callidxs, pushProduction]) rfl (Or.inl rfl)
  case CALL | OPENBRK | OPENCURLYBRK | CLOSECURLYBRK | COMMA | PERCENT | SLASH | DDOT =>
    cases state : ctx.state <;>
      simp only [onCall, onOpenBracket, onOpenCurly, onCloseCurly, onComma, onPercent, onSlash,
        onDdot, state, throw, reduceCtorEq] at h
    all_goals
      obtain rfl := Except.ok.inj h
      exact effect_of_rt rfl rfl (by simp [state, Open])

end Handlers

/-- What holds of the calls and the nonterminals while a grammar is read. -/
structure Called (ctx : ParserContext) : Prop where
  calls : ctx.rt.calls.length ≤ (callidxs ctx.rt).countP (0 < ·)
  callidx : ∀ i ∈ callidxs ctx.rt, i ≤ ctx.rt.calls.length
  opened : Open ctx.state = true → ∀ i, (callidxs ctx.rt).getLast? = some i → i = 0
  numbers : ∀ name id, ctx.nonTerminalIdMap.find name = some id →
    1 ≤ id ∧ id ≤ ctx.nonTerminalIdMap.entries.length
  distinct : ∀ name name' id, ctx.nonTerminalIdMap.find name = some id →
    ctx.nonTerminalIdMap.find name' = some id → name = name'

theorem called_start : Called {} where
  calls := Nat.le_refl 0
  callidx := by simp [callidxs]
  opened := by simp [Open]
  numbers := by simp
  distinct := by simp

theorem Called.step {ctx ctx' : ParserContext} (h : Called ctx) (effect : Effect ctx ctx') :
    Called ctx' := by
  cases effect with
  | keep callidxs_eq calls_eq idMap inside =>
    refine ⟨?_, ?_, ?_, ?_, ?_⟩
    · rw [callidxs_eq, calls_eq]
      exact h.calls
    · rw [callidxs_eq, calls_eq]
      exact h.callidx
    · rw [callidxs_eq]
      exact fun still => h.opened (inside still)
    · rw [idMap]
      exact h.numbers
    · rw [idMap]
      exact h.distinct
  | @known front last i before after inside closed bound calls_eq idMap =>
    -- the last production has no call yet
    have none_yet := h.opened inside last (by rw [before]; simp)
    have few := h.calls
    have known := h.callidx
    rw [before, List.countP_append] at few
    rw [before] at known
    refine ⟨?_, ?_, ?_, ?_, ?_⟩
    · rw [after, calls_eq, List.countP_append]
      have here : [i + 1].countP (0 < ·) = 1 := by simp
      have nothing : [last].countP (0 < ·) = 0 := by simp [none_yet]
      omega
    · intro j mem
      rw [after] at mem
      rw [calls_eq]
      rcases List.mem_append.mp mem with old | here
      · exact known j (List.mem_append_left _ old)
      · obtain rfl := List.mem_singleton.mp here
        exact bound
    · intro still
      rw [closed] at still
      cases still
    · rw [idMap]
      exact h.numbers
    · rw [idMap]
      exact h.distinct
  | @new front last call before after inside closed calls_eq idMap =>
    have none_yet := h.opened inside last (by rw [before]; simp)
    have few := h.calls
    have known := h.callidx
    rw [before, List.countP_append] at few
    rw [before] at known
    refine ⟨?_, ?_, ?_, ?_, ?_⟩
    · rw [after, calls_eq, List.countP_append, List.length_append, List.length_singleton]
      have here : [ctx.rt.calls.length + 1].countP (0 < ·) = 1 := by simp
      have nothing : [last].countP (0 < ·) = 0 := by simp [none_yet]
      omega
    · intro j mem
      rw [after] at mem
      rw [calls_eq, List.length_append, List.length_singleton]
      rcases List.mem_append.mp mem with old | here
      · have bound := known j (List.mem_append_left _ old)
        omega
      · obtain rfl := List.mem_singleton.mp here
        exact Nat.le_refl _
    · intro still
      rw [closed] at still
      cases still
    · rw [idMap]
      exact h.numbers
    · rw [idMap]
      exact h.distinct
  | push callidxs_eq calls_eq idMap =>
    refine ⟨?_, ?_, ?_, ?_, ?_⟩
    · rw [callidxs_eq, calls_eq, List.countP_append]
      exact h.calls.trans (Nat.le_add_right _ _)
    · intro j mem
      rw [callidxs_eq] at mem
      rw [calls_eq]
      rcases List.mem_append.mp mem with old | here
      · exact h.callidx j old
      · obtain rfl := List.mem_singleton.mp here
        exact Nat.zero_le _
    · intro _ i last
      rw [callidxs_eq, List.getLast?_concat] at last
      exact (Option.some.inj last).symm
    · rcases idMap with same | ⟨name, fresh, idMap⟩
      · rw [same]
        exact h.numbers
      · intro name' id found
        rw [idMap] at found ⊢
        rw [SortedMap.length_set_of_none fresh]
        rw [SortedMap.find_set] at found
        split at found
        · obtain rfl := Option.some.inj found
          omega
        · have bound := h.numbers name' id found
          omega
    · rcases idMap with same | ⟨name, fresh, idMap⟩
      · rw [same]
        exact h.distinct
      · intro name₁ name₂ id found found'
        rw [idMap, SortedMap.find_set] at found found'
        -- the new number is above those in use
        split at found
        · rename_i here
          split at found'
          · rename_i here'
            rw [← here, ← here']
          · have bound := h.numbers name₂ id found'
            obtain rfl := Option.some.inj found
            omega
        · split at found'
          · have bound := h.numbers name₁ id found
            obtain rfl := Option.some.inj found'
            omega
          · exact h.distinct name₁ name₂ id found found'

theorem called_of_parseLexems {engine : PatternEngine} {lexems : List GrammarLexem}
    {ctx : ParserContext} (h : parseLexems engine lexems = .ok ctx) : Called ctx :=
  foldlM_invariant Called
    (fun _ _ _ _ called stepped => called.step (parseLexem_effect (atLine_eq_ok stepped)))
    called_start h

theorem labelProduction_numbers {lexer : Lexer} {idMap : SortedMap String Nat}
    {prod : ProductionDef} {labeled : ProductionDef × List String}
    (h : labelProduction lexer idMap prod = .ok labeled) :
    labeled.1.callidx = prod.callidx ∧
      ∃ nt : Nat, idMap.find prod.left.name = some nt ∧ labeled.1.left.index = nt := by
  refine ⟨?_, (labelProduction_inv h).1⟩
  rw [labelProduction] at h
  split at h
  · cases h
  cases found : idMap.find prod.left.name with
  | none => simp [found] at h
  | some nt =>
    simp only [found] at h
    obtain ⟨elements, -, h⟩ := bind_eq_ok.mp h
    obtain rfl := Except.ok.inj h
    rfl

theorem nonterminals_of_checkLanguageDef {ctx : ParserContext} {rt : LanguageDef}
    (h : checkLanguageDef ctx = .ok rt) :
    ctx.nonTerminalIdMap.entries.length < Limits.MaxNonterminal := by
  unfold checkLanguageDef at h
  dsimp only at h
  split at h
  · cases h
  obtain ⟨labeled, -, h⟩ := bind_eq_ok.mp h
  obtain ⟨unreachable, -, h⟩ := bind_eq_ok.mp h
  split at h
  · cases h
  split at h
  · cases h
  split at h
  · cases h
  split at h
  · cases h
  · rename_i few
    exact not_le.mp few

end Grammar

structure ProductionDef.Numbers (langdef : LanguageDef) (prod : ProductionDef) : Prop where
  positive : 1 ≤ prod.left.index
  nonterminal : prod.left.index < (Limits.MaxNonterminal : Nat)
  call : prod.callidx ≤ langdef.calls.length

open Grammar in
theorem numbers_of_parseLanguageDef {engine : PatternEngine} {source : GrammarSource}
    {langdef : LanguageDef} (h : parseLanguageDef engine source = .ok langdef) :
    (∀ prod ∈ langdef.prodlist, prod.Numbers langdef) ∧
      langdef.calls.length ≤ langdef.prodlist.length := by
  obtain ⟨ctx, parsed, h⟩ := bind_eq_ok.mp h
  have called := called_of_parseLexems parsed
  have few := nonterminals_of_checkLanguageDef (atLine_eq_ok h)
  obtain ⟨labeled, labels, rfl, -⟩ := checkLanguageDef_inv (atLine_eq_ok h)
  refine ⟨?_, ?_⟩
  · intro prod mem
    obtain ⟨e, here, rfl⟩ := List.mem_map.mp mem
    obtain ⟨prod0, mem0, label⟩ := (mem_mapM labels).1 e here
    obtain ⟨call, nt, found, index⟩ := labelProduction_numbers label
    have bound := called.numbers prod0.left.name nt found
    refine ⟨?_, ?_, ?_⟩
    · rw [index]
      omega
    · rw [index]
      omega
    · rw [call]
      exact called.callidx _ (List.mem_map_of_mem mem0)
  · have calls := called.calls
    have all : (callidxs ctx.rt).countP (0 < ·) ≤ (callidxs ctx.rt).length :=
      List.countP_le_length
    have length : (callidxs ctx.rt).length = ctx.rt.prodlist.length := List.length_map _
    have kept := (List.forall₂_iff_get.mp (mapM_eq_ok labels)).1
    show ctx.rt.calls.length ≤ (labeled.map Prod.fst).length
    rw [List.length_map]
    omega

end Mewa
