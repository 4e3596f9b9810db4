/- Module: Mewa/Grammar/Productions
   digest: The productions of a grammar as they are written in it. -/

import Mewa.Grammar.Called
import Mewa.Grammar.Reachable
import Mewa.Lib.QuotedWords

set_option autoImplicit false
set_option relaxedAutoImplicit false

namespace Mewa

open Mewa.Lib

/-- An element of a right side as it is written. -/
def ProductionNodeDef.word (nd : ProductionNodeDef) : QuotedWord Char :=
  ⟨nd.name.toList, !nd.symbol⟩

namespace Grammar

/-- A production of a grammar: the name of its rule, what stands behind the slash after this name,
    and the names and strings of the right side. -/
structure WrittenProduction where
  left : String
  specifier : Option String := none
  right : List (QuotedWord Char) := []
  deriving DecidableEq, Repr

/-- The priority that a specifier stands for, if there is one. -/
def WrittenProduction.written (p : WrittenProduction) : Option Priority :=
  p.specifier.bind fun text => (convertStringToPriority text).toOption

def WrittenProduction.priority (p : WrittenProduction) : Priority := p.written.getD {}

/-- What is read at a place of a grammar. -/
inductive ScanMode
  | start
  | head
  | specifier
  | right
  | other
  deriving DecidableEq, Repr

structure ProductionScan where
  mode : ScanMode := .start
  left : String := ""
  specifier : Option String := none
  productions : List WrittenProduction := []

namespace ProductionScan

def begin (scan : ProductionScan) : ProductionScan :=
  { scan with
    mode := .right
    productions := scan.productions ++ [⟨scan.left, scan.specifier, []⟩] }

def push (word : QuotedWord Char) (scan : ProductionScan) : ProductionScan :=
  { scan with
    productions := scan.productions.dropLast ++
      scan.productions.getLast?.toList.map fun p => { p with right := p.right ++ [word] } }

def next (scan : ProductionScan) (lexem : GrammarLexem) : ProductionScan :=
  match scan.mode, lexem.type with
  | _, .SEMICOLON => { scan with mode := .start }
  | .start, .IDENT => { scan with mode := .head, left := lexem.value, specifier := none }
  | .head, .SLASH => { scan with mode := .specifier }
  | .specifier, _ => { scan with mode := .head, specifier := some lexem.value }
  | .head, .EQUAL | .head, .ARROW | .right, .OR | .other, .OR => scan.begin
  | .right, .IDENT => scan.push ⟨lexem.value.toList, false⟩
  | .right, .DQSTRING | .right, .SQSTRING => scan.push ⟨lexem.value.toList, true⟩
  | _, _ => { scan with mode := .other }

end ProductionScan

/-- The productions written in a grammar: an alternative is a production of its own. -/
def productions (source : GrammarSource) : List WrittenProduction :=
  (source.lexems.foldl ProductionScan.next {}).productions

def writtenPriority (source : GrammarSource) (prodlist : List ProductionDef)
    (prod : ProductionDef) : Option Priority :=
  (productions source)[prodlist.idxOf prod]?.bind WrittenProduction.written

structure Reads (p : WrittenProduction) (prod : ProductionDef) : Prop where
  left : p.left = prod.left.name
  specifier : ∀ text, p.specifier = some text → convertStringToPriority text = .ok prod.priority
  none : p.specifier = none → prod.priority = {}
  right : p.right = prod.right.map ProductionNodeDef.word

theorem Reads.priority {p : WrittenProduction} {prod : ProductionDef} (reads : Reads p prod) :
    p.priority = prod.priority := by
  unfold WrittenProduction.priority WrittenProduction.written
  cases specifier : p.specifier with
  | none => exact (reads.none specifier).symm
  | some text => simp [reads.specifier text specifier, Except.toOption]

def modeOf : ParserState → ScanMode
  | .Init => .start
  | .ParseProductionAttributes | .ParseAssign => .head
  | .ParsePriority => .specifier
  | .ParseProductionElement => .right
  | _ => .other

structure Fits (ctx : ParserContext) (scan : ProductionScan) : Prop where
  mode : scan.mode = modeOf ctx.state
  productions : List.Forall₂ Reads scan.productions ctx.rt.prodlist
  begun : ∀ line, Reads ⟨scan.left, scan.specifier, []⟩
    ⟨⟨{}, ctx.rulename, true⟩, [], ctx.priority, 0, .NoScope, line⟩

theorem fits_start : Fits {} {} where
  mode := rfl
  productions := .nil
  begun := fun _ => ⟨rfl, by simp, fun _ => rfl, rfl⟩

section Steps

variable {engine : PatternEngine} {ctx ctx' : ParserContext} {lexem : GrammarLexem}
  {scan : ProductionScan} {value : String} {line : Int}

theorem Fits.keep (fits : Fits ctx scan)
    (next : scan.next lexem = { scan with mode := modeOf ctx'.state })
    (rulename : ctx'.rulename = ctx.rulename) (priority : ctx'.priority = ctx.priority)
    (prodlist : List.Forall₂ Reads scan.productions ctx'.rt.prodlist) :
    Fits ctx' (scan.next lexem) := by
  rw [next]
  refine ⟨rfl, prodlist, ?_⟩
  rw [rulename, priority]
  exact fits.begun

theorem updateBack_reads {f : ProductionDef → ProductionDef}
    {g : WrittenProduction → WrittenProduction}
    (reads : ∀ p prod, Reads p prod → Reads (g p) (f prod))
    (all : List.Forall₂ Reads scan.productions ctx.rt.prodlist) (h : updateBack f ctx = .ok ctx') :
    List.Forall₂ Reads (scan.productions.dropLast ++ scan.productions.getLast?.toList.map g)
      ctx'.rt.prodlist ∧
    ctx'.priority = ctx.priority ∧ ctx'.rulename = ctx.rulename ∧ ctx'.state = ctx.state := by
  unfold updateBack at h
  cases last : ctx.rt.prodlist.getLast? with
  | none => simp [last] at h
  | some prod =>
    simp only [last] at h
    obtain rfl := Except.ok.inj h
    obtain ⟨p, last', here, before⟩ := forall₂_getLast? all last
    refine ⟨?_, rfl, rfl, rfl⟩
    rw [last']
    exact List.rel_append before (.cons (reads p prod here) .nil)

theorem updateBack_fits {f : ProductionDef → ProductionDef} (h : updateBack f ctx = .ok ctx')
    (fits : Fits ctx scan) (reads : ∀ p prod, Reads p prod → Reads p (f prod)) :
    List.Forall₂ Reads scan.productions ctx'.rt.prodlist ∧
    ctx'.priority = ctx.priority ∧ ctx'.rulename = ctx.rulename ∧ ctx'.state = ctx.state := by
  have updated := updateBack_reads (g := id) reads fits.productions h
  have whole : scan.productions.dropLast ++ scan.productions.getLast?.toList.map id =
      scan.productions := by
    cases last : scan.productions.getLast? with
    | none => simp [List.getLast?_eq_none_iff.mp last]
    | some p => exact List.dropLast_append_getLast? p last
  rwa [whole] at updated

theorem pushElement_fits {name : String} {symbol : Bool} (fits : Fits ctx scan)
    (h : pushElement name symbol ctx = .ok ctx') :
    Fits ctx' (scan.push ⟨name.toList, !symbol⟩) := by
  obtain ⟨all, priority, rulename, state⟩ := updateBack_reads
    (f := fun prod => { prod with right := prod.right ++ [⟨{}, name, symbol⟩] })
    (g := fun p => { p with right := p.right ++ [⟨name.toList, !symbol⟩] })
    (fun p prod reads => ⟨reads.left, reads.specifier, reads.none,
      by simp [reads.right, ProductionNodeDef.word]⟩) fits.productions h
  exact ⟨by rw [state]; exact fits.mode, all, by rw [rulename, priority]; exact fits.begun⟩

theorem Fits.specified (fits : Fits ctx scan)
    (h : (do .ok { ctx with
        priority := ← convertStringToPriority value, state := .ParseAssign }) =
      (.ok ctx' : Except Failure ParserContext)) :
    Fits ctx' { scan with mode := .head, specifier := some value } := by
  obtain ⟨priority, read, h⟩ := bind_eq_ok.mp h
  obtain rfl := Except.ok.inj h
  refine ⟨rfl, fits.productions, fun line => ⟨(fits.begun line).left, ?_, by simp, rfl⟩⟩
  rintro text ⟨⟩
  exact read

theorem Fits.begin (line : Int) (fits : Fits ctx scan) (state : ctx'.state = .ParseProductionElement)
    (rulename : ctx'.rulename = ctx.rulename) (priority : ctx'.priority = ctx.priority)
    (prodlist : ctx'.rt.prodlist = (pushProduction line ctx).rt.prodlist) :
    Fits ctx' scan.begin where
  mode := by rw [state]; rfl
  productions := by
    rw [prodlist]
    exact List.rel_append fits.productions (.cons (fits.begun line) .nil)
  begun := by
    rw [rulename, priority]
    exact fits.begun

theorem startRule_fits (line : Int) (fits : Fits ctx scan) : Fits (startRule line ctx) scan.begin := by
  unfold startRule
  dsimp only
  split
  · exact fits.begin line rfl rfl rfl rfl
  · exact fits.begin line rfl rfl rfl rfl

theorem onString_fits {quote tail : String} (fits : Fits ctx scan)
    (kind : lexem.type = .DQSTRING ∨ lexem.type = .SQSTRING)
    (h : onString engine quote lexem.value tail ctx = .ok ctx') : Fits ctx' (scan.next lexem) := by
  have mode := fits.mode
  unfold onString at h
  cases state : ctx.state <;> simp only [state, throw, reduceCtorEq] at h
  case ParseProductionElement =>
    have pushed {lexer : Lexer} (h : pushElement lexem.value false
        { ctx with rt := { ctx.rt with lexer := lexer } } = .ok ctx') :
        Fits ctx' (scan.next lexem) := by
      have same : Fits { ctx with rt := { ctx.rt with lexer := lexer } } scan :=
        ⟨mode, fits.productions, fits.begun⟩
      rw [state] at mode
      rcases kind with kind | kind
      · simpa [ProductionScan.next, mode, modeOf, kind] using pushElement_fits same h
      · simpa [ProductionScan.next, mode, modeOf, kind] using pushElement_fits same h
    rw [← state] at h
    split at h
    · obtain ⟨lexer, -, h⟩ := bind_eq_ok.mp h
      exact pushed h
    · exact pushed h
  all_goals
    rw [state] at mode
    obtain rfl := Except.ok.inj h
    refine fits.keep ?_ rfl rfl fits.productions
    rcases kind with kind | kind <;> simp [ProductionScan.next, mode, modeOf, kind]

theorem assignCall_fits (fits : Fits ctx scan) (h : assignCall ctx = .ok ctx') :
    List.Forall₂ Reads scan.productions ctx'.rt.prodlist ∧
    ctx'.priority = ctx.priority ∧ ctx'.rulename = ctx.rulename := by
  unfold assignCall at h
  dsimp only at h
  split at h
  · obtain ⟨all, priority, rulename, -⟩ := updateBack_fits h fits
      fun p prod reads => ⟨reads.left, reads.specifier, reads.none, reads.right⟩
    exact ⟨all, priority, rulename⟩
  · obtain ⟨all, priority, rulename, -⟩ := updateBack_fits h
      ⟨fits.mode, fits.productions, fits.begun⟩
      fun p prod reads => ⟨reads.left, reads.specifier, reads.none, reads.right⟩
    exact ⟨all, priority, rulename⟩

theorem onSemicolon_fits (kind : lexem.type = .SEMICOLON) (fits : Fits ctx scan)
    (h : onSemicolon engine line ctx = .ok ctx') : Fits ctx' (scan.next lexem) := by
  have ended {rt : LanguageDef} (same : rt.prodlist = ctx.rt.prodlist)
      (h : (.ok { ctx with rt := rt, state := .Init } : Except Failure ParserContext) = .ok ctx') :
      Fits ctx' (scan.next lexem) := by
    obtain rfl := Except.ok.inj h
    exact fits.keep (by simp [ProductionScan.next, modeOf, kind]) rfl rfl (same ▸ fits.productions)
  have of_lexer {x : Except Failure Lexer} (h : (do
      .ok { ctx with rt := { ctx.rt with lexer := ← x }, state := .Init } :
        Except Failure ParserContext) = .ok ctx') : Fits ctx' (scan.next lexem) := by
    obtain ⟨lexer, -, h⟩ := bind_eq_ok.mp h
    exact @ended { ctx.rt with lexer := lexer } rfl h
  unfold onSemicolon at h
  cases state : ctx.state <;> simp only [state, throw] at h
  case ParseLexerCommandArg =>
    obtain ⟨rt, command, h⟩ := bind_eq_ok.mp h
    exact ended (lexerCommand_rt command).1 h
  case ParsePatternSelect => exact of_lexer h
  case ParseEndOfLexemDef => exact of_lexer h
  case ParseProductionElement | ParseEndOfProduction | ParseCall => exact ended rfl h
  all_goals cases h

theorem parseLexem_fits (fits : Fits ctx scan) (h : parseLexem engine ctx lexem = .ok ctx') :
    Fits ctx' (scan.next lexem) := by
  have mode := fits.mode
  unfold parseLexem at h
  cases kind : lexem.type <;> simp only [kind, throw, reduceCtorEq] at h
  case IDENT =>
    unfold onIdent at h
    cases state : ctx.state <;> simp only [state, throw, reduceCtorEq] at h <;> rw [state] at mode
    case ParsePriority =>
      have specified := fits.specified h
      simpa [ProductionScan.next, mode, modeOf, kind] using specified
    case Init =>
      obtain rfl := Except.ok.inj h
      simp only [ProductionScan.next, mode, modeOf, kind]
      exact ⟨rfl, fits.productions, fun line => ⟨rfl, by simp, fun _ => rfl, rfl⟩⟩
    case ParseProductionElement =>
      have pushed := pushElement_fits fits h
      simpa [ProductionScan.next, mode, modeOf, kind] using pushed
    all_goals
      obtain rfl := Except.ok.inj h
      exact fits.keep (by simp [ProductionScan.next, mode, modeOf, kind]) rfl rfl fits.productions
  case PRIORITY =>
    unfold onPriority at h
    cases state : ctx.state <;> simp only [state, throw, reduceCtorEq] at h
    rw [state] at mode
    have specified := fits.specified h
    simpa [ProductionScan.next, mode, modeOf, kind] using specified
  case NUMBER =>
    unfold onNumber at h
    cases state : ctx.state <;> simp only [state, throw, reduceCtorEq] at h <;> rw [state] at mode
    case ParsePriority =>
      have specified := fits.specified h
      simpa [ProductionScan.next, mode, modeOf, kind] using specified
    case ParsePatternSelect =>
      obtain ⟨index, -, h⟩ := bind_eq_ok.mp h
      obtain rfl := Except.ok.inj h
      exact fits.keep (by simp [ProductionScan.next, mode, modeOf, kind]) rfl rfl fits.productions
    all_goals
      obtain rfl := Except.ok.inj h
      exact fits.keep (by simp [ProductionScan.next, mode, modeOf, kind]) rfl rfl fits.productions
  case CLOSEBRK =>
    unfold onCloseBracket at h
    cases state : ctx.state <;> simp only [state, throw, reduceCtorEq] at h <;> rw [state] at mode
    case ParseCallName =>
      obtain rfl := Except.ok.inj h
      exact fits.keep (by simp [ProductionScan.next, mode, modeOf, kind]) rfl rfl fits.productions
    all_goals
      obtain ⟨assigned, called, h⟩ := bind_eq_ok.mp h
      obtain ⟨all, priority, rulename⟩ := assignCall_fits fits called
      obtain rfl := Except.ok.inj h
      exact fits.keep (by simp [ProductionScan.next, mode, modeOf, kind]) rulename priority all
  case EPSILON =>
    unfold onEpsilon at h
    cases state : ctx.state <;> simp only [state, throw, reduceCtorEq] at h
    rw [state] at mode
    split at h
    · cases h
    · split at h
      · obtain rfl := Except.ok.inj h
        exact fits.keep (by simp [ProductionScan.next, mode, modeOf, kind]) rfl rfl fits.productions
      · cases h
  case EQUAL =>
    unfold onEqual at h
    cases state : ctx.state <;> simp only [state, throw, reduceCtorEq] at h <;> rw [state] at mode
    case ParseCallArgMemberEquals =>
      obtain rfl := Except.ok.inj h
      exact fits.keep (by simp [ProductionScan.next, mode, modeOf, kind]) rfl rfl fits.productions
    all_goals
      obtain rfl := Except.ok.inj h
      have begun := startRule_fits lexem.line fits
      simpa [ProductionScan.next, mode, modeOf, kind] using begun
  case ARROW =>
    unfold onArrow at h
    cases state : ctx.state <;> simp only [state, throw, reduceCtorEq] at h <;> rw [state] at mode
    all_goals
      obtain rfl := Except.ok.inj h
      have begun := startRule_fits lexem.line fits
      simpa [ProductionScan.next, mode, modeOf, kind] using begun
  case DQSTRING => exact onString_fits fits (Or.inl kind) h
  case SQSTRING => exact onString_fits fits (Or.inr kind) h
  case SEMICOLON => exact onSemicolon_fits kind fits h
  case STEP | SCOPE =>
    unfold onScope at h
    cases state : ctx.state <;> simp only [state, throw, reduceCtorEq] at h
    rw [state] at mode
    split at h
    · cases h
    · split at h
      · cases h
      · obtain ⟨all, priority, rulename, same⟩ := updateBack_fits h fits
          fun p prod reads => ⟨reads.left, reads.specifier, reads.none, reads.right⟩
        exact fits.keep (by simp [ProductionScan.next, mode, modeOf, kind, same, state])
          rulename priority all
  case OR =>
    unfold onOr at h
    cases state : ctx.state <;> simp only [state, throw, reduceCtorEq] at h <;> rw [state] at mode
    all_goals
      obtain rfl := Except.ok.inj h
      have next : scan.next lexem = scan.begin := by
        simp [ProductionScan.next, mode, modeOf, kind]
      rw [next]
      exact fits.begin lexem.line rfl rfl rfl rfl
  case CALL | OPENBRK | OPENCURLYBRK | CLOSECURLYBRK | COMMA | PERCENT | DDOT | SLASH =>
    cases state : ctx.state <;>
      simp only [onCall, onOpenBracket, onOpenCurly, onCloseCurly, onComma, onPercent, onDdot,
        onSlash, state, throw, reduceCtorEq] at h <;> rw [state] at mode
    all_goals
      obtain rfl := Except.ok.inj h
      exact fits.keep (by simp [ProductionScan.next, mode, modeOf, kind]) rfl rfl fits.productions

end Steps

theorem productions_of_parseLexems {engine : PatternEngine} {source : GrammarSource}
    {ctx : ParserContext} (parsed : parseLexems engine source.lexems = .ok ctx) :
    List.Forall₂ Reads (productions source) ctx.rt.prodlist := by
  have run {lexems : List GrammarLexem} {ctx ctx' : ParserContext} {scan : ProductionScan}
      (fits : Fits ctx scan)
      (h : lexems.foldlM (fun ctx lexem => atLine lexem.line (parseLexem engine ctx lexem)) ctx =
        .ok ctx') : Fits ctx' (lexems.foldl ProductionScan.next scan) := by
    induction lexems generalizing ctx scan with
    | nil =>
      obtain rfl := Except.ok.inj h
      exact fits
    | cons lexem lexems ih =>
      obtain ⟨mid, step, h⟩ := bind_eq_ok.mp h
      exact ih (parseLexem_fits fits (atLine_eq_ok step)) h
  exact (run fits_start parsed).productions

theorem labelProduction_reads {lexer : Lexer} {idMap : SortedMap String Nat}
    {prod : ProductionDef} {labeled : ProductionDef × List String} {p : WrittenProduction}
    (h : labelProduction lexer idMap prod = .ok labeled) (reads : Reads p prod) :
    Reads p labeled.1 := by
  unfold labelProduction at h
  split at h
  · simp [throw] at h
  · split at h
    · simp at h
    · obtain ⟨elements, each, h⟩ := bind_eq_ok.mp h
      obtain rfl := Except.ok.inj h
      refine ⟨reads.left, reads.specifier, reads.none, reads.right.trans ?_⟩
      have same : List.Forall₂ (fun element labeled => element.word = labeled.1.word)
          prod.right elements := by
        refine (mapM_eq_ok each).imp fun element labeled label => ?_
        unfold labelElement at label
        dsimp only at label
        split at label
        · split at label
          · simp [throw] at label
          · obtain rfl := Except.ok.inj label
            rfl
        · split at label
          · simp [throw] at label
          · obtain rfl := Except.ok.inj label
            rfl
      rw [List.map_map]
      exact List.forall₂_eq_eq_eq ▸ List.forall₂_map_left_iff.mpr
        (List.forall₂_map_right_iff.mpr same)

theorem productions_of_labels {engine : PatternEngine} {source : GrammarSource}
    {prodlist : List ProductionDef} (labels : Labels engine source prodlist) :
    List.Forall₂ Reads (productions source) prodlist := by
  obtain ⟨ctx, labeled, parsed, -, each, rfl⟩ := labels
  have read := productions_of_parseLexems parsed
  have related := mapM_eq_ok each
  refine List.forall₂_map_right_iff.mpr ?_
  obtain ⟨length, all⟩ := List.forall₂_iff_get.mp read
  obtain ⟨length', all'⟩ := List.forall₂_iff_get.mp related
  exact List.forall₂_iff_get.mpr ⟨length.trans length', fun i bound bound' =>
    labelProduction_reads (all' i (length ▸ bound) bound') (all i bound (length ▸ bound))⟩

theorem writtenPriority_getD {engine : PatternEngine} {source : GrammarSource} {rt : LanguageDef}
    (h : parseLanguageDef engine source = .ok rt) {prod : ProductionDef} (mem : prod ∈ rt.prodlist) :
    (writtenPriority source rt.prodlist prod).getD {} = prod.priority := by
  obtain ⟨length, each⟩ := List.forall₂_iff_get.mp (productions_of_labels (labels_of_accepted h))
  have bound : rt.prodlist.idxOf prod < rt.prodlist.length := List.idxOf_lt_length_of_mem mem
  have reads := each _ (length ▸ bound) bound
  rw [List.get_eq_getElem, List.get_eq_getElem, List.getElem_idxOf bound] at reads
  unfold writtenPriority
  rw [List.getElem?_eq_getElem (length ▸ bound)]
  exact reads.priority

end Grammar

end Mewa
