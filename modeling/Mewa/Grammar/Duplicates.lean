/- Module: Mewa/Grammar/Duplicates
   digest: Which productions the reader of a grammar reports as duplicates. -/

import Mewa.Grammar.Lexing
import Mewa.Grammar.Spelling
import Mewa.Lexer.Registry

set_option autoImplicit false
set_option relaxedAutoImplicit false

namespace Mewa.Grammar

open Mewa.Lib

/-- The left side and the sequence of terminals and nonterminals on the right side. -/
def symbols (prod : ProductionDef) : ProductionNode × List ProductionNode :=
  (prod.left.toProductionNode, prod.right.map ProductionNodeDef.toProductionNode)

/-- A duplicate is reported if and only if the source has two productions with the same symbols. -/
def DuplicatesRecognised (engine : PatternEngine) (source : GrammarSource) : Prop :=
  (∃ e, parseLanguageDef engine source = .error (.thrown e) ∧
    e.code = .DuplicateProductionInGrammarDef) ↔
  ∃ prodlist, Labels engine source prodlist ∧ ¬ (prodlist.map symbols).Nodup

section OtherErrors

def Other (failure : Failure) : Prop :=
  ∀ e, failure = .thrown e → e.code ≠ .DuplicateProductionInGrammarDef

@[simp]
theorem other_thrown {e : Error} :
    Other (.thrown e) ↔ e.code ≠ .DuplicateProductionInGrammarDef := by
  simp [Other]

@[simp]
theorem other_outOfRange : Other .outOfRange := by
  simp [Other]

@[simp]
theorem other_runtimeError (e : Error) : Other (.runtimeError e) := by
  simp [Other]

@[simp]
theorem other_throw {α : Type} {code : ErrorCode} {arg : String} :
    FailsWith Other (throw code arg : Except Failure α) ↔
      code ≠ .DuplicateProductionInGrammarDef := by
  simp [throw]

variable {engine : PatternEngine}

theorem other_convertStringToInt (str : String) : FailsWith Other (convertStringToInt str) := by
  rw [convertStringToInt]
  split
  · simp
  apply FailsWith.foldlM
  intro rt ch _
  dsimp only
  split
  · split <;> simp
  · simp

theorem other_convertStringToPriority (str : String) :
    FailsWith Other (convertStringToPriority str) := by
  have bounded : ∀ rt : Priority, FailsWith Other
      (if rt.value ≥ Limits.MaxPriority then
        throw .ComplexityMaxProductionPriorityInGrammarDef str
      else .ok rt : Except Failure Priority) := by
    intro rt
    split <;> simp
  have read := other_convertStringToInt
  rw [convertStringToPriority]
  dsimp only
  split
  · split
    · split
      · exact bounded ⟨0, _⟩
      · exact (read _).bind fun _ _ => bounded _
    · split
      · exact (read _).bind fun _ _ => bounded _
      · exact (read _).bind fun _ _ => bounded _
  · simp [throw, Bind.bind, Except.bind]

theorem other_updateBack (f : ProductionDef → ProductionDef) (ctx : ParserContext) :
    FailsWith Other (updateBack f ctx) := by
  rw [updateBack]
  split <;> simp

section Definitions

variable (lexer : Lexer)

omit lexer in
theorem other_firstBytes (pattern : String) : FailsWith Other (LexemDef.firstBytes pattern) := by
  have reader := LexemDef.activation_failsWith pattern
  unfold LexemDef.firstBytes
  cases read : LexemDef.activation pattern with
  | ok chars => exact FailsWith.ok _
  | error e =>
    refine FailsWith.error_iff.mpr ?_
    rcases reader.kind e read with (rfl | ⟨arg, rfl⟩ | rfl) | ⟨rfl, -⟩ <;> simp [Other]

theorem other_pushDefinition (line : Int) (name pattern : String) (id : Nat) (keyword : Bool)
    (select : Nat) :
    FailsWith Other (lexer.pushDefinition engine line name pattern id keyword select) := by
  rw [Lexer.pushDefinition]
  split
  · apply FailsWith.bind
    · exact other_firstBytes pattern
    · intro activate _
      split
      · simp
      · dsimp only
        split <;> simp
  · simp

theorem other_defineLexem_ (line : Int) (name pattern : String) (keyword : Bool) (select : Nat) :
    FailsWith Other (lexer.defineLexem_ engine line name pattern keyword select) := by
  rw [Lexer.defineLexem_]
  split
  · exact FailsWith.bind (other_pushDefinition lexer ..) fun _ _ => by simp
  dsimp only
  split
  · exact FailsWith.bind (other_pushDefinition _ ..) fun _ _ => by simp
  · split
    · simp
    · exact FailsWith.bind (other_pushDefinition _ ..) fun _ _ => by simp

theorem other_defineKeyword (opr tail : String) :
    FailsWith Other (lexer.defineKeyword engine opr tail) :=
  (other_defineLexem_ lexer ..).bind fun _ _ => by simp

theorem other_lexerCommand (line : Int) (ctx : ParserContext) :
    FailsWith Other (lexerCommand engine line ctx) := by
  have argument : ∀ f : String → Except Failure LanguageDef, (∀ arg, FailsWith Other (f arg)) →
      FailsWith Other (withArgument ctx f) := by
    intro f each
    rw [withArgument]
    split
    · exact each _
    · simp
  rw [lexerCommand]
  split
  · exact argument _ fun _ => by simp
  split
  · exact argument _ fun _ => by simp
  split
  · exact argument _ fun _ => by simp
  split
  · refine argument _ fun _ => FailsWith.bind ?_ fun _ _ => by simp
    exact (other_defineLexem_ _ ..).bind fun _ _ => by simp
  split
  · exact argument _ fun _ => by simp
  split
  · split
    · refine FailsWith.bind ?_ fun _ _ => by simp
      rw [Lexer.defineEolnComment]
      split <;> simp
    · refine FailsWith.bind ?_ fun _ _ => by simp
      rw [Lexer.defineBracketComment]
      split <;> simp
    · simp
  split
  · split
    · refine (other_convertStringToInt _).bind fun indent _ => ?_
      refine FailsWith.bind ?_ fun _ _ => by simp
      have defineLexemId : ∀ lexer name, FailsWith Other (Lexer.defineLexemId name lexer) := by
        intro lexer name
        rw [Lexer.defineLexemId]
        split <;> simp
      rw [Lexer.defineIndentLexems]
      split
      · simp
      · exact (defineLexemId ..).bind fun _ _ => (defineLexemId ..).bind fun _ _ =>
          (defineLexemId ..).bind fun _ _ => by simp
    · simp
  · simp

end Definitions

variable (ctx : ParserContext)

theorem other_onIdent (value : String) : FailsWith Other (onIdent value ctx) := by
  rw [onIdent]
  split
  case h_2 => exact other_updateBack ..
  case h_9 => exact (other_convertStringToPriority _).bind fun _ _ => by simp
  all_goals simp

theorem other_onNumber (value : String) : FailsWith Other (onNumber value ctx) := by
  rw [onNumber]
  split
  case h_1 => exact (other_convertStringToPriority _).bind fun _ _ => by simp
  case h_2 => exact (other_convertStringToInt _).bind fun _ _ => by simp
  all_goals simp

theorem other_onCloseBracket (value : String) : FailsWith Other (onCloseBracket value ctx) := by
  have assign : FailsWith Other (assignCall ctx) := by
    rw [assignCall]
    dsimp only
    split <;> exact other_updateBack ..
  rw [onCloseBracket]
  split
  · exact assign.bind fun _ _ => by simp
  · exact assign.bind fun _ _ => by simp
  · simp
  · simp

theorem other_onScope (scope : ScopeFlag) (value : String) :
    FailsWith Other (onScope scope value ctx) := by
  rw [onScope]
  split
  · split
    · simp
    · split
      · simp
      · exact other_updateBack ..
  · simp


theorem other_onString (quote value tail : String) :
    FailsWith Other (onString engine quote value tail ctx) := by
  rw [onString]
  split
  case h_3 =>
    dsimp only
    split
    · exact (other_defineKeyword ..).bind fun _ _ => other_updateBack ..
    · exact FailsWith.bind (FailsWith.ok _) fun _ _ => other_updateBack ..
  all_goals simp

theorem other_onSemicolon (line : Int) : FailsWith Other (onSemicolon engine line ctx) := by
  have token : ∀ select, FailsWith Other
      (ctx.rt.lexer.defineLexem engine line ctx.rulename ctx.patternstr select) :=
    fun _ => (other_defineLexem_ _ ..).bind fun _ _ => by simp
  rw [onSemicolon]
  split
  case h_1 => exact (other_lexerCommand ..).bind fun _ _ => by simp
  case h_2 => exact (token _).bind fun _ _ => by simp
  case h_3 => exact (token _).bind fun _ _ => by simp
  all_goals simp [Bind.bind, Except.bind, throw]

theorem other_parseLexem (lexem : GrammarLexem) : FailsWith Other (parseLexem engine ctx lexem) := by
  rw [parseLexem]
  cases lexem.type with
  | ERROR => simp
  | NONE => simp
  | IDENT => exact other_onIdent ..
  | CALL => simp only [onCall]; split <;> simp
  | OPENBRK => simp only [onOpenBracket]; split <;> simp
  | CLOSEBRK => exact other_onCloseBracket ..
  | STEP => exact other_onScope ..
  | SCOPE => exact other_onScope ..
  | PRIORITY =>
    simp only [onPriority]
    split
    · exact (other_convertStringToPriority _).bind fun _ _ => by simp
    · simp
  | NUMBER => exact other_onNumber ..
  | OPENCURLYBRK => simp only [onOpenCurly]; split <;> simp
  | CLOSECURLYBRK => simp only [onCloseCurly]; split <;> simp
  | COMMA => simp only [onComma]; split <;> simp
  | DQSTRING => exact other_onString ..
  | SQSTRING => exact other_onString ..
  | EPSILON =>
    simp only [onEpsilon]
    split
    · split
      · simp
      · split <;> simp
    · simp
  | PERCENT => simp only [onPercent]; split <;> simp
  | SLASH => simp only [onSlash]; split <;> simp
  | EQUAL => simp only [onEqual]; split <;> simp
  | ARROW => simp only [onArrow]; split <;> simp
  | DDOT => simp only [onDdot]; split <;> simp
  | SEMICOLON => exact other_onSemicolon ..
  | OR => simp only [onOr]; split <;> simp

theorem other_atLine {α : Type} {line : Int} {x : Except Failure α} (other : FailsWith Other x) :
    FailsWith Other (atLine line x) := by
  cases x with
  | ok a => exact .ok a
  | error failure =>
    cases failure with
    | thrown e =>
      have code := other_thrown.mp (FailsWith.error_iff.mp other)
      simpa [atLine] using code
    | outOfRange => exact other
    | runtimeError e => exact other
    | outOfFuel => exact other

theorem other_labelProduction (lexer : Lexer) (idMap : SortedMap String Nat)
    (prod : ProductionDef) : FailsWith Other (labelProduction lexer idMap prod) := by
  rw [labelProduction]
  split
  · simp
  split
  · simp
  · refine FailsWith.bind (FailsWith.mapM fun element _ => ?_) fun _ _ => by simp
    rw [labelElement]
    split <;> split <;> simp

omit ctx in
theorem labels_or_other (source : GrammarSource) :
    (∃ prodlist, Labels engine source prodlist) ∨
      FailsWith Other (parseLanguageDef engine source) := by
  cases parsed : parseLexems engine source.lexems with
  | error failure =>
    have other : FailsWith Other (parseLexems engine source.lexems) :=
      FailsWith.foldlM (fun ctx lexem _ => other_atLine (other_parseLexem ctx lexem)) {}
    right
    rw [parsed] at other
    rw [parseLanguageDef, parsed]
    exact FailsWith.error_iff.mpr (FailsWith.error_iff.mp other)
  | ok ctx =>
    have run : parseLanguageDef engine source = atLine source.lastline (checkLanguageDef ctx) := by
      rw [parseLanguageDef, parsed, ok_bind]
    rw [run]
    by_cases init : ctx.state = .Init
    · cases labels : ctx.rt.prodlist.mapM
          (labelProduction ctx.rt.lexer ctx.nonTerminalIdMap) with
      | ok labeled => exact Or.inl ⟨_, ctx, labeled, parsed, init, labels, rfl⟩
      | error failure =>
        have other := FailsWith.mapM (l := ctx.rt.prodlist) fun prod _ =>
          other_labelProduction ctx.rt.lexer ctx.nonTerminalIdMap prod
        rw [labels] at other
        right
        apply other_atLine
        simp only [checkLanguageDef, init, labels, ne_eq, not_true_eq_false, if_false]
        exact FailsWith.error_iff.mpr (FailsWith.error_iff.mp other)
    · right
      apply other_atLine
      simp [checkLanguageDef, init, throw, Bind.bind, Except.bind]

end OtherErrors

/-- The checks before the one for duplicates pass: of the rules that are used, of the start symbol
    and of the number of nonterminals. -/
structure Tested (prodlist : List ProductionDef) : Prop where
  used : OnlyStartUnused prodlist
  start : (prodlist.countP fun prod => prod.left.index = 1) = 1
  nonterminals : (prodlist.map fun prod => prod.left.name).eraseDups.length < Limits.MaxNonterminal

theorem checkDuplicate_cases (prodset : FlatSet String) (prod : ProductionDef) :
    prod.prodstring ∈ prodset ∧
      checkDuplicate prodset prod = throw .DuplicateProductionInGrammarDef prod.prodstring ∨
    prod.prodstring ∉ prodset ∧ checkDuplicate prodset prod = .ok (prodset.insert prod.prodstring) := by
  by_cases known : prod.prodstring ∈ prodset
  · exact Or.inl ⟨known, if_pos known⟩
  · exact Or.inr ⟨known, if_neg known⟩

theorem checkDuplicate_fold (prodlist : List ProductionDef) (prodset : FlatSet String) :
    ((prodlist.map ProductionDef.prodstring).Nodup ∧
        (∀ prod ∈ prodlist, prod.prodstring ∉ prodset) ∧
        ∃ prodset', prodlist.foldlM checkDuplicate prodset = .ok prodset') ∨
    (¬ ((prodlist.map ProductionDef.prodstring).Nodup ∧
        ∀ prod ∈ prodlist, prod.prodstring ∉ prodset) ∧
      ∃ arg, prodlist.foldlM checkDuplicate prodset =
        throw .DuplicateProductionInGrammarDef arg) := by
  induction prodlist generalizing prodset with
  | nil => exact Or.inl ⟨List.nodup_nil, by simp, prodset, rfl⟩
  | cons prod prodlist ih =>
    rw [List.foldlM_cons, List.map_cons, List.nodup_cons]
    rcases checkDuplicate_cases prodset prod with ⟨known, failed⟩ | ⟨fresh, step⟩
    · rw [failed]
      exact Or.inr ⟨fun new => new.2 prod List.mem_cons_self known, _, rfl⟩
    · rw [step, ok_bind]
      have inserted : (∀ p ∈ prodlist, p.prodstring ∉ prodset.insert prod.prodstring) ↔
          prod.prodstring ∉ prodlist.map ProductionDef.prodstring ∧
            ∀ p ∈ prodlist, p.prodstring ∉ prodset := by
        simp only [SortedSet.mem_insert, not_or, List.mem_map, not_exists, not_and]
        exact ⟨fun all => ⟨fun p mem => (all p mem).1, fun p mem => (all p mem).2⟩,
          fun both p mem => ⟨both.1 p mem, both.2 p mem⟩⟩
      rcases ih (prodset.insert prod.prodstring) with ⟨nodup, new, done⟩ | ⟨other, failed⟩
      · obtain ⟨apart, old⟩ := inserted.mp new
        exact Or.inl ⟨⟨apart, nodup⟩, List.forall_mem_cons.mpr ⟨fresh, old⟩, done⟩
      · refine Or.inr ⟨?_, failed⟩
        rintro ⟨⟨apart, nodup⟩, new⟩
        exact other ⟨nodup, inserted.mpr ⟨apart, (List.forall_mem_cons.mp new).2⟩⟩

section Labels

variable {ctx : ParserContext} {labeled : List (ProductionDef × List String)}

theorem nonTerminalIdMap_length (consistent : Consistent ctx)
    (labels : ctx.rt.prodlist.mapM (labelProduction ctx.rt.lexer ctx.nonTerminalIdMap) =
      .ok labeled) :
    ctx.nonTerminalIdMap.entries.length =
      ((labeled.map Prod.fst).map fun prod => prod.left.name).eraseDups.length := by
  rw [names_labeled labels]
  have keys : (ctx.nonTerminalIdMap.entries.map Prod.fst).Nodup :=
    ctx.nonTerminalIdMap.sorted.imp fun less => ne_of_lt less
  have same : (ctx.nonTerminalIdMap.entries.map Prod.fst).Perm (leftNames ctx).eraseDups := by
    refine (List.perm_ext_iff_of_nodup keys (nodup_eraseDups _)).mpr fun name => ?_
    rw [List.mem_eraseDups, ← rule_iff consistent labels]
    constructor
    · intro mem
      obtain ⟨⟨name, id⟩, entry, rfl⟩ := List.mem_map.mp mem
      exact consistent.known name id (SortedMap.find_eq_some.mpr entry)
    · intro rule
      obtain ⟨id, found⟩ := rule_known labels ((rule_iff consistent labels).mp rule)
      exact List.mem_map_of_mem (SortedMap.find_eq_some.mp found)
  rw [← same.length_eq, List.length_map]

theorem checkLanguageDef_cases (consistent : Consistent ctx) (one : StartNumber ctx)
    (init : ctx.state = .Init)
    (labels : ctx.rt.prodlist.mapM (labelProduction ctx.rt.lexer ctx.nonTerminalIdMap) =
      .ok labeled) :
    (Tested (labeled.map Prod.fst) ∧ checkLanguageDef ctx =
      ((labeled.map Prod.fst).foldlM checkDuplicate SortedSet.empty).map fun _ =>
        { ctx.rt with prodlist := labeled.map Prod.fst }) ∨
    ¬ Tested (labeled.map Prod.fst) ∧ ∃ e, checkLanguageDef ctx = .error (.thrown e) ∧
      e.code ≠ .DuplicateProductionInGrammarDef := by
  rcases unreachableRules_cases consistent one labels with ⟨fold, used⟩ | ⟨failed, unused⟩
  · have count := nonTerminalIdMap_length consistent labels
    rw [unreachableRules] at fold
    simp only [checkLanguageDef, init, labels, ok_bind, ne_eq, not_true_eq_false, if_false, fold]
    split
    · rename_i nothing
      exact Or.inr ⟨fun tested => by simp [tested.start] at nothing, _, rfl, by simp⟩
    split
    · rename_i several
      exact Or.inr ⟨fun tested => by simp [tested.start] at several, _, rfl, by simp⟩
    split
    · rename_i many
      rw [count] at many
      exact Or.inr ⟨fun tested => absurd tested.nonterminals (by omega), _, rfl, by simp⟩
    · rename_i nothing several many
      refine Or.inl ⟨⟨used, ?_, by omega⟩, ?_⟩
      · omega
      · cases (labeled.map Prod.fst).foldlM checkDuplicate SortedSet.empty <;> rfl
  · refine Or.inr ⟨fun tested => unused tested.used, ?_⟩
    rcases failed with ⟨arg, fold⟩ | ⟨unreachable, fold, some_rule⟩
    · exact ⟨_, checkLanguageDef_referenced init labels fold, by simp⟩
    · exact ⟨_, checkLanguageDef_unreachable init labels fold some_rule, by simp⟩

end Labels

theorem duplicate_thrown_iff {engine : PatternEngine} {source : GrammarSource}
    {prodlist : List ProductionDef} (labels : Labels engine source prodlist) :
    (∃ e, parseLanguageDef engine source = .error (.thrown e) ∧
      e.code = .DuplicateProductionInGrammarDef) ↔
    Tested prodlist ∧ ¬ (prodlist.map ProductionDef.prodstring).Nodup := by
  obtain ⟨ctx, labeled, parsed, init, labels, rfl⟩ := labels
  obtain ⟨consistent, one⟩ := startNumber_of_parseLexems parsed
  have run : parseLanguageDef engine source = atLine source.lastline (checkLanguageDef ctx) := by
    rw [parseLanguageDef, parsed, ok_bind]
  rcases checkLanguageDef_cases consistent one init labels with ⟨tested, check⟩ | ⟨untested, e, failed, other⟩
  · rw [run, check]
    have fresh : ∀ prod ∈ labeled.map Prod.fst, prod.prodstring ∉ (SortedSet.empty : FlatSet String) :=
      fun prod _ => by simp
    rcases checkDuplicate_fold (labeled.map Prod.fst) SortedSet.empty with
      ⟨nodup, -, prodset, done⟩ | ⟨alike, arg, failed⟩
    · rw [done]
      refine iff_of_false ?_ fun both => both.2 nodup
      rintro ⟨e, thrown, -⟩
      simp [Except.map, atLine] at thrown
    · rw [failed]
      refine iff_of_true ⟨_, rfl, rfl⟩ ⟨tested, fun nodup => alike ⟨nodup, fresh⟩⟩
  · rw [run, failed]
    refine iff_of_false ?_ fun both => untested both.1
    rintro ⟨e', thrown, code⟩
    simp only [atLine, Except.error.injEq, Failure.thrown.injEq] at thrown
    apply other
    rw [← thrown] at code
    split at code <;> exact code

theorem Labels.unique {engine : PatternEngine} {source : GrammarSource}
    {prodlist prodlist' : List ProductionDef} (labels : Labels engine source prodlist)
    (labels' : Labels engine source prodlist') : prodlist = prodlist' := by
  obtain ⟨ctx, labeled, parsed, -, each, rfl⟩ := labels
  obtain ⟨ctx', labeled', parsed', -, each', rfl⟩ := labels'
  obtain rfl := Except.ok.inj (parsed.symm.trans parsed')
  obtain rfl := Except.ok.inj (each.symm.trans each')
  rfl

section Written

open WrittenProduction

/-- The checks before the one for duplicates pass: every rule but the first one is used, the first
    one is not used and has one production, and there are not too many rules. -/
structure Checked (ps : List WrittenProduction) : Prop where
  used : ∀ p ∈ ps, (∃ q ∈ ps, ∃ w ∈ q.right, w.text = p.left.toList) ↔
    ps.head?.map WrittenProduction.left ≠ some p.left
  start : (ps.countP fun p => ps.head?.map WrittenProduction.left = some p.left) = 1
  nonterminals : (ps.map WrittenProduction.left).eraseDups.length < Limits.MaxNonterminal

instance (ps : List WrittenProduction) : Decidable (Checked ps) :=
  decidable_of_iff (_ ∧ _ ∧ _) ⟨fun ⟨used, start, nonterminals⟩ => ⟨used, start, nonterminals⟩,
    fun checked => ⟨checked.used, checked.start, checked.nonterminals⟩⟩

/-- The productions for which the report of a duplicate is right. If two are the same, they have to
    be spelled alike, as their text is compared, and otherwise none are to be confused. -/
structure Recognisable (ps : List WrittenProduction) : Prop where
  found : Twice Same ps → Checked ps ∧ (Twice SpelledAlike ps ∨ Twice ConfusedWith ps)
  apart : ¬ Twice Same ps → Checked ps → ¬ Twice ConfusedWith ps

instance (ps : List WrittenProduction) : Decidable (Recognisable ps) :=
  decidable_of_iff (_ ∧ _) ⟨fun ⟨found, apart⟩ => ⟨found, apart⟩,
    fun recognisable => ⟨recognisable.found, recognisable.apart⟩⟩

structure LabeledBy (node : String → Option ProductionNode) (prod : ProductionDef) : Prop where
  left : node prod.left.name = some prod.left.toProductionNode
  kind : prod.left.type = .NonTerminal
  right : ∀ nd ∈ prod.right, node nd.name = some nd.toProductionNode

/-- The terminal or nonterminal with a name. -/
def nodeOfName (lexer : Lexer) (idMap : SortedMap String Nat) (name : String) :
    Option ProductionNode :=
  match idMap.find name with
  | some nt => some ⟨.NonTerminal, nt⟩
  | none => if lexer.lexemId name = 0 then none else some ⟨.Terminal, lexer.lexemId name⟩

variable {engine : PatternEngine} {source : GrammarSource} {prodlist : List ProductionDef}

theorem nodeOfName_injective {ctx : ParserContext} (called : Called ctx)
    (registered : Lexer.Registered engine ctx.rt.lexer) {name name' : String} {nd : ProductionNode}
    (node : nodeOfName ctx.rt.lexer ctx.nonTerminalIdMap name = some nd)
    (node' : nodeOfName ctx.rt.lexer ctx.nonTerminalIdMap name' = some nd) : name = name' := by
  have terminal {name : String} (known : ctx.rt.lexer.lexemId name ≠ 0) :
      numberIn ctx.rt.lexer.definedNames name = some (ctx.rt.lexer.lexemId name) := by
    rw [← registered.number]
    unfold Lexer.lexemId at known ⊢
    cases found : ctx.rt.lexer.nameidmap.find name with
    | none => simp [found] at known
    | some id => rfl
  unfold nodeOfName at node node'
  split at node <;> split at node'
  · rename_i nt found _ nt' found'
    have same : nt = nt' := by
      have both := Option.some.inj (node.trans node'.symm)
      simpa using both
    exact called.distinct name name' nt found (same ▸ found')
  · split at node'
    · cases node'
    · have both := Option.some.inj (node.trans node'.symm)
      simp at both
  · split at node
    · cases node
    · have both := Option.some.inj (node.trans node'.symm)
      simp at both
  · split at node
    · cases node
    · split at node'
      · cases node'
      · rename_i known known'
        have both := Option.some.inj (node.trans node'.symm)
        have same : ctx.rt.lexer.lexemId name = ctx.rt.lexer.lexemId name' := by simpa using both
        exact numberIn_injective (terminal known) (same ▸ terminal known')

theorem labelElement_node {lexer : Lexer} {idMap : SortedMap String Nat}
    {element nd : ProductionNodeDef} {used : Option String}
    (h : labelElement lexer idMap element = .ok (nd, used)) :
    nodeOfName lexer idMap nd.name = some nd.toProductionNode := by
  unfold labelElement at h
  dsimp only at h
  split at h
  · rename_i found
    split at h
    · simp [throw] at h
    · rename_i known
      obtain ⟨rfl, rfl⟩ := Prod.mk.inj (Except.ok.inj h)
      simp [nodeOfName, ProductionNodeDef.defineAsTerminal, found, known]
  · rename_i nt found
    split at h
    · simp [throw] at h
    · obtain ⟨rfl, rfl⟩ := Prod.mk.inj (Except.ok.inj h)
      simp [nodeOfName, ProductionNodeDef.defineAsNonTerminal, found]

theorem labeledBy_of_labels (labels : Labels engine source prodlist) :
    ∃ node : String → Option ProductionNode,
      (∀ name name' nd, node name = some nd → node name' = some nd → name = name') ∧
      (∀ prod ∈ prodlist, LabeledBy node prod) ∧
      ∀ start, prodlist.head? = some start → start.left.index = 1 := by
  obtain ⟨ctx, labeled, parsed, -, each, rfl⟩ := labels
  have registered : Lexer.Registered engine ctx.rt.lexer := by
    refine Lexer.Defined.registered ?_
    exact foldlM_invariant (fun ctx : ParserContext => Lexer.Defined engine ctx.rt.lexer)
      (fun _ _ _ _ defined stepped => defined_of_parseLexem defined (atLine_eq_ok stepped))
      .empty parsed
  have nodes : ∀ prod ∈ labeled.map Prod.fst,
      LabeledBy (nodeOfName ctx.rt.lexer ctx.nonTerminalIdMap) prod := by
    intro prod mem
    obtain ⟨l, listed, rfl⟩ := List.mem_map.mp mem
    obtain ⟨prod0, -, label⟩ := (mem_mapM each).1 l listed
    have right : ∀ nd ∈ l.1.right,
        nodeOfName ctx.rt.lexer ctx.nonTerminalIdMap nd.name = some nd.toProductionNode := by
      intro nd here
      obtain ⟨element, used, element_label, -⟩ := (labelProduction_inv label).2 nd here
      exact labelElement_node element_label
    unfold labelProduction at label
    split at label
    · simp [throw] at label
    · split at label
      · simp at label
      · rename_i nt found
        obtain ⟨elements, -, label⟩ := bind_eq_ok.mp label
        obtain rfl := Except.ok.inj label
        refine ⟨?_, rfl, right⟩
        simp [nodeOfName, ProductionNodeDef.defineAsNonTerminal, found]
  refine ⟨_, fun name name' nd => nodeOfName_injective (called_of_parseLexems parsed) registered,
    nodes, fun start head => ?_⟩
  have first : (leftNames ctx).head? = some start.left.name := by
    rw [← names_labeled each, List.head?_map, head]
    rfl
  have number := (startNumber_of_parseLexems parsed).1.first _ first
  have node := (nodes start (List.mem_of_head? head)).left
  unfold nodeOfName at node
  rw [number] at node
  have index := congrArg ProductionNode.index (Option.some.inj node)
  exact index.symm

theorem symbols_eq_iff {node : String → Option ProductionNode}
    (injective : ∀ name name' nd, node name = some nd → node name' = some nd → name = name')
    {p q : WrittenProduction} {prod prod' : ProductionDef} (reads : Reads p prod)
    (reads' : Reads q prod') (labeled : LabeledBy node prod) (labeled' : LabeledBy node prod') :
    symbols prod = symbols prod' ↔ p.Same q := by
  have same {nd nd' : ProductionNodeDef} (here : node nd.name = some nd.toProductionNode)
      (here' : node nd'.name = some nd'.toProductionNode) :
      nd.toProductionNode = nd'.toProductionNode ↔ nd.word.text = nd'.word.text := by
    show _ ↔ nd.name.toList = nd'.name.toList
    rw [String.toList_inj]
    constructor
    · intro equal
      exact injective _ _ _ here (equal ▸ here')
    · intro equal
      exact Option.some.inj (here.symm.trans (equal ▸ here'))
  unfold symbols WrittenProduction.Same
  rw [Prod.mk.injEq, same labeled.left labeled'.left, reads.left, reads'.left, reads.right,
    reads'.right, List.map_map, List.map_map]
  refine and_congr String.toList_inj (map_eq_iff fun nd mem nd' mem' => ?_)
  exact same (labeled.right nd mem) (labeled'.right nd' mem')

theorem tested_iff (labels : Labels engine source prodlist) :
    Tested prodlist ↔ Checked (productions source) := by
  obtain ⟨node, injective, labeled, first⟩ := labeledBy_of_labels labels
  have reads := productions_of_labels labels
  have names : (productions source).map WrittenProduction.left =
      prodlist.map fun prod => prod.left.name :=
    List.forall₂_eq_eq_eq ▸ List.forall₂_map_left_iff.mpr
      (List.forall₂_map_right_iff.mpr (reads.imp fun _ _ reads => reads.left))
  have head : (productions source).head?.map WrittenProduction.left =
      prodlist.head?.map fun prod => prod.left.name := by
    rw [← List.head?_map, ← List.head?_map, names]
  have used {prod : ProductionDef} (mem : prod ∈ prodlist) :
      (∃ name, Refers prodlist name prod.left.name) ↔
        ∃ q ∈ productions source, ∃ w ∈ q.right, w.text = prod.left.name.toList := by
    constructor
    · rintro ⟨name, user, listed, -, nd, here, -, named⟩
      obtain ⟨q, written, reads⟩ := exists_left reads listed
      refine ⟨q, written, nd.word, ?_, by rw [← named]; rfl⟩
      rw [reads.right]
      exact List.mem_map_of_mem here
    · rintro ⟨q, written, w, here, named⟩
      obtain ⟨user, listed, reads⟩ := exists_right reads written
      rw [reads.right] at here
      obtain ⟨nd, there, rfl⟩ := List.mem_map.mp here
      have named : nd.name = prod.left.name := String.toList_inj.mp named
      have both := (labeled user listed).right nd there
      rw [named, (labeled prod mem).left] at both
      refine ⟨user.left.name, user, listed, rfl, nd, there, ?_, named⟩
      rw [← Option.some.inj both]
      exact (labeled prod mem).kind
  have number {prod : ProductionDef} (mem : prod ∈ prodlist) : prod.left.index = 1 ↔
      (prodlist.head?.map fun prod => prod.left.name) = some prod.left.name := by
    cases start : prodlist.head? with
    | none => simp [List.head?_eq_none_iff.mp start] at mem
    | some start' =>
      have here := labeled prod mem
      have there := labeled start' (List.mem_of_head? start)
      have one := first start' start
      rw [Option.map_some, Option.some.injEq]
      constructor
      · intro index
        have same : prod.left.toProductionNode = start'.left.toProductionNode :=
          ProductionNode.ext (here.kind.trans there.kind.symm) (index.trans one.symm)
        exact injective _ _ _ there.left (same ▸ here.left)
      · intro named
        have both := here.left
        rw [← named, there.left] at both
        rw [← Option.some.inj both]
        exact one
  have start : (productions source).countP (fun p =>
      (productions source).head?.map WrittenProduction.left = some p.left) =
      prodlist.countP fun prod => prod.left.index = 1 := by
    have at_names := List.countP_map (p := fun name => decide
      ((productions source).head?.map WrittenProduction.left = some name))
      (f := WrittenProduction.left) (l := productions source)
    refine at_names.symm.trans ?_
    rw [names, List.countP_map, head]
    refine List.countP_congr fun prod mem => ?_
    simp [number mem]
  have other (prod : ProductionDef) :
      (∀ start, prodlist.head? = some start → prod.left.name ≠ start.left.name) ↔
        (productions source).head?.map WrittenProduction.left ≠ some prod.left.name := by
    rw [head]
    cases prodlist.head? <;> simp [eq_comm]
  constructor
  · intro tested
    refine ⟨fun p mem => ?_, start.trans tested.start, by rw [names]; exact tested.nonterminals⟩
    obtain ⟨prod, listed, reads⟩ := exists_right reads mem
    rw [reads.left, ← used listed, ← other]
    exact tested.used prod listed
  · intro checked
    refine ⟨fun prod mem => ?_, start.symm.trans checked.start, by
      rw [← names]
      exact checked.nonterminals⟩
    obtain ⟨p, written, reads⟩ := exists_left reads mem
    rw [used mem, other, ← reads.left]
    exact checked.used p written

theorem alike_iff (identifiers : source.Identifiers) (labels : Labels engine source prodlist) :
    (¬ (prodlist.map symbols).Nodup ↔ Twice Same (productions source)) ∧
    (¬ (prodlist.map ProductionDef.prodstring).Nodup ↔
      Twice SpelledAlike (productions source) ∨ Twice ConfusedWith (productions source)) := by
  obtain ⟨node, injective, labeled, -⟩ := labeledBy_of_labels labels
  have reads := forall₂_and (productions_of_labels labels) (plain_of_identifiers identifiers) labeled
  rw [twice_map, twice_map, ← twice_or]
  constructor
  · refine (twice_iff_of_forall₂ reads fun p q prod prod' => ?_).symm
    rintro ⟨reads, -, labeled⟩ ⟨reads', -, labeled'⟩
    exact (symbols_eq_iff injective reads reads' labeled labeled').symm
  · refine (twice_iff_of_forall₂ reads fun p q prod prod' => ?_).symm
    rintro ⟨reads, plain, -⟩ ⟨reads', plain', -⟩
    exact (prodstring_eq_iff plain plain' reads reads').symm

/-- Duplicates are recognised if and only if the productions are written so that the text tells
    which of them are the same, or the source is not read up to the labels. -/
theorem duplicatesRecognised_iff (identifiers : source.Identifiers) :
    DuplicatesRecognised engine source ↔
      ((∃ prodlist, Labels engine source prodlist) → Recognisable (productions source)) := by
  by_cases labeled : ∃ prodlist, Labels engine source prodlist
  · obtain ⟨prodlist, labels⟩ := labeled
    have only : (∃ prodlist, Labels engine source prodlist ∧ ¬ (prodlist.map symbols).Nodup) ↔
        ¬ (prodlist.map symbols).Nodup := by
      refine ⟨?_, fun twice => ⟨prodlist, labels, twice⟩⟩
      rintro ⟨prodlist', labels', twice⟩
      rwa [← labels.unique labels'] at twice
    obtain ⟨same, printed⟩ := alike_iff identifiers labels
    have spelled : Twice SpelledAlike (productions source) → Twice Same (productions source) :=
      Twice.imp fun p q alike => ⟨alike.1, congrArg _ alike.2.2⟩
    rw [DuplicatesRecognised, duplicate_thrown_iff labels, only, same, printed, tested_iff labels]
    constructor
    · rintro ⟨thrown, found⟩ -
      exact ⟨found, fun apart checked confused => apart (thrown ⟨checked, Or.inr confused⟩)⟩
    · intro recognisable
      obtain ⟨found, apart⟩ := recognisable ⟨prodlist, labels⟩
      refine ⟨?_, found⟩
      rintro ⟨checked, alike | confused⟩
      · exact spelled alike
      · exact by_contra fun other => apart other checked confused
  · have other := (labels_or_other source).resolve_left labeled
    refine iff_of_true (iff_of_false ?_ ?_) fun labels => absurd labels labeled
    · rintro ⟨e, thrown, code⟩
      exact other.kind _ thrown e rfl code
    · rintro ⟨prodlist, labels, -⟩
      exact labeled ⟨prodlist, labels⟩

end Written

/-- A production is written twice, once with a priority. -/
def withPriority : GrammarSource where
  lexems := [⟨.IDENT, "S", "", 1⟩, ⟨.EQUAL, "=", "", 1⟩, ⟨.IDENT, "A", "", 1⟩,
    ⟨.SEMICOLON, ";", "", 1⟩, ⟨.IDENT, "A", "", 2⟩, ⟨.EQUAL, "=", "", 2⟩, ⟨.DQSTRING, "x", "", 2⟩,
    ⟨.SEMICOLON, ";", "", 2⟩, ⟨.IDENT, "A", "", 3⟩, ⟨.SLASH, "/", "", 3⟩, ⟨.PRIORITY, "L1", "", 3⟩,
    ⟨.EQUAL, "=", "", 3⟩, ⟨.DQSTRING, "x", "", 3⟩, ⟨.SEMICOLON, ";", "", 3⟩]

/-- A production is written twice, with different quotes. -/
def withBothQuotes : GrammarSource where
  lexems := [⟨.IDENT, "S", "", 1⟩, ⟨.EQUAL, "=", "", 1⟩, ⟨.IDENT, "A", "", 1⟩,
    ⟨.SEMICOLON, ";", "", 1⟩, ⟨.IDENT, "A", "", 2⟩, ⟨.EQUAL, "=", "", 2⟩, ⟨.DQSTRING, "x", "", 2⟩,
    ⟨.OR, "|", "", 2⟩, ⟨.SQSTRING, "x", "", 2⟩, ⟨.SEMICOLON, ";", "", 2⟩]

theorem duplicatesRecognised_iff_plain :
    DuplicatesRecognised Plain.patterns withBothQuotes ∧
    ¬ DuplicatesRecognised Plain.patterns withPriority := by
  constructor
  · have identifiers : withBothQuotes.Identifiers := by
      simp [GrammarSource.Identifiers, withBothQuotes, isNameChar]
    exact (duplicatesRecognised_iff identifiers).mpr fun _ => by decide +kernel
  · have accepted : (parseLanguageDef Plain.patterns withPriority).toOption.isSome = true := by
      decide +kernel
    obtain ⟨rt, parsed⟩ := Option.isSome_iff_exists.mp accepted
    have identifiers : withPriority.Identifiers := by
      simp [GrammarSource.Identifiers, withPriority, isNameChar]
    intro recognised
    have recognisable := (duplicatesRecognised_iff identifiers).mp recognised
      ⟨_, labels_of_accepted (toOption_eq_some.mp parsed)⟩
    revert recognisable
    decide +kernel

theorem not_recognised_of_accepted {engine : PatternEngine} {source : GrammarSource}
    {rt : LanguageDef} (accepted : parseLanguageDef engine source = .ok rt)
    (twice : ¬ (rt.prodlist.map symbols).Nodup) : ¬ DuplicatesRecognised engine source := by
  intro recognised
  obtain ⟨e, thrown, -⟩ := recognised.mpr ⟨_, labels_of_accepted accepted, twice⟩
  rw [accepted] at thrown
  cases thrown

/-- A terminal is written by its name and as a string. -/
def withString : GrammarSource where
  lexems := [⟨.IDENT, "x", "", 1⟩, ⟨.DDOT, ":", "", 1⟩, ⟨.DQSTRING, "x", "", 1⟩,
    ⟨.SEMICOLON, ";", "", 1⟩, ⟨.IDENT, "S", "", 2⟩, ⟨.EQUAL, "=", "", 2⟩, ⟨.IDENT, "A", "", 2⟩,
    ⟨.SEMICOLON, ";", "", 2⟩, ⟨.IDENT, "A", "", 3⟩, ⟨.EQUAL, "=", "", 3⟩, ⟨.IDENT, "x", "", 3⟩,
    ⟨.OR, "|", "", 3⟩, ⟨.DQSTRING, "x", "", 3⟩, ⟨.SEMICOLON, ";", "", 3⟩]

/-- Two terminals are printed as another one is. -/
def withQuotes : GrammarSource where
  lexems := [⟨.IDENT, "S", "", 1⟩, ⟨.EQUAL, "=", "", 1⟩, ⟨.IDENT, "A", "", 1⟩,
    ⟨.SEMICOLON, ";", "", 1⟩, ⟨.IDENT, "A", "", 2⟩, ⟨.EQUAL, "=", "", 2⟩, ⟨.DQSTRING, "a", "", 2⟩,
    ⟨.DQSTRING, "b", "", 2⟩, ⟨.OR, "|", "", 2⟩, ⟨.SQSTRING, "a\" \"b", "", 2⟩,
    ⟨.SEMICOLON, ";", "", 2⟩]

def thrownCode {α : Type} : Except Failure α → Option ErrorCode
  | .error (.thrown e) => some e.code
  | _ => none

theorem exists_thrown {α : Type} {x : Except Failure α} {code : ErrorCode}
    (thrown : thrownCode x = some code) : ∃ e, x = .error (.thrown e) ∧ e.code = code := by
  cases x with
  | ok a => cases thrown
  | error f =>
    cases f with
    | thrown e => exact ⟨e, rfl, Option.some.inj thrown⟩
    | _ => cases thrown

/-- A duplicate is missed for its priority and for the spelling of a terminal, and different right
    sides are taken for a duplicate. -/
theorem duplicates_by_text :
    (∃ rt, parseLanguageDef Plain.patterns withPriority = .ok rt ∧
      ¬ (rt.prodlist.map symbols).Nodup ∧ ¬ DuplicatesRecognised Plain.patterns withPriority) ∧
    (∃ rt, parseLanguageDef Plain.patterns withString = .ok rt ∧
      ¬ (rt.prodlist.map symbols).Nodup ∧ ¬ DuplicatesRecognised Plain.patterns withString) ∧
    ∃ prodlist, Labels Plain.patterns withQuotes prodlist ∧ (prodlist.map symbols).Nodup ∧
      ¬ DuplicatesRecognised Plain.patterns withQuotes := by
  have missed : ∀ source, ((parseLanguageDef Plain.patterns source).toOption.any fun rt =>
      ¬ (rt.prodlist.map symbols).Nodup) = true →
      ∃ rt, parseLanguageDef Plain.patterns source = .ok rt ∧
        ¬ (rt.prodlist.map symbols).Nodup ∧ ¬ DuplicatesRecognised Plain.patterns source := by
    intro source run
    obtain ⟨rt, accepted, twice⟩ := (Option.any_eq_true _ _).mp run
    have accepted := toOption_eq_some.mp accepted
    have twice := of_decide_eq_true twice
    exact ⟨rt, accepted, twice, not_recognised_of_accepted accepted twice⟩
  refine ⟨missed _ (by decide +kernel), missed _ (by decide +kernel), ?_⟩
  have read : ((parseLexems Plain.patterns withQuotes.lexems).toOption.any fun ctx =>
      ctx.state = .Init ∧ ((ctx.rt.prodlist.mapM (labelProduction ctx.rt.lexer
        ctx.nonTerminalIdMap)).toOption.any fun labeled =>
          ((labeled.map Prod.fst).map symbols).Nodup) = true) = true := by decide +kernel
  have thrown : thrownCode (parseLanguageDef Plain.patterns withQuotes) =
      some .DuplicateProductionInGrammarDef := by decide +kernel
  obtain ⟨ctx, parsed, both⟩ := (Option.any_eq_true _ _).mp read
  obtain ⟨init, both⟩ := of_decide_eq_true both
  obtain ⟨labeled, each, once⟩ := (Option.any_eq_true _ _).mp both
  have labels : Labels Plain.patterns withQuotes (labeled.map Prod.fst) :=
    ⟨ctx, labeled, toOption_eq_some.mp parsed, init, toOption_eq_some.mp each, rfl⟩
  have once := of_decide_eq_true once
  refine ⟨_, labels, once, fun recognised => ?_⟩
  obtain ⟨e, failed, code⟩ := exists_thrown thrown
  obtain ⟨prodlist, labels', twice⟩ := recognised.mp ⟨e, failed, code⟩
  exact twice (labels.unique labels' ▸ once)

end Mewa.Grammar
