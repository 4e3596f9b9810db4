/- Module: Mewa/Grammar/Reachable
   digest: Which grammars with rules that cannot be reached from the first one are rejected. -/

import Mathlib.Logic.Relation
import Mewa.Grammar.Wellformed
import Mewa.Lexer.Scanner

set_option autoImplicit false
set_option relaxedAutoImplicit false

namespace Mewa.Grammar

open Mewa.Lib

/-- A production of the first nonterminal has the second one on its right side. -/
def Refers (prodlist : List ProductionDef) (name name' : String) : Prop :=
  ∃ prod ∈ prodlist, prod.left.name = name ∧
    ∃ nd ∈ prod.right, nd.type = .NonTerminal ∧ nd.name = name'

/-- The nonterminal can be reached from the start symbol. -/
def Reachable (prodlist : List ProductionDef) (name : String) : Prop :=
  ∃ start, prodlist.head? = some start ∧
    Relation.ReflTransGen (Refers prodlist) start.left.name name

def AllReachable (prodlist : List ProductionDef) : Prop :=
  ∀ prod ∈ prodlist, Reachable prodlist prod.left.name

/-- The state machine and the labels succeed with these productions. -/
def Labels (engine : PatternEngine) (source : GrammarSource) (prodlist : List ProductionDef) :
    Prop :=
  ∃ ctx labeled, parseLexems engine source.lexems = .ok ctx ∧ ctx.state = .Init ∧
    ctx.rt.prodlist.mapM (labelProduction ctx.rt.lexer ctx.nonTerminalIdMap) = .ok labeled ∧
    prodlist = labeled.map Prod.fst

/-- A grammar is accepted only if all nonterminals can be reached, and otherwise it is rejected for
    this reason or for an earlier one: the check of the start symbol in the same loop, or an error
    before the productions have their labels. -/
structure RejectsUnreachable (engine : PatternEngine) (source : GrammarSource) : Prop where
  accepted : ∀ rt, parseLanguageDef engine source = .ok rt → AllReachable rt.prodlist
  rejected : ∀ prodlist, Labels engine source prodlist → ¬ AllReachable prodlist →
    ∃ e, parseLanguageDef engine source = .error (.thrown e) ∧
      (e.code = .UnreachableNonTerminalInGrammarDef ∨
        e.code = .StartSymbolReferencedInGrammarDef)

/-- Every nonterminal is on a right side but the start symbol. -/
def OnlyStartUnused (prodlist : List ProductionDef) : Prop :=
  ∀ prod ∈ prodlist, (∃ name, Refers prodlist name prod.left.name) ↔
    ∀ start, prodlist.head? = some start → prod.left.name ≠ start.left.name

/-- Not all nonterminals can be reached, although they are on right sides: some are only on right
    sides of one another. -/
structure Island (prodlist : List ProductionDef) : Prop where
  unreachable : ¬ AllReachable prodlist
  used : OnlyStartUnused prodlist

/-! The labels keep the names. -/

def usedNames (prod : ProductionDef) : List String :=
  prod.right.filterMap fun nd => if nd.type = .NonTerminal then some nd.name else none

theorem mem_usedNames {prod : ProductionDef} {name : String} :
    name ∈ usedNames prod ↔ ∃ nd ∈ prod.right, nd.type = .NonTerminal ∧ nd.name = name := by
  simp [usedNames, List.mem_filterMap]

theorem labelElement_used {lexer : Lexer} {idMap : SortedMap String Nat}
    {element nd : ProductionNodeDef} {used : Option String}
    (h : labelElement lexer idMap element = .ok (nd, used)) :
    used = if nd.type = .NonTerminal then some nd.name else none := by
  rw [labelElement] at h
  cases found : idMap.find element.name with
  | none =>
    simp only [found] at h
    split at h
    · simp [throw] at h
    · obtain ⟨rfl, rfl⟩ := Prod.mk.inj (Except.ok.inj h)
      rfl
  | some nt =>
    simp only [found] at h
    split at h
    · simp [throw] at h
    · obtain ⟨rfl, rfl⟩ := Prod.mk.inj (Except.ok.inj h)
      rfl

theorem labelProduction_used {lexer : Lexer} {idMap : SortedMap String Nat} {prod : ProductionDef}
    {labeled : ProductionDef × List String}
    (h : labelProduction lexer idMap prod = .ok labeled) :
    labeled.1.left.name = prod.left.name ∧ labeled.2 = usedNames labeled.1 := by
  rw [labelProduction] at h
  split at h
  · simp [throw] at h
  cases found : idMap.find prod.left.name with
  | none => simp [found] at h
  | some nt =>
    simp only [found] at h
    obtain ⟨elements, each, h⟩ := bind_eq_ok.mp h
    obtain rfl := Except.ok.inj h
    refine ⟨rfl, ?_⟩
    have used : ∀ e ∈ elements, e.2 = if e.1.type = .NonTerminal then some e.1.name else none := by
      intro e mem
      obtain ⟨element, -, label⟩ := (mem_mapM each).1 e mem
      exact labelElement_used label
    rw [usedNames, List.filterMap_map]
    exact List.filterMap_congr used

/-- The names of the rules that are not used, but for the start symbol. -/
def unusedRules (idMap : SortedMap String Nat) (usedSet : FlatSet String)
    (rules : List (String × Nat)) : List String :=
  (rules.filter fun pr => decide (pr.1 ∉ usedSet ∧ idMap.find pr.1 ≠ some 1)).map Prod.fst

theorem collectUnreachable_fold {idMap : SortedMap String Nat} {usedSet : FlatSet String}
    {rules : List (String × Nat)} (known : ∀ pr ∈ rules, ∃ nt, idMap.find pr.1 = some nt)
    (unreachable : List String) :
    ((∃ pr ∈ rules, pr.1 ∈ usedSet ∧ idMap.find pr.1 = some 1) ∧
      ∃ name, rules.foldlM (collectUnreachable idMap usedSet) unreachable =
        throw .StartSymbolReferencedInGrammarDef name) ∨
    (∀ pr ∈ rules, pr.1 ∈ usedSet → idMap.find pr.1 ≠ some 1) ∧
      rules.foldlM (collectUnreachable idMap usedSet) unreachable =
        .ok (unreachable ++ unusedRules idMap usedSet rules) := by
  induction rules generalizing unreachable with
  | nil => exact Or.inr ⟨by simp, by simp [pure, Except.pure, unusedRules]⟩
  | cons pr rules ih =>
    obtain ⟨nt, found⟩ := known pr List.mem_cons_self
    have rest (next : List String) := ih (fun pr mem => known pr (List.mem_cons_of_mem _ mem)) next
    have step : collectUnreachable idMap usedSet unreachable pr =
        if pr.1 ∉ usedSet then .ok (if nt ≠ 1 then unreachable ++ [pr.1] else unreachable)
        else if nt = 1 then throw .StartSymbolReferencedInGrammarDef pr.1
        else .ok unreachable := by
      rw [collectUnreachable, found]
    have go {next : List String} (here : collectUnreachable idMap usedSet unreachable pr = .ok next)
        (plain : pr.1 ∈ usedSet → idMap.find pr.1 ≠ some 1)
        (same : next ++ unusedRules idMap usedSet rules =
          unreachable ++ unusedRules idMap usedSet (pr :: rules)) :
        ((∃ p ∈ pr :: rules, p.1 ∈ usedSet ∧ idMap.find p.1 = some 1) ∧
          ∃ name, (pr :: rules).foldlM (collectUnreachable idMap usedSet) unreachable =
            throw .StartSymbolReferencedInGrammarDef name) ∨
        (∀ p ∈ pr :: rules, p.1 ∈ usedSet → idMap.find p.1 ≠ some 1) ∧
          (pr :: rules).foldlM (collectUnreachable idMap usedSet) unreachable =
            .ok (unreachable ++ unusedRules idMap usedSet (pr :: rules)) := by
      rw [List.foldlM_cons, here, ok_bind, ← same]
      rcases rest next with ⟨⟨p, mem, start⟩, thrown⟩ | ⟨others, collected⟩
      · exact Or.inl ⟨⟨p, List.mem_cons_of_mem _ mem, start⟩, thrown⟩
      · refine Or.inr ⟨fun p mem => ?_, collected⟩
        rcases List.mem_cons.mp mem with rfl | mem
        · exact plain
        · exact others p mem
    by_cases used : pr.1 ∈ usedSet
    · rw [if_neg (not_not.mpr used)] at step
      by_cases start : nt = 1
      · subst start
        rw [if_pos rfl] at step
        refine Or.inl ⟨⟨pr, List.mem_cons_self, used, found⟩, pr.1, ?_⟩
        rw [List.foldlM_cons, step]
        rfl
      · rw [if_neg start] at step
        refine go step (fun _ one => start ?_) ?_
        · exact Option.some.inj (found.symm.trans one)
        · rw [unusedRules, unusedRules, List.filter_cons_of_neg (by simp [used])]
    · rw [if_pos used] at step
      refine go step (fun there => absurd there used) ?_
      by_cases start : nt = 1
      · subst start
        rw [if_neg (not_not.mpr rfl), unusedRules, unusedRules,
          List.filter_cons_of_neg (by simp [found])]
      · rw [if_pos start, unusedRules, unusedRules,
          List.filter_cons_of_pos (by simp [used, found, start]), List.append_assoc]
        rfl

/-- Only the first rule has the number 1. -/
def StartNumber (ctx : ParserContext) : Prop :=
  ∀ name, ctx.nonTerminalIdMap.find name = some 1 → (leftNames ctx).head? = some name

theorem startNumber_step {engine : PatternEngine} {ctx ctx' : ParserContext}
    {lexem : GrammarLexem} (consistent : Consistent ctx) (one : StartNumber ctx)
    (stepped : parseLexem engine ctx lexem = .ok ctx') : StartNumber ctx' := by
  have added : ctx'.nonTerminalIdMap = ctx.nonTerminalIdMap →
      leftNames ctx' = leftNames ctx ++ [ctx.rulename] → StartNumber ctx' := by
    intro idMap names name found
    rw [idMap] at found
    rw [names, List.head?_append, one name found]
    rfl
  rcases parseLexem_cases stepped with keeps | ⟨line, rfl⟩ | ⟨value, line, pushed⟩
  · intro name found
    rw [keeps.idMap] at found
    rw [keeps.names]
    exact one name found
  · cases found : ctx.nonTerminalIdMap.find ctx.rulename with
    | some old =>
      have known := SortedMap.insertNew_of_some (v := ctx.nonTerminalIdMap.entries.length + 1) found
      have state : startRule line ctx =
          { pushProduction line ctx with state := .ParseProductionElement } := by
        simp only [startRule, pushProduction, known]
      rw [state] at added ⊢
      exact added rfl (leftNames_pushProduction line ctx)
    | none =>
      have fresh := SortedMap.insertNew_of_none (v := ctx.nonTerminalIdMap.entries.length + 1) found
      intro name at_one
      have idMap : (startRule line ctx).nonTerminalIdMap = ctx.nonTerminalIdMap.set ctx.rulename
          (ctx.nonTerminalIdMap.entries.length + 1) := by
        simp only [startRule, pushProduction, fresh]
      have names : leftNames (startRule line ctx) = leftNames ctx ++ [ctx.rulename] := by
        simp only [startRule, pushProduction, fresh]
        simp [leftNames]
      rw [idMap, SortedMap.find_set] at at_one
      rw [names]
      split at at_one
      · rename_i same
        -- a first entry is of the first rule
        have none_yet : ctx.nonTerminalIdMap.entries = [] := by
          apply List.length_eq_zero_iff.mp
          have := Option.some.inj at_one
          omega
        cases before : leftNames ctx with
        | nil => rw [← same]; rfl
        | cons head tail =>
          have first := consistent.first head (by rw [before]; rfl)
          have mem := SortedMap.find_eq_some.mp first
          simp [none_yet] at mem
      · rw [List.head?_append, one name at_one]
        rfl
  · rw [onOr] at pushed
    cases state : ctx.state <;> simp only [state, throw, reduceCtorEq] at pushed
    all_goals
      obtain rfl := Except.ok.inj pushed
      exact added rfl (leftNames_pushProduction line ctx)

theorem startNumber_of_parseLexems {engine : PatternEngine} {lexems : List GrammarLexem}
    {ctx : ParserContext} (h : parseLexems engine lexems = .ok ctx) :
    Consistent ctx ∧ StartNumber ctx := by
  refine foldlM_invariant (fun ctx => Consistent ctx ∧ StartNumber ctx) ?_
    ⟨consistent_start, by simp [StartNumber]⟩ h
  rintro ctx lexem ctx' - ⟨consistent, one⟩ stepped
  have stepped := atLine_eq_ok stepped
  exact ⟨consistent.parseLexem stepped, startNumber_step consistent one stepped⟩

/-- The loop over the rules as the checks call it. -/
def unreachableRules (ctx : ParserContext) (labeled : List (ProductionDef × List String)) :
    Except Failure (List String) :=
  ctx.prodmap.foldlM (collectUnreachable ctx.nonTerminalIdMap
    (SortedSet.ofList (labeled.flatMap Prod.snd))) []

section Checks

variable {ctx : ParserContext} {labeled : List (ProductionDef × List String)}

theorem checkLanguageDef_referenced (init : ctx.state = .Init)
    (labels : ctx.rt.prodlist.mapM (labelProduction ctx.rt.lexer ctx.nonTerminalIdMap) =
      .ok labeled) {e : Failure} (fold : unreachableRules ctx labeled = .error e) :
    checkLanguageDef ctx = .error e := by
  rw [unreachableRules] at fold
  simp only [checkLanguageDef, init, labels, ok_bind, ne_eq, not_true_eq_false, if_false, fold]
  rfl

theorem checkLanguageDef_unreachable (init : ctx.state = .Init)
    (labels : ctx.rt.prodlist.mapM (labelProduction ctx.rt.lexer ctx.nonTerminalIdMap) =
      .ok labeled) {unreachable : List String}
    (fold : unreachableRules ctx labeled = .ok unreachable) (some_rule : unreachable ≠ []) :
    checkLanguageDef ctx =
      throw .UnreachableNonTerminalInGrammarDef (", ".intercalate unreachable) := by
  rw [unreachableRules] at fold
  simp only [checkLanguageDef, init, labels, ok_bind, ne_eq, not_true_eq_false, if_false, fold,
    some_rule, not_false_eq_true, if_true]
  rfl

theorem checkLanguageDef_later (init : ctx.state = .Init)
    (labels : ctx.rt.prodlist.mapM (labelProduction ctx.rt.lexer ctx.nonTerminalIdMap) =
      .ok labeled) (fold : unreachableRules ctx labeled = .ok []) :
    (∃ rt, checkLanguageDef ctx = .ok rt ∧ rt.prodlist = labeled.map Prod.fst) ∨
      ∃ e, checkLanguageDef ctx = .error (.thrown e) ∧
        e.code ≠ .UnreachableNonTerminalInGrammarDef ∧
        e.code ≠ .StartSymbolReferencedInGrammarDef := by
  have duplicates : (∃ prodset, (labeled.map Prod.fst).foldlM checkDuplicate SortedSet.empty =
      .ok prodset) ∨ ∃ arg, (labeled.map Prod.fst).foldlM checkDuplicate SortedSet.empty =
        throw .DuplicateProductionInGrammarDef arg := by
    cases fold : (labeled.map Prod.fst).foldlM checkDuplicate SortedSet.empty with
    | ok prodset => exact Or.inl ⟨prodset, rfl⟩
    | error e =>
      obtain ⟨prodset, prod, -, failed⟩ := foldlM_eq_error fold
      rw [checkDuplicate] at failed
      split at failed
      · exact Or.inr ⟨_, congrArg Except.error (Except.error.inj failed).symm⟩
      · simp at failed
  rw [unreachableRules] at fold
  simp only [checkLanguageDef, init, labels, ok_bind, ne_eq, not_true_eq_false, if_false, fold]
  split
  · exact Or.inr ⟨_, rfl, by simp, by simp⟩
  split
  · exact Or.inr ⟨_, rfl, by simp, by simp⟩
  split
  · exact Or.inr ⟨_, rfl, by simp, by simp⟩
  rcases duplicates with ⟨prodset, none⟩ | ⟨arg, duplicate⟩
  · rw [none, ok_bind]
    exact Or.inl ⟨_, rfl, rfl⟩
  · rw [duplicate]
    exact Or.inr ⟨_, rfl, by simp, by simp⟩

end Checks

section Labels

variable {engine : PatternEngine} {lexems : List GrammarLexem} {ctx : ParserContext}
  {labeled : List (ProductionDef × List String)} {name : String}

theorem names_labeled
    (labels : ctx.rt.prodlist.mapM (labelProduction ctx.rt.lexer ctx.nonTerminalIdMap) =
      .ok labeled) :
    (labeled.map Prod.fst).map (fun prod => prod.left.name) = leftNames ctx := by
  rw [List.map_map]
  exact map_of_mapM (fun prod labeled h => (labelProduction_used h).1) labels

theorem used_iff
    (labels : ctx.rt.prodlist.mapM (labelProduction ctx.rt.lexer ctx.nonTerminalIdMap) =
      .ok labeled) :
    name ∈ (SortedSet.ofList (labeled.flatMap Prod.snd) : FlatSet String) ↔
      ∃ name', Refers (labeled.map Prod.fst) name' name := by
  have used : ∀ l ∈ labeled, l.2 = usedNames l.1 := by
    intro l mem
    obtain ⟨prod, -, label⟩ := (mem_mapM labels).1 l mem
    exact (labelProduction_used label).2
  rw [SortedSet.mem_ofList, List.mem_flatMap]
  constructor
  · rintro ⟨l, mem, here⟩
    rw [used l mem, mem_usedNames] at here
    exact ⟨l.1.left.name, l.1, List.mem_map_of_mem mem, rfl, here⟩
  · rintro ⟨name', prod, mem, -, here⟩
    obtain ⟨l, listed, rfl⟩ := List.mem_map.mp mem
    exact ⟨l, listed, by rw [used l listed, mem_usedNames]; exact here⟩

theorem rule_known
    (labels : ctx.rt.prodlist.mapM (labelProduction ctx.rt.lexer ctx.nonTerminalIdMap) =
      .ok labeled) (mem : name ∈ leftNames ctx) :
    ∃ nt, ctx.nonTerminalIdMap.find name = some nt := by
  obtain ⟨prod, listed, rfl⟩ := List.mem_map.mp mem
  obtain ⟨l, -, label⟩ := (mem_mapM labels).2 prod listed
  obtain ⟨⟨nt, found, -⟩, -⟩ := labelProduction_inv label
  exact ⟨nt, found⟩

theorem rule_iff (consistent : Consistent ctx)
    (labels : ctx.rt.prodlist.mapM (labelProduction ctx.rt.lexer ctx.nonTerminalIdMap) =
      .ok labeled) : (∃ i, (name, i) ∈ ctx.prodmap) ↔ name ∈ leftNames ctx := by
  constructor
  · rintro ⟨i, mem⟩
    exact List.mem_of_getElem? (consistent.defined name i mem)
  · intro mem
    obtain ⟨nt, found⟩ := rule_known labels mem
    exact consistent.known name nt found

theorem unreachableRules_cases (consistent : Consistent ctx) (one : StartNumber ctx)
    (labels : ctx.rt.prodlist.mapM (labelProduction ctx.rt.lexer ctx.nonTerminalIdMap) =
      .ok labeled) :
    (unreachableRules ctx labeled = .ok [] ∧ OnlyStartUnused (labeled.map Prod.fst)) ∨
    ((∃ arg, unreachableRules ctx labeled = throw .StartSymbolReferencedInGrammarDef arg) ∨
      ∃ unreachable, unreachableRules ctx labeled = .ok unreachable ∧ unreachable ≠ []) ∧
      ¬ OnlyStartUnused (labeled.map Prod.fst) := by
  have names := names_labeled labels
  have first (name : String) : ctx.nonTerminalIdMap.find name = some 1 ↔
      ∃ start, (labeled.map Prod.fst).head? = some start ∧ start.left.name = name := by
    have head : (leftNames ctx).head? = some name ↔
        ∃ start, (labeled.map Prod.fst).head? = some start ∧ start.left.name = name := by
      rw [← names, List.head?_map, Option.map_eq_some_iff]
    rw [← head]
    exact ⟨one name, consistent.first name⟩
  have rules (name : String) : (∃ i, (name, i) ∈ ctx.prodmap) ↔
      ∃ prod ∈ labeled.map Prod.fst, prod.left.name = name := by
    rw [rule_iff consistent labels, ← names, List.mem_map]
  have known : ∀ pr ∈ ctx.prodmap, ∃ nt, ctx.nonTerminalIdMap.find pr.1 = some nt :=
    fun pr mem => rule_known labels ((rule_iff consistent labels).mp ⟨pr.2, mem⟩)
  rcases @collectUnreachable_fold _ (SortedSet.ofList (labeled.flatMap Prod.snd)) _ known []
    with ⟨⟨pr, mem, used, start⟩, name, thrown⟩ | ⟨others, collected⟩
  · refine Or.inr ⟨Or.inl ⟨name, thrown⟩, fun all => ?_⟩
    obtain ⟨prod, mem, same⟩ := (rules pr.1).mp ⟨pr.2, mem⟩
    obtain ⟨first, head, here⟩ := (first pr.1).mp start
    rw [used_iff labels, ← same] at used
    exact (all prod mem).mp used first head (same.trans here.symm)
  · have fold : unreachableRules ctx labeled = .ok (unusedRules ctx.nonTerminalIdMap
        (SortedSet.ofList (labeled.flatMap Prod.snd)) ctx.prodmap) := collected
    have mem_unused (name : String) : name ∈ unusedRules ctx.nonTerminalIdMap
        (SortedSet.ofList (labeled.flatMap Prod.snd)) ctx.prodmap ↔
        (∃ i, (name, i) ∈ ctx.prodmap) ∧ (¬ ∃ name', Refers (labeled.map Prod.fst) name' name) ∧
          ctx.nonTerminalIdMap.find name ≠ some 1 := by
      rw [← used_iff labels]
      simp [unusedRules]
    by_cases nothing : unusedRules ctx.nonTerminalIdMap
        (SortedSet.ofList (labeled.flatMap Prod.snd)) ctx.prodmap = []
    · refine Or.inl ⟨nothing ▸ fold, fun prod mem => ⟨fun used start head same => ?_, fun other => ?_⟩⟩
      · obtain ⟨i, entry⟩ := (rules prod.left.name).mpr ⟨prod, mem, rfl⟩
        exact others _ entry ((used_iff labels).mpr used)
          ((first prod.left.name).mpr ⟨start, head, same.symm⟩)
      · by_contra unused
        have listed := (mem_unused prod.left.name).mpr
          ⟨(rules prod.left.name).mpr ⟨prod, mem, rfl⟩, unused, fun start => by
            obtain ⟨start, head, same⟩ := (first prod.left.name).mp start
            exact other start head same.symm⟩
        simp [nothing] at listed
    · refine Or.inr ⟨Or.inr ⟨_, fold, nothing⟩, fun all => ?_⟩
      obtain ⟨name, listed⟩ := List.exists_mem_of_ne_nil _ nothing
      obtain ⟨entry, unused, number⟩ := (mem_unused name).mp listed
      obtain ⟨prod, mem, rfl⟩ := (rules name).mp entry
      refine unused ((all prod mem).mpr fun start head same => number ?_)
      exact (first prod.left.name).mpr ⟨start, head, same.symm⟩

end Labels

theorem labels_of_accepted {engine : PatternEngine} {source : GrammarSource} {rt : LanguageDef}
    (accepted : parseLanguageDef engine source = .ok rt) : Labels engine source rt.prodlist := by
  obtain ⟨ctx, parsed, accepted⟩ := bind_eq_ok.mp accepted
  have checked := atLine_eq_ok accepted
  obtain ⟨labeled, labels, rfl, -⟩ := checkLanguageDef_inv checked
  refine ⟨ctx, labeled, parsed, ?_, labels, rfl⟩
  by_contra inside
  simp [checkLanguageDef, inside, throw] at checked

/-- Exactly the grammars with an island are not rejected for it. -/
theorem rejectsUnreachable_iff (engine : PatternEngine) (source : GrammarSource) :
    RejectsUnreachable engine source ↔
      ∀ prodlist, Labels engine source prodlist → ¬ Island prodlist := by
  constructor
  · rintro ⟨accepted, rejected⟩ prodlist ⟨ctx, labeled, parsed, init, labels, rfl⟩ island
    obtain ⟨consistent, one⟩ := startNumber_of_parseLexems parsed
    have run : parseLanguageDef engine source = atLine source.lastline (checkLanguageDef ctx) := by
      rw [parseLanguageDef, parsed, ok_bind]
    rcases unreachableRules_cases consistent one labels with ⟨fold, -⟩ | ⟨-, other⟩
    · rcases checkLanguageDef_later init labels fold with ⟨rt, checked, same⟩ | ⟨e, failed, codes⟩
      · rw [checked] at run
        have all := accepted rt run
        rw [same] at all
        exact island.unreachable all
      · rw [failed] at run
        obtain ⟨e', thrown, code⟩ := rejected _ ⟨ctx, labeled, parsed, init, labels, rfl⟩
          island.unreachable
        rw [run] at thrown
        obtain rfl := Failure.thrown.inj (Except.error.inj thrown)
        exact code.elim codes.1 codes.2
    · exact other island.used
  · intro none
    have rejected : ∀ prodlist, Labels engine source prodlist → ¬ AllReachable prodlist →
        ∃ e, parseLanguageDef engine source = .error (.thrown e) ∧
          (e.code = .UnreachableNonTerminalInGrammarDef ∨
            e.code = .StartSymbolReferencedInGrammarDef) := by
      rintro prodlist ⟨ctx, labeled, parsed, init, labels, rfl⟩ unreachable
      obtain ⟨consistent, one⟩ := startNumber_of_parseLexems parsed
      have run : parseLanguageDef engine source =
          atLine source.lastline (checkLanguageDef ctx) := by
        rw [parseLanguageDef, parsed, ok_bind]
      rcases unreachableRules_cases consistent one labels with ⟨-, all⟩ | ⟨⟨arg, fold⟩ | fold, -⟩
      · exact absurd ⟨unreachable, all⟩ (none _ ⟨ctx, labeled, parsed, init, labels, rfl⟩)
      · rw [checkLanguageDef_referenced init labels fold] at run
        exact ⟨_, run, Or.inr rfl⟩
      · obtain ⟨rules, fold, some_rule⟩ := fold
        rw [checkLanguageDef_unreachable init labels fold some_rule] at run
        exact ⟨_, run, Or.inl rfl⟩
    refine ⟨fun rt accepted => ?_, rejected⟩
    by_contra unreachable
    obtain ⟨e, failed, -⟩ := rejected rt.prodlist (labels_of_accepted accepted) unreachable
    simp [failed] at accepted

/-- The grammar of a start rule and of a rule that refers to itself only. -/
def island : GrammarSource where
  lexems := [⟨.IDENT, "S", "", 1⟩, ⟨.EQUAL, "=", "", 1⟩, ⟨.DQSTRING, "a", "", 1⟩,
    ⟨.SEMICOLON, ";", "", 1⟩, ⟨.IDENT, "B", "", 2⟩, ⟨.EQUAL, "=", "", 2⟩, ⟨.IDENT, "B", "", 2⟩,
    ⟨.DQSTRING, "b", "", 2⟩, ⟨.SEMICOLON, ";", "", 2⟩]

/-- A rule that cannot be reached is accepted, because it refers to itself. -/
theorem island_accepted : ∃ rt, parseLanguageDef Plain.patterns island = .ok rt ∧
    ¬ AllReachable rt.prodlist ∧ ¬ RejectsUnreachable Plain.patterns island := by
  have prodlist : (parseLanguageDef Plain.patterns island).toOption.map LanguageDef.prodlist =
      some [⟨⟨⟨.NonTerminal, 1⟩, "S", true⟩, [⟨⟨.Terminal, 1⟩, "a", false⟩], {}, 0, .NoScope, 1⟩,
        ⟨⟨⟨.NonTerminal, 2⟩, "B", true⟩,
          [⟨⟨.NonTerminal, 2⟩, "B", true⟩, ⟨⟨.Terminal, 2⟩, "b", false⟩], {}, 0, .NoScope, 2⟩] := by
    decide +kernel
  obtain ⟨rt, accepted, same⟩ := Option.map_eq_some_iff.mp prodlist
  have accepted := toOption_eq_some.mp accepted
  have unreachable : ¬ AllReachable rt.prodlist := by
    intro all
    have only : ∀ name, Relation.ReflTransGen (Refers rt.prodlist) "S" name → name = "S" := by
      intro name path
      induction path with
      | refl => rfl
      | tail _ step ih =>
        obtain ⟨prod, mem, left, nd, right, kind, -⟩ := step
        subst ih
        rw [same] at mem
        simp only [List.mem_cons, List.not_mem_nil, or_false] at mem
        rcases mem with rfl | rfl
        · simp only [List.mem_singleton] at right
          simp [right] at kind
        · simp at left
    obtain ⟨start, head, path⟩ := all (⟨⟨⟨.NonTerminal, 2⟩, "B", true⟩,
      [⟨⟨.NonTerminal, 2⟩, "B", true⟩, ⟨⟨.Terminal, 2⟩, "b", false⟩], {}, 0, .NoScope, 2⟩)
      (by rw [same]; simp)
    rw [same] at head
    obtain rfl := Option.some.inj head
    have := only _ path
    simp at this
  exact ⟨rt, accepted, unreachable, fun rejects => unreachable (rejects.accepted rt accepted)⟩

end Mewa.Grammar
