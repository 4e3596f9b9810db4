/- Module: Mewa/Compiler/Scopes
   digest: The intervals of the scopes in an AST are nested like its nodes and ordered like them. -/

import Mewa.Compiler.Stack

set_option autoImplicit false
set_option relaxedAutoImplicit false

namespace Mewa

open Mewa.Lib

namespace AstNode

/-- The node at a position: an index for every level. -/
def nodeAt : List AstNode → List Nat → Option AstNode
  | _, [] => none
  | nodes, [i] => nodes[i]?
  | nodes, i :: j :: path =>
    match nodes[i]? with
    | some (.struct _ _ _ arg) => nodeAt arg (j :: path)
    | _ => none

/-- The step or scope of the node at a position, if it was made for a call. -/
def extentAt (nodes : List AstNode) (path : List Nat) : Option NodeExtent :=
  match nodeAt nodes path with
  | some (.struct _ _ extent _) => some extent
  | _ => none

/-- The first position belongs to a node that comes before the other one and does not contain it. -/
def Before (p q : List Nat) : Prop :=
  ∃ r i j p' q', p = r ++ i :: p' ∧ q = r ++ j :: q' ∧ i < j

theorem nested_or_before (p q : List Nat) : p <+: q ∨ q <+: p ∨ Before p q ∨ Before q p := by
  induction p generalizing q with
  | nil => exact Or.inl (List.nil_prefix)
  | cons i p ih =>
    cases q with
    | nil => exact Or.inr (Or.inl List.nil_prefix)
    | cons j q =>
      rcases lt_trichotomy i j with less | rfl | greater
      · exact Or.inr (Or.inr (Or.inl ⟨[], i, j, p, q, rfl, rfl, less⟩))
      · rcases ih q with pq | qp | ⟨r, i', j', p', q', rfl, rfl, less⟩ |
          ⟨r, i', j', p', q', rfl, rfl, less⟩
        · exact Or.inl (List.cons_prefix_cons.mpr ⟨rfl, pq⟩)
        · exact Or.inr (Or.inl (List.cons_prefix_cons.mpr ⟨rfl, qp⟩))
        · exact Or.inr (Or.inr (Or.inl ⟨i :: r, i', j', p', q', rfl, rfl, less⟩))
        · exact Or.inr (Or.inr (Or.inr ⟨i :: r, i', j', p', q', rfl, rfl, less⟩))
      · exact Or.inr (Or.inr (Or.inr ⟨[], j, i, q, p, rfl, rfl, greater⟩))

/-- The intervals of the scopes are laminar: they nest strictly along the nodes, are disjoint for
    other nodes, with those of later nodes behind, and contain the steps of the nodes inside. -/
structure Laminar (nodes : List AstNode) : Prop where
  nonempty : ∀ {p start stop}, extentAt nodes p = some (.scope start stop) → start < stop
  nested : ∀ {p q start stop start' stop'}, extentAt nodes p = some (.scope start stop) →
    extentAt nodes q = some (.scope start' stop') → p <+: q → p ≠ q →
    start ≤ start' ∧ stop' < stop
  ordered : ∀ {p q start stop start' stop'}, extentAt nodes p = some (.scope start stop) →
    extentAt nodes q = some (.scope start' stop') → Before p q → stop ≤ start'
  disjoint : ∀ {p q start stop start' stop'}, extentAt nodes p = some (.scope start stop) →
    extentAt nodes q = some (.scope start' stop') → ¬ p <+: q → ¬ q <+: p →
    stop ≤ start' ∨ stop' ≤ start
  steps : ∀ {p q start stop counter}, extentAt nodes p = some (.scope start stop) →
    extentAt nodes q = some (.step counter) → p <+: q → start ≤ counter ∧ counter < stop

/-- The counter of steps and scopes goes from one value to another along nodes. -/
inductive Spans : Int → List AstNode → Int → Prop
  | nil {lo : Int} : Spans lo [] lo
  | lexem {lo hi line : Int} {name value : String} {rest : List AstNode} :
      Spans lo rest hi → Spans lo (.lexem name value line :: rest) hi
  | step {lo mid counter hi line : Int} {call : Nat} {arg rest : List AstNode} :
      Spans lo arg mid → mid ≤ counter → Spans counter rest hi →
      Spans lo (.struct call line (.step counter) arg :: rest) hi
  | scope {lo mid stop hi line : Int} {call : Nat} {arg rest : List AstNode} :
      Spans lo arg mid → mid < stop → Spans stop rest hi →
      Spans lo (.struct call line (.scope lo stop) arg :: rest) hi

/-- The step or scope of a node is inside of two values of the counter. -/
def Within (lo hi : Int) : NodeExtent → Prop
  | .step counter => lo ≤ counter ∧ counter ≤ hi
  | .scope start stop => lo ≤ start ∧ start < stop ∧ stop ≤ hi

theorem Within.mono {lo lo' hi hi' : Int} {extent : NodeExtent} (h : Within lo hi extent)
    (low : lo' ≤ lo) (high : hi ≤ hi') : Within lo' hi' extent := by
  cases extent with
  | step counter => exact ⟨low.trans h.1, h.2.trans high⟩
  | scope start stop => exact ⟨low.trans h.1, h.2.1, h.2.2.trans high⟩

namespace Spans

variable {lo mid hi : Int} {nodes more : List AstNode}

theorem le (h : Spans lo nodes hi) : lo ≤ hi := by
  induction h with
  | nil => exact le_refl _
  | lexem _ ih => exact ih
  | step _ up _ ih1 ih2 => omega
  | scope _ up _ ih1 ih2 => omega

theorem append (first : Spans lo nodes mid) (second : Spans mid more hi) :
    Spans lo (nodes ++ more) hi := by
  induction first with
  | nil => exact second
  | lexem _ ih => exact .lexem (ih second)
  | step args up _ _ ih => exact .step args up (ih second)
  | scope args up _ _ ih => exact .scope args up (ih second)

end Spans

section Positions

variable {node : AstNode} {nodes : List AstNode} {path : List Nat}

@[simp] theorem extentAt_nil (nodes : List AstNode) : extentAt nodes [] = none := rfl

@[simp] theorem extentAt_empty (path : List Nat) : extentAt [] path = none := by
  match path with
  | [] => rfl
  | [i] => rfl
  | i :: j :: path => rfl

@[simp] theorem extentAt_succ (i : Nat) (path : List Nat) :
    extentAt (node :: nodes) ((i + 1) :: path) = extentAt nodes (i :: path) := by
  cases path with
  | nil => simp [extentAt, nodeAt]
  | cons j path => simp [extentAt, nodeAt]

@[simp] theorem extentAt_lexem {name value : String} {line : Int} :
    extentAt (.lexem name value line :: nodes) (0 :: path) = none := by
  cases path with
  | nil => rfl
  | cons j path => rfl

@[simp] theorem extentAt_root {call : Nat} {line : Int} {extent : NodeExtent}
    {arg : List AstNode} : extentAt (.struct call line extent arg :: nodes) [0] = some extent :=
  rfl

@[simp] theorem extentAt_arg {call : Nat} {line : Int} {extent : NodeExtent}
    {arg : List AstNode} {j : Nat} :
    extentAt (.struct call line extent arg :: nodes) (0 :: j :: path) = extentAt arg (j :: path) :=
  rfl

end Positions

namespace Spans

variable {lo mid hi : Int} {nodes : List AstNode}

theorem within (h : Spans lo nodes hi) {path : List Nat} {extent : NodeExtent}
    (at_path : extentAt nodes path = some extent) : Within lo hi extent := by
  induction h generalizing path with
  | nil => simp at at_path
  | @lexem lo hi line name value rest _ ih =>
    match path with
    | [] => simp at at_path
    | 0 :: path => simp at at_path
    | (i + 1) :: path => exact ih (by simpa using at_path)
  | @step lo mid counter hi line call arg rest args up rest_span ih_arg ih_rest =>
    have low := args.le
    have high := rest_span.le
    match path with
    | [] => simp at at_path
    | [0] =>
      obtain rfl := Option.some.inj at_path
      exact ⟨by omega, high⟩
    | 0 :: j :: path => exact (ih_arg at_path).mono (le_refl _) (by omega)
    | (i + 1) :: path => exact (ih_rest (by simpa using at_path)).mono (by omega) (le_refl _)
  | @scope lo mid stop hi line call arg rest args up rest_span ih_arg ih_rest =>
    have low := args.le
    have high := rest_span.le
    match path with
    | [] => simp at at_path
    | [0] =>
      obtain rfl := Option.some.inj at_path
      exact ⟨le_refl _, by omega, high⟩
    | 0 :: j :: path => exact (ih_arg at_path).mono (le_refl _) (by omega)
    | (i + 1) :: path => exact (ih_rest (by simpa using at_path)).mono (by omega) (le_refl _)

theorem within_scope (h : Spans lo nodes hi) {p q : List Nat} {j : Nat} {start stop : Int}
    {extent : NodeExtent} (outer : extentAt nodes p = some (.scope start stop))
    (inner : extentAt nodes (p ++ j :: q) = some extent) : Within start (stop - 1) extent := by
  induction h generalizing p with
  | nil => simp at outer
  | lexem _ ih =>
    match p with
    | [] => simp at outer
    | 0 :: p => simp at outer
    | (i + 1) :: p => exact ih (by simpa using outer) (by simpa using inner)
  | step args up rest_span ih_arg ih_rest =>
    match p with
    | [] => simp at outer
    | [0] => simp at outer
    | 0 :: k :: p => exact ih_arg outer inner
    | (i + 1) :: p => exact ih_rest (by simpa using outer) (by simpa using inner)
  | scope args up rest_span ih_arg ih_rest =>
    match p with
    | [] => simp at outer
    | [0] =>
      obtain ⟨rfl, rfl⟩ := NodeExtent.scope.inj (Option.some.inj outer)
      exact (args.within inner).mono (le_refl _) (by omega)
    | 0 :: k :: p => exact ih_arg outer inner
    | (i + 1) :: p => exact ih_rest (by simpa using outer) (by simpa using inner)

/-- Two nodes on different branches are on different sides of a value of the counter. -/
theorem separated (h : Spans lo nodes hi) {r p q : List Nat} {i j : Nat} {first second : NodeExtent}
    (less : i < j) (at_first : extentAt nodes (r ++ i :: p) = some first)
    (at_second : extentAt nodes (r ++ j :: q) = some second) :
    ∃ lo' mid hi', Within lo' mid first ∧ Within mid hi' second := by
  induction h generalizing r i j with
  | nil => simp at at_first
  | lexem _ ih =>
    match r, i, j with
    | [], 0, j => simp at at_first
    | [], i + 1, j + 1 =>
      exact ih (r := []) (i := i) (j := j) (by omega) (by simpa using at_first) (by simpa using at_second)
    | 0 :: r, _, _ => simp at at_first
    | (k + 1) :: r, i, j =>
      exact ih (r := k :: r) less (by simpa using at_first) (by simpa using at_second)
  | @step lo mid counter hi line call arg rest args up rest_span ih_arg ih_rest =>
    match r, i, j with
    | [], 0, j + 1 =>
      have alone : Spans lo [.struct call line (.step counter) arg] counter := .step args up .nil
      have same : extentAt [.struct call line (.step counter) arg] (0 :: p) = some first := by
        cases p <;> exact at_first
      exact ⟨lo, counter, hi, alone.within same,
        rest_span.within ((extentAt_succ j q).symm.trans at_second)⟩
    | [], i + 1, j + 1 =>
      exact ih_rest (r := []) (i := i) (j := j) (by omega) (by simpa using at_first)
        (by simpa using at_second)
    | [0], i, j => exact ih_arg (r := []) less at_first at_second
    | 0 :: k :: r, i, j => exact ih_arg (r := k :: r) less at_first at_second
    | (k + 1) :: r, i, j =>
      exact ih_rest (r := k :: r) less (by simpa using at_first) (by simpa using at_second)
  | @scope lo mid stop hi line call arg rest args up rest_span ih_arg ih_rest =>
    match r, i, j with
    | [], 0, j + 1 =>
      have alone : Spans lo [.struct call line (.scope lo stop) arg] stop := .scope args up .nil
      have same : extentAt [.struct call line (.scope lo stop) arg] (0 :: p) = some first := by
        cases p <;> exact at_first
      exact ⟨lo, stop, hi, alone.within same,
        rest_span.within ((extentAt_succ j q).symm.trans at_second)⟩
    | [], i + 1, j + 1 =>
      exact ih_rest (r := []) (i := i) (j := j) (by omega) (by simpa using at_first)
        (by simpa using at_second)
    | [0], i, j => exact ih_arg (r := []) less at_first at_second
    | 0 :: k :: r, i, j => exact ih_arg (r := k :: r) less at_first at_second
    | (k + 1) :: r, i, j =>
      exact ih_rest (r := k :: r) less (by simpa using at_first) (by simpa using at_second)

theorem laminar (h : Spans lo nodes hi) : Laminar nodes := by
  have ordered : ∀ {p q start stop start' stop'}, extentAt nodes p = some (.scope start stop) →
      extentAt nodes q = some (.scope start' stop') → Before p q → stop ≤ start' := by
    intro p q start stop start' stop' hp hq before
    obtain ⟨r, i, j, p', q', rfl, rfl, less⟩ := before
    obtain ⟨lo', mid, hi', first, second⟩ := h.separated less hp hq
    exact first.2.2.trans second.1
  refine ⟨fun hp => (h.within hp).2.1, ?_, ordered, ?_, ?_⟩
  · intro p q start stop start' stop' hp hq prefixed different
    obtain ⟨tail, rfl⟩ := prefixed
    cases tail with
    | nil => exact absurd (List.append_nil p).symm different
    | cons j tail =>
      have inside := h.within_scope hp hq
      exact ⟨inside.1, by have := inside.2.2; omega⟩
  · intro p q start stop start' stop' hp hq pq qp
    rcases nested_or_before p q with nested | nested | before | before
    · exact absurd nested pq
    · exact absurd nested qp
    · exact Or.inl (ordered hp hq before)
    · exact Or.inr (ordered hq hp before)
  · intro p q start stop counter hp hq prefixed
    obtain ⟨tail, rfl⟩ := prefixed
    cases tail with
    | nil =>
      rw [List.append_nil, hp] at hq
      simp at hq
    | cons j tail =>
      have inside := h.within_scope hp hq
      exact ⟨inside.1, by have := inside.2; omega⟩

end Spans

end AstNode

namespace Compiler

open AstNode

theorem lexemNodes_spans (lexer : Lexer) (lexem : Lexem) (s : FoldState) :
    Spans s.scopestep (lexemNodes lexer lexem s).1 (lexemNodes lexer lexem s).2.scopestep := by
  unfold lexemNodes
  split
  · exact .nil
  · exact .lexem .nil

theorem productionNodes_spans (action : Action) {lo : Int} {args : List AstNode} {s : FoldState}
    (h : Spans lo args s.scopestep) :
    Spans lo (productionNodes action lo args s).1 (productionNodes action lo args s).2.scopestep := by
  unfold productionNodes
  split
  · exact h
  · by_cases scope : action.scopeflag = .Scope
    · simp only [scope, if_true]
      refine .scope h ?_ .nil
      simp only [reduceCtorEq, if_false]
      omega
    · simp only [scope, if_false]
      refine .step h ?_ .nil
      split <;> omega

theorem astOf_spans (lexer : Lexer) (f : ActionForest) (s : FoldState) :
    Spans s.scopestep (astOf lexer f s).1 (astOf lexer f s).2.scopestep := by
  induction f generalizing s with
  | nil => exact .nil
  | leaf lexem rest ih => exact (lexemNodes_spans lexer lexem s).append (ih _)
  | node action children rest ih_children ih_rest =>
    exact (productionNodes_spans action (ih_children s)).append (ih_rest _)

/-- The AST of every source that is parsed has laminar scopes. -/
theorem feedSource_laminar {fuel : Nat} {automaton : Automaton} {lexems : List Lexem}
    {lastline : Int} {ctx : CompilerContext}
    (parsed : feedSource fuel automaton lexems lastline = .ok ctx) : Laminar ctx.luaStack := by
  obtain ⟨ms, run⟩ := run_of_feedSource parsed
  obtain ⟨f, -, holds⟩ := run_holds run
  have spans := astOf_spans automaton.lexer f {}
  have fold : astOf automaton.lexer f {} = (ctx.luaStack, ⟨ctx.scopestep, ctx.line⟩) := by
    split at holds
    · exact holds.1.fold
    · exact holds.1.ast_eq
  rw [fold] at spans
  exact spans.laminar

/-- Blocks in brackets with a scope for each, and leaves with a step. -/
def blockLexems : List (LexemType × String) :=
  [(.IDENT, "S"), (.EQUAL, "="), (.IDENT, "L"), (.SEMICOLON, ";"),
    (.IDENT, "L"), (.EQUAL, "="), (.IDENT, "I"), (.IDENT, "L"), (.OR, "|"), (.IDENT, "I"),
    (.SEMICOLON, ";"), (.IDENT, "I"), (.EQUAL, "="), (.SQSTRING, "b"), (.IDENT, "L"),
    (.SQSTRING, "e"), (.OPENBRK, "("), (.SCOPE, "{}"), (.IDENT, "block"), (.CLOSEBRK, ")"),
    (.OR, "|"), (.IDENT, "x"), (.OPENBRK, "("), (.STEP, ">>"), (.IDENT, "leaf"), (.CLOSEBRK, ")"),
    (.SEMICOLON, ";"), (.IDENT, "x"), (.DDOT, ":"), (.SQSTRING, "x"), (.SEMICOLON, ";")]

/-- The source `b x b x e e x`. -/
def blockInput : List Lexem :=
  [⟨"b", 1, "b", 1⟩, ⟨"x", 3, "x", 1⟩, ⟨"b", 1, "b", 1⟩, ⟨"x", 3, "x", 1⟩, ⟨"e", 2, "e", 1⟩,
    ⟨"e", 2, "e", 1⟩, ⟨"x", 3, "x", 1⟩]

theorem feedSource_laminar_blocks :
    ∃ ctx, feedSource 100 (Sample.automaton blockLexems) blockInput 1 = .ok ctx ∧
      extentAt ctx.luaStack [0] = some (.scope 0 4) ∧
      extentAt ctx.luaStack [0, 1] = some (.scope 1 3) ∧ Laminar ctx.luaStack := by
  have parsed : (feedSource 100 (Sample.automaton blockLexems) blockInput 1).toOption.map
      (fun ctx => (extentAt ctx.luaStack [0], extentAt ctx.luaStack [0, 1])) =
      some (some (.scope 0 4), some (.scope 1 3)) := by decide +kernel
  cases result : feedSource 100 (Sample.automaton blockLexems) blockInput 1 with
  | error e => simp [result, Except.toOption] at parsed
  | ok ctx =>
    rw [result] at parsed
    obtain ⟨outer, inner⟩ := Prod.mk.inj (Option.some.inj parsed)
    exact ⟨ctx, rfl, outer, inner, feedSource_laminar result⟩

end Compiler

end Mewa
