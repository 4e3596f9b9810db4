/- Module: Mewa/Compiler/Run
   digest: Runs of the parser as sequences of moves, and the loops of the compiler as such runs. -/

import Mewa.Compiler.Driver
import Mewa.Lib.ParseForest

set_option autoImplicit false
set_option relaxedAutoImplicit false

namespace Mewa.Compiler

open Mewa.Lib

/-- A state of the compiler with the lexems it has still to consume. The last one is the end of
    the input. -/
structure Feed where
  ctx : CompilerContext
  input : List Lexem

def Feed.start (lexems : List Lexem) (lastline : Int) : Feed :=
  ⟨{}, lexems ++ [Lexem.atEnd lastline]⟩

abbrev ParserMove := Move Lexem Action

/-- What an action does to the trees on the stack. -/
def moveOf (action : Action) (lexem : Lexem) : ParserMove :=
  if action.type = .Shift then .shift lexem else .reduce action

def accepting : ParserMove → Bool
  | .shift _ => false
  | .reduce action => action.type = .Accept

/-- One call of `feedLexem` in the loops of the compiler. A lexem before the end of the input with
    a number that is not positive is refused before it is fed. -/
def Step (automaton : Automaton) (f : Feed) (m : ParserMove) (g : Feed) : Prop :=
  ∃ lexem rest action consumed,
    f.input = lexem :: rest ∧ (rest ≠ [] → 0 < lexem.id) ∧
    actionOf automaton f.ctx lexem.id = some action ∧ m = moveOf action lexem ∧
    feedLexem automaton lexem f.ctx = .ok (g.ctx, consumed) ∧
    g.input = if consumed then rest else lexem :: rest

/-- A sequence of calls of `feedLexem` with the moves they make. -/
inductive Run (automaton : Automaton) (f : Feed) : List ParserMove → Feed → Prop
  | refl : Run automaton f [] f
  | tail {ms : List ParserMove} {g h : Feed} {m : ParserMove} : Run automaton f ms g →
      Step automaton g m h → Run automaton f (ms ++ [m]) h

theorem Run.trans {automaton : Automaton} {f g h : Feed} {ms ns : List ParserMove}
    (first : Run automaton f ms g) (second : Run automaton g ns h) :
    Run automaton f (ms ++ ns) h := by
  induction second with
  | refl => rwa [List.append_nil]
  | tail _ step ih =>
    rw [← List.append_assoc]
    exact ih.tail step

theorem Run.single {automaton : Automaton} {f g : Feed} {m : ParserMove}
    (step : Step automaton f m g) : Run automaton f [m] g := Run.refl.tail step

theorem Run.invariant {automaton : Automaton} (I : Feed → Prop)
    (step : ∀ {f g m}, I f → Step automaton f m g → I g) {f g : Feed} {ms : List ParserMove}
    (run : Run automaton f ms g) (start : I f) : I g := by
  induction run with
  | refl => exact start
  | tail _ last ih => exact step ih last

theorem Step.unique {automaton : Automaton} {f g h : Feed} {m n : ParserMove}
    (first : Step automaton f m g) (second : Step automaton f n h) : m = n ∧ g = h := by
  obtain ⟨lexem, rest, action, consumed, input, _, table, rfl, fed, after⟩ := first
  obtain ⟨lexem', rest', action', consumed', input', _, table', rfl, fed', after'⟩ := second
  obtain ⟨rfl, rfl⟩ := List.cons.inj (input.symm.trans input')
  obtain rfl := Option.some.inj (table.symm.trans table')
  obtain ⟨sameCtx, rfl⟩ := Prod.mk.inj (Except.ok.inj (fed.symm.trans fed'))
  refine ⟨rfl, ?_⟩
  cases g
  cases h
  simp_all

/-- The step that is possible, with its move. -/
def nextStep (automaton : Automaton) (f : Feed) : Option (ParserMove × Feed) :=
  match f.input with
  | [] => none
  | lexem :: rest =>
    if rest ≠ [] ∧ lexem.id ≤ 0 then none
    else
      match actionOf automaton f.ctx lexem.id, feedLexem automaton lexem f.ctx with
      | some action, .ok (ctx, consumed) =>
        some (moveOf action lexem, ⟨ctx, if consumed then rest else lexem :: rest⟩)
      | _, _ => none

theorem step_of_nextStep {automaton : Automaton} {f g : Feed} {m : ParserMove}
    (h : nextStep automaton f = some (m, g)) : Step automaton f m g := by
  unfold nextStep at h
  cases input : f.input with
  | nil => simp [input] at h
  | cons lexem rest =>
    simp only [input] at h
    split at h
    · simp at h
    · rename_i allowed
      split at h
      · rename_i action ctx consumed table fed
        obtain ⟨rfl, rfl⟩ := Prod.mk.inj (Option.some.inj h)
        refine ⟨lexem, rest, action, consumed, input, ?_, table, rfl, fed, rfl⟩
        intro more
        by_contra not_pos
        exact allowed ⟨more, not_lt.mp not_pos⟩
      · simp at h

/-- At most so many steps, with their moves. -/
def runFor (automaton : Automaton) : Nat → Feed → List ParserMove × Feed
  | 0, f => ([], f)
  | n + 1, f =>
    match nextStep automaton f with
    | none => ([], f)
    | some (m, g) =>
      let (ms, h) := runFor automaton n g
      (m :: ms, h)

theorem run_runFor (automaton : Automaton) (n : Nat) (f : Feed) :
    Run automaton f (runFor automaton n f).1 (runFor automaton n f).2 := by
  induction n generalizing f with
  | zero => exact .refl
  | succ n ih =>
    unfold runFor
    cases next : nextStep automaton f with
    | none => exact .refl
    | some pair =>
      obtain ⟨m, g⟩ := pair
      exact (Run.single (step_of_nextStep next)).trans (ih g)

theorem feedLexem_cases {automaton : Automaton} {lexem : Lexem} {ctx ctx' : CompilerContext}
    {consumed : Bool} (h : feedLexem automaton lexem ctx = .ok (ctx', consumed)) :
    ∃ action, actionOf automaton ctx lexem.id = some action ∧
      ((action.type = .Shift ∧ consumed = true ∧
          feedShift automaton action.value lexem ctx = .ok ctx') ∨
        (action.type ≠ .Shift ∧ action.count < ctx.stateStack.length ∧
          ∃ scopeStart reduced nofElements,
            scopeStartOf action.count ctx = .ok scopeStart ∧
            feedReduce action scopeStart ctx = .ok (reduced, nofElements) ∧
            ((action.type = .Accept ∧ consumed = true ∧
                feedAccept nofElements lexem reduced = .ok ctx') ∨
              (action.type = .Reduce ∧ consumed = false ∧
                feedGoto automaton action nofElements scopeStart lexem reduced = .ok ctx')))) := by
  unfold feedLexem at h
  cases stack : ctx.stateStack with
  | nil => simp [stack] at h
  | cons top below =>
    simp only [stack] at h
    have key : actionOf automaton ctx lexem.id = automaton.actions.find ⟨top.index, lexem.id⟩ := by
      simp [actionOf, stack]
    rw [key]
    cases table : automaton.actions.find ⟨top.index, lexem.id⟩ with
    | none =>
      rw [table] at h
      simp only [unexpectedToken] at h
      obtain ⟨token, _, h⟩ := bind_eq_ok.mp h
      obtain ⟨expected, _, h⟩ := bind_eq_ok.mp h
      simp [throw] at h
    | some action =>
      refine ⟨action, rfl, ?_⟩
      rw [table] at h
      cases kind : action.type with
      | Shift =>
        simp only [kind] at h
        obtain ⟨shifted, hs, h⟩ := bind_eq_ok.mp h
        obtain ⟨rfl, rfl⟩ := Prod.mk.inj (Except.ok.inj h)
        exact Or.inl ⟨rfl, rfl, hs⟩
      | Accept =>
        simp only [kind] at h
        split at h
        · simp [throw] at h
        · rename_i deep
          obtain ⟨scopeStart, hs, h⟩ := bind_eq_ok.mp h
          obtain ⟨⟨reduced, n⟩, hr, h⟩ := bind_eq_ok.mp h
          obtain ⟨accepted, ha, h⟩ := bind_eq_ok.mp h
          obtain ⟨rfl, rfl⟩ := Prod.mk.inj (Except.ok.inj h)
          exact Or.inr ⟨by simp, not_le.mp deep, scopeStart, reduced, n, hs, hr,
            Or.inl ⟨rfl, rfl, ha⟩⟩
      | Reduce =>
        simp only [kind] at h
        split at h
        · simp [throw] at h
        · rename_i deep
          obtain ⟨scopeStart, hs, h⟩ := bind_eq_ok.mp h
          obtain ⟨⟨reduced, n⟩, hr, h⟩ := bind_eq_ok.mp h
          obtain ⟨next, hg, h⟩ := bind_eq_ok.mp h
          obtain ⟨rfl, rfl⟩ := Prod.mk.inj (Except.ok.inj h)
          exact Or.inr ⟨by simp, not_le.mp deep, scopeStart, reduced, n, hs, hr,
            Or.inr ⟨rfl, rfl, hg⟩⟩

theorem Step.of_feedLexem {automaton : Automaton} {lexem : Lexem} {rest : List Lexem}
    {ctx ctx' : CompilerContext} {consumed : Bool} (id_pos : rest ≠ [] → 0 < lexem.id)
    (h : feedLexem automaton lexem ctx = .ok (ctx', consumed)) :
    ∃ m, Step automaton ⟨ctx, lexem :: rest⟩ m
      ⟨ctx', if consumed then rest else lexem :: rest⟩ := by
  obtain ⟨action, table, -⟩ := feedLexem_cases h
  exact ⟨moveOf action lexem, lexem, rest, action, consumed, rfl, id_pos, table, rfl, h, rfl⟩

theorem run_of_feedUntilConsumed {automaton : Automaton} {lexem : Lexem} {rest : List Lexem}
    (id_pos : rest ≠ [] → 0 < lexem.id) {fuel : Nat} {ctx ctx' : CompilerContext}
    (h : feedUntilConsumed automaton lexem fuel ctx = .ok ctx') :
    ∃ ms, Run automaton ⟨ctx, lexem :: rest⟩ ms ⟨ctx', rest⟩ := by
  induction fuel generalizing ctx with
  | zero => simp [feedUntilConsumed] at h
  | succ fuel ih =>
    rw [feedUntilConsumed] at h
    obtain ⟨⟨next, consumed⟩, fed, h⟩ := bind_eq_ok.mp h
    obtain ⟨m, step⟩ := Step.of_feedLexem id_pos fed
    cases consumed with
    | true =>
      obtain rfl : next = ctx' := by simpa using h
      exact ⟨[m], Run.single step⟩
    | false =>
      obtain ⟨ms, run⟩ := ih h
      exact ⟨[m] ++ ms, (Run.single step).trans run⟩

theorem run_of_feedSourceLexems {automaton : Automaton} {fuel : Nat} {lexems : List Lexem}
    {rest : List Lexem} {ctx ctx' : CompilerContext}
    (h : lexems.foldlM (feedSourceLexem automaton fuel) ctx = .ok ctx') :
    ∃ ms, Run automaton ⟨ctx, lexems ++ rest⟩ ms ⟨ctx', rest⟩ := by
  induction lexems generalizing ctx with
  | nil =>
    obtain rfl : ctx = ctx' := by simpa [pure, Except.pure] using h
    exact ⟨[], Run.refl⟩
  | cons lexem lexems ih =>
    rw [List.foldlM_cons] at h
    obtain ⟨next, fed, h⟩ := bind_eq_ok.mp h
    obtain ⟨ns, tail⟩ := ih h
    unfold feedSourceLexem at fed
    split at fed
    · simp [throw] at fed
    · rename_i id_pos
      obtain ⟨consumed, hc, fed⟩ := bind_eq_ok.mp fed
      obtain ⟨_, _, fed⟩ := bind_eq_ok.mp fed
      obtain rfl : consumed = next := by simpa using fed
      obtain ⟨ms, head⟩ := run_of_feedUntilConsumed (fun _ : lexems ++ rest ≠ [] =>
        not_le.mp id_pos) hc
      exact ⟨ms ++ ns, head.trans tail⟩

theorem run_of_feedSource {automaton : Automaton} {fuel : Nat} {lexems : List Lexem}
    {lastline : Int} {ctx : CompilerContext}
    (h : feedSource fuel automaton lexems lastline = .ok ctx) :
    ∃ ms, Run automaton (Feed.start lexems lastline) ms ⟨ctx, []⟩ := by
  obtain ⟨mid, fed, h⟩ := bind_eq_ok.mp h
  obtain ⟨ms, head⟩ := run_of_feedSourceLexems fed
  obtain ⟨ns, tail⟩ := run_of_feedUntilConsumed (fun more : [] ≠ [] => absurd rfl more) h
  exact ⟨ms ++ ns, head.trans tail⟩

end Mewa.Compiler
