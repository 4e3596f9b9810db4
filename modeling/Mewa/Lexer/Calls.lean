/- Module: Mewa/Lexer/Calls
   digest: A call of the lexer skips blanks and comments and then reads one lexem or never ends. -/

import Mewa.Lexer.Tokens

set_option autoImplicit false
set_option relaxedAutoImplicit false

namespace Mewa.Lexer

open Mewa.Lib

/-- The blanks and closed comments before a position of a text. -/
inductive Gap (lexer : Lexer) : List Char → List Char → List Char → Prop
  | blanks (text : List Char) :
      Gap lexer text (text.takeWhile isBlank) (text.dropWhile isBlank)
  | comment {text gap rest : List Char} {c : Comment} {length : Nat} :
      lexer.commentAt (text.dropWhile isBlank) = some c →
      c.length (text.dropWhile isBlank) = some length → 0 < length →
      Gap lexer ((text.dropWhile isBlank).drop length) gap rest →
      Gap lexer text (text.takeWhile isBlank ++ ((text.dropWhile isBlank).take length ++ gap)) rest

/-- No comment that can be skipped begins here. -/
def Stop (lexer : Lexer) (text : List Char) : Prop :=
  ∀ c length, lexer.commentAt text = some c → c.length text = some length → length = 0

def Calls (engine : PatternSearch) (lexer : Lexer) (s : Scanner) (lexem : Lexem) (s' : Scanner) :
    Prop :=
  ∃ fuel, next engine lexer fuel s = .ok (lexem, s')

/-- The lexems of a source up to a state of the scanner. There are no more calls after the end. -/
inductive Lexes (engine : PatternSearch) (lexer : Lexer) (s : Scanner) :
    List Lexem → Scanner → Prop
  | start : Lexes engine lexer s [] s
  | call {lexems : List Lexem} {lexem : Lexem} {s' s'' : Scanner} :
      Lexes engine lexer s lexems s' → (∀ l ∈ lexems, l.id ≠ 0) →
      Calls engine lexer s' lexem s'' → Lexes engine lexer s (lexems ++ [lexem]) s''

/-- The lexems up to the end of the source, with a bound on the turns of a call, and the scanner
    before the call that returns the end. -/
def lexToEnd (engine : PatternSearch) (lexer : Lexer) (turns : Nat) :
    Nat → Scanner → Except Failure (List Lexem × Scanner)
  | 0, _ => .error .outOfFuel
  | fuel + 1, s => do
    let (lexem, after) ← next engine lexer turns s
    if lexem.id = 0 then .ok ([], s)
    else
      let (lexems, last) ← lexToEnd engine lexer turns fuel after
      .ok (lexem :: lexems, last)

variable {engine : PatternSearch} {lexer : Lexer}

section Texts

variable {text gap rest : List Char}

theorem Gap.split (h : Gap lexer text gap rest) : text = gap ++ rest := by
  induction h with
  | blanks text => exact List.takeWhile_append_dropWhile.symm
  | @comment text gap rest c length _ _ _ _ ih =>
    rw [List.append_assoc, List.append_assoc, ← ih, List.take_append_drop,
      List.takeWhile_append_dropWhile]

theorem Gap.head (h : Gap lexer text gap rest) : ∀ ch ∈ rest.head?, isBlank ch = false := by
  induction h with
  | blanks text => exact Scanner.head_dropWhile text
  | comment _ _ _ _ ih => exact ih

theorem dropWhile_of_head (head : ∀ ch ∈ rest.head?, isBlank ch = false) :
    rest.takeWhile isBlank = [] ∧ rest.dropWhile isBlank = rest := by
  cases rest with
  | nil => exact ⟨rfl, rfl⟩
  | cons ch rest =>
    have plain : isBlank ch = false := head ch rfl
    exact ⟨List.takeWhile_cons_of_neg (by simp [plain]), List.dropWhile_cons_of_neg (by simp [plain])⟩

theorem Gap.of_skipped (h : Gap lexer (text.dropWhile isBlank) gap rest) :
    Gap lexer text (text.takeWhile isBlank ++ gap) rest := by
  obtain ⟨take_eq, drop_eq⟩ := dropWhile_of_head (Scanner.head_dropWhile text)
  generalize same : text.dropWhile isBlank = text' at h
  cases h with
  | blanks =>
    rw [← same, take_eq, drop_eq, List.append_nil]
    exact .blanks text
  | comment here length positive tail =>
    rw [← same, drop_eq] at here length tail
    rw [← same, take_eq, drop_eq, List.nil_append]
    exact .comment here length positive tail

theorem Gap.unique {gap' rest' : List Char} (h : Gap lexer text gap rest)
    (h' : Gap lexer text gap' rest') (stop : Stop lexer rest) (stop' : Stop lexer rest') :
    gap = gap' ∧ rest = rest' := by
  induction h generalizing gap' with
  | blanks text =>
    cases h' with
    | blanks => exact ⟨rfl, rfl⟩
    | comment here length positive _ =>
      have := stop _ _ here length
      omega
  | comment here length positive _ ih =>
    cases h' with
    | blanks =>
      have := stop' _ _ here length
      omega
    | comment here' length' _ tail =>
      rw [here] at here'
      obtain rfl := Option.some.inj here'
      rw [length] at length'
      obtain rfl := Option.some.inj length'
      obtain ⟨rfl, rfl⟩ := ih tail stop
      exact ⟨rfl, rfl⟩

theorem exists_stop (lexer : Lexer) (text : List Char) :
    ∃ gap rest, Gap lexer text gap rest ∧ Stop lexer rest := by
  induction size : text.length using Nat.strong_induction_on generalizing text with
  | _ n ih =>
    subst size
    by_cases stop : Stop lexer (text.dropWhile isBlank)
    · exact ⟨_, _, .blanks text, stop⟩
    · unfold Stop at stop
      push Not at stop
      obtain ⟨c, length, here, closed, positive⟩ := stop
      have some_char : text.dropWhile isBlank ≠ [] := by
        intro empty
        simp [empty, commentAt, atEnd] at here
      have shorter : ((text.dropWhile isBlank).drop length).length < text.length := by
        have le := (List.dropWhile_suffix (l := text) isBlank).length_le
        have := List.length_pos_iff.mpr some_char
        rw [List.length_drop]
        omega
      obtain ⟨gap, rest, tail, stop⟩ := ih _ shorter _ rfl
      exact ⟨_, _, .comment here closed (by omega) tail, stop⟩

end Texts

section Calls

variable {s s' s'' : Scanner} {lexem lexem' : Lexem}

theorem next_succ (fuel : Nat) : next engine lexer (fuel + 1) s =
    turnAt engine lexer s.skipBlanks >>= fun turn => match turn with
      | .again after => next engine lexer fuel after
      | .returned lexem after => .ok (lexem, after) := by
  rw [next, turn, Scanner.next_zero]
  rfl

theorem next_mono {fuel : Nat} (h : next engine lexer fuel s = .ok (lexem, s')) (more : Nat) :
    next engine lexer (fuel + more) s = .ok (lexem, s') := by
  induction fuel generalizing s with
  | zero => simp [next] at h
  | succ fuel ih =>
    rw [Nat.add_right_comm]
    rw [next_succ] at h ⊢
    obtain ⟨turn, here, h⟩ := bind_eq_ok.mp h
    rw [here, ok_bind]
    cases turn with
    | again after => exact ih h
    | returned lexem after => exact h

theorem Calls.unique (h : Calls engine lexer s lexem s') (h' : Calls engine lexer s lexem' s'') :
    lexem = lexem' ∧ s' = s'' := by
  obtain ⟨fuel, h⟩ := h
  obtain ⟨fuel', h'⟩ := h'
  have both := (next_mono h fuel').symm.trans (Nat.add_comm fuel fuel' ▸ next_mono h' fuel)
  exact Prod.mk.inj (Except.ok.inj both)

theorem skipBlanks_skipBlanks (s : Scanner) : s.skipBlanks.skipBlanks = s.skipBlanks :=
  Scanner.skipBlanks_of_head (Scanner.skipBlanks_rest ▸ Scanner.head_dropWhile s.rest)

theorem next_skipBlanks (fuel : Nat) :
    next engine lexer fuel s.skipBlanks = next engine lexer fuel s := by
  cases fuel with
  | zero => rfl
  | succ fuel => rw [next_succ, next_succ, skipBlanks_skipBlanks]

theorem advance_gap {text gap : List Char} {length : Nat} (text_eq : text = s.rest)
    (fits : length ≤ (text.dropWhile isBlank).length) :
    (s.skipBlanks.advance length).advance gap.length = s.advance
      (text.takeWhile isBlank ++ ((text.dropWhile isBlank).take length ++ gap)).length := by
  subst text_eq
  rw [Scanner.skipBlanks, Scanner.advance_advance, Scanner.advance_advance, List.length_append,
    List.length_append, List.length_take, Nat.min_eq_left fits]

theorem Reads.no_end (h : Reads engine lexer s lexem s') {c : Comment}
    (here : lexer.commentAt s.rest = some c) : c.length s.rest = none := by
  cases h with
  | ended ended => simp [commentAt, ended] at here
  | unindented name ended => simp [commentAt, ended] at here
  | unclosed c' here' unclosed =>
    rw [here'] at here
    rwa [← Option.some.inj here]
  | bad token _ => simp [token.no_comment] at here
  | indented name token _ _ _ _ _ => simp [token.no_comment] at here
  | token token _ _ _ => simp [token.no_comment] at here

theorem Reads.stop (h : Reads engine lexer s lexem s') : Stop lexer s.rest := by
  intro c length here closed
  simp [h.no_end here] at closed

theorem turnAt_comment (named : Named lexer) (indexed : Indexed lexer) {c : Comment} {length : Nat}
    (here : lexer.commentAt s.rest = some c) (closed : c.length s.rest = some length) :
    turnAt engine lexer s = .ok (.again (s.advance length).skipBlanks) := by
  obtain ⟨turn, eq, spec⟩ := turnAt_spec engine s named indexed
  rw [eq]
  cases spec with
  | returned reads => simp [reads.no_end here] at closed
  | skipped c' here' closed' =>
    rw [here'] at here
    obtain rfl := Option.some.inj here
    rw [closed'] at closed
    rw [Option.some.inj closed]
  | ignored token _ _ => simp [token.no_comment] at here

theorem calls_spec (named : Named lexer) (indexed : Indexed lexer)
    (h : Calls engine lexer s lexem s') :
    ∃ gap rest, Gap lexer s.rest gap rest ∧
      turnAt engine lexer (s.advance gap.length) = .ok (.returned lexem s') ∧
      Reads engine lexer (s.advance gap.length) lexem s' := by
  obtain ⟨fuel, h⟩ := h
  induction fuel generalizing s with
  | zero => simp [next] at h
  | succ fuel ih =>
    rw [next_succ] at h
    obtain ⟨turn, eq, h⟩ := bind_eq_ok.mp h
    obtain ⟨turn', eq', spec⟩ := turnAt_spec engine s.skipBlanks named indexed
    obtain rfl := Except.ok.inj (eq.symm.trans eq')
    cases spec with
    | returned reads =>
      obtain ⟨rfl, rfl⟩ := Prod.mk.inj (Except.ok.inj h)
      exact ⟨_, _, .blanks _, eq, reads⟩
    | @skipped c length here closed =>
      have h := (next_skipBlanks fuel).symm.trans h
      obtain ⟨gap, rest, tail, read, reads⟩ := ih h
      rw [Scanner.skipBlanks_rest] at here closed
      rw [Scanner.advance_rest, Scanner.skipBlanks_rest] at tail
      rw [advance_gap rfl (commentAt_length_le here closed)] at read reads
      rcases Nat.eq_zero_or_pos length with rfl | positive
      · exact ⟨_, _, tail.of_skipped, read, reads⟩
      · exact ⟨_, _, .comment here closed positive tail, read, reads⟩
    | ignored _ _ _ =>
      obtain ⟨gap, rest, tail, read, reads⟩ := ih h
      rw [Scanner.skipBlanks_rest] at tail
      have length : (s.rest.takeWhile isBlank ++ gap).length =
          (s.rest.takeWhile isBlank).length + gap.length := List.length_append
      rw [Scanner.skipBlanks, Scanner.advance_advance, ← length] at read reads
      exact ⟨_, _, tail.of_skipped, read, reads⟩

theorem calls_of_gap (named : Named lexer) (indexed : Indexed lexer) {gap rest : List Char}
    (h : Gap lexer s.rest gap rest)
    (read : turnAt engine lexer (s.advance gap.length) = .ok (.returned lexem s')) :
    Calls engine lexer s lexem s' := by
  generalize text_eq : s.rest = text at h
  induction h generalizing s with
  | blanks text =>
    refine ⟨1, ?_⟩
    rw [← text_eq] at read
    rw [next_succ, Scanner.skipBlanks, read]
    rfl
  | comment here closed positive _ ih =>
    subst text_eq
    rw [← advance_gap rfl (commentAt_length_le here closed)] at read
    obtain ⟨fuel, tail⟩ := ih read (by rw [Scanner.advance_rest, Scanner.skipBlanks_rest])
    refine ⟨fuel + 1, ?_⟩
    rw [← Scanner.skipBlanks_rest] at here closed
    rw [next_succ, turnAt_comment named indexed here closed, ok_bind]
    exact (next_skipBlanks fuel).trans tail

/-- The two ways in which a call does not end: a comment without length, and a match that has no
    number. -/
def Stuck (engine : PatternSearch) (lexer : Lexer) (rest : List Char) : Prop :=
  (∃ c, lexer.commentAt rest = some c ∧ c.length rest = some 0) ∨
    AtToken lexer rest ∧ ∃ length d, ChosenAt engine lexer rest (length, some d) ∧ d.id = 0

theorem call_or_stuck (named : Named lexer) (indexed : Indexed lexer) {gap rest : List Char}
    (h : Gap lexer s.rest gap rest) (stop : Stop lexer rest) :
    (∃ lexem s', Calls engine lexer s lexem s' ∧
      Reads engine lexer (s.advance gap.length) lexem s') ∨
    Stuck engine lexer rest ∧ ∀ lexem s', ¬ Calls engine lexer s lexem s' := by
  have here : (s.advance gap.length).rest = rest := by
    rw [Scanner.advance_rest, h.split, List.drop_left]
  obtain ⟨turn, eq, spec⟩ := turnAt_spec engine (s.advance gap.length) named indexed
  have never (again : ∀ lexem s', turn ≠ .returned lexem s') :
      ∀ lexem s', ¬ Calls engine lexer s lexem s' := by
    intro lexem s' call
    obtain ⟨gap', rest', h', read, reads⟩ := calls_spec named indexed call
    have stop' := reads.stop
    rw [Scanner.advance_rest, h'.split, List.drop_left] at stop'
    obtain ⟨rfl, rfl⟩ := h.unique h' stop stop'
    exact again _ _ (Except.ok.inj (eq.symm.trans read))
  cases spec with
  | returned reads => exact Or.inl ⟨_, _, calls_of_gap named indexed h eq, reads⟩
  | skipped c comment closed =>
    rw [here] at comment closed
    obtain rfl := stop c _ comment closed
    exact Or.inr ⟨Or.inl ⟨c, comment, closed⟩, never (by simp)⟩
  | ignored token chosen unnamed =>
    rw [here] at token chosen
    exact Or.inr ⟨Or.inr ⟨token, _, _, chosen, unnamed⟩, never (by simp)⟩

theorem Lexes.cons {lexems : List Lexem} (call : Calls engine lexer s lexem s')
    (more : lexem.id ≠ 0) (h : Lexes engine lexer s' lexems s'') :
    Lexes engine lexer s (lexem :: lexems) s'' := by
  induction h with
  | start => exact .call .start (by simp) call
  | call _ more' call' ih =>
    refine .call ih (fun l mem => ?_) call'
    rcases List.mem_cons.mp mem with rfl | mem
    · exact more
    · exact more' l mem

theorem Lexes.of_nil {lexems : List Lexem} (h : Lexes engine lexer s lexems s')
    (none_read : lexems = []) : s' = s := by
  cases h with
  | start => rfl
  | call _ _ _ => simp at none_read

theorem Lexes.calls {lexems : List Lexem} (h : Lexes engine lexer s lexems s')
    (single : lexems = [lexem]) : Calls engine lexer s lexem s' := by
  cases h with
  | start => cases single
  | call before _ call =>
    obtain ⟨no_more, same⟩ := List.append_inj' (single.trans (List.nil_append _).symm) rfl
    obtain rfl := before.of_nil no_more
    rwa [List.singleton_inj.mp same] at call

theorem lexes_of_lexToEnd {turns fuel : Nat} {lexems : List Lexem}
    (h : lexToEnd engine lexer turns fuel s = .ok (lexems, s')) :
    Lexes engine lexer s lexems s' ∧ (∀ l ∈ lexems, l.id ≠ 0) ∧
      ∃ lexem s'', Calls engine lexer s' lexem s'' ∧ lexem.id = 0 := by
  induction fuel generalizing s lexems with
  | zero => simp [lexToEnd] at h
  | succ fuel ih =>
    unfold lexToEnd at h
    obtain ⟨⟨lexem, after⟩, returned, h⟩ := bind_eq_ok.mp h
    dsimp only at h
    split at h
    · rename_i ended
      obtain ⟨rfl, rfl⟩ := Prod.mk.inj (Except.ok.inj h)
      exact ⟨.start, by simp, lexem, after, ⟨turns, returned⟩, ended⟩
    · rename_i more
      obtain ⟨⟨tail, last⟩, rest, h⟩ := bind_eq_ok.mp h
      obtain ⟨rfl, rfl⟩ := Prod.mk.inj (Except.ok.inj h)
      obtain ⟨lexes, more', ended⟩ := ih rest
      refine ⟨lexes.cons ⟨turns, returned⟩ more, fun l mem => ?_, ended⟩
      rcases List.mem_cons.mp mem with rfl | mem
      · exact more
      · exact more' l mem

end Calls

end Mewa.Lexer
