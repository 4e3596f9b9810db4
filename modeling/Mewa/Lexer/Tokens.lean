/- Module: Mewa/Lexer/Tokens
   digest: Where a lexem begins in a source, and what the lexer returns there. -/

import Mewa.Lexer.Defined
import Mewa.Lib.Choice

set_option autoImplicit false
set_option relaxedAutoImplicit false

namespace Mewa

open Mewa.Lib

/-! The scanner moves over a text. -/

namespace Scanner

variable {s : Scanner}

theorem advance_nil (n : Nat) (empty : s.rest = []) : s.advance n = s := by
  cases n with
  | zero => rfl
  | succ n =>
    unfold advance
    rw [empty]

theorem advance_cons {ch : Char} {rest : List Char} (n : Nat) (split : s.rest = ch :: rest) :
    s.advance (n + 1) = advance n { s with
      passed := ch :: s.passed
      rest := rest
      line := if ch = '\n' then s.line + 1 else s.line } := by
  rw [advance, split]

theorem advance_rest (n : Nat) : (s.advance n).rest = s.rest.drop n := by
  induction n generalizing s with
  | zero => rfl
  | succ n ih =>
    cases split : s.rest with
    | nil => rw [advance_nil _ split, split, List.drop_nil]
    | cons ch rest => rw [advance_cons n split, ih, List.drop_succ_cons]

theorem advance_passed (n : Nat) :
    (s.advance n).passed = (s.rest.take n).reverse ++ s.passed := by
  induction n generalizing s with
  | zero => rfl
  | succ n ih =>
    cases split : s.rest with
    | nil => simp [advance_nil _ split]
    | cons ch rest => simp [advance_cons n split, ih]

theorem advance_indent (n : Nat) : (s.advance n).indentstk = s.indentstk ∧
    (s.advance n).indentConsumed = s.indentConsumed := by
  induction n generalizing s with
  | zero => exact ⟨rfl, rfl⟩
  | succ n ih =>
    cases split : s.rest with
    | nil => simp [advance_nil _ split]
    | cons ch rest => rw [advance_cons n split, ih.1, ih.2]; exact ⟨rfl, rfl⟩

theorem advance_advance (m n : Nat) : (s.advance m).advance n = s.advance (m + n) := by
  induction m generalizing s with
  | zero => rw [Nat.zero_add]; rfl
  | succ m ih =>
    cases split : s.rest with
    | nil => rw [advance_nil _ split, advance_nil _ split, advance_nil _ split]
    | cons ch rest =>
      rw [Nat.add_right_comm, advance_cons m split, advance_cons (m + n) split, ih]

theorem drop_takeWhile (text : List Char) :
    text.drop (text.takeWhile isBlank).length = text.dropWhile isBlank := by
  have whole : text.takeWhile isBlank ++ text.dropWhile isBlank = text :=
    List.takeWhile_append_dropWhile
  calc text.drop (text.takeWhile isBlank).length
      = (text.takeWhile isBlank ++ text.dropWhile isBlank).drop
          (text.takeWhile isBlank).length := by rw [whole]
    _ = text.dropWhile isBlank := List.drop_left

theorem skipBlanks_rest : s.skipBlanks.rest = s.rest.dropWhile isBlank := by
  rw [skipBlanks, advance_rest, drop_takeWhile]

theorem skipBlanks_of_head (head : ∀ ch ∈ s.rest.head?, isBlank ch = false) : s.skipBlanks = s := by
  unfold skipBlanks
  cases rest : s.rest with
  | nil => rfl
  | cons ch text =>
    have plain : isBlank ch = false := head ch (by simp [rest])
    rw [List.takeWhile_cons_of_neg (by simp [plain])]
    rfl

theorem head_dropWhile (text : List Char) :
    ∀ ch ∈ (text.dropWhile isBlank).head?, isBlank ch = false := by
  intro ch first
  have plain := List.head?_dropWhile_not isBlank text
  rwa [Option.mem_def.mp first] at plain

/-- The indentation tokens, by the indentation of the line and of the innermost block. -/
inductive Indents (s : Scanner) (count : Int) : IndentToken → Scanner → Prop
  | consumed : s.indentConsumed = true →
      Indents s count .IndentNone { s with indentConsumed := false }
  | inside : s.indentConsumed = false → count = -1 → Indents s count .IndentNone s
  | newLine : s.indentConsumed = false → s.indentstk.headD 0 = count →
      Indents s count .IndentNewLine { s with indentConsumed := true }
  | opened : s.indentConsumed = false → s.indentstk.headD 0 ≠ count →
      (∀ back ∈ s.indentstk.head?, back < count) →
      Indents s count .IndentOpen { s with indentstk := count :: s.indentstk }
  | closed {back : Int} {stk : List Int} : s.indentConsumed = false →
      s.indentstk = back :: stk → count < back →
      Indents s count .IndentClose { s with indentstk := stk }

theorem getIndentToken_spec {tabSize : Int} {token : IndentToken} {s' : Scanner}
    (h : s.getIndentToken tabSize = (token, s')) : Indents s (s.indentCount tabSize) token s' := by
  unfold getIndentToken at h
  split at h
  · rename_i consumed
    obtain ⟨rfl, rfl⟩ := Prod.mk.inj h
    exact .consumed consumed
  · rename_i fresh
    have fresh : s.indentConsumed = false := by simpa using fresh
    dsimp only at h
    split at h
    · rename_i inside
      obtain ⟨rfl, rfl⟩ := Prod.mk.inj h
      exact .inside fresh inside
    · split at h
      · rename_i empty
        split at h
        · rename_i zero
          obtain ⟨rfl, rfl⟩ := Prod.mk.inj h
          exact .newLine fresh (by rw [empty, zero]; rfl)
        · rename_i indented
          obtain ⟨rfl, rfl⟩ := Prod.mk.inj h
          have opened : Indents s (s.indentCount tabSize) _ _ := .opened fresh
            (by rw [empty]; exact Ne.symm indented) (by simp [empty])
          rwa [empty] at opened
      · rename_i back stk split
        split at h
        · rename_i deeper
          obtain ⟨rfl, rfl⟩ := Prod.mk.inj h
          have opened : Indents s (s.indentCount tabSize) _ _ := .opened fresh
            (by rw [split]; exact ne_of_lt deeper) (by simpa [split] using deeper)
          rwa [split] at opened
        · split at h
          · rename_i less
            obtain ⟨rfl, rfl⟩ := Prod.mk.inj h
            exact .closed fresh split less
          · obtain ⟨rfl, rfl⟩ := Prod.mk.inj h
            exact .newLine fresh (by rw [split]; simp only [List.headD_cons]; omega)

theorem Indents.position {count : Int} {token : IndentToken} {s' : Scanner}
    (h : Indents s count token s') : s'.rest = s.rest ∧ s'.passed = s.passed := by
  cases h <;> exact ⟨rfl, rfl⟩

theorem next_zero : s.next 0 = .ok s.skipBlanks := by
  simp [next, advance]

theorem next_of_le {n : Nat} (fits : n ≤ s.rest.length) :
    s.next n = .ok (s.advance n).skipBlanks := if_neg (by omega)

end Scanner

/-! Comments. -/

theorem strstr_eq_some {str text : List Char} {position : Nat}
    (h : strstr str text = some position) :
    str <+: text.drop position ∧ ∀ before < position, ¬ str <+: text.drop before := by
  induction text generalizing position with
  | nil =>
    simp only [strstr, Option.ite_none_right_eq_some, List.isEmpty_iff] at h
    obtain ⟨rfl, h⟩ := h
    obtain rfl := Option.some.inj h
    exact ⟨List.nil_prefix, by simp⟩
  | cons ch text ih =>
    simp only [strstr] at h
    split at h
    · rename_i here
      obtain rfl := Option.some.inj h
      exact ⟨List.isPrefixOf_iff_prefix.mp here, by simp⟩
    · rename_i absent
      obtain ⟨later, found, rfl⟩ := Option.map_eq_some_iff.mp h
      obtain ⟨stands, first⟩ := ih found
      refine ⟨stands, fun before less => ?_⟩
      cases before with
      | zero => exact fun here => absent (List.isPrefixOf_iff_prefix.mpr here)
      | succ before => exact first before (by omega)

theorem strstr_le {str text : List Char} {position : Nat} (h : strstr str text = some position) :
    position + str.length ≤ text.length := by
  obtain ⟨stands, first⟩ := strstr_eq_some h
  have fits := stands.length_le
  rw [List.length_drop] at fits
  cases str with
  | nil =>
    have here : position = 0 := by
      by_contra later
      exact first 0 (by omega) List.nil_prefix
    simp [here]
  | cons ch str =>
    rw [List.length_cons] at fits ⊢
    omega

/-- A comment of one of the two kinds. -/
inductive Comment
  | eoln (comment : EolnCommentDef)
  | bracket (comment : BracketCommentDef)

namespace Comment

def opening : Comment → List Char
  | eoln comment => cstr comment.opening.toList
  | bracket comment => cstr comment.opening.toList

def closing : Comment → List Char
  | eoln _ => ['\n']
  | bracket comment => cstr comment.closing.toList

/-- The length of a comment up to the first end of it, if there is one. -/
def length (c : Comment) (text : List Char) : Option Nat :=
  (strstr c.closing (cstr (text.drop c.opening.length))).map fun position =>
    c.opening.length + (position + c.closing.length)

def unclosed (lexer : Lexer) (line : Int) : Comment → Lexem
  | eoln _ => Lexem.atEnd line
  | bracket comment => ⟨lexer.errorLexem.value, -1, comment.opening, line⟩

end Comment

theorem cstr_length_le (text : List Char) : (cstr text).length ≤ text.length :=
  (List.takeWhile_prefix _).length_le

theorem Comment.length_le {c : Comment} {text : List Char} {length : Nat}
    (opened : c.opening.length ≤ text.length) (h : c.length text = some length) :
    length ≤ text.length := by
  obtain ⟨position, found, rfl⟩ := Option.map_eq_some_iff.mp h
  have fits := strstr_le found
  have bound := cstr_length_le (text.drop c.opening.length)
  rw [List.length_drop] at bound
  omega

namespace Lexer

variable (engine : PatternSearch) (lexer : Lexer)

/-- The comment that begins here and that a number of a kind of comments leads to. -/
def commentOf (text : List Char) (idx : Int) : Option Comment :=
  if idx = MATCH_EOLN_COMMENT then
    (lexer.eolnComments.find? fun c => (cstr c.opening.toList).isPrefixOf (cstr text)).map .eoln
  else if idx = MATCH_BRACKET_COMMENT then
    (lexer.bracketComments.find? fun c =>
      (cstr c.opening.toList).isPrefixOf (cstr text)).map .bracket
  else none

def atEnd (text : List Char) : Bool := text.headD '\x00' = '\x00'

/-- The comment that begins here. -/
def commentAt (text : List Char) : Option Comment :=
  if atEnd text then none
  else (lexer.equalRange (text.headD '\x00').toNat).findSome? (lexer.commentOf text)

/-- The definitions that are tried here. -/
def triedAt (text : List Char) : List LexemDef :=
  lexer.defar.filter fun d => d.tries (text.headD '\x00').toNat

def matchLength (text : List Char) (d : LexemDef) : Nat := (d.matchAt engine text).2

variable {engine lexer} {s : Scanner}

theorem commentAt_opening {text : List Char} {c : Comment} (h : lexer.commentAt text = some c) :
    c.opening <+: cstr text := by
  unfold commentAt at h
  split at h
  · simp at h
  · obtain ⟨idx, -, found⟩ := List.exists_of_findSome?_eq_some h
    unfold commentOf at found
    split at found
    · obtain ⟨d, here, rfl⟩ := Option.map_eq_some_iff.mp found
      have stands := List.find?_some here
      exact List.isPrefixOf_iff_prefix.mp stands
    · split at found
      · obtain ⟨d, here, rfl⟩ := Option.map_eq_some_iff.mp found
        have stands := List.find?_some here
        exact List.isPrefixOf_iff_prefix.mp stands
      · simp at found

theorem commentAt_length_le {text : List Char} {c : Comment} {length : Nat}
    (here : lexer.commentAt text = some c) (closed : c.length text = some length) :
    length ≤ text.length :=
  Comment.length_le ((commentAt_opening here).length_le.trans (cstr_length_le text)) closed

theorem findSome?_if {α β : Type} (p : α → Bool) (f : α → β) (l : List α) :
    l.findSome? (fun a => if p a then some (f a) else none) = (l.find? p).map f := by
  induction l with
  | nil => rfl
  | cons a l ih =>
    cases here : p a with
    | true => simp [here]
    | false => simpa [List.findSome?_cons, here] using ih

theorem matchEolnComment_eq : lexer.matchEolnComment s =
    (lexer.commentOf s.rest MATCH_EOLN_COMMENT).map fun c => s.advance c.opening.length := by
  unfold matchEolnComment Scanner.matchText commentOf
  rw [findSome?_if (fun c : EolnCommentDef => (cstr c.opening.toList).isPrefixOf (cstr s.rest))
    fun c => s.advance (cstr c.opening.toList).length]
  simp [Function.comp_def, Comment.opening]

theorem matchBracketCommentStart_eq : lexer.matchBracketCommentStart s =
    (lexer.bracketComments.find? fun c =>
      (cstr c.opening.toList).isPrefixOf (cstr s.rest)).map fun c =>
        (c, s.advance (cstr c.opening.toList).length) := by
  unfold matchBracketCommentStart Scanner.matchText
  rw [← findSome?_if]
  congr 1
  funext c
  split <;> rfl

def commentTurn (lexer : Lexer) (s : Scanner) (c : Comment) : Turn :=
  match c.length s.rest with
  | some length => .again (s.advance length).skipBlanks
  | none =>
    .returned (c.unclosed lexer (s.advance c.opening.length).line) (s.advance c.opening.length)

theorem scan_comment (c : Comment) (str : List Char) (closing : cstr str = c.closing) :
    (s.advance c.opening.length).scan str =
      .ok ((c.length s.rest).map fun length => (s.advance length).skipBlanks) := by
  unfold Scanner.scan Comment.length
  rw [closing, Scanner.advance_rest]
  cases found : strstr c.closing (cstr (s.rest.drop c.opening.length)) with
  | none => rfl
  | some position =>
    have fits := strstr_le found
    have bound := cstr_length_le (s.rest.drop c.opening.length)
    have inside : position + c.closing.length ≤ (s.advance c.opening.length).rest.length := by
      rw [Scanner.advance_rest]
      omega
    simp only [Option.map_some]
    rw [Scanner.next_of_le inside, Scanner.advance_advance]
    rfl

theorem tryCandidates_eq {range : List Int} {best : BestMatch}
    (known : ∀ idx ∈ range, idx = MATCH_EOLN_COMMENT ∨ idx = MATCH_BRACKET_COMMENT ∨
      (lexer.definitionAt idx).isSome) :
    tryCandidates engine lexer s range best =
      match range.findSome? (lexer.commentOf s.rest) with
      | some c => .ok (.inr (commentTurn lexer s c))
      | none =>
        .ok (.inl ((range.filterMap lexer.definitionAt).foldl (better engine s.rest) best)) := by
  induction range generalizing best with
  | nil => rfl
  | cons idx range ih =>
    have rest := fun idx' mem => known idx' (List.mem_cons_of_mem idx mem)
    unfold tryCandidates
    rw [List.findSome?_cons]
    by_cases eoln : idx = MATCH_EOLN_COMMENT
    · subst eoln
      rw [if_pos rfl, matchEolnComment_eq]
      cases found : lexer.commentOf s.rest MATCH_EOLN_COMMENT with
      | none =>
        simp only [Option.map_none]
        rw [ih rest, List.filterMap_cons, definitionAt_comment (Or.inl rfl)]
      | some c =>
        have closing : cstr ['\n'] = c.closing := by
          simp only [commentOf, if_true, Option.map_eq_some_iff] at found
          obtain ⟨d, -, rfl⟩ := found
          rfl
        have unclosed : ∀ line, c.unclosed lexer line = Lexem.atEnd line := by
          simp only [commentOf, if_true, Option.map_eq_some_iff] at found
          obtain ⟨d, -, rfl⟩ := found
          exact fun _ => rfl
        simp only [Option.map_some, scan_comment c _ closing, ok_bind, commentTurn, unclosed]
        cases length : c.length s.rest <;> simp
    · by_cases bracket : idx = MATCH_BRACKET_COMMENT
      · subst bracket
        have head : lexer.commentOf s.rest MATCH_BRACKET_COMMENT =
            (lexer.bracketComments.find? fun c =>
              (cstr c.opening.toList).isPrefixOf (cstr s.rest)).map .bracket := by
          rw [commentOf, if_neg eoln, if_pos rfl]
        rw [if_neg eoln, if_pos rfl, matchBracketCommentStart_eq, head]
        cases found : lexer.bracketComments.find? fun c =>
            (cstr c.opening.toList).isPrefixOf (cstr s.rest) with
        | none =>
          simp only [Option.map_none]
          rw [ih rest, List.filterMap_cons, definitionAt_comment (Or.inr rfl)]
        | some d =>
          have scanned := scan_comment (s := s) (.bracket d) d.closing.toList rfl
          simp only [Option.map_some]
          simp only [Comment.opening] at scanned
          rw [scanned]
          simp only [ok_bind, commentTurn]
          cases length : Comment.length (.bracket d) s.rest <;> simp [Comment.unclosed, Comment.opening]
      · have none_here : lexer.commentOf s.rest idx = none := by
          simp [commentOf, eoln, bracket]
        obtain ⟨d, found⟩ := Option.isSome_iff_exists.mp
          (((known idx List.mem_cons_self).resolve_left eoln).resolve_left bracket)
        rw [if_neg eoln, if_neg bracket, found, none_here]
        simp only
        rw [ih rest, List.filterMap_cons, found]
        rfl

end Lexer

/-! What a turn does. -/

namespace Lexer

variable {engine : PatternSearch} {lexer : Lexer} {s : Scanner} {text : List Char}

/-- The state of the search for the longest match, with the value of the match. -/
def bestOf (engine : PatternSearch) (text : List Char) (best : Nat × Option LexemDef) :
    BestMatch :=
  ⟨best.1, best.2.map fun d => (d, (d.matchAt engine text).1)⟩

theorem better_bestOf (best : Nat × Option LexemDef) (d : LexemDef) :
    better engine text (bestOf engine text best) d =
      bestOf engine text (choose (matchLength engine text) LexemDef.keyword best d) := by
  have lift : ∀ (p : Prop) [Decidable p] (b b' : Nat × Option LexemDef),
      (if p then bestOf engine text b else bestOf engine text b') =
        bestOf engine text (if p then b else b') := by
    intro p _ b b'
    split <;> rfl
  exact lift _ (matchLength engine text d, some d) best

theorem foldl_better (l : List LexemDef) (best : Nat × Option LexemDef) :
    l.foldl (better engine text) (bestOf engine text best) =
      bestOf engine text (l.foldl (choose (matchLength engine text) LexemDef.keyword) best) := by
  induction l generalizing best with
  | nil => rfl
  | cons d l ih => rw [List.foldl_cons, better_bestOf, ih, List.foldl_cons]

/-- The definition chosen here, with the length of its match. -/
def ChosenAt (engine : PatternSearch) (lexer : Lexer) (text : List Char) :
    Nat × Option LexemDef → Prop :=
  Chosen (matchLength engine text) LexemDef.keyword (lexer.triedAt text)

/-- Here is a character that begins no comment. -/
structure AtToken (lexer : Lexer) (text : List Char) : Prop where
  some_char : atEnd text = false
  no_comment : lexer.commentAt text = none

theorem tryCandidates_fold (engine : PatternSearch) (indexed : Indexed lexer)
    (some_char : atEnd s.rest = false) :
    tryCandidates engine lexer s (lexer.equalRange (s.rest.headD '\x00').toNat) {} =
      match lexer.commentAt s.rest with
      | some c => .ok (.inr (commentTurn lexer s c))
      | none => .ok (.inl (bestOf engine s.rest
          ((lexer.triedAt s.rest).foldl (choose (matchLength engine s.rest) LexemDef.keyword)
            (0, none)))) := by
  rw [tryCandidates_eq fun idx mem => indexed.known _ (mem_equalRange.mp mem), indexed.tried,
    commentAt, some_char]
  have start : ({} : BestMatch) = bestOf engine s.rest (0, none) := rfl
  rw [start, foldl_better]
  rfl

theorem tryCandidates_start (engine : PatternSearch) (indexed : Indexed lexer)
    (some_char : atEnd s.rest = false) :
    ∃ best, ChosenAt engine lexer s.rest best ∧
      tryCandidates engine lexer s (lexer.equalRange (s.rest.headD '\x00').toNat) {} =
        match lexer.commentAt s.rest with
        | some c => .ok (.inr (commentTurn lexer s c))
        | none => .ok (.inl (bestOf engine s.rest best)) :=
  ⟨_, chosen_of_foldl _ _ _, tryCandidates_fold engine indexed some_char⟩

def indentId (lexer : Lexer) : IndentToken → Nat
  | .IndentNone => 0
  | .IndentNewLine => lexer.indentLexems.newLine
  | .IndentOpen => lexer.indentLexems.opening
  | .IndentClose => lexer.indentLexems.closing

theorem indentLexem_eq (named : Named lexer) (defined : lexer.indentLexems.defined = true)
    (token : IndentToken) (some_token : token ≠ .IndentNone) (line : Int) :
    ∃ name, lexer.indentLexem (lexer.indentId token) line =
      .ok ⟨name, lexer.indentId token, "", line⟩ := by
  have opened : lexer.indentLexems.opening ≠ 0 := by simpa [IndentLexems.defined] using defined
  obtain ⟨closing, newLine, bound⟩ := named.indent opened
  have inside : lexer.indentId token - 1 < lexer.namelist.length := by
    cases token with
    | IndentNone => exact absurd rfl some_token
    | IndentNewLine | IndentOpen | IndentClose =>
      simp only [indentId]
      omega
  refine ⟨lexer.namelist[lexer.indentId token - 1], ?_⟩
  unfold indentLexem
  rw [List.getElem?_eq_getElem inside]

/-- The indentation token here, if indentation is defined. -/
def indentAt (lexer : Lexer) (s : Scanner) : IndentToken × Scanner :=
  if lexer.indentLexems.defined then s.getIndentToken lexer.indentLexems.tabSize
  else (.IndentNone, s)

/-- The lexem returned where no blank is, and the scanner after it. -/
inductive Reads (engine : PatternSearch) (lexer : Lexer) (s : Scanner) : Lexem → Scanner → Prop
  | ended : atEnd s.rest = true → (lexer.indentLexems.defined = true → s.indentstk = []) →
      Reads engine lexer s (Lexem.atEnd s.line) s
  | unindented {back : Int} {stk : List Int} (name : String) : atEnd s.rest = true →
      lexer.indentLexems.defined = true → s.indentstk = back :: stk →
      Reads engine lexer s ⟨name, lexer.indentLexems.closing, "", s.line⟩
        { s with indentstk := stk }
  | unclosed (c : Comment) : lexer.commentAt s.rest = some c → c.length s.rest = none →
      Reads engine lexer s (c.unclosed lexer (s.advance c.opening.length).line)
        (s.advance c.opening.length)
  | bad : AtToken lexer s.rest → ChosenAt engine lexer s.rest (0, none) →
      Reads engine lexer s
        ⟨lexer.errorLexem.value, -1, String.ofList (parseChar s.rest), s.line⟩
        (s.advance (parseChar s.rest).length).skipBlanks
  | indented {length : Nat} {d : LexemDef} {token : IndentToken} {s' : Scanner} (name : String) :
      AtToken lexer s.rest → ChosenAt engine lexer s.rest (length, some d) → d.id ≠ 0 →
      lexer.indentLexems.defined = true → lexer.indentAt s = (token, s') →
      token ≠ .IndentNone →
      Reads engine lexer s ⟨name, lexer.indentId token, "", s.line⟩ s'
  | token {length : Nat} {d : LexemDef} {s' : Scanner} : AtToken lexer s.rest →
      ChosenAt engine lexer s.rest (length, some d) → d.id ≠ 0 →
      lexer.indentAt s = (.IndentNone, s') →
      Reads engine lexer s
        ⟨d.name, d.id, String.ofList (d.matchAt engine s.rest).1, s.line⟩
        (s'.advance length).skipBlanks

inductive TurnAt (engine : PatternSearch) (lexer : Lexer) (s : Scanner) : Turn → Prop
  | returned {lexem : Lexem} {s' : Scanner} : Reads engine lexer s lexem s' →
      TurnAt engine lexer s (.returned lexem s')
  | skipped (c : Comment) {length : Nat} : lexer.commentAt s.rest = some c →
      c.length s.rest = some length → TurnAt engine lexer s (.again (s.advance length).skipBlanks)
  | ignored {length : Nat} {d : LexemDef} : AtToken lexer s.rest →
      ChosenAt engine lexer s.rest (length, some d) → d.id = 0 →
      TurnAt engine lexer s (.again s)

theorem parseChar_length (text : List Char) : (parseChar text).length ≤ text.length := by
  cases text with
  | nil => simp [parseChar]
  | cons ch text =>
    simp only [parseChar]
    split
    · exact Nat.succ_le_succ (List.takeWhile_prefix _).length_le
    · simp

theorem matchLength_le (d : LexemDef) : matchLength engine text d ≤ text.length := by
  unfold matchLength LexemDef.matchAt
  split
  · simp
  · rename_i found search
    split
    · simp
    · exact engine.continuous search

theorem ChosenAt.length_le {length : Nat} {found : Option LexemDef}
    (h : ChosenAt engine lexer text (length, found)) : length ≤ text.length := by
  cases h with
  | nothing _ => omega
  | empty d _ _ _ => omega
  | best d _ => exact matchLength_le d

theorem indentAt_rest (lexer : Lexer) (s : Scanner) : (lexer.indentAt s).2.rest = s.rest ∧
    (lexer.indentAt s).2.passed = s.passed := by
  unfold indentAt
  split
  · cases read : s.getIndentToken lexer.indentLexems.tabSize with
    | mk token s' => exact (Scanner.getIndentToken_spec read).position
  · exact ⟨rfl, rfl⟩

theorem turnAt_spec (engine : PatternSearch) (s : Scanner) (named : Named lexer) (indexed : Indexed lexer) :
    ∃ turn, turnAt engine lexer s = .ok turn ∧ TurnAt engine lexer s turn := by
  unfold turnAt
  by_cases ended : s.rest.headD '\x00' = '\x00'
  · have at_end : atEnd s.rest = true := decide_eq_true ended
    rw [if_pos ended]
    cases defined : lexer.indentLexems.defined with
    | false => exact ⟨_, rfl, .returned (.ended at_end (by simp [defined]))⟩
    | true =>
      cases stk : s.indentstk with
      | nil =>
        simp only [Scanner.getEofIndentToken, stk]
        exact ⟨_, rfl, .returned (.ended at_end fun _ => stk)⟩
      | cons back stk' =>
        simp only [Scanner.getEofIndentToken, stk]
        obtain ⟨name, lexem⟩ := indentLexem_eq named defined .IndentClose (by simp) s.line
        simp only [indentId] at lexem
        simp only [lexem, ok_bind]
        exact ⟨_, rfl, .returned (.unindented name at_end defined stk)⟩
  · have some_char : atEnd s.rest = false := decide_eq_false ended
    rw [if_neg ended]
    obtain ⟨⟨length, found⟩, chosen, tried⟩ := tryCandidates_start engine indexed some_char
    simp only [tried]
    cases comment : lexer.commentAt s.rest with
    | some c =>
      simp only [ok_bind, commentTurn]
      cases closed : c.length s.rest with
      | some length => exact ⟨_, rfl, .skipped c comment closed⟩
      | none => exact ⟨_, rfl, .returned (.unclosed c comment closed)⟩
    | none =>
      have at_token : AtToken lexer s.rest := ⟨some_char, comment⟩
      cases found with
      | none =>
        obtain rfl : length = 0 := by cases chosen; rfl
        simp only [ok_bind, bestOf, Option.map_none]
        rw [Scanner.next_of_le (parseChar_length _), ok_bind]
        exact ⟨_, rfl, .returned (.bad at_token chosen)⟩
      | some d =>
        simp only [ok_bind, bestOf, Option.map_some]
        by_cases unnamed : d.id = 0
        · rw [if_pos unnamed]
          exact ⟨_, rfl, .ignored at_token chosen unnamed⟩
        · rw [if_neg unnamed]
          have indent : (if lexer.indentLexems.defined then
              s.getIndentToken lexer.indentLexems.tabSize else (.IndentNone, s)) =
              lexer.indentAt s := rfl
          obtain ⟨rest_eq, -⟩ := indentAt_rest lexer s
          rw [indent]
          cases read : lexer.indentAt s with
          | mk token s' =>
            rw [read] at rest_eq
            have indented : token ≠ .IndentNone → ∃ name,
                lexer.indentLexem (lexer.indentId token) s.line =
                  .ok ⟨name, lexer.indentId token, "", s.line⟩ ∧
                TurnAt engine lexer s (.returned ⟨name, lexer.indentId token, "", s.line⟩ s') := by
              intro some_token
              have defined : lexer.indentLexems.defined = true := by
                by_contra not_defined
                rw [indentAt, if_neg not_defined] at read
                exact some_token (Prod.mk.inj read).1.symm
              obtain ⟨name, lexem⟩ := indentLexem_eq named defined token some_token s.line
              exact ⟨name, lexem,
                .returned (.indented name at_token chosen unnamed defined read some_token)⟩
            cases token with
            | IndentNone =>
              simp only
              rw [Scanner.next_of_le (by rw [rest_eq]; exact chosen.length_le), ok_bind]
              exact ⟨_, rfl, .returned (.token at_token chosen unnamed read)⟩
            | IndentNewLine | IndentOpen | IndentClose =>
              obtain ⟨name, lexem, turn⟩ := indented (by simp)
              simp only [indentId] at lexem turn
              simp only [lexem, ok_bind]
              exact ⟨_, rfl, turn⟩

end Lexer

end Mewa
