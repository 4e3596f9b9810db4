/- Module: Mewa/Grammar/Scan
   digest: What the scan for decorators does with the comments and the tokens of a grammar. -/

import Mewa.Grammar.Written
import Mewa.Lexer.Lines

set_option autoImplicit false
set_option relaxedAutoImplicit false

namespace Mewa

open Mewa.Lib

namespace LanguageDecoratorMap

def ofList (l : List (Int × LanguageDecorator)) : LanguageDecoratorMap :=
  l.foldl (fun map e => map.addDecorator e.1 e.2) {}

theorem ofList_snoc (l : List (Int × LanguageDecorator)) (line : Int) (dc : LanguageDecorator) :
    ofList (l ++ [(line, dc)]) = (ofList l).addDecorator line dc := by
  rw [ofList, List.foldl_append]
  rfl

theorem ofList_eq (l : List (Int × LanguageDecorator)) :
    ofList l = ⟨l.map Prod.snd, l.zipIdx.map fun e => (e.1.1, e.2)⟩ := by
  induction l using List.reverseRecOn with
  | nil => rfl
  | append_singleton l e ih =>
    rw [ofList_snoc, ih]
    simp [addDecorator, List.zipIdx_append]

theorem get_ofList (l : List (Int × LanguageDecorator)) (line : Int) :
    (ofList l).get line = .ok ((l.filter fun e => e.1 = line).map Prod.snd) := by
  have whole : (l.filter fun e => e.1 = line) =
      (l.zipIdx.filter fun e => e.1.1 = line).map Prod.fst := by
    conv_lhs => rw [← List.zipIdx_map_fst 0 l]
    rw [List.filter_map]
    rfl
  rw [ofList_eq, get, List.filter_map, whole, List.map_map, List.mapM_map]
  refine mapM_of_ok fun e mem => ?_
  have node := List.mem_zipIdx_iff_getElem?.mp (List.mem_of_mem_filter mem)
  simp only [Function.comp_apply, List.getElem?_map, node]
  rfl

end LanguageDecoratorMap

namespace Grammar

/-! What the loop does with a token. -/

theorem addDecorators_ok (line : Int) {decorators : List LanguageDecorator}
    {attached : List (Int × LanguageDecorator)}
    (plain : ∀ dc ∈ decorators, LanguageDecorator.isReservedAttribute dc.name = false) :
    addDecorators line decorators (.ofList attached) =
      .ok (.ofList (attached ++ decorators.map fun dc => (line, dc))) := by
  induction decorators generalizing attached with
  | nil => simp [addDecorators, pure, Except.pure]
  | cons dc decorators ih =>
    obtain ⟨head, tail⟩ := List.forall_mem_cons.mp plain
    have step := @ih (attached ++ [(line, dc)]) tail
    rw [addDecorators] at step ⊢
    rw [List.foldlM_cons, if_neg (by simp [head]), ok_bind, ← LanguageDecoratorMap.ofList_snoc, step]
    simp

theorem addDecorators_reserved (line : Int) {decorators : List LanguageDecorator}
    {rt : LanguageDecoratorMap} {dc : LanguageDecorator} (mem : dc ∈ decorators)
    (reserved : LanguageDecorator.isReservedAttribute dc.name = true) :
    addDecorators line decorators rt =
      throw .UsingReservedAttributeNameInGrammarDef := by
  induction decorators generalizing rt with
  | nil => simp at mem
  | cons dc' decorators ih =>
    rw [addDecorators, List.foldlM_cons]
    by_cases here : LanguageDecorator.isReservedAttribute dc'.name = true
    · rw [if_pos here]
      rfl
    · rw [if_neg here, ok_bind]
      rcases List.mem_cons.mp mem with rfl | later
      · exact absurd reserved here
      · exact ih later

def attached (items : List Item) : List (Int × LanguageDecorator) :=
  items.flatMap fun it => (takenDecorators it.comments).map fun dc => (it.lexem.line, dc)

/-- What the loop adds for tokens, one after the other. -/
def addItems (items : List Item) (rt : LanguageDecoratorMap) :
    Except Failure LanguageDecoratorMap :=
  items.foldlM (fun rt it => addDecorators it.lexem.line (takenDecorators it.comments) rt) rt

def ReservedTaken (items : List Item) : Prop :=
  ∃ it ∈ items, ∃ dc ∈ takenDecorators it.comments,
    LanguageDecorator.isReservedAttribute dc.name = true

theorem addItems_cases (items : List Item) (before : List (Int × LanguageDecorator)) :
    ReservedTaken items ∧
        addItems items (.ofList before) = throw .UsingReservedAttributeNameInGrammarDef ∨
      ¬ ReservedTaken items ∧
        addItems items (.ofList before) = .ok (.ofList (before ++ attached items)) := by
  induction items generalizing before with
  | nil =>
    refine Or.inr ⟨?_, by simp [addItems, attached, pure, Except.pure]⟩
    rintro ⟨it, mem, -⟩
    simp at mem
  | cons it items ih =>
    rw [addItems, List.foldlM_cons]
    by_cases here : ∃ dc ∈ takenDecorators it.comments,
        LanguageDecorator.isReservedAttribute dc.name = true
    · obtain ⟨dc, mem, reserved⟩ := here
      refine Or.inl ⟨⟨it, by simp, dc, mem, reserved⟩, ?_⟩
      rw [addDecorators_reserved _ mem reserved]
      rfl
    · have plain : ∀ dc ∈ takenDecorators it.comments,
          LanguageDecorator.isReservedAttribute dc.name = false := fun dc mem =>
        Bool.eq_false_iff.mpr fun reserved => here ⟨dc, mem, reserved⟩
      rw [addDecorators_ok _ plain, ok_bind]
      have tail : ReservedTaken (it :: items) ↔ ReservedTaken items := by
        simp only [ReservedTaken, List.mem_cons, exists_eq_or_imp]
        exact or_iff_right here
      rw [tail]
      refine (ih _).imp_right fun ⟨plain, added⟩ => ⟨plain, ?_⟩
      rw [addItems] at added
      rw [added, attached, attached, List.flatMap_cons, List.append_assoc]

/-! The loop steps over comments and tokens. -/

section Loop

variable {engine : PatternSearch} {lexer : Lexer} {s : Scanner}
  {pending : List LanguageDecorator} {rt : LanguageDecoratorMap} {fuel : Nat}

theorem decoratorLoop_succ : decoratorLoop engine lexer (fuel + 1) ⟨s, 0, pending, rt⟩ =
    if s.skipBlanks.rest.headD '\x00' = '\x00' then .ok rt
    else
      match lineOpening s.skipBlanks.rest with
      | some opening => scanLine ⟨s, 0, pending, rt⟩ s.skipBlanks opening >>=
          decoratorLoop engine lexer fuel
      | none =>
        if opensBlock s.skipBlanks.rest then
          scanBlock fuel ⟨s, 0, pending, rt⟩ s.skipBlanks >>= decoratorLoop engine lexer fuel
        else
          scanToken engine lexer fuel ⟨s, 0, pending, rt⟩ s.skipBlanks >>=
            decoratorLoop engine lexer fuel := by
  rw [decoratorLoop, Scanner.next_zero, ok_bind]
  rfl

theorem decoratorLoop_skipBlanks :
    decoratorLoop engine lexer fuel ⟨s.skipBlanks, 0, pending, rt⟩ =
      decoratorLoop engine lexer fuel ⟨s, 0, pending, rt⟩ := by
  cases fuel with
  | zero => rfl
  | succ fuel =>
    rw [decoratorLoop_succ, decoratorLoop_succ, Lexer.skipBlanks_skipBlanks]
    rfl

end Loop

structure GrammarComments (patterns : PatternEngine) (lexer : Lexer) : Prop where
  defined : Lexer.Defined patterns lexer
  eoln : lexer.eolnComments = [⟨0, "//"⟩, ⟨0, "#"⟩]
  bracket : lexer.bracketComments = [⟨0, "/*", "*/"⟩]

namespace GrammarComments

variable {patterns : PatternEngine} {lexer lexer' : Lexer} {text : List Char}

theorem lexem {line : Int} {name pattern : String} {select : Nat}
    (comments : GrammarComments patterns lexer)
    (h : lexer.defineLexem patterns line name pattern select = .ok lexer') :
    GrammarComments patterns lexer' := by
  have defined := Lexer.Defined.lexem comments.defined h
  obtain ⟨⟨after, id⟩, call, same⟩ := bind_eq_ok.mp h
  obtain rfl := Except.ok.inj same
  obtain ⟨d, push, -⟩ := Lexer.defineLexemWith_spec call
  exact ⟨defined, push.eolnComments.trans comments.eoln, push.bracketComments.trans comments.bracket⟩

theorem keyword {opr tail : String} (comments : GrammarComments patterns lexer)
    (h : lexer.defineKeyword patterns opr tail = .ok lexer') :
    GrammarComments patterns lexer' := by
  have defined := Lexer.Defined.keyword comments.defined h
  obtain ⟨⟨after, id⟩, call, same⟩ := bind_eq_ok.mp h
  obtain rfl := Except.ok.inj same
  obtain ⟨d, push, -⟩ := Lexer.defineLexemWith_spec call
  exact ⟨defined, push.eolnComments.trans comments.eoln, push.bracketComments.trans comments.bracket⟩

theorem of_grammarLexer (built : grammarLexer patterns = .ok lexer) :
    GrammarComments patterns lexer := by
  obtain ⟨first, eoln, built⟩ := bind_eq_ok.mp built
  obtain ⟨second, eoln', built⟩ := bind_eq_ok.mp built
  obtain ⟨third, bracket, built⟩ := bind_eq_ok.mp built
  have comments : GrammarComments patterns third := by
    refine ⟨.bracketComment (.eolnComment (.eolnComment .empty eoln) eoln') bracket, ?_, ?_⟩
    all_goals
      obtain rfl := Except.ok.inj eoln
      obtain rfl := Except.ok.inj eoln'
      obtain rfl := Except.ok.inj bracket
      rfl
  clear eoln eoln' bracket
  iterate 20
    obtain ⟨next, step, built⟩ := bind_eq_ok.mp built
    have comments := by first | exact comments.lexem step | exact comments.keyword step
    clear step
  exact comments.keyword built

theorem openings : cstr "//".toList = ['/', '/'] ∧ cstr "#".toList = ['#'] ∧
    cstr "/*".toList = ['/', '*'] := by decide

theorem findSome?_of_unique {α β : Type} {f : α → Option β} {l : List α} {x : α} {b : β}
    (mem : x ∈ l) (found : f x = some b) (unique : ∀ y ∈ l, ∀ b', f y = some b' → b' = b) :
    l.findSome? f = some b := by
  cases result : l.findSome? f with
  | none =>
    have := List.findSome?_eq_none_iff.mp result x mem
    simp [found] at this
  | some b' =>
    obtain ⟨y, mem', found'⟩ := List.exists_of_findSome?_eq_some result
    rw [unique y mem' b' found']

theorem commentOf_eq (comments : GrammarComments patterns lexer) (idx : Int) :
    lexer.commentOf text idx =
      if idx = Lexer.MATCH_EOLN_COMMENT then
        if ['/', '/'].isPrefixOf (cstr text) then some (.eoln ⟨0, "//"⟩)
        else if ['#'].isPrefixOf (cstr text) then some (.eoln ⟨0, "#"⟩) else none
      else if idx = Lexer.MATCH_BRACKET_COMMENT then
        if ['/', '*'].isPrefixOf (cstr text) then some (.bracket ⟨0, "/*", "*/"⟩) else none
      else none := by
  obtain ⟨slashes, hash, block⟩ := openings
  simp only [Lexer.commentOf, comments.eoln, comments.bracket, List.find?_cons, slashes, hash,
    block, List.find?_nil]
  split
  · cases ['/', '/'].isPrefixOf (cstr text) with
    | true => rfl
    | false => cases ['#'].isPrefixOf (cstr text) <;> rfl
  · cases ['/', '*'].isPrefixOf (cstr text) <;> rfl

theorem commentAt_line {opening : Nat} (comments : GrammarComments patterns lexer)
    (line : lineOpening text = some opening) :
    ∃ d, lexer.commentAt text = some (.eoln d) ∧ (Comment.eoln d).opening.length = opening := by
  obtain ⟨-, indexed⟩ := comments.defined.invariants
  obtain ⟨slashes, hash, -⟩ := openings
  unfold lineOpening at line
  split at line
  · obtain rfl := Option.some.inj line
    refine ⟨⟨0, "#"⟩, ?_, by rw [Comment.opening, hash]; rfl⟩
    rw [Lexer.commentAt, if_neg (by simp [Lexer.atEnd])]
    refine findSome?_of_unique (indexed.eoln ⟨0, "#"⟩ (by simp [comments.eoln])) ?_ ?_
    · rw [comments.commentOf_eq, if_pos rfl]
      simp [cstr]
    · intro idx _ c found
      rw [comments.commentOf_eq] at found
      simp [cstr] at found
      exact found.2.symm
  · obtain rfl := Option.some.inj line
    refine ⟨⟨0, "//"⟩, ?_, by rw [Comment.opening, slashes]; rfl⟩
    rw [Lexer.commentAt, if_neg (by simp [Lexer.atEnd])]
    refine findSome?_of_unique (indexed.eoln ⟨0, "//"⟩ (by simp [comments.eoln])) ?_ ?_
    · rw [comments.commentOf_eq, if_pos rfl]
      simp [cstr]
    · intro idx _ c found
      rw [comments.commentOf_eq] at found
      simp [cstr] at found
      exact found.2.symm
  · simp at line

theorem commentAt_block (comments : GrammarComments patterns lexer)
    (block : opensBlock text = true) : ∃ d, lexer.commentAt text = some (.bracket d) := by
  obtain ⟨-, indexed⟩ := comments.defined.invariants
  unfold opensBlock at block
  split at block
  · refine ⟨⟨0, "/*", "*/"⟩, ?_⟩
    rw [Lexer.commentAt, if_neg (by simp [Lexer.atEnd])]
    refine findSome?_of_unique (indexed.bracket ⟨0, "/*", "*/"⟩ (by simp [comments.bracket])) ?_ ?_
    · rw [comments.commentOf_eq, if_neg (by decide), if_pos rfl]
      simp [cstr]
    · intro idx _ c found
      rw [comments.commentOf_eq] at found
      simp [cstr] at found
      exact found.2.2.symm
  · simp at block

theorem commentAt_none (comments : GrammarComments patterns lexer)
    (line : lineOpening text = none) (block : opensBlock text = false) :
    lexer.commentAt text = none := by
  cases found : lexer.commentAt text with
  | none => rfl
  | some c =>
    have stands : ∀ {l : List Char}, l.isPrefixOf (cstr text) = true → ∃ rest, text = l ++ rest := by
      intro l here
      obtain ⟨rest, split⟩ := (List.isPrefixOf_iff_prefix.mp here).trans (List.takeWhile_prefix _)
      exact ⟨rest, split.symm⟩
    unfold Lexer.commentAt at found
    split at found
    · simp at found
    · obtain ⟨idx, -, here⟩ := List.exists_of_findSome?_eq_some found
      rw [comments.commentOf_eq] at here
      split at here
      · split at here
        · rename_i slashes
          obtain ⟨rest, rfl⟩ := stands slashes
          simp [lineOpening] at line
        · split at here
          · rename_i hash
            obtain ⟨rest, rfl⟩ := stands hash
            simp [lineOpening] at line
          · simp at here
      · split at here
        · split at here
          · rename_i opened
            obtain ⟨rest, rfl⟩ := stands opened
            simp [opensBlock] at block
          · simp at here
        · simp at here

theorem lineOpening_of_eoln {d : EolnCommentDef} (comments : GrammarComments patterns lexer)
    (here : lexer.commentAt text = some (.eoln d)) :
    lineOpening text = some (Comment.eoln d).opening.length := by
  cases line : lineOpening text with
  | some opening =>
    obtain ⟨d', here', length⟩ := comments.commentAt_line line
    rw [here] at here'
    obtain rfl := Comment.eoln.inj (Option.some.inj here')
    rw [length]
  | none =>
    cases block : opensBlock text with
    | true =>
      obtain ⟨d', here'⟩ := comments.commentAt_block block
      simp [here] at here'
    | false => simp [comments.commentAt_none line block] at here

theorem no_opening (comments : GrammarComments patterns lexer)
    (no_comment : lexer.commentAt text = none) :
    lineOpening text = none ∧ opensBlock text = false := by
  constructor
  · cases line : lineOpening text with
    | none => rfl
    | some opening =>
      obtain ⟨d, here, -⟩ := comments.commentAt_line line
      simp [no_comment] at here
  · refine Bool.eq_false_iff.mpr fun block => ?_
    obtain ⟨d, here⟩ := comments.commentAt_block block
    simp [no_comment] at here

end GrammarComments

/-! Comments. -/

theorem strstr_newline_cons (ch : Char) (text : List Char) :
    strstr ['\n'] (ch :: text) =
      if ch = '\n' then some 0 else (strstr ['\n'] text).map (· + 1) := by
  by_cases newline : ch = '\n'
  · simp [strstr, newline]
  · have other : '\n' ≠ ch := fun same => newline same.symm
    simp [strstr, newline, other]

theorem strstr_newline {text : List Char} {position : Nat}
    (found : strstr ['\n'] text = some position) :
    text.drop position = '\n' :: text.drop (position + 1) ∧ '\n' ∉ text.take position := by
  induction text generalizing position with
  | nil => simp [strstr] at found
  | cons ch text ih =>
    rw [strstr_newline_cons] at found
    split at found
    · rename_i newline
      obtain rfl := Option.some.inj found
      simp [newline]
    · rename_i other
      obtain ⟨later, inside, rfl⟩ := Option.map_eq_some_iff.mp found
      obtain ⟨here, before⟩ := ih inside
      refine ⟨by simpa using here, ?_⟩
      rw [List.take_succ_cons, List.mem_cons]
      exact fun mem => mem.elim (fun same => other same.symm) before

theorem strstr_behind {text : List Char} {opening : Nat}
    (line : lineOpening text = some opening) :
    strstr ['\n'] (cstr text) =
      (strstr ['\n'] (cstr (text.drop opening))).map (· + opening) := by
  unfold lineOpening at line
  split at line
  · rename_i rest
    obtain rfl := Option.some.inj line
    have front : cstr ('#' :: rest) = '#' :: cstr rest := rfl
    rw [front, strstr_newline_cons, if_neg (by decide)]
    rfl
  · rename_i rest
    obtain rfl := Option.some.inj line
    have front : cstr ('/' :: '/' :: rest) = '/' :: '/' :: cstr rest := rfl
    rw [front, strstr_newline_cons, if_neg (by decide), strstr_newline_cons,
      if_neg (by decide), Option.map_map]
    rfl
  · simp at line

theorem line_of_cstr {text : List Char} {position : Nat}
    (found : strstr ['\n'] (cstr text) = some position) :
    text.drop position = '\n' :: text.drop (position + 1) ∧ '\n' ∉ text.take position ∧
      '\x00' ∉ text.take position := by
  obtain ⟨here, before⟩ := strstr_newline found
  have fits := strstr_le found
  rw [List.length_singleton] at fits
  obtain ⟨rest, split⟩ := List.takeWhile_prefix (l := text) (· ≠ '\x00')
  change cstr text ++ rest = text at split
  have drop : ∀ n ≤ (cstr text).length, text.drop n = (cstr text).drop n ++ rest := fun n le => by
    conv_lhs => rw [← split]
    exact List.drop_append_of_le_length le
  have take : text.take position = (cstr text).take position := by
    conv_lhs => rw [← split]
    exact List.take_append_of_le_length (by omega)
  refine ⟨?_, take ▸ before, fun mem => ?_⟩
  · rw [drop position (by omega), drop (position + 1) fits, here, List.cons_append]
  · rw [take] at mem
    have := List.mem_takeWhile_imp (List.mem_of_mem_take mem)
    simp at this

section Steps

variable {patterns : PatternEngine} {engine : PatternSearch} {lexer : Lexer} {s t : Scanner}
  {pending : List LanguageDecorator} {rt : LanguageDecoratorMap} {d : EolnCommentDef} {length : Nat}

theorem line_of_closed {text : List Char} (closed : (Comment.eoln d).length text = some length) :
    ∃ position, length = (Comment.eoln d).opening.length + (position + 1) ∧
      strstr ['\n'] (cstr (text.drop (Comment.eoln d).opening.length)) = some position ∧
      (text.take (length - 1)).drop (Comment.eoln d).opening.length =
        (text.drop (Comment.eoln d).opening.length).take position := by
  obtain ⟨position, found, same⟩ := Option.map_eq_some_iff.mp closed
  have same : (Comment.eoln d).opening.length + (position + 1) = length := same
  refine ⟨position, same.symm, found, ?_⟩
  rw [List.drop_take, ← same]
  congr 1
  omega

theorem lineText_of_closed {text : List Char}
    (closed : (Comment.eoln d).length text = some length) :
    LineText ⟨.eoln d, (text.take (length - 1)).drop (Comment.eoln d).opening.length,
      text.drop length⟩ := by
  obtain ⟨position, -, found, inside⟩ := line_of_closed closed
  obtain ⟨-, single, plain⟩ := line_of_cstr found
  rw [inside]
  exact ⟨⟨d, rfl⟩, plain, single⟩

theorem scanLine_closed (s : Scanner) (pending : List LanguageDecorator)
    (rt : LanguageDecoratorMap) (comments : GrammarComments patterns lexer)
    (here : lexer.commentAt t.rest = some (.eoln d))
    (closed : (Comment.eoln d).length t.rest = some length) :
    scanLine ⟨s, 0, pending, rt⟩ t (Comment.eoln d).opening.length =
      .ok ⟨(t.advance length).skipBlanks, 0, extractDecorators pending
        [WrittenComment.taken ⟨.eoln d,
          (t.rest.take (length - 1)).drop (Comment.eoln d).opening.length, t.rest.drop length⟩],
        rt⟩ := by
  have line := comments.lineOpening_of_eoln here
  have fits := Lexer.commentAt_length_le here closed
  obtain ⟨position, rfl, found, text⟩ := line_of_closed closed
  rw [text]
  generalize (Comment.eoln d).opening.length = opening at line found fits text ⊢
  obtain ⟨newline, -, -⟩ := line_of_cstr found
  have after : (t.rest.drop opening).drop (position + 1) = t.rest.drop (opening + (position + 1)) :=
    List.drop_drop
  have scanned : t.scan ['\n'] = .ok (some (t.advance (opening + (position + 1))).skipBlanks) := by
    have here : strstr (cstr ['\n']) (cstr t.rest) = some (position + opening) := by
      have newline : cstr ['\n'] = ['\n'] := rfl
      rw [newline, strstr_behind line, found]
      rfl
    have length : position + opening + (cstr ['\n']).length = opening + (position + 1) := by
      change position + opening + 1 = _
      omega
    rw [Scanner.scan, here]
    simp only [length, Scanner.next_of_le fits]
    rfl
  have comment : (between t (t.advance (opening + (position + 1))).skipBlanks opening).dropLast =
      WrittenComment.taken ⟨.eoln d, (t.rest.drop opening).take position,
        t.rest.drop (opening + (position + 1))⟩ := by
    have blanks : (t.advance (opening + (position + 1))).skipBlanks.passed.length -
        t.passed.length - opening = position + 1 +
          ((t.rest.drop (opening + (position + 1))).takeWhile isBlank).length := by
      have inside := (List.takeWhile_prefix isBlank
        (l := t.rest.drop (opening + (position + 1)))).length_le
      rw [Scanner.skipBlanks, Lexer.passed_advance _ (by rw [Scanner.advance_rest]; exact inside),
        Lexer.passed_advance _ fits, Scanner.advance_rest]
      omega
    have split := List.take_append_drop position (t.rest.drop opening)
    rw [newline, after] at split
    rw [between, blanks, WrittenComment.taken]
    congr 1
    have before : ((t.rest.drop opening).take position).length = position := by
      rw [List.length_take, List.length_drop]
      omega
    have blank := List.prefix_iff_eq_take.mp (List.takeWhile_prefix isBlank
      (l := t.rest.drop (opening + (position + 1))))
    conv_lhs => rw [← split]
    rw [List.take_append, List.take_of_length_le (by omega), before, Nat.add_assoc,
      Nat.add_sub_cancel_left, Nat.add_comm 1, List.take_succ_cons, ← blank]
  simp only [scanLine, scanned, ok_bind, comment]

theorem scanLine_unclosed (s : Scanner) (pending : List LanguageDecorator)
    (rt : LanguageDecoratorMap) (comments : GrammarComments patterns lexer)
    (here : lexer.commentAt t.rest = some (.eoln d))
    (unclosed : (Comment.eoln d).length t.rest = none) :
    ∃ pending', scanLine ⟨s, 0, pending, rt⟩ t (Comment.eoln d).opening.length =
      .ok ⟨t, 0, pending', rt⟩ := by
  have line := comments.lineOpening_of_eoln here
  have missing : strstr ['\n'] (cstr (t.rest.drop (Comment.eoln d).opening.length)) = none :=
    Option.map_eq_none_iff.mp unclosed
  have newline : cstr ['\n'] = ['\n'] := rfl
  have scanned : t.scan ['\n'] = .ok none := by
    simp only [Scanner.scan, newline, strstr_behind line, missing, Option.map_none]
  simp only [scanLine, scanned, ok_bind]
  exact ⟨_, rfl⟩

theorem not_ended {c : Comment} (here : lexer.commentAt t.rest = some c) :
    t.rest.headD '\x00' ≠ '\x00' := by
  intro ended
  rw [Lexer.commentAt, if_pos (by simpa [Lexer.atEnd] using ended)] at here
  cases here

theorem Commented.lineText {text gap rest : List Char} {written : List WrittenComment}
    (commented : Commented lexer text written gap rest)
    (lines : ∀ c ∈ written, ∃ d, c.kind = .eoln d) : ∀ c ∈ written, LineText c := by
  induction commented with
  | blanks text => simp
  | @comment text gap rest c length written here closed positive _ ih =>
    obtain ⟨⟨d, kind⟩, later⟩ := List.forall_mem_cons.mp lines
    obtain rfl : c = .eoln d := kind
    exact List.forall_mem_cons.mpr ⟨lineText_of_closed closed, ih later⟩

theorem decoratorLoop_comments (comments : GrammarComments patterns lexer) {text gap rest : List Char}
    {written : List WrittenComment} (commented : Commented lexer text written gap rest)
    (lines : ∀ c ∈ written, ∃ d, c.kind = .eoln d) (at_text : s.rest = text) (fuel : Nat)
    (pending : List LanguageDecorator) :
    decoratorLoop engine lexer (fuel + written.length) ⟨s, 0, pending, rt⟩ =
      decoratorLoop engine lexer fuel ⟨s.advance gap.length, 0,
        (written.map fun c => splitDecoratorDef c.taken).foldl addLine pending, rt⟩ := by
  induction commented generalizing s pending with
  | blanks text =>
    rw [← at_text]
    exact decoratorLoop_skipBlanks.symm
  | @comment text gap rest c length written here closed positive _ ih =>
    obtain ⟨⟨d, kind⟩, later⟩ := List.forall_mem_cons.mp lines
    obtain rfl : c = .eoln d := kind
    subst at_text
    have fits := Lexer.commentAt_length_le here closed
    rw [← Lexer.advance_gap rfl fits]
    rw [← Scanner.skipBlanks_rest] at here closed ih ⊢
    have scanned := scanLine_closed s pending rt comments here closed
    rw [List.length_cons, ← Nat.add_assoc, decoratorLoop_succ, if_neg (not_ended here),
      comments.lineOpening_of_eoln here]
    simp only [scanned, ok_bind]
    rw [decoratorLoop_skipBlanks, ih later (Scanner.advance_rest _)]
    rfl

theorem Commented.toGap {text gap rest : List Char} {written : List WrittenComment}
    (commented : Commented lexer text written gap rest) : Lexer.Gap lexer text gap rest := by
  induction commented with
  | blanks text => exact .blanks text
  | comment here closed positive _ ih => exact .comment here closed positive ih

theorem reads_line {lexem : Lexem} {s' : Scanner} (token : Lexer.AtToken lexer s.rest)
    (reads : Lexer.Reads engine lexer s lexem s') : lexem.line = s.line := by
  cases reads with
  | ended => rfl
  | unindented => rfl
  | unclosed c here => simp [token.no_comment] at here
  | bad => rfl
  | indented => rfl
  | token => rfl

variable {gap rest : List Char} {lexem : Lexem} {s' : Scanner} {written : List WrittenComment}

theorem reads_behind (comments : GrammarComments patterns lexer)
    (commented : Commented lexer s.rest written gap rest) (stop : Lexer.Stop lexer rest)
    (call : Lexer.Calls engine lexer s lexem s') :
    (s.advance gap.length).rest = rest ∧
      Lexer.turnAt engine lexer (s.advance gap.length) = .ok (.returned lexem s') ∧
      Lexer.Reads engine lexer (s.advance gap.length) lexem s' := by
  obtain ⟨named, indexed⟩ := comments.defined.invariants
  obtain ⟨gap', rest', skipped, read, reads⟩ := Lexer.calls_spec named indexed call
  have stop' := reads.stop
  rw [Lexer.advance_gap_rest skipped] at stop'
  obtain ⟨rfl, rfl⟩ := commented.toGap.unique skipped stop stop'
  exact ⟨Lexer.advance_gap_rest skipped, read, reads⟩

theorem stop_of_token (token : Lexer.AtToken lexer rest) : Lexer.Stop lexer rest := by
  intro c length here
  simp [token.no_comment] at here

theorem decoratorLoop_token (comments : GrammarComments patterns lexer)
    (commented : Commented lexer s.rest written gap rest) (token : Lexer.AtToken lexer rest)
    (call : Lexer.Calls engine lexer s lexem s') (fuel : Nat) :
    decoratorLoop engine lexer (fuel + 2) ⟨s.advance gap.length, 0, pending, rt⟩ =
      addDecorators lexem.line pending rt >>= fun rt' =>
        decoratorLoop engine lexer (fuel + 1) ⟨s', 0, [], rt'⟩ := by
  obtain ⟨here, read, reads⟩ := reads_behind comments commented (stop_of_token token) call
  have stays : (s.advance gap.length).skipBlanks = s.advance gap.length := by
    apply Scanner.skipBlanks_of_head
    rw [here]
    exact commented.toGap.head
  have returned : lexer.next engine (fuel + 1) (s.advance gap.length) = .ok (lexem, s') := by
    rw [Lexer.next_succ, stays, read]
    rfl
  have line := reads_line (by rwa [here]) reads
  obtain ⟨no_line, no_block⟩ := comments.no_opening token.no_comment
  have some_char : rest.headD '\x00' ≠ '\x00' := by simpa [Lexer.atEnd] using token.some_char
  rw [decoratorLoop_succ, stays, here, if_neg some_char, no_line]
  simp only [no_block, Bool.false_eq_true, if_false, scanToken, returned, ok_bind, ← line]
  cases addDecorators lexem.line pending rt <;> rfl

theorem decoratorLoop_items (comments : GrammarComments patterns lexer) {items : List Item}
    (lexed : Lexed engine lexer s items s')
    (lines : ∀ it ∈ items, ∀ c ∈ it.comments, ∃ d, c.kind = .eoln d) :
    ∃ n, ∀ fuel rt, decoratorLoop engine lexer (fuel + 1 + n) ⟨s, 0, [], rt⟩ =
      addItems items rt >>= fun rt' => decoratorLoop engine lexer (fuel + 1) ⟨s', 0, [], rt'⟩ := by
  induction lexed with
  | nil s => exact ⟨0, fun fuel rt => rfl⟩
  | @cons s s' s'' written gap rest lexem items commented token call _ _ ih =>
    obtain ⟨head, tail⟩ := List.forall_mem_cons.mp lines
    obtain ⟨n, steps⟩ := ih tail
    refine ⟨n + 1 + written.length, fun fuel rt => ?_⟩
    have more : fuel + 1 + (n + 1 + written.length) = fuel + n + 2 + written.length := by omega
    rw [more, decoratorLoop_comments comments commented head rfl,
      decoratorLoop_token comments commented token call, addItems, List.foldlM_cons, bind_assoc]
    refine bind_congr fun rt' => ?_
    have less : fuel + n + 1 = fuel + 1 + n := by omega
    rw [less, steps]
    rfl

theorem decoratorLoop_closed (comments : GrammarComments patterns lexer)
    (commented : Commented lexer s.rest written gap rest)
    (lines : ∀ c ∈ written, ∃ d, c.kind = .eoln d) (closed : Lexer.atEnd rest = true) (fuel : Nat) :
    decoratorLoop engine lexer (fuel + 1 + written.length) ⟨s, 0, pending, rt⟩ = .ok rt := by
  have here := Lexer.advance_gap_rest commented.toGap
  have stays : (s.advance gap.length).skipBlanks = s.advance gap.length := by
    apply Scanner.skipBlanks_of_head
    rw [here]
    exact commented.toGap.head
  rw [decoratorLoop_comments comments commented lines rfl, decoratorLoop_succ, stays, here,
    if_pos (by simpa [Lexer.atEnd] using closed)]

theorem decoratorLoop_unclosed (comments : GrammarComments patterns lexer)
    (commented : Commented lexer s.rest written gap rest)
    (lines : ∀ c ∈ written, ∃ d, c.kind = .eoln d) (here : lexer.commentAt rest = some (.eoln d))
    (unclosed : (Comment.eoln d).length rest = none) (fuel : Nat) :
    decoratorLoop engine lexer (fuel + written.length) ⟨s, 0, pending, rt⟩ = .error .outOfFuel := by
  have place := Lexer.advance_gap_rest commented.toGap
  have stays : (s.advance gap.length).skipBlanks = s.advance gap.length := by
    apply Scanner.skipBlanks_of_head
    rw [place]
    exact commented.toGap.head
  rw [decoratorLoop_comments comments commented lines rfl]
  rw [← place] at here unclosed
  generalize (written.map fun c => splitDecoratorDef c.taken).foldl addLine pending = pending
  induction fuel generalizing pending with
  | zero => rfl
  | succ fuel ih =>
    obtain ⟨pending', scanned⟩ := scanLine_unclosed (s.advance gap.length) pending rt comments
      here unclosed
    rw [decoratorLoop_succ, stays, if_neg (not_ended here), comments.lineOpening_of_eoln here]
    simp only [scanned, ok_bind]
    exact ih pending'

/-! Lines of tokens. -/

theorem line_le_advance (s : Scanner) (n : Nat) : s.line ≤ (s.advance n).line := by
  rw [Lexer.advance_line]
  omega

theorem reads_line_le (reads : Lexer.Reads engine lexer s lexem s') : s.line ≤ s'.line := by
  have on : ∀ (t : Scanner) (n : Nat), t.line ≤ (t.advance n).skipBlanks.line := fun t n =>
    (line_le_advance t n).trans (line_le_advance _ _)
  have indented := Lexer.indentAt_line lexer s
  cases reads with
  | ended => exact le_rfl
  | unindented => exact le_rfl
  | unclosed => exact line_le_advance _ _
  | bad => exact on _ _
  | indented _ _ _ _ _ read _ =>
    rw [read] at indented
    exact indented.ge
  | token _ _ _ read =>
    rw [read] at indented
    exact indented.ge.trans (on _ _)

theorem Commented.line_lt {text : List Char} (commented : Commented lexer text written gap rest)
    (lines : ∀ c ∈ written, ∃ d, c.kind = .eoln d) (some_comment : written ≠ []) : '\n' ∈ gap := by
  cases commented with
  | blanks => exact absurd rfl some_comment
  | @comment _ gap _ c length written here closed positive tail =>
    obtain ⟨⟨d, kind⟩, -⟩ := List.forall_mem_cons.mp lines
    obtain rfl : c = .eoln d := kind
    obtain ⟨position, rfl, found, -⟩ := line_of_closed closed
    obtain ⟨newline, -, -⟩ := line_of_cstr found
    refine List.mem_append_right _ (List.mem_append_left _ ?_)
    have node : (text.dropWhile isBlank)[(Comment.eoln d).opening.length + position]? =
        some '\n' := by
      rw [← List.getElem?_drop, ← List.head?_drop, newline]
      rfl
    exact List.mem_of_getElem? ((List.getElem?_take_of_lt (by omega)).trans node)

theorem lexed_lines (comments : GrammarComments patterns lexer) {items : List Item}
    (lexed : Lexed engine lexer s items s')
    (lines : ∀ it ∈ items, ∀ c ∈ it.comments, ∃ d, c.kind = .eoln d) :
    (∀ it ∈ items, s.line ≤ it.lexem.line ∧ (it.comments ≠ [] → s.line < it.lexem.line)) ∧
      items.Pairwise fun a b => a.lexem.line ≤ b.lexem.line ∧
        (b.comments ≠ [] → a.lexem.line < b.lexem.line) := by
  induction lexed with
  | nil s => simp
  | @cons s s' s'' written gap rest lexem items commented token call _ _ ih =>
    obtain ⟨head, tail⟩ := List.forall_mem_cons.mp lines
    obtain ⟨later, ordered⟩ := ih tail
    obtain ⟨here, -, reads⟩ := reads_behind comments commented (stop_of_token token) call
    have line := reads_line (by rwa [here]) reads
    have on := reads_line_le reads
    rw [← line] at on
    have counted : lexem.line = s.line + gap.count '\n' := by
      rw [line, Lexer.advance_line, commented.toGap.split, List.take_left]
    have first : s.line ≤ lexem.line := by omega
    refine ⟨List.forall_mem_cons.mpr ⟨⟨first, fun some_comment => ?_⟩, fun it mem => ?_⟩, ?_⟩
    · have := List.count_pos_iff.mpr (commented.line_lt head some_comment)
      dsimp only
      omega
    · obtain ⟨le, lt⟩ := later it mem
      exact ⟨by omega, fun some_comment => by have := lt some_comment; omega⟩
    · refine List.pairwise_cons.mpr ⟨fun it mem => ?_, ordered⟩
      obtain ⟨le, lt⟩ := later it mem
      exact ⟨on.trans le, fun some_comment => on.trans_lt (lt some_comment)⟩

end Steps

/-! A run that returns is not changed by a greater bound. -/

theorem splitLinesLoop_mono {fuel : Nat} {text : List Char} {rt lines : List (List Char)}
    (h : splitLinesLoop fuel text rt = .ok lines) (more : Nat) :
    splitLinesLoop (fuel + more) text rt = .ok lines := by
  induction fuel generalizing text rt with
  | zero => simp [splitLinesLoop] at h
  | succ fuel ih =>
    rw [Nat.add_right_comm]
    cases text with
    | nil => exact h
    | cons ch text => exact ih h

theorem scanBlock_mono {fuel : Nat} {st st' : DecoratorScan} {s : Scanner}
    (h : scanBlock fuel st s = .ok st') (more : Nat) : scanBlock (fuel + more) st s = .ok st' := by
  unfold scanBlock splitLines at h ⊢
  obtain ⟨found, scanned, h⟩ := bind_eq_ok.mp h
  rw [scanned, ok_bind]
  cases found with
  | none => exact h
  | some after =>
    obtain ⟨comment, split, h⟩ := bind_eq_ok.mp h
    obtain ⟨lines, loop, split⟩ := bind_eq_ok.mp split
    dsimp only
    rw [splitLinesLoop_mono loop more, ok_bind]
    change (Except.ok _ : Except Failure _) = _ at split
    obtain rfl := Except.ok.inj split
    exact h

theorem scanToken_mono {engine : PatternSearch} {lexer : Lexer} {fuel : Nat}
    {st st' : DecoratorScan} {s : Scanner} (h : scanToken engine lexer fuel st s = .ok st')
    (more : Nat) : scanToken engine lexer (fuel + more) st s = .ok st' := by
  obtain ⟨⟨lexem, after⟩, call, h⟩ := bind_eq_ok.mp h
  unfold scanToken
  rw [Lexer.next_mono call more]
  exact h

theorem decoratorLoop_mono {engine : PatternSearch} {lexer : Lexer} {fuel : Nat}
    {st : DecoratorScan} {map : LanguageDecoratorMap}
    (h : decoratorLoop engine lexer fuel st = .ok map) (more : Nat) :
    decoratorLoop engine lexer (fuel + more) st = .ok map := by
  induction fuel generalizing st with
  | zero => simp [decoratorLoop] at h
  | succ fuel ih =>
    rw [Nat.add_right_comm]
    unfold decoratorLoop at h ⊢
    obtain ⟨s, next, h⟩ := bind_eq_ok.mp h
    rw [next, ok_bind]
    by_cases ended : s.rest.headD '\x00' = '\x00'
    · rw [if_pos ended] at h ⊢
      exact h
    · rw [if_neg ended] at h ⊢
      cases line : lineOpening s.rest with
      | some opening =>
        rw [line] at h
        obtain ⟨st', scanned, h⟩ := bind_eq_ok.mp h
        simp only [scanned, ok_bind]
        exact ih h
      | none =>
        rw [line] at h
        dsimp only at h ⊢
        split at h
        · rename_i block
          obtain ⟨st', scanned, h⟩ := bind_eq_ok.mp h
          rw [if_pos block, scanBlock_mono scanned more, ok_bind]
          exact ih h
        · rename_i token
          obtain ⟨st', scanned, h⟩ := bind_eq_ok.mp h
          rw [if_neg token, scanToken_mono scanned more, ok_bind]
          exact ih h

end Grammar

end Mewa
