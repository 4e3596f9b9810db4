/- Module: Mewa/Compiler/Template
   digest: The substitution of bracketed keys in the template of the output. -/

import Mathlib.Data.List.TakeWhile
import Mathlib.Tactic.Linarith
import Mewa.Lexer.Scanner
import Mewa.Lib.Bracketed

set_option autoImplicit false
set_option relaxedAutoImplicit false

namespace Mewa

open Mewa.Lib.Bracketed

/-! A character stands for a byte of the text. -/

namespace Template

def isAlpha (ch : Char) : Bool :=
  ('a' ≤ ch ∧ ch ≤ 'z') ∨ ('A' ≤ ch ∧ ch ≤ 'Z') ∨ ch = '_'

def isDigit (ch : Char) : Bool := '0' ≤ ch ∧ ch ≤ '9'

def isAlphaNum (ch : Char) : Bool := isAlpha ch || isDigit ch

/-- The first position of a character from a position on. The null character at the end counts. -/
def strchr (text : List Char) (ti : Nat) (ch : Char) : Option Nat :=
  (((text ++ ['\x00']).drop ti).findIdx? (· = ch)).map (ti + ·)

theorem strchr_some {text : List Char} {ti te : Nat} {ch : Char}
    (found : strchr text ti ch = some te) :
    ti ≤ te ∧ te < text.length + 1 ∧ (text ++ ['\x00'])[te]? = some ch ∧
      ∀ i, ti ≤ i → i < te → (text ++ ['\x00'])[i]? ≠ some ch := by
  obtain ⟨i, at_i, rfl⟩ := Option.map_eq_some_iff.mp found
  obtain ⟨bound, here, before⟩ := List.findIdx?_eq_some_iff_getElem.mp at_i
  have inside : ti + i < text.length + 1 := by
    simp only [List.length_drop, List.length_append, List.length_singleton] at bound
    omega
  refine ⟨Nat.le_add_right _ _, inside, ?_, ?_⟩
  · have same : ((text ++ ['\x00']).drop ti)[i]? = some ch := by
      rw [List.getElem?_eq_getElem bound]
      simpa using here
    rwa [List.getElem?_drop] at same
  · intro j above below same
    have earlier := before (j - ti) (by omega)
    have at_j : ((text ++ ['\x00']).drop ti)[j - ti]? = some ch := by
      rw [List.getElem?_drop, Nat.add_sub_cancel' above]
      exact same
    rw [List.getElem?_eq_getElem (by omega)] at at_j
    simp only [Option.some.injEq] at at_j
    simp [at_j] at earlier

/-- What the scan of an identifier leaves of a key, all of it where the scan does not start. -/
def afterIdentifier (key : List Char) : List Char :=
  match key with
  | ch :: rest => if 2 ≤ key.length ∧ isAlpha ch then rest.dropWhile isAlphaNum else key
  | [] => []

/-- The loop with the start `ti` of what is not copied yet and the position `ts` of a bracket. -/
def formatLoop (text : List Char) (sb eb : Char) (substmap : List Char → Option (List Char))
    (rt : List Char) (ti ts : Nat) : List Char :=
  let keystart := ts + 1
  match _ : strchr text keystart eb with
  | some te =>
    let key := (text.drop keystart).take (te - keystart)
    match substmap key with
    | some value =>
      let rt := rt ++ (text.drop ti).take (ts - ti) ++ value
      match _ : strchr text (te + 1) sb with
      | none => rt ++ text.drop (te + 1)
      | some next => formatLoop text sb eb substmap rt (te + 1) next
    | none =>
      if afterIdentifier key = [] then
        let rt := rt ++ (text.drop ti).take (ts - ti)
        -- an identifier is mapped to an empty string if not found
        match _ : strchr text (te + 1) sb with
        | none => rt ++ text.drop (te + 1)
        | some next => formatLoop text sb eb substmap rt (te + 1) next
      else
        match _ : strchr text keystart sb with
        | none => rt ++ text.drop ti
        | some next => formatLoop text sb eb substmap rt ti next
  | none => rt ++ text.drop ti
termination_by text.length + 1 - ts
decreasing_by
  all_goals
    have first := strchr_some ‹strchr text _ eb = some te›
    have second := strchr_some ‹strchr text _ sb = some next›
    omega

/-- The keys in brackets are replaced by their values. -/
def templateFormat (templatstr : List Char) (sb eb : Char)
    (substmap : List Char → Option (List Char)) : List Char :=
  let text := cstr templatstr
  match strchr text 0 sb with
  | none => text
  | some ts => formatLoop text sb eb substmap [] 0 ts

/-! The loop rewrites the text from the left to the right. -/

section Loop

variable {text : List Char} {sb eb ch : Char} {substmap : List Char → Option (List Char)}

/-- What the loop puts in the place of a key with its brackets. -/
def substitute (substmap : List Char → Option (List Char)) (key : List Char) :
    Option (List Char) :=
  match substmap key with
  | some value => some value
  | none => if afterIdentifier key = [] then some [] else none

theorem substitute_of_key {key value : List Char} (found : substmap key = some value) :
    substitute substmap key = some value := by
  unfold substitute
  rw [found]

theorem substitute_of_other {key : List Char} (missing : substmap key = none) :
    substitute substmap key = if afterIdentifier key = [] then some [] else none := by
  unfold substitute
  rw [missing]

theorem drop_split {ti ts : Nat} (order : ti ≤ ts) :
    text.drop ti = (text.drop ti).take (ts - ti) ++ text.drop ts := by
  calc text.drop ti = (text.drop ti).take (ts - ti) ++ (text.drop ti).drop (ts - ti) :=
        (List.take_append_drop _ _).symm
    _ = _ := by rw [List.drop_drop, Nat.add_sub_cancel' order]

theorem strchr_split {ti te : Nat} (some_char : ch ≠ '\x00')
    (found : strchr text ti ch = some te) :
    ch ∉ (text.drop ti).take (te - ti) ∧ text.drop te = ch :: text.drop (te + 1) := by
  obtain ⟨after, inside, here, before⟩ := strchr_some found
  have not_end : te < text.length := by
    by_contra at_end
    have last : te = text.length := by omega
    subst last
    simp at here
    exact some_char here.symm
  rw [List.getElem?_append_left not_end] at here
  constructor
  · intro mem
    obtain ⟨i, bound, at_i⟩ := List.getElem_of_mem mem
    simp only [List.length_take, List.length_drop] at bound
    apply before (ti + i) (by omega) (by omega)
    rw [List.getElem?_append_left (by omega)]
    simp only [List.getElem_take, List.getElem_drop] at at_i
    rw [List.getElem?_eq_getElem (by omega), at_i]
  · rw [List.getElem?_eq_getElem not_end] at here
    rw [List.drop_eq_getElem_cons not_end, Option.some.inj here]

theorem strchr_none {ti : Nat} (none_found : strchr text ti ch = none) :
    ch ∉ text.drop ti := by
  intro mem
  have missing := List.findIdx?_eq_none_iff.mp (Option.map_eq_none_iff.mp none_found)
  have mem' : ch ∈ (text ++ ['\x00']).drop ti := by
    by_cases inside : ti ≤ text.length
    · rw [List.drop_append_of_le_length inside]
      exact List.mem_append_left _ mem
    · rw [List.drop_eq_nil_of_le (by omega)] at mem
      cases mem
  simpa using missing ch mem'

theorem take_to {ti ts te : Nat} (first : ti ≤ ts) (second : ts ≤ te) :
    (text.drop ti).take (te - ti) =
      (text.drop ti).take (ts - ti) ++ (text.drop ts).take (te - ts) := by
  have whole : te - ti = (ts - ti) + (te - ts) := by omega
  rw [whole, List.take_add, List.drop_drop, Nat.add_sub_cancel' first]

theorem rewrites_last {ti : Nat} {repl : List Char → Option (List Char)}
    (last : strchr text ti sb = none) :
    Rewrites sb eb repl (text.drop ti) (text.drop ti) := by
  have copied : Rewrites sb eb repl (text.drop ti ++ []) (text.drop ti ++ []) :=
    .skip (strchr_none last) .nil
  simpa using copied

theorem rewrites_next {ti ts : Nat} {repl : List Char → Option (List Char)} {out : List Char}
    (sb_char : sb ≠ '\x00') (next : strchr text ti sb = some ts)
    (rewrites : Rewrites sb eb repl (text.drop ts) out) :
    Rewrites sb eb repl (text.drop ti) ((text.drop ti).take (ts - ti) ++ out) := by
  obtain ⟨plain, -⟩ := strchr_split sb_char next
  obtain ⟨after, -⟩ := strchr_some next
  have copied := rewrites.skip plain
  rwa [← drop_split after] at copied

theorem content_split {ts te : Nat} (eb_char : eb ≠ '\x00')
    (start : text.drop ts = sb :: text.drop (ts + 1))
    (found : strchr text (ts + 1) eb = some te) :
    eb ∉ (text.drop (ts + 1)).take (te - (ts + 1)) ∧ text.drop ts =
      sb :: ((text.drop (ts + 1)).take (te - (ts + 1)) ++ eb :: text.drop (te + 1)) := by
  obtain ⟨inside, ends⟩ := strchr_split eb_char found
  obtain ⟨after, -⟩ := strchr_some found
  have split : text.drop (ts + 1) = _ := drop_split after
  rw [ends] at split
  exact ⟨inside, by rw [start, ← split]⟩

theorem untouched_start {ts te : Nat} (eb_char : eb ≠ '\x00')
    (start : text.drop ts = sb :: text.drop (ts + 1))
    (found : strchr text (ts + 1) eb = some te)
    (kept : substitute substmap ((text.drop (ts + 1)).take (te - (ts + 1))) = none) :
    Untouched sb eb (substitute substmap) sb (text.drop (ts + 1)) := by
  obtain ⟨inside, split⟩ := content_split eb_char start found
  rw [(List.cons.inj (start.symm.trans split)).2]
  exact untouched_content inside kept

theorem formatLoop_rewrites (sb_char : sb ≠ '\x00') (eb_char : eb ≠ '\x00')
    (rt : List Char) {ti ts : Nat} (order : ti ≤ ts)
    (start : text.drop ts = sb :: text.drop (ts + 1)) :
    ∃ out, Rewrites sb eb (substitute substmap) (text.drop ts) out ∧
      formatLoop text sb eb substmap rt ti ts = rt ++ (text.drop ti).take (ts - ti) ++ out := by
  fun_induction formatLoop text sb eb substmap rt ti ts with
  | case1 rt ti ts keystart te found key value key_found rt' last =>
    obtain ⟨inside, split⟩ := content_split eb_char start found
    refine ⟨value ++ text.drop (te + 1), ?_, ?_⟩
    · rw [split]
      exact .replace inside (substitute_of_key key_found) (rewrites_last last)
    · simp [rt']
  | case2 rt ti ts keystart te found key value key_found rt' next found_next ih =>
    obtain ⟨inside, split⟩ := content_split eb_char start found
    obtain ⟨after, -⟩ := strchr_some found_next
    obtain ⟨-, start'⟩ := strchr_split sb_char found_next
    obtain ⟨out, rewrites, result⟩ := ih after start'
    refine ⟨value ++ ((text.drop (te + 1)).take (next - (te + 1)) ++ out), ?_, ?_⟩
    · rw [split]
      exact .replace inside (substitute_of_key key_found)
        (rewrites_next sb_char found_next rewrites)
    · rw [result]
      simp [rt']
  | case3 rt ti ts keystart te found key missing scanned rt' last =>
    obtain ⟨inside, split⟩ := content_split eb_char start found
    refine ⟨[] ++ text.drop (te + 1), ?_, ?_⟩
    · rw [split]
      refine .replace inside ?_ (rewrites_last last)
      rw [substitute_of_other missing, if_pos scanned]
    · simp [rt']
  | case4 rt ti ts keystart te found key missing scanned rt' next found_next ih =>
    obtain ⟨inside, split⟩ := content_split eb_char start found
    obtain ⟨after, -⟩ := strchr_some found_next
    obtain ⟨-, start'⟩ := strchr_split sb_char found_next
    obtain ⟨out, rewrites, result⟩ := ih after start'
    refine ⟨[] ++ ((text.drop (te + 1)).take (next - (te + 1)) ++ out), ?_, ?_⟩
    · rw [split]
      refine .replace inside ?_ (rewrites_next sb_char found_next rewrites)
      rw [substitute_of_other missing, if_pos scanned]
    · rw [result]
      simp [rt']
  | case5 rt ti ts keystart te found key missing not_scanned last =>
    refine ⟨text.drop ts, ?_, ?_⟩
    · have untouched : Untouched sb eb (substitute substmap) sb (text.drop (ts + 1)) := by
        apply untouched_start eb_char start found
        rw [substitute_of_other missing, if_neg not_scanned]
      rw [start]
      exact .copy untouched (rewrites_last last)
    · rw [List.append_assoc, ← drop_split order]
  | case6 rt ti ts keystart te found key missing not_scanned next found_next ih =>
    obtain ⟨after, -⟩ := strchr_some found_next
    obtain ⟨-, start'⟩ := strchr_split sb_char found_next
    obtain ⟨out, rewrites, result⟩ := ih (by omega) start'
    refine ⟨sb :: ((text.drop (ts + 1)).take (next - (ts + 1)) ++ out), ?_, ?_⟩
    · have untouched : Untouched sb eb (substitute substmap) sb (text.drop (ts + 1)) := by
        apply untouched_start eb_char start found
        rw [substitute_of_other missing, if_neg not_scanned]
      rw [start]
      exact .copy untouched (rewrites_next sb_char found_next rewrites)
    · rw [result, take_to order (by omega), start]
      have first : next - ts = (next - (ts + 1)) + 1 := by omega
      simp [first]
  | case7 rt ti ts keystart open_end =>
    refine ⟨text.drop ts, ?_, ?_⟩
    · rw [start]
      exact .copy (untouched_open (strchr_none open_end)) (.unclosed (strchr_none open_end))
    · rw [List.append_assoc, ← drop_split order]

theorem templateFormat_rewrites (sb_char : sb ≠ '\x00') (eb_char : eb ≠ '\x00')
    (c_text : '\x00' ∉ text) :
    Rewrites sb eb (substitute substmap) text (templateFormat text sb eb substmap) := by
  have whole : cstr text = text := by
    apply List.takeWhile_eq_self_iff.mpr
    intro ch mem
    have other : ch ≠ '\x00' := fun same => c_text (same ▸ mem)
    simpa using other
  unfold templateFormat
  simp only [whole]
  split
  · rename_i none_found
    exact rewrites_last none_found
  · rename_i ts found
    obtain ⟨-, start⟩ := strchr_split sb_char found
    obtain ⟨out, rewrites, result⟩ :=
      formatLoop_rewrites sb_char eb_char [] (Nat.zero_le ts) start
    rw [result]
    exact rewrites_next sb_char found rewrites

end Loop

/-! What should stand for a key, and where the loop does otherwise. -/

section Exact

variable {text : List Char} {sb eb : Char} {substmap : List Char → Option (List Char)}

/-- A letter or an underscore with letters, digits and underscores after it. -/
def isIdentifier : List Char → Bool
  | [] => false
  | ch :: rest => isAlpha ch && rest.all isAlphaNum

/-- Keys of the map are replaced by their values and other identifiers by nothing. -/
def expected (substmap : List Char → Option (List Char)) (key : List Char) :
    Option (List Char) :=
  match substmap key with
  | some value => some value
  | none => if isIdentifier key then some [] else none

/-- The key is in the map or neither empty nor an identifier of one character. -/
def Regular (substmap : List Char → Option (List Char)) (key : List Char) : Prop :=
  substmap key = none → key ≠ [] ∧ ∀ ch, key = [ch] → isAlpha ch = false

theorem expected_eq {key : List Char} (regular : Regular substmap key) :
    expected substmap key = substitute substmap key := by
  unfold expected substitute
  cases missing : substmap key with
  | some value => rfl
  | none =>
    obtain ⟨not_empty, not_single⟩ := regular missing
    have same : isIdentifier key = true ↔ afterIdentifier key = [] := by
      cases key with
      | nil => exact absurd rfl not_empty
      | cons ch rest =>
        cases rest with
        | nil =>
          have other := not_single ch rfl
          simp [isIdentifier, afterIdentifier, other]
        | cons ch' rest =>
          by_cases letter : isAlpha ch = true
          · simp [isIdentifier, afterIdentifier, letter, List.dropWhile_eq_nil_iff]
          · simp [isIdentifier, afterIdentifier, letter]
    simp only [same]

theorem not_regular {key : List Char} (irregular : ¬ Regular substmap key) :
    substmap key = none ∧
      (key = [] ∧ expected substmap key = none ∧ substitute substmap key = some [] ∨
      ∃ ch, key = [ch] ∧ isAlpha ch = true ∧ expected substmap key = some [] ∧
        substitute substmap key = none) := by
  have missing : substmap key = none := by
    by_contra found
    exact irregular fun missing => absurd missing found
  refine ⟨missing, ?_⟩
  by_cases empty : key = []
  · subst empty
    exact Or.inl ⟨rfl, by simp [expected, missing, isIdentifier],
      by simp [substitute, missing, afterIdentifier]⟩
  · by_cases single : ∃ ch, key = [ch] ∧ isAlpha ch = true
    · obtain ⟨ch, rfl, letter⟩ := single
      exact Or.inr ⟨ch, rfl, letter, by simp [expected, missing, isIdentifier, letter],
        by simp [substitute, missing, afterIdentifier]⟩
    · refine absurd (fun _ => ⟨empty, fun ch same => ?_⟩) irregular
      by_contra letter
      exact single ⟨ch, same, by simpa using letter⟩

theorem expected_regular {key : List Char} (regular : Regular substmap key)
    {r : Option (List Char)} (value : expected substmap key = r) :
    substitute substmap key = r := by
  rw [← expected_eq regular]
  exact value

/-! With two different brackets the texts differ as soon as the loop does otherwise. A weight of
    the characters shows it, where what the loop loses is positive and what it keeps negative. -/

def weigh (w : Char → Int) (out : List Char) : Int := (out.map w).sum

theorem weigh_cons (w : Char → Int) (ch : Char) (out : List Char) :
    weigh w (ch :: out) = w ch + weigh w out := by
  simp [weigh]

theorem weigh_append (w : Char → Int) (out out' : List Char) :
    weigh w (out ++ out') = weigh w out + weigh w out' := by
  simp [weigh]

/-- What an empty content and an identifier of one character weigh. -/
structure Separates (w : Char → Int) (sb eb : Char) (substmap : List Char → Option (List Char)) :
    Prop where
  empty : substmap [] = none → 0 < w sb + w eb
  single : ∀ ch, ch ≠ sb → ch ≠ eb → w sb + w ch + w eb < 0
  nested : w sb + weigh w ((substmap []).getD []) < 0

theorem weigh_single {w : Char → Int} (separates : Separates w sb eb substmap)
    (apart : sb ≠ eb) {ch : Char} {after out : List Char} (inside : ch ≠ eb)
    (kept : substitute substmap [ch] = none)
    (rewrites : Rewrites sb eb (substitute substmap) (sb :: ch :: eb :: after) out) :
    ∃ rest, Rewrites sb eb (substitute substmap) after rest ∧ weigh w out < weigh w rest := by
  have mem_single : eb ∉ [ch] := fun mem => inside (List.mem_singleton.mp mem).symm
  have untouched : Untouched sb eb (substitute substmap) sb ([ch] ++ eb :: after) :=
    untouched_content mem_single kept
  obtain ⟨tail, rfl, second⟩ := rewrites.of_copy untouched
  by_cases bracket : ch = sb
  · subst bracket
    have value : substitute substmap [] = some ((substmap []).getD []) := by
      cases found : substmap [] with
      | some value => exact substitute_of_key found
      | none => exact substitute_of_other found
    change Rewrites ch eb (substitute substmap) (ch :: ([] ++ eb :: after)) tail at second
    obtain ⟨rest, rfl, last⟩ := second.of_replace List.not_mem_nil value
    refine ⟨rest, last, ?_⟩
    rw [weigh_cons, weigh_append]
    have lost := separates.nested
    omega
  · obtain ⟨tail', rfl, third⟩ := second.of_copy (untouched_other bracket)
    obtain ⟨rest, rfl, last⟩ := third.of_copy (untouched_other apart.symm)
    refine ⟨rest, last, ?_⟩
    simp only [weigh_cons]
    have lost := separates.single ch bracket inside
    omega

/-- The expected text is never the lighter one, and not of the same weight if the loop did
    otherwise. -/
theorem weigh_le {w : Char → Int} (separates : Separates w sb eb substmap) (apart : sb ≠ eb)
    {out out' : List Char} (should : Rewrites sb eb (expected substmap) text out)
    (does : Rewrites sb eb (substitute substmap) text out') :
    weigh w out' ≤ weigh w out ∧ (weigh w out' = weigh w out →
      EveryMet sb eb (expected substmap) (Regular substmap) text) := by
  induction should generalizing out' with
  | nil =>
    cases does
    exact ⟨le_refl _, fun _ => .nil⟩
  | @replace content value after out inside found _ ih =>
    by_cases regular : Regular substmap content
    · obtain ⟨rest, rfl, next⟩ := does.of_replace inside (expected_regular regular found)
      obtain ⟨heavier, every⟩ := ih next
      simp only [weigh_append]
      exact ⟨by omega, fun same => .replace inside found regular (every (by omega))⟩
    · obtain ⟨missing, ⟨-, none_expected, -⟩ | ⟨ch, rfl, letter, erased, kept⟩⟩ :=
        not_regular regular
      · rw [none_expected] at found
        cases found
      · obtain rfl := Option.some.inj (erased.symm.trans found)
        have inside' : ch ≠ eb := fun same => inside (List.mem_singleton.mpr same.symm)
        obtain ⟨rest, next, lighter⟩ := weigh_single separates apart inside' kept does
        obtain ⟨heavier, -⟩ := ih next
        rw [List.nil_append]
        exact ⟨by omega, fun same => by omega⟩
  | @copy c rest out untouched _ ih =>
    by_cases empty : c = sb ∧ substmap [] = none ∧ ∃ after, rest = eb :: after
    · obtain ⟨rfl, missing, after, rfl⟩ := empty
      have erased : substitute substmap [] = some [] := substitute_of_other missing
      change Rewrites c eb (substitute substmap) (c :: ([] ++ eb :: after)) out' at does
      obtain ⟨tail, same, next⟩ := does.of_replace List.not_mem_nil erased
      rw [List.nil_append] at same
      subst same
      have copied : Rewrites c eb (substitute substmap) (eb :: after) (eb :: out') :=
        .copy (untouched_other apart.symm) next
      obtain ⟨heavier, -⟩ := ih copied
      have gained := separates.empty missing
      rw [weigh_cons] at heavier
      rw [weigh_cons]
      exact ⟨by omega, fun same => by omega⟩
    · have regular : c = sb → ∀ content after, rest = content ++ eb :: after → eb ∉ content →
          Regular substmap content := by
        rintro rfl content after rfl inside
        by_contra irregular
        have kept := untouched rfl content after rfl inside
        obtain ⟨missing, ⟨rfl, -⟩ | ⟨ch, rfl, -, erased, -⟩⟩ := not_regular irregular
        · exact empty ⟨rfl, missing, after, rfl⟩
        · rw [erased] at kept
          cases kept
      have untouched' : Untouched sb eb (substitute substmap) c rest := by
        intro start content after here inside
        exact expected_regular (regular start content after here inside)
          (untouched start content after here inside)
      obtain ⟨tail, rfl, next⟩ := does.of_copy untouched'
      obtain ⟨heavier, every⟩ := ih next
      simp only [weigh_cons]
      exact ⟨by omega, fun same => .copy untouched regular (every (by omega))⟩

theorem exists_separates (apart : sb ≠ eb) : ∃ w : Char → Int, Separates w sb eb substmap := by
  cases found : substmap [] with
  | some value =>
    refine ⟨fun _ => -1, ?_, ?_, ?_⟩
    · intro missing
      rw [found] at missing
      cases missing
    · intro ch _ _
      omega
    · rw [found]
      have weight : weigh (fun _ => -1) value = -value.length := by
        simp [weigh]
      simp only [Option.getD_some, weight]
      omega
  | none =>
    refine ⟨fun ch => if ch = eb then 5 else if ch = sb then -1 else -6, ?_, ?_, ?_⟩
    · intro _
      simp [apart]
    · intro ch other other'
      simp [apart, other, other']
    · simp [found, apart, weigh]

/-- The output is the expected one if every content met is regular, and with two different
    brackets only then. -/
theorem templateFormat_exact (sb_char : sb ≠ '\x00') (eb_char : eb ≠ '\x00')
    (c_text : '\x00' ∉ text) :
    (EveryMet sb eb (expected substmap) (Regular substmap) text →
      Rewrites sb eb (expected substmap) text (templateFormat text sb eb substmap)) ∧
    (sb ≠ eb → Rewrites sb eb (expected substmap) text (templateFormat text sb eb substmap) →
      EveryMet sb eb (expected substmap) (Regular substmap) text) := by
  have does : Rewrites sb eb (substitute substmap) text (templateFormat text sb eb substmap) :=
    templateFormat_rewrites sb_char eb_char c_text
  constructor
  · intro every
    exact (every.mono fun key regular => expected_eq regular).rewrites does
  · intro apart should
    obtain ⟨w, separates⟩ : ∃ w, Separates w sb eb substmap := exists_separates apart
    exact (weigh_le separates apart should does).2 rfl

/-- A map with the key `k` only. -/
def keyMap (key : List Char) : Option (List Char) := if key = ['k'] then some ['v'] else none

theorem templateFormat_exact_key :
    templateFormat ['a', '\x7b', 'k', '\x7d'] '\x7b' '\x7d' keyMap = ['a', 'v'] := by
  have untouched : Untouched '\x7b' '\x7d' (expected keyMap) 'a' ['\x7b', 'k', '\x7d'] :=
    untouched_other (by decide)
  have inside : '\x7d' ∉ ['k'] := by decide
  have known : expected keyMap ['k'] = some ['v'] := rfl
  have every : EveryMet '\x7b' '\x7d' (expected keyMap) (Regular keyMap)
      ['a', '\x7b', 'k', '\x7d'] := by
    refine .copy untouched (fun same => absurd same (by decide)) ?_
    refine .replace inside known (fun missing => ?_) .nil
    cases missing
  have rewrites := (templateFormat_exact (by decide) (by decide) (by decide)).1 every
  exact rewrites.unique (.copy untouched (.replace inside known .nil))

/-- Brackets with nothing between them are lost. -/
theorem empty_brackets_lost :
    ¬ Rewrites '\x7b' '\x7d' (expected fun _ => none) ['\x7b', '\x7d']
      (templateFormat ['\x7b', '\x7d'] '\x7b' '\x7d' fun _ => none) := by
  intro should
  have does : Rewrites '\x7b' '\x7d' (substitute fun _ => none) ('\x7b' :: ([] ++ ['\x7d']))
      (templateFormat ['\x7b', '\x7d'] '\x7b' '\x7d' fun _ => none) :=
    templateFormat_rewrites (by decide) (by decide) (by decide)
  have erased : substitute (fun _ => none) [] = some [] := rfl
  obtain ⟨rest, same, last⟩ := does.of_replace List.not_mem_nil erased
  cases last
  have untouched : Untouched '\x7b' '\x7d' (expected fun _ => none) '\x7b' ([] ++ ['\x7d']) :=
    untouched_content List.not_mem_nil rfl
  obtain ⟨out, copied, -⟩ := should.of_copy untouched
  rw [same] at copied
  cases copied

end Exact

end Template

end Mewa
