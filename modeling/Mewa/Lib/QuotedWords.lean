/- Module: Mewa/Lib/QuotedWords
   digest: Lists of bare and of quoted words, and which of them are written the same. -/

import Mathlib.Data.List.Basic
import Mewa.Lib.Separated

set_option autoImplicit false
set_option relaxedAutoImplicit false

universe u

namespace Mewa.Lib

structure QuotedWord (α : Type u) where
  text : List α
  quoted : Bool
  deriving DecidableEq, Repr

namespace QuotedWord

variable {α : Type u} (quote blank : α)

def written (w : QuotedWord α) : List α :=
  if w.quoted then quote :: w.text ++ [quote] else w.text

/-- Words behind another one, each with a blank before it. -/
def continued : List (QuotedWord α) → List α
  | [] => []
  | w :: ws => blank :: w.written quote ++ continued ws

/-- Words with a blank between any two of them. -/
def line : List (QuotedWord α) → List α
  | [] => []
  | w :: ws => w.written quote ++ continued quote blank ws

/-- A bare word is not empty and has neither quotes nor blanks in it. -/
def Readable (w : QuotedWord α) : Prop :=
  w.quoted = false → w.text ≠ [] ∧ quote ∉ w.text ∧ blank ∉ w.text

/-- A quote and a blank in the second text look like the end of the first one: the words behind the
    first text are written as the rest of the second text and the words behind that. -/
def Cut (text : List α) (ws : List (QuotedWord α)) (text' : List α) (ws' : List (QuotedWord α)) :
    Prop :=
  text' = text ++ quote :: blank :: text'.drop (text.length + 2) ∧
    line quote blank ws = text'.drop (text.length + 2) ++ quote :: continued quote blank ws'

/-- The first words that differ are quoted, and the end of one is in the text of the other. -/
def Confused [DecidableEq α] : List (QuotedWord α) → List (QuotedWord α) → Prop
  | w :: ws, w' :: ws' =>
    if w = w' then Confused ws ws'
    else w.quoted = true ∧ w'.quoted = true ∧
      (Cut quote blank w.text ws w'.text ws' ∨ Cut quote blank w'.text ws' w.text ws)
  | _, _ => False

variable {quote blank}

instance [DecidableEq α] (text : List α) (ws : List (QuotedWord α)) (text' : List α)
    (ws' : List (QuotedWord α)) : Decidable (Cut quote blank text ws text' ws') :=
  inferInstanceAs (Decidable (_ ∧ _))

instance Confused.decidable [DecidableEq α] :
    (ws ws' : List (QuotedWord α)) → Decidable (Confused quote blank ws ws')
  | [], _ => inferInstanceAs (Decidable False)
  | _ :: _, [] => inferInstanceAs (Decidable False)
  | w :: ws, w' :: ws' =>
    if same : w = w' then
      have := Confused.decidable ws ws'
      decidable_of_iff (Confused quote blank ws ws') (by rw [Confused, if_pos same])
    else
      decidable_of_iff (w.quoted = true ∧ w'.quoted = true ∧
        (Cut quote blank w.text ws w'.text ws' ∨ Cut quote blank w'.text ws' w.text ws))
        (by rw [Confused, if_neg same])

theorem cut_iff {text text' : List α} {ws ws' : List (QuotedWord α)} :
    Cut quote blank text ws text' ws' ↔ ∃ rest, text' = text ++ quote :: blank :: rest ∧
      line quote blank ws = rest ++ quote :: continued quote blank ws' := by
  constructor
  · rintro ⟨cut, written⟩
    exact ⟨_, cut, written⟩
  · rintro ⟨rest, rfl, written⟩
    have rest_eq : (text ++ quote :: blank :: rest).drop (text.length + 2) = rest := by simp
    exact ⟨by rw [rest_eq], by rw [rest_eq, written]⟩

theorem continued_eq_nil {ws : List (QuotedWord α)} : continued quote blank ws = [] ↔ ws = [] := by
  cases ws <;> simp [continued]

theorem line_eq_intercalate (quote blank : α) (ws : List (QuotedWord α)) :
    line quote blank ws = [blank].intercalate (ws.map (written quote)) := by
  induction ws with
  | nil => rfl
  | cons w ws ih =>
    cases ws with
    | nil => simp [line, continued]
    | cons w' ws =>
      rw [List.map_cons, List.map_cons, List.intercalate_cons_cons, ← List.map_cons, ← ih]
      simp [line, continued]

theorem continued_cases (quote blank : α) (ws : List (QuotedWord α)) :
    ws = [] ∧ continued quote blank ws = [] ∨
      continued quote blank ws = blank :: line quote blank ws := by
  cases ws with
  | nil => exact Or.inl ⟨rfl, rfl⟩
  | cons w ws => exact Or.inr rfl

theorem append_cons_iff {a : α} {l l' rest rest' : List α} (absent : a ∉ l) (absent' : a ∉ l') :
    l ++ a :: rest = l' ++ a :: rest' ↔ l = l' ∧ rest = rest' := by
  refine ⟨fun same => ?_, fun both => by rw [both.1, both.2]⟩
  rcases List.append_eq_append_iff.mp same with ⟨part, longer, behind⟩ | ⟨part, longer, behind⟩
  · cases part with
    | nil => exact ⟨by simpa using longer.symm, (List.cons.inj behind).2⟩
    | cons ch part =>
      obtain ⟨rfl, -⟩ := List.cons.inj behind
      simp [longer] at absent'
  · cases part with
    | nil => exact ⟨by simpa using longer, (List.cons.inj behind).2.symm⟩
    | cons ch part =>
      obtain ⟨rfl, -⟩ := List.cons.inj behind
      simp [longer] at absent

theorem bare_append_iff {text text' : List α} {ws ws' : List (QuotedWord α)}
    (plain : blank ∉ text) (plain' : blank ∉ text') :
    text ++ continued quote blank ws = text' ++ continued quote blank ws' ↔
      text = text' ∧ continued quote blank ws = continued quote blank ws' := by
  refine ⟨fun same => ?_, fun both => by rw [both.1, both.2]⟩
  rcases continued_cases quote blank ws with ⟨-, nil⟩ | some_words <;>
    rcases continued_cases quote blank ws' with ⟨-, nil'⟩ | some_words'
  · rw [nil, nil', List.append_nil, List.append_nil] at same
    exact ⟨same, nil.trans nil'.symm⟩
  · rw [nil, some_words', List.append_nil] at same
    exact absurd (by rw [same]; simp) plain
  · rw [some_words, nil', List.append_nil] at same
    exact absurd (by rw [← same]; simp) plain'
  · rw [some_words, some_words'] at same
    obtain ⟨texts, lines⟩ := (append_cons_iff plain plain').mp same
    exact ⟨texts, by rw [some_words, some_words', lines]⟩

theorem cut_of_append {text text' : List α} {ws ws' : List (QuotedWord α)} (other : quote ≠ blank)
    {part : List α} (longer : text' = text ++ part) (differ : text ≠ text')
    (same : quote :: continued quote blank ws = part ++ quote :: continued quote blank ws') :
    Cut quote blank text ws text' ws' := by
  cases part with
  | nil => exact absurd (by simp [longer]) differ
  | cons ch part =>
    obtain ⟨rfl, behind⟩ := List.cons.inj same
    rcases continued_cases quote blank ws with ⟨-, nil⟩ | some_words
    · simp [nil] at behind
    · rw [some_words] at behind
      cases part with
      | nil => exact absurd (List.cons.inj behind).1.symm other
      | cons ch' part =>
        obtain ⟨rfl, words⟩ := List.cons.inj behind
        exact cut_iff.mpr ⟨part, longer, words⟩

theorem quoted_append_iff {text text' : List α} {ws ws' : List (QuotedWord α)}
    (other : quote ≠ blank) (differ : text ≠ text') :
    text ++ quote :: continued quote blank ws = text' ++ quote :: continued quote blank ws' ↔
      Cut quote blank text ws text' ws' ∨ Cut quote blank text' ws' text ws := by
  have joined {text text' : List α} {ws ws' : List (QuotedWord α)}
      (cut : Cut quote blank text ws text' ws') :
      text ++ quote :: continued quote blank ws =
        text' ++ quote :: continued quote blank ws' := by
    obtain ⟨rest, rfl, written⟩ := cut_iff.mp cut
    rcases continued_cases quote blank ws with ⟨rfl, -⟩ | some_words
    · simp [line] at written
    · rw [some_words, written]
      simp
  constructor
  · intro same
    rcases List.append_eq_append_iff.mp same with ⟨part, longer, rest⟩ | ⟨part, longer, rest⟩
    · exact Or.inl (cut_of_append other longer differ rest)
    · exact Or.inr (cut_of_append other longer differ.symm rest)
  · rintro (cut | cut)
    · exact joined cut
    · exact (joined cut).symm

section Decided

variable [DecidableEq α]

theorem continued_eq_iff (other : quote ≠ blank) {ws ws' : List (QuotedWord α)}
    (readable : ∀ w ∈ ws, w.Readable quote blank) (readable' : ∀ w ∈ ws', w.Readable quote blank) :
    continued quote blank ws = continued quote blank ws' ↔
      ws = ws' ∨ Confused quote blank ws ws' := by
  induction ws generalizing ws' with
  | nil =>
    rw [continued, eq_comm, continued_eq_nil]
    simp [Confused, eq_comm]
  | cons w ws ih =>
    cases ws' with
    | nil => simp [continued, Confused]
    | cons w' ws' =>
      obtain ⟨first, rest⟩ := List.forall_mem_cons.mp readable
      obtain ⟨first', rest'⟩ := List.forall_mem_cons.mp readable'
      rw [continued, continued, List.cons_append, List.cons_append, List.cons_inj_right,
        List.cons.injEq, Confused]
      by_cases same : w = w'
      · subst same
        rw [if_pos rfl, List.append_cancel_left_eq, ih rest rest']
        simp
      rw [if_neg same, or_iff_right fun both => same both.1]
      obtain ⟨text, quoted⟩ := w
      obtain ⟨text', quoted'⟩ := w'
      cases quoted <;> cases quoted'
      case false.false =>
        obtain ⟨-, -, plain⟩ := first rfl
        obtain ⟨-, -, plain'⟩ := first' rfl
        have apart : text ≠ text' := fun equal => same (by rw [equal])
        simp [written, bare_append_iff plain plain', apart]
      case false.true =>
        obtain ⟨some_text, bare, -⟩ := first rfl
        obtain ⟨ch, text, rfl⟩ := List.exists_cons_of_ne_nil some_text
        have starts : ch ≠ quote := fun equal => bare (by simp [equal])
        simp [written, starts]
      case true.false =>
        obtain ⟨some_text, bare, -⟩ := first' rfl
        obtain ⟨ch, text', rfl⟩ := List.exists_cons_of_ne_nil some_text
        have starts : quote ≠ ch := fun equal => bare (by simp [equal])
        simp [written, starts]
      case true.true =>
        have apart : text ≠ text' := fun equal => same (by rw [equal])
        simpa [written] using quoted_append_iff other apart

omit [DecidableEq α] in
theorem written_ne_nil {w : QuotedWord α} (readable : w.Readable quote blank) :
    w.written quote ≠ [] := by
  unfold written
  split
  · simp
  · rename_i bare
    exact (readable (by simpa using bare)).1

theorem line_eq_iff (other : quote ≠ blank) {ws ws' : List (QuotedWord α)}
    (readable : ∀ w ∈ ws, w.Readable quote blank) (readable' : ∀ w ∈ ws', w.Readable quote blank) :
    line quote blank ws = line quote blank ws' ↔ ws = ws' ∨ Confused quote blank ws ws' := by
  rw [← continued_eq_iff other readable readable']
  cases ws with
  | nil =>
    cases ws' with
    | nil => rfl
    | cons w' ws' => simp [line, continued, written_ne_nil (readable' w' List.mem_cons_self)]
  | cons w ws =>
    cases ws' with
    | nil => simp [line, continued, written_ne_nil (readable w List.mem_cons_self)]
    | cons w' ws' => simp [line, continued]

/-- Words are confused only where a quoted one has a quote with a blank behind it. -/
theorem Confused.separated {ws ws' : List (QuotedWord α)} (confused : Confused quote blank ws ws') :
    ∃ w ∈ ws ++ ws', w.quoted = true ∧ Separated quote blank w.text := by
  induction ws generalizing ws' with
  | nil => exact confused.elim
  | cons w ws ih =>
    cases ws' with
    | nil => exact confused.elim
    | cons w' ws' =>
      rw [Confused] at confused
      split at confused
      · obtain ⟨x, mem, separated⟩ := ih confused
        refine ⟨x, ?_, separated⟩
        rcases List.mem_append.mp mem with left | right
        · simp [left]
        · simp [right]
      · obtain ⟨quoted, quoted', cut | cut⟩ := confused
        · obtain ⟨rest, text, -⟩ := cut_iff.mp cut
          exact ⟨w', by simp, quoted', _, rest, text⟩
        · obtain ⟨rest, text, -⟩ := cut_iff.mp cut
          exact ⟨w, by simp, quoted, _, rest, text⟩

end Decided

end QuotedWord

end Mewa.Lib
