/- Module: Mewa/Lib/Correspond
   digest: Lists whose elements correspond to each other, and related elements of a list. -/

import Mathlib.Data.List.Forall2
import Mathlib.Data.List.Pairwise

set_option autoImplicit false
set_option relaxedAutoImplicit false

universe u v w

namespace Mewa.Lib

variable {α : Type u} {β : Type v} {P : α → β → Prop} {l : List α} {l' : List β}

theorem exists_left (all : List.Forall₂ P l l') {b : β} (mem : b ∈ l') : ∃ a ∈ l, P a b := by
  induction all with
  | nil => simp at mem
  | @cons a _ _ _ here _ ih =>
    rcases List.mem_cons.mp mem with rfl | mem
    · exact ⟨a, List.mem_cons_self, here⟩
    · obtain ⟨x, origin, related⟩ := ih mem
      exact ⟨x, List.mem_cons_of_mem a origin, related⟩

theorem exists_right (all : List.Forall₂ P l l') {a : α} (mem : a ∈ l) : ∃ b ∈ l', P a b := by
  obtain ⟨b, image, related⟩ := exists_left all.flip mem
  exact ⟨b, image, related⟩

theorem forall₂_and {Q : α → Prop} {R : β → Prop} (all : List.Forall₂ P l l') (left : ∀ a ∈ l, Q a)
    (right : ∀ b ∈ l', R b) : List.Forall₂ (fun a b => P a b ∧ Q a ∧ R b) l l' := by
  induction all with
  | nil => exact .nil
  | cons here _ ih =>
    obtain ⟨q, left⟩ := List.forall_mem_cons.mp left
    obtain ⟨r, right⟩ := List.forall_mem_cons.mp right
    exact .cons ⟨here, q, r⟩ (ih left right)

theorem map_eq_iff {γ : Type v} {δ : Type w} {f : α → γ} {g : α → δ} {l l' : List α}
    (same : ∀ a ∈ l, ∀ b ∈ l', f a = f b ↔ g a = g b) : l.map f = l'.map f ↔ l.map g = l'.map g := by
  induction l generalizing l' with
  | nil => cases l' <;> simp
  | cons a l ih =>
    cases l' with
    | nil => simp
    | cons b l' =>
      rw [List.map_cons, List.map_cons, List.map_cons, List.map_cons, List.cons.injEq,
        List.cons.injEq, same a List.mem_cons_self b List.mem_cons_self,
        ih fun x mem y mem' => same x (List.mem_cons_of_mem a mem) y (List.mem_cons_of_mem b mem')]

theorem forall₂_getLast? (all : List.Forall₂ P l l') {b : β} (last : l'.getLast? = some b) :
    ∃ a, l.getLast? = some a ∧ P a b ∧ List.Forall₂ P l.dropLast l'.dropLast := by
  induction all with
  | nil => simp at last
  | @cons x y l l' here rest ih =>
    cases rest with
    | nil =>
      obtain rfl : y = b := by simpa using last
      exact ⟨x, rfl, here, .nil⟩
    | cons next rest =>
      obtain ⟨x', last', here', before⟩ := ih (by simpa using last)
      exact ⟨x', by simpa using last', here', .cons here before⟩

/-- Two elements of a list, one before the other, are related. -/
def Twice (R : α → α → Prop) (l : List α) : Prop := ¬ l.Pairwise fun a b => ¬ R a b

instance (R : α → α → Prop) [DecidableRel R] (l : List α) : Decidable (Twice R l) :=
  inferInstanceAs (Decidable (¬ _))

theorem twice_map {f : α → β} : ¬ (l.map f).Nodup ↔ Twice (fun a b => f a = f b) l := by
  rw [List.Nodup, List.pairwise_map]
  rfl

theorem twice_or {R S : α → α → Prop} :
    Twice (fun a b => R a b ∨ S a b) l ↔ Twice R l ∨ Twice S l := by
  simp only [Twice, not_or, List.pairwise_and_iff]
  exact not_and_or

theorem Twice.imp {R S : α → α → Prop} (imp : ∀ a b, R a b → S a b) (twice : Twice R l) :
    Twice S l :=
  fun apart => twice (apart.imp fun other related => other (imp _ _ related))

theorem twice_iff_of_forall₂ {R : α → α → Prop} {S : β → β → Prop} (all : List.Forall₂ P l l')
    (same : ∀ a a' b b', P a b → P a' b' → (R a a' ↔ S b b')) : Twice R l ↔ Twice S l' := by
  refine not_congr ?_
  induction all with
  | nil => simp
  | @cons a b l l' here rest ih =>
    rw [List.pairwise_cons, List.pairwise_cons, ih]
    refine and_congr_left' ⟨fun apart b' mem related => ?_, fun apart a' mem related => ?_⟩
    · obtain ⟨a', origin, here'⟩ := exists_left rest mem
      exact apart a' origin ((same a a' b b' here here').mpr related)
    · obtain ⟨b', image, here'⟩ := exists_right rest mem
      exact apart b' image ((same a a' b b' here here').mp related)

end Mewa.Lib
