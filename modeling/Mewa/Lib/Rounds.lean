/- Module: Mewa/Lib/Rounds
   digest: Rounds over a list that tell if they changed something, repeated until one does not. -/

import Mathlib

set_option autoImplicit false
set_option relaxedAutoImplicit false

universe u v w

namespace Mewa.Lib

section Round

variable {σ : Type u} {α : Type v} {R : σ → σ → Prop} {step : σ → α → σ} {l : List α}

theorem foldl_related (refl : ∀ s, R s s) (trans : ∀ {s t r}, R s t → R t r → R s r)
    (each : ∀ s, ∀ a ∈ l, R s (step s a)) (s : σ) : R s (l.foldl step s) := by
  induction l generalizing s with
  | nil => exact refl s
  | cons a l ih =>
    have first := each s a List.mem_cons_self
    exact trans first (ih (fun s b mem => each s b (List.mem_cons_of_mem a mem)) (step s a))

theorem foldl_between (refl : ∀ s, R s s) (trans : ∀ {s t r}, R s t → R t r → R s r)
    (each : ∀ s, ∀ a ∈ l, R s (step s a)) (s : σ) {a : α} (mem : a ∈ l) :
    ∃ mid, R s mid ∧ R (step mid a) (l.foldl step s) := by
  obtain ⟨before, after, rfl⟩ := List.append_of_mem mem
  refine ⟨before.foldl step s, ?_, ?_⟩
  · exact foldl_related refl trans (fun s b mem => each s b (List.mem_append_left _ mem)) s
  · rw [List.foldl_append, List.foldl_cons]
    refine foldl_related refl trans (fun s b mem => each s b ?_) _
    exact List.mem_append_right _ (List.mem_cons_of_mem a mem)

end Round

section Rounds

variable {ε : Type u} {σ γ : Type v} {round : σ → σ × Bool} {loop : Nat → σ → Except ε σ}
  (Inv : σ → Prop) (view : σ → Set γ) (bound : Set γ)

theorem rounds_end
    (succ : ∀ fuel s, loop (fuel + 1) s =
      if (round s).2 then loop fuel (round s).1 else .ok (round s).1)
    (keeps : ∀ s, Inv s → Inv (round s).1) (finite : bound.Finite)
    (within : ∀ s, Inv s → view s ⊆ bound)
    (grows : ∀ s, Inv s → (round s).2 = true → view s ⊂ view (round s).1) {s : σ} (inv : Inv s) :
    ∃ last n, Inv last ∧ (round last).2 = false ∧
      ∀ fuel, n ≤ fuel → loop fuel s = .ok (round last).1 := by
  -- by induction on the room that the view has left
  induction room : (bound \ view s).ncard using Nat.strong_induction_on generalizing s with
  | h room' ih =>
    cases changed : (round s).2 with
    | false =>
      refine ⟨s, 1, inv, changed, fun fuel enough => ?_⟩
      obtain ⟨fuel, rfl⟩ : ∃ n, fuel = n + 1 := ⟨fuel - 1, by omega⟩
      rw [succ, changed]
      rfl
    | true =>
      have less : (bound \ view (round s).1).ncard < room' := by
        rw [← room]
        refine Set.ncard_lt_ncard ?_ finite.sdiff
        obtain ⟨x, new, old⟩ := Set.exists_of_ssubset (grows s inv changed)
        have sub := Set.sdiff_subset_sdiff_right (s := bound) (grows s inv changed).1
        refine ⟨sub, fun back => ?_⟩
        exact (back ⟨within _ (keeps s inv) new, old⟩).2 new
      obtain ⟨last, n, inv', still, ends⟩ := ih _ less (keeps s inv) rfl
      refine ⟨last, n + 1, inv', still, fun fuel enough => ?_⟩
      obtain ⟨fuel, rfl⟩ : ∃ n, fuel = n + 1 := ⟨fuel - 1, by omega⟩
      rw [succ, changed]
      exact ends fuel (by omega)

theorem rounds_settled {e : ε} (zero : ∀ s, loop 0 s = .error e)
    (succ : ∀ fuel s, loop (fuel + 1) s =
      if (round s).2 then loop fuel (round s).1 else .ok (round s).1)
    {s r : σ} {n : Nat} (ends : ∀ fuel, n ≤ fuel → loop fuel s = .ok r) (fuel : Nat) :
    loop fuel s = .ok r ∨ loop fuel s = .error e := by
  induction fuel generalizing s with
  | zero => exact Or.inr (zero s)
  | succ fuel ih =>
    cases changed : (round s).2 with
    | false =>
      have last := ends (n + 1) (by omega)
      rw [succ, changed] at last ⊢
      exact Or.inl last
    | true =>
      rw [succ, changed]
      apply ih
      intro more enough
      have later := ends (more + 1) (by omega)
      rwa [succ, changed] at later

end Rounds

end Mewa.Lib
