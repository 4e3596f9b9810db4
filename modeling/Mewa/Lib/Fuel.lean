/- Module: Mewa/Lib/Fuel
   digest: Recursions with a bound on their depth that come to the same result under every bound
     that is large enough. A result under a larger bound. -/

import Mewa.Lib.Result

set_option autoImplicit false
set_option relaxedAutoImplicit false

universe u v w

namespace Mewa.Lib

variable {ε : Type u} {α β : Type v} {P : ε → Prop}

/-- From some bound on the result is the same, and if it is an error, then one of this kind. -/
def Settles (P : ε → Prop) (f : Nat → Except ε α) : Prop :=
  ∃ (fuel : Nat) (result : Except ε α), FailsWith P result ∧ ∀ more, fuel ≤ more → f more = result

namespace Settles

theorem const {result : Except ε α} (fails : FailsWith P result) : Settles P fun _ => result :=
  ⟨0, result, fails, fun _ _ => rfl⟩

theorem of_succ {f g : Nat → Except ε α} (step : ∀ fuel, g (fuel + 1) = f fuel)
    (settles : Settles P f) : Settles P g := by
  obtain ⟨fuel, result, fails, same⟩ := settles
  refine ⟨fuel + 1, result, fails, fun more enough => ?_⟩
  obtain ⟨more, rfl⟩ : ∃ n, more = n + 1 := ⟨more - 1, by omega⟩
  rw [step]
  exact same more (by omega)

theorem bind {f : Nat → Except ε α} {g : Nat → α → Except ε β} (first : Settles P f)
    (later : ∀ a, Settles P fun fuel => g fuel a) : Settles P fun fuel => f fuel >>= g fuel := by
  obtain ⟨fuel, result, fails, same⟩ := first
  cases result with
  | error e =>
    refine ⟨fuel, .error e, FailsWith.error_iff.mpr (FailsWith.error_iff.mp fails), ?_⟩
    intro more enough
    show f more >>= g more = _
    rw [same more enough]
    rfl
  | ok a =>
    obtain ⟨fuel', result', fails', same'⟩ := later a
    refine ⟨max fuel fuel', result', fails', fun more enough => ?_⟩
    show f more >>= g more = _
    rw [same more (by omega), ok_bind]
    exact same' more (by omega)

theorem map {f : Nat → Except ε α} (settles : Settles P f) (g : α → β) :
    Settles P fun fuel => (f fuel).map g := by
  obtain ⟨fuel, result, fails, same⟩ := settles
  refine ⟨fuel, result.map g, ?_, fun more enough => congrArg (Except.map g) (same more enough)⟩
  cases result with
  | error e => exact FailsWith.error_iff.mpr (FailsWith.error_iff.mp fails)
  | ok a => exact .ok (g a)

theorem mapM {ι : Type w} {f : Nat → ι → Except ε α} {l : List ι}
    (each : ∀ x ∈ l, Settles P fun fuel => f fuel x) : Settles P fun fuel => l.mapM (f fuel) := by
  induction l with
  | nil => exact const (.ok [])
  | cons x l ih =>
    simp only [List.mapM_cons]
    refine bind (each x List.mem_cons_self) fun a => ?_
    refine bind (ih fun y mem => each y (List.mem_cons_of_mem x mem)) fun as => ?_
    exact const (.ok (a :: as))

end Settles

/-- The second result is the first one, unless this was an error of too little fuel. -/
def Extends (short : ε) (x y : Except ε α) : Prop := x ≠ .error short → y = x

namespace Extends

variable {short : ε}

theorem refl (x : Except ε α) : Extends short x x := fun _ => rfl

theorem bind {x y : Except ε α} {f g : α → Except ε β} (first : Extends short x y)
    (later : ∀ a, Extends short (f a) (g a)) : Extends short (x >>= f) (y >>= g) := by
  intro enough
  have same : y = x := by
    apply first
    rintro rfl
    exact enough rfl
  rw [same]
  cases x with
  | error e => rfl
  | ok a => exact later a enough

theorem foldlM {ι : Type w} {f g : α → ι → Except ε α} {l : List ι}
    (each : ∀ s, ∀ x ∈ l, Extends short (f s x) (g s x)) (s : α) :
    Extends short (l.foldlM f s) (l.foldlM g s) := by
  induction l generalizing s with
  | nil => exact refl _
  | cons x l ih =>
    rw [List.foldlM_cons, List.foldlM_cons]
    apply (each s x List.mem_cons_self).bind
    intro t
    exact ih (fun s y mem => each s y (List.mem_cons_of_mem x mem)) t

end Extends

end Mewa.Lib
