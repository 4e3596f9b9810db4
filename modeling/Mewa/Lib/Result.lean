/- Module: Mewa/Lib/Result
   digest: Rules for fallible computations: peeling binds, folds with an invariant, map. -/

import Mewa.Lib.Correspond

set_option autoImplicit false
set_option relaxedAutoImplicit false

namespace Mewa.Lib

universe u v w

variable {ε : Type u} {α β σ : Type v}

@[simp] theorem ok_bind (a : α) (f : α → Except ε β) : (Except.ok a >>= f) = f a := rfl

@[simp] theorem error_bind (e : ε) (f : α → Except ε β) :
    ((Except.error e : Except ε α) >>= f) = .error e := rfl

/-- A bind that returns has a first part that returns. -/
theorem bind_eq_ok {x : Except ε α} {f : α → Except ε β} {b : β} :
    (x >>= f) = .ok b ↔ ∃ a, x = .ok a ∧ f a = .ok b := by
  cases x with
  | error e => simp
  | ok a => simp

theorem bind_congr_ok {x : Except ε α} {f g : α → Except ε β}
    (same : ∀ a, x = .ok a → f a = g a) : (x >>= f) = (x >>= g) := by
  cases x with
  | error e => rfl
  | ok a => exact same a rfl

theorem map_eq_ok {x : Except ε α} {f : α → β} {b : β} :
    x.map f = .ok b ↔ ∃ a, x = .ok a ∧ f a = b := by
  cases x with
  | error e => simp [Except.map]
  | ok a => simp [Except.map]

theorem toOption_eq_some {x : Except ε α} {a : α} : x.toOption = some a ↔ x = .ok a := by
  cases x <;> simp [Except.toOption]

/-- A fold that returns preserves what each of its steps preserves. -/
theorem foldlM_invariant {ι : Type w} (I : σ → Prop) {f : σ → ι → Except ε σ} {l : List ι}
    (step : ∀ s x s', x ∈ l → I s → f s x = .ok s' → I s') :
    ∀ {s s' : σ}, I s → l.foldlM f s = .ok s' → I s' := by
  induction l with
  | nil =>
    intro s s' hs h
    obtain rfl : s = s' := by simpa [pure, Except.pure] using h
    exact hs
  | cons x l ih =>
    intro s s' hs h
    rw [List.foldlM_cons] at h
    obtain ⟨t, ht, h⟩ := bind_eq_ok.mp h
    exact ih (fun s y s' hy => step s y s' (List.mem_cons_of_mem x hy))
      (step s x t List.mem_cons_self hs ht) h

/-- A fold that returns has made a step for every element. -/
theorem foldlM_step {ι : Type w} {f : σ → ι → Except ε σ} {l : List ι} {s s' : σ}
    (h : l.foldlM f s = .ok s') {x : ι} (hx : x ∈ l) : ∃ t t', f t x = .ok t' := by
  induction l generalizing s with
  | nil => simp at hx
  | cons y l ih =>
    rw [List.foldlM_cons] at h
    obtain ⟨t, ht, h⟩ := bind_eq_ok.mp h
    rcases List.mem_cons.mp hx with rfl | hx
    · exact ⟨s, t, ht⟩
    · exact ih h hx

theorem foldlM_eq_error {ι : Type w} {f : σ → ι → Except ε σ} {l : List ι} {s : σ} {e : ε}
    (h : l.foldlM f s = .error e) : ∃ s', ∃ x ∈ l, f s' x = .error e := by
  induction l generalizing s with
  | nil => simp [pure, Except.pure] at h
  | cons x l ih =>
    rw [List.foldlM_cons] at h
    cases step : f s x with
    | error e' =>
      rw [step] at h
      obtain rfl := Except.error.inj h
      exact ⟨s, x, List.mem_cons_self, step⟩
    | ok t =>
      rw [step, ok_bind] at h
      obtain ⟨s', y, mem, failed⟩ := ih h
      exact ⟨s', y, List.mem_cons_of_mem x mem, failed⟩

/-- What a fold adds is what its steps add. -/
theorem foldl_iff {ι : Type w} {f : σ → ι → σ} {l : List ι} {I : σ → Prop} {A : ι → Prop}
    (step : ∀ s x, x ∈ l → (I (f s x) ↔ I s ∨ A x)) (s : σ) :
    I (l.foldl f s) ↔ I s ∨ ∃ x ∈ l, A x := by
  induction l generalizing s with
  | nil => simp
  | cons x l ih =>
    rw [List.foldl_cons, ih (fun t y mem => step t y (List.mem_cons_of_mem x mem)),
      step s x List.mem_cons_self, or_assoc, List.exists_mem_cons_iff]

/-- A map that returns has related all elements with their images. -/
theorem mapM_eq_ok {f : α → Except ε β} {l : List α} {l' : List β} (h : l.mapM f = .ok l') :
    List.Forall₂ (fun a b => f a = .ok b) l l' := by
  induction l generalizing l' with
  | nil =>
    obtain rfl : [] = l' := by simpa [pure, Except.pure] using h
    exact .nil
  | cons a l ih =>
    rw [List.mapM_cons] at h
    obtain ⟨b, hb, h⟩ := bind_eq_ok.mp h
    obtain ⟨bs, hbs, h⟩ := bind_eq_ok.mp h
    obtain rfl : b :: bs = l' := by simpa [pure, Except.pure] using h
    exact .cons hb (ih hbs)

theorem mapM_of_ok {f : α → Except ε β} {g : α → β} {l : List α}
    (each : ∀ a ∈ l, f a = .ok (g a)) : l.mapM f = .ok (l.map g) := by
  induction l with
  | nil => rfl
  | cons a l ih =>
    obtain ⟨head, tail⟩ := List.forall_mem_cons.mp each
    rw [List.mapM_cons, head, ok_bind, ih tail]
    rfl

theorem mem_mapM {f : α → Except ε β} {l : List α} {l' : List β} (h : l.mapM f = .ok l') :
    (∀ b ∈ l', ∃ a ∈ l, f a = .ok b) ∧ ∀ a ∈ l, ∃ b ∈ l', f a = .ok b := by
  have related := mapM_eq_ok h
  exact ⟨fun b mem => exists_left related mem, fun a mem => exists_right related mem⟩

/-- What the images keep of the elements. -/
theorem map_of_mapM {γ : Type w} {f : α → Except ε β} {l : List α} {l' : List β} {g : β → γ}
    {k : α → γ} (keep : ∀ a b, f a = .ok b → g b = k a) (h : l.mapM f = .ok l') :
    l'.map g = l.map k := by
  have related := mapM_eq_ok h
  clear h
  induction related with
  | nil => rfl
  | cons here _ ih => rw [List.map_cons, List.map_cons, ih, keep _ _ here]

theorem exists_mapM_map_iff {γ : Type w} {f : α → Except ε β} {g : β → γ} {k : α → γ}
    {l : List α} :
    (∃ l', l.mapM f = .ok l' ∧ l'.map g = l.map k) ↔ ∀ a ∈ l, ∃ b, f a = .ok b ∧ g b = k a := by
  constructor
  · rintro ⟨l', h, same⟩ a mem
    have related := mapM_eq_ok h
    clear h
    induction related with
    | nil => simp at mem
    | @cons x b l l' here _ ih =>
      obtain ⟨first, rest⟩ := List.cons.inj same
      rcases List.mem_cons.mp mem with rfl | mem
      · exact ⟨b, here, first⟩
      · exact ih rest mem
  · intro all
    induction l with
    | nil => exact ⟨[], rfl, rfl⟩
    | cons a l ih =>
      obtain ⟨b, here, first⟩ := all a List.mem_cons_self
      obtain ⟨l', later, rest⟩ := ih fun x mem => all x (List.mem_cons_of_mem a mem)
      exact ⟨b :: l', by rw [List.mapM_cons, here, later]; rfl, by rw [List.map_cons, first, rest]; rfl⟩

theorem mapM_eq_error {f : α → Except ε β} {l : List α} {e : ε} (h : l.mapM f = .error e) :
    ∃ a ∈ l, f a = .error e := by
  induction l with
  | nil => simp [pure, Except.pure] at h
  | cons a l ih =>
    rw [List.mapM_cons] at h
    cases here : f a with
    | error e' =>
      rw [here] at h
      obtain rfl := Except.error.inj h
      exact ⟨a, List.mem_cons_self, here⟩
    | ok b =>
      rw [here, ok_bind] at h
      cases later : l.mapM f with
      | error e' =>
        rw [later] at h
        obtain rfl := Except.error.inj h
        obtain ⟨x, mem, failed⟩ := ih later
        exact ⟨x, List.mem_cons_of_mem a mem, failed⟩
      | ok l' => rw [later] at h; simp [pure, Except.pure] at h

theorem exists_of_foldlM_error {ι : Type w} {f : σ → ι → Except ε σ} {l : List ι} {s : σ} {e : ε}
    (h : l.foldlM f s = .error e) : ∃ past x future t, l = past ++ x :: future ∧
      past.foldlM f s = .ok t ∧ f t x = .error e := by
  induction l generalizing s with
  | nil => cases h
  | cons x l ih =>
    rw [List.foldlM_cons] at h
    cases step : f s x with
    | error e' =>
      rw [step] at h
      obtain rfl := Except.error.inj h
      exact ⟨[], x, l, s, rfl, rfl, step⟩
    | ok t =>
      rw [step, ok_bind] at h
      obtain ⟨past, y, future, t', rfl, fed, failed⟩ := ih h
      refine ⟨x :: past, y, future, t', rfl, ?_, failed⟩
      rw [List.foldlM_cons, step]
      exact fed

theorem map_mapM_flatMap {γ δ : Type v} {f : α → Except ε β} {g : β → List γ} {k : α → List δ}
    {w : δ → Except ε γ} {l : List α} (each : ∀ a ∈ l, (f a).map g = (k a).mapM w) :
    (l.mapM f).map (·.flatMap g) = (l.flatMap k).mapM w := by
  induction l with
  | nil => rfl
  | cons a l ih =>
    rw [List.mapM_cons, List.flatMap_cons, List.mapM_append, ← each a List.mem_cons_self,
      ← ih fun x mem => each x (List.mem_cons_of_mem a mem)]
    cases f a with
    | error e => rfl
    | ok b => cases l.mapM f <;> rfl

/-- If the result is an error, then one of this kind. -/
structure FailsWith (P : ε → Prop) (x : Except ε α) : Prop where
  kind : ∀ e, x = .error e → P e

namespace FailsWith

variable {P : ε → Prop}

@[simp]
theorem ok (a : α) : FailsWith P (.ok a : Except ε α) where
  kind e h := by cases h

@[simp]
theorem error_iff {e : ε} : FailsWith P (.error e : Except ε α) ↔ P e := by
  constructor
  · intro fails
    exact fails.kind e rfl
  · intro here
    refine ⟨fun e' h => ?_⟩
    obtain rfl := Except.error.inj h
    exact here

theorem bind {x : Except ε α} {f : α → Except ε β} (first : FailsWith P x)
    (later : ∀ a, x = .ok a → FailsWith P (f a)) : FailsWith P (x >>= f) := by
  cases here : x with
  | error e => exact error_iff.mpr (first.kind e here)
  | ok a => exact later a here

theorem foldlM {ι : Type w} {f : σ → ι → Except ε σ} {l : List ι}
    (step : ∀ s, ∀ x ∈ l, FailsWith P (f s x)) (s : σ) : FailsWith P (l.foldlM f s) where
  kind e h := by
    obtain ⟨s', x, mem, failed⟩ := foldlM_eq_error h
    exact (step s' x mem).kind e failed

theorem mapM {f : α → Except ε β} {l : List α} (each : ∀ a ∈ l, FailsWith P (f a)) :
    FailsWith P (l.mapM f) where
  kind e h := by
    obtain ⟨a, mem, failed⟩ := mapM_eq_error h
    exact (each a mem).kind e failed

/-- A result that cannot be an error is a value. -/
theorem exists_ok {x : Except ε α} (never : FailsWith (fun _ => False) x) : ∃ a, x = .ok a := by
  cases here : x with
  | error e => exact (never.kind e here).elim
  | ok a => exact ⟨a, rfl⟩

end FailsWith

/-- The computation returns what is promised, or it fails in a way that is allowed. -/
structure Yields (P : ε → Prop) (Q : α → Prop) (x : Except ε α) : Prop extends FailsWith P x where
  result : ∀ a, x = .ok a → Q a

namespace Yields

variable {P : ε → Prop} {Q R : α → Prop}

theorem ok_iff {a : α} : Yields P Q (.ok a : Except ε α) ↔ Q a := by
  constructor
  · intro yields
    exact yields.result a rfl
  · intro holds
    refine ⟨.ok a, fun b same => ?_⟩
    obtain rfl := Except.ok.inj same
    exact holds

theorem error_iff {e : ε} : Yields P Q (.error e : Except ε α) ↔ P e := by
  constructor
  · intro yields
    exact yields.kind e rfl
  · intro allowed
    exact ⟨FailsWith.error_iff.mpr allowed, fun a same => by cases same⟩

theorem mono {x : Except ε α} (yields : Yields P Q x) (more : ∀ a, x = .ok a → Q a → R a) :
    Yields P R x :=
  ⟨yields.toFailsWith, fun a same => more a same (yields.result a same)⟩

theorem allow {P' : ε → Prop} {x : Except ε α} (yields : Yields P Q x) (more : ∀ e, P e → P' e) :
    Yields P' Q x :=
  ⟨⟨fun e same => more e (yields.kind e same)⟩, yields.result⟩

theorem bind {x : Except ε α} {f : α → Except ε β} {S : β → Prop} (first : Yields P Q x)
    (later : ∀ a, x = .ok a → Q a → Yields P S (f a)) : Yields P S (x >>= f) := by
  cases here : x with
  | error e => exact error_iff.mpr (first.kind e here)
  | ok a => exact later a here (first.result a here)

theorem foldlM {ι : Type w} (I : List ι → σ → Prop) {f : σ → ι → Except ε σ} {l : List ι}
    (step : ∀ past x s, past ++ [x] <+: l → I past s → Yields P (I (past ++ [x])) (f s x)) {s : σ}
    (start : I [] s) : Yields P (I l) (l.foldlM f s) := by
  have general (rest past : List ι) (s : σ) (whole : past ++ rest = l) (inv : I past s) :
      Yields P (I l) (rest.foldlM f s) := by
    induction rest generalizing past s with
    | nil =>
      rw [List.append_nil] at whole
      exact ok_iff.mpr (whole ▸ inv)
    | cons x rest ih =>
      have longer : (past ++ [x]) ++ rest = l := by rw [← whole, List.append_assoc]; rfl
      rw [List.foldlM_cons]
      apply (step past x s ⟨rest, longer⟩ inv).bind
      intro t _ next
      exact ih (past ++ [x]) t longer next
  exact general l [] s rfl start

end Yields

end Mewa.Lib
