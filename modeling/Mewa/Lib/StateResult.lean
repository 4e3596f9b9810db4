/- Module: Mewa/Lib/StateResult
   digest: Rules for computations that fail or return and change a state in both cases. -/

import Mathlib.Data.List.Basic

set_option autoImplicit false
set_option relaxedAutoImplicit false

namespace Mewa.Lib

universe u v

variable {ε σ α β : Type u}

/-- The computation returns a value and leads from one state to another. -/
def Returns (m : ExceptT ε (StateM σ) α) (s : σ) (a : α) (s' : σ) : Prop :=
  m.run.run s = (.ok a, s')

namespace Returns

variable {s s' : σ} {a b : α}

theorem bind_iff {m : ExceptT ε (StateM σ) α} {f : α → ExceptT ε (StateM σ) β} {c : β} :
    Returns (m >>= f) s c s' ↔ ∃ a t, Returns m s a t ∧ Returns (f a) t c s' := by
  unfold Returns
  rw [ExceptT.run_bind]
  show (match (m.run.run s).1 with
    | .ok x => (f x).run
    | .error e => pure (.error e)).run (m.run.run s).2 = _ ↔ _
  rcases m.run.run s with ⟨result, t⟩
  cases result with
  | error e =>
    constructor
    · intro h
      cases h
    · intro ⟨a, t', h, _⟩
      cases h
  | ok x =>
    constructor
    · intro h
      exact ⟨x, t, rfl, h⟩
    · intro ⟨a, t', h, h'⟩
      obtain ⟨same, rfl⟩ := Prod.mk.inj h
      obtain rfl := Except.ok.inj same
      exact h'

theorem pure_iff : Returns (pure a : ExceptT ε (StateM σ) α) s b s' ↔ a = b ∧ s = s' := by
  constructor
  · intro h
    obtain ⟨same, rfl⟩ := Prod.mk.inj h
    exact ⟨Except.ok.inj same, rfl⟩
  · intro ⟨same, same'⟩
    rw [same, same']
    rfl

theorem modify_iff {f : σ → σ} {c : PUnit} :
    Returns (modify f : ExceptT ε (StateM σ) PUnit) s c s' ↔ f s = s' := by
  constructor
  · intro h
    exact (Prod.mk.inj h).2
  · intro same
    rw [← same]
    rfl

theorem get_iff {t : σ} :
    Returns (get : ExceptT ε (StateM σ) σ) s t s' ↔ s = t ∧ s = s' := by
  constructor
  · intro h
    obtain ⟨same, rfl⟩ := Prod.mk.inj h
    exact ⟨Except.ok.inj same, rfl⟩
  · intro ⟨same, same'⟩
    rw [← same, ← same']
    rfl

/-- What a loop keeps, of the elements it has gone through. -/
theorem forM_invariant {ι : Type v} (I : List ι → σ → Prop) {f : ι → ExceptT ε (StateM σ) PUnit}
    {l : List ι} {u : PUnit}
    (step : ∀ {past x s s' u}, x ∈ l → I past s → Returns (f x) s u s' → I (past ++ [x]) s')
    (start : I [] s) (h : Returns (l.forM f) s u s') : I l s' := by
  have general : ∀ {rest : List ι} (past : List ι) {s : σ}, (∀ x ∈ rest, x ∈ l) → I past s →
      Returns (rest.forM f) s u s' → I (past ++ rest) s' := by
    intro rest
    induction rest with
    | nil =>
      intro past s _ inv h
      obtain ⟨-, rfl⟩ := pure_iff.mp h
      rwa [List.append_nil]
    | cons x rest ih =>
      intro past s within inv h
      obtain ⟨_, t, first, h⟩ := bind_iff.mp h
      have next := ih (past ++ [x]) (fun y mem => within y (List.mem_cons_of_mem x mem))
        (step (within x List.mem_cons_self) inv first) h
      rwa [List.append_assoc] at next
  exact general [] (fun _ mem => mem) start h

/-- What a fold keeps, of the elements it has gone through. -/
theorem foldlM_invariant {ι : Type v} (I : List ι → α → σ → Prop)
    {f : α → ι → ExceptT ε (StateM σ) α} {l : List ι}
    (step : ∀ {past x a s a' s'}, x ∈ l → I past a s → Returns (f a x) s a' s' →
      I (past ++ [x]) a' s')
    (start : I [] a s) (h : Returns (l.foldlM f a) s b s') : I l b s' := by
  have general : ∀ {rest : List ι} (past : List ι) {a : α} {s : σ}, (∀ x ∈ rest, x ∈ l) → I past a s →
      Returns (rest.foldlM f a) s b s' → I (past ++ rest) b s' := by
    intro rest
    induction rest with
    | nil =>
      intro past a s _ inv h
      obtain ⟨rfl, rfl⟩ := pure_iff.mp h
      rwa [List.append_nil]
    | cons x rest ih =>
      intro past a s within inv h
      rw [List.foldlM_cons] at h
      obtain ⟨a', t, first, h⟩ := bind_iff.mp h
      have next := ih (past ++ [x]) (fun y mem => within y (List.mem_cons_of_mem x mem))
        (step (within x List.mem_cons_self) inv first) h
      rwa [List.append_assoc] at next
  exact general [] (fun _ mem => mem) start h

end Returns

def Completes (m : ExceptT ε (StateM σ) α) (s : σ) : Prop := ∃ a s', Returns m s a s'

namespace Completes

variable {s : σ}

theorem pure (a : α) : Completes (pure a : ExceptT ε (StateM σ) α) s := ⟨a, s, rfl⟩

theorem modify (f : σ → σ) : Completes (modify f : ExceptT ε (StateM σ) PUnit) s :=
  ⟨PUnit.unit, f s, rfl⟩

theorem bind {m : ExceptT ε (StateM σ) α} {f : α → ExceptT ε (StateM σ) β} (first : Completes m s)
    (later : ∀ a t, Returns m s a t → Completes (f a) t) : Completes (m >>= f) s := by
  obtain ⟨a, t, here⟩ := first
  obtain ⟨b, t', there⟩ := later a t here
  exact ⟨b, t', Returns.bind_iff.mpr ⟨a, t, here, there⟩⟩

theorem forM {ι : Type v} (I : List ι → σ → Prop) {f : ι → ExceptT ε (StateM σ) PUnit}
    {l : List ι} (step : ∀ past x s, past ++ [x] <+: l → I past s →
      Completes (f x) s ∧ ∀ u s', Returns (f x) s u s' → I (past ++ [x]) s')
    (start : I [] s) : Completes (l.forM f) s := by
  have general (rest past : List ι) (s : σ) (whole : past ++ rest = l) (inv : I past s) :
      Completes (rest.forM f) s := by
    induction rest generalizing past s with
    | nil => exact Completes.pure _
    | cons x rest ih =>
      have longer : (past ++ [x]) ++ rest = l := by rw [← whole, List.append_assoc]; rfl
      obtain ⟨first, keep⟩ := step past x s ⟨rest, longer⟩ inv
      apply first.bind
      intro u t here
      exact ih (past ++ [x]) t longer (keep u t here)
  exact general l [] s rfl start

theorem foldlM {ι : Type v} (I : List ι → α → σ → Prop) {f : α → ι → ExceptT ε (StateM σ) α}
    {l : List ι} (step : ∀ past x a s, past ++ [x] <+: l → I past a s →
      Completes (f a x) s ∧ ∀ a' s', Returns (f a x) s a' s' → I (past ++ [x]) a' s')
    {a : α} (start : I [] a s) : Completes (l.foldlM f a) s := by
  have general (rest past : List ι) (a : α) (s : σ) (whole : past ++ rest = l) (inv : I past a s) :
      Completes (rest.foldlM f a) s := by
    induction rest generalizing past a s with
    | nil => exact Completes.pure a
    | cons x rest ih =>
      have longer : (past ++ [x]) ++ rest = l := by rw [← whole, List.append_assoc]; rfl
      obtain ⟨first, keep⟩ := step past x a s ⟨rest, longer⟩ inv
      rw [List.foldlM_cons]
      apply first.bind
      intro a' t here
      exact ih (past ++ [x]) a' t longer (keep a' t here)
  exact general l [] a s rfl start

end Completes

end Mewa.Lib
