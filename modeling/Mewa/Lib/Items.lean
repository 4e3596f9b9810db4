/- Module: Mewa/Lib/Items
   digest: Items valid for a viable prefix, with the terminals that may follow them. -/

import Mewa.Lib.Derivation

set_option autoImplicit false
set_option relaxedAutoImplicit false

namespace Mewa.Lib.Productions

variable {P T N : Type} (G : Productions P T N)

/-- The items of a set of items closed under the productions of the nonterminals behind a dot. -/
inductive Closed (K : P → Nat → Prop) : P → Nat → Prop
  | kernel {p : P} {k : Nat} : K p k → Closed K p k
  | closure {p q : P} {k : Nat} : Closed K p k → (G.rule p).output[k]? = some (G.head q) →
      Closed K q 0

/-- The items that are valid for a prefix: a production and a position in its right side. -/
inductive Item : List (Symbol T N) → P → Nat → Prop
  | start : Item [] G.start 0
  | closure {γ : List (Symbol T N)} {p q : P} {k : Nat} : Item γ p k →
      (G.rule p).output[k]? = some (G.head q) → Item γ q 0
  | goto {γ : List (Symbol T N)} {p : P} {k : Nat} {s : Symbol T N} : Item γ p k →
      (G.rule p).output[k]? = some s → Item (γ ++ [s]) p (k + 1)

def First (u : List (Symbol T N)) (t : T) : Prop := ∃ v, G.Derives u (.terminal t :: v)

def Nullable (u : List (Symbol T N)) : Prop := G.Derives u []

/-- An item with a terminal, or the end of the input, that may follow its production. What follows
    the production of an item behind the dot comes from the rest of the item, or from what follows
    the item if the rest is nullable. -/
inductive ItemLook : List (Symbol T N) → P → Nat → Option T → Prop
  | start : ItemLook [] G.start 0 none
  | first {γ : List (Symbol T N)} {p q : P} {k : Nat} {t : T} : G.Item γ p k →
      (G.rule p).output[k]? = some (G.head q) → G.First ((G.rule p).output.drop (k + 1)) t →
      ItemLook γ q 0 (some t)
  | inherit {γ : List (Symbol T N)} {p q : P} {k : Nat} {a : Option T} : ItemLook γ p k a →
      (G.rule p).output[k]? = some (G.head q) → G.Nullable ((G.rule p).output.drop (k + 1)) →
      ItemLook γ q 0 a
  | goto {γ : List (Symbol T N)} {p : P} {k : Nat} {a : Option T} {s : Symbol T N} :
      ItemLook γ p k a → (G.rule p).output[k]? = some s → ItemLook (γ ++ [s]) p (k + 1) a

variable {G}

section Positions

variable {γ : List (Symbol T N)} {p : P} {k : Nat}

/-- The right side from a symbol on. -/
theorem drop_eq_cons {s : Symbol T N} (next : (G.rule p).output[k]? = some s) :
    (G.rule p).output.drop k = s :: (G.rule p).output.drop (k + 1) := by
  obtain ⟨bound, rfl⟩ := List.getElem?_eq_some_iff.mp next
  exact List.drop_eq_getElem_cons bound

theorem take_succ_eq {s : Symbol T N} (next : (G.rule p).output[k]? = some s) :
    (G.rule p).output.take (k + 1) = (G.rule p).output.take k ++ [s] := by
  rw [List.take_add_one, next]
  rfl

theorem Item.le_length (h : G.Item γ p k) : k ≤ (G.rule p).output.length := by
  cases h with
  | start => exact Nat.zero_le _
  | closure _ _ => exact Nat.zero_le _
  | goto _ next => exact (List.getElem?_eq_some_iff.mp next).1

/-- The part of a right side before the dot is the end of the prefix. -/
theorem Item.exists_origin (h : G.Item γ p k) :
    ∃ δ, γ = δ ++ (G.rule p).output.take k ∧ G.Item δ p 0 := by
  induction h with
  | start => exact ⟨[], rfl, .start⟩
  | @closure γ p q k item next _ => exact ⟨γ, (List.append_nil γ).symm, .closure item next⟩
  | goto _ next ih =>
    obtain ⟨δ, rfl, origin⟩ := ih
    exact ⟨δ, by rw [take_succ_eq next, List.append_assoc], origin⟩

theorem ItemLook.item {a : Option T} (h : G.ItemLook γ p k a) : G.Item γ p k := by
  induction h with
  | start => exact .start
  | first item next _ => exact .closure item next
  | inherit _ next _ ih => exact .closure ih next
  | goto _ next ih => exact .goto ih next

theorem Item.start_origin (h : G.Item γ G.start 0) : γ = [] := by
  generalize begin_eq : G.start = p at h
  generalize zero : 0 = k at h
  cases h with
  | start => rfl
  | @closure _ p' _ k' item next =>
    subst begin_eq
    exact absurd (List.mem_of_getElem? next) (G.start_fresh p')
  | goto _ _ => omega

theorem Item.start_prefix (h : G.Item γ G.start k) : γ = (G.rule G.start).output.take k := by
  obtain ⟨δ, rfl, origin⟩ := h.exists_origin
  rw [origin.start_origin, List.nil_append]

theorem ItemLook.start_eq {a : Option T} (h : G.ItemLook γ G.start k a) : a = none := by
  generalize begin_eq : G.start = p at h
  induction h with
  | start => rfl
  | @first γ p q k t item next _ =>
    subst begin_eq
    exact absurd (List.mem_of_getElem? next) (G.start_fresh p)
  | @inherit γ p q k a look next _ _ =>
    subst begin_eq
    exact absurd (List.mem_of_getElem? next) (G.start_fresh p)
  | goto _ _ ih => exact ih begin_eq

theorem ItemLook.start_of_item (h : G.Item γ G.start k) : G.ItemLook γ G.start k none := by
  generalize begin_eq : G.start = p at h
  induction h with
  | start => exact .start
  | @closure γ p q k item next _ =>
    subst begin_eq
    exact absurd (List.mem_of_getElem? next) (G.start_fresh p)
  | goto _ next ih => exact .goto (ih begin_eq) next

end Positions

section Sets

variable {γ : List (Symbol T N)}

/-- The items behind one more symbol, before the closure. -/
def Advanced (G : Productions P T N) (γ : List (Symbol T N)) (s : Symbol T N) (p : P) (k : Nat) :
    Prop :=
  ∃ j, k = j + 1 ∧ G.Item γ p j ∧ (G.rule p).output[j]? = some s

theorem item_nil_iff {p : P} {k : Nat} :
    G.Item [] p k ↔ G.Closed (fun q j => q = G.start ∧ j = 0) p k := by
  constructor
  · intro h
    generalize nil : ([] : List (Symbol T N)) = γ at h
    induction h with
    | start => exact .kernel ⟨rfl, rfl⟩
    | closure _ next ih => exact .closure (ih nil) next
    | goto _ _ _ => simp at nil
  · intro h
    induction h with
    | kernel start =>
      obtain ⟨rfl, rfl⟩ := start
      exact .start
    | closure _ next ih => exact .closure ih next

/-- The items for a longer prefix are the closure of those moved over its last symbol. -/
theorem item_append_iff {s : Symbol T N} {p : P} {k : Nat} :
    G.Item (γ ++ [s]) p k ↔ G.Closed (G.Advanced γ s) p k := by
  constructor
  · intro h
    generalize longer : γ ++ [s] = γ' at h
    induction h with
    | start => simp at longer
    | closure _ next ih => exact .closure (ih longer) next
    | goto item next _ =>
      obtain ⟨rfl, last⟩ := List.append_inj' longer rfl
      obtain rfl := List.singleton_inj.mp last
      exact .kernel ⟨_, rfl, item, next⟩
  · intro h
    induction h with
    | kernel advanced =>
      obtain ⟨j, rfl, item, next⟩ := advanced
      exact .goto item next
    | closure _ next ih => exact .closure ih next

theorem exists_item_before {s : Symbol T N} (viable : ∃ p k, G.Item (γ ++ [s]) p k) :
    ∃ p k, G.Item γ p k ∧ (G.rule p).output[k]? = some s := by
  obtain ⟨p, k, item⟩ := viable
  have closed := item_append_iff.mp item
  clear item
  induction closed with
  | kernel advanced =>
    obtain ⟨j, -, item, next⟩ := advanced
    exact ⟨_, j, item, next⟩
  | closure _ _ ih => exact ih

theorem item_succ_iff {s : Symbol T N} {p : P} {k : Nat} :
    G.Item (γ ++ [s]) p (k + 1) ↔ G.Item γ p k ∧ (G.rule p).output[k]? = some s := by
  constructor
  · intro h
    cases item_append_iff.mp h with
    | kernel advanced =>
      obtain ⟨j, same, item, next⟩ := advanced
      obtain rfl := Nat.succ.inj same
      exact ⟨item, next⟩
  · intro ⟨item, next⟩
    exact .goto item next

theorem not_item_nil_succ {p : P} {k : Nat} : ¬ G.Item [] p (k + 1) := by
  intro item
  generalize nil : ([] : List (Symbol T N)) = γ at item
  generalize later : k + 1 = j at item
  cases item with
  | start => omega
  | closure _ _ => omega
  | goto _ _ => simp at nil

theorem Closed.congr {K L : P → Nat → Prop} (same : ∀ p k, K p k ↔ L p k) {p : P} {k : Nat} :
    G.Closed K p k ↔ G.Closed L p k := by
  have equal : K = L := funext fun p => funext fun k => propext (same p k)
  rw [equal]

theorem item_iff_of_kernel {γ' : List (Symbol T N)} {s : Symbol T N}
    (some_item : ∃ p k, G.Item (γ ++ [s]) p (k + 1))
    (same : ∀ p k, G.Item γ' p (k + 1) ↔ G.Item (γ ++ [s]) p (k + 1)) {p : P} {k : Nat} :
    G.Item γ' p k ↔ G.Item (γ ++ [s]) p k := by
  obtain ⟨q, j, some_item⟩ := some_item
  have longer := (same q j).mpr some_item
  cases longer with
  | @goto γ'' _ _ s' _ _ =>
    rw [item_append_iff, item_append_iff]
    refine Closed.congr fun r i => ?_
    cases i with
    | zero => simp [Advanced]
    | succ i =>
      have kernel : ∀ (δ : List (Symbol T N)) (x : Symbol T N),
          G.Advanced δ x r (i + 1) ↔ G.Item (δ ++ [x]) r (i + 1) := by
        intro δ x
        rw [item_succ_iff]
        constructor
        · intro ⟨j, eq, item, next⟩
          obtain rfl := Nat.succ.inj eq
          exact ⟨item, next⟩
        · intro ⟨item, next⟩
          exact ⟨i, rfl, item, next⟩
      rw [kernel, kernel]
      exact same r i

theorem item_iff_of_succ {γ' : List (Symbol T N)} (viable : ∃ p k, G.Item γ p k)
    (viable' : ∃ p k, G.Item γ' p k)
    (same : ∀ p k, G.Item γ p (k + 1) ↔ G.Item γ' p (k + 1)) {p : P} {k : Nat} :
    G.Item γ p k ↔ G.Item γ' p k := by
  cases γ' using List.reverseRecOn with
  | append_singleton δ' x =>
    obtain ⟨q, j, item, next⟩ := exists_item_before viable'
    exact item_iff_of_kernel ⟨q, j, .goto item next⟩ same
  | nil =>
    -- then the other prefix is the empty one too
    cases γ using List.reverseRecOn with
    | nil => exact Iff.rfl
    | append_singleton δ x =>
      obtain ⟨q, j, item, next⟩ := exists_item_before viable
      exact absurd ((same q j).mp (.goto item next)) not_item_nil_succ

end Sets

end Mewa.Lib.Productions
