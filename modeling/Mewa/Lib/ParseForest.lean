/- Module: Mewa/Lib/ParseForest
   digest: Ordered forests of parse trees, and the bottom up moves that build them. -/

import Mathlib.Data.List.Basic

set_option autoImplicit false
set_option relaxedAutoImplicit false

namespace Mewa.Lib

/-- A move of a bottom up parser: a token goes onto the stack, or a rule joins what is on top. -/
inductive Move (T P : Type)
  | shift (token : T)
  | reduce (rule : P)
  deriving DecidableEq

/-- A sequence of parse trees, as its first tree and the others. -/
inductive ParseForest (T P : Type)
  | nil
  | leaf (token : T) (rest : ParseForest T P)
  | node (rule : P) (children rest : ParseForest T P)
  deriving DecidableEq

namespace ParseForest

variable {T P : Type}

def append : ParseForest T P → ParseForest T P → ParseForest T P
  | nil, g => g
  | leaf t rest, g => leaf t (rest.append g)
  | node p children rest, g => node p children (rest.append g)

/-- The number of trees. -/
def length : ParseForest T P → Nat
  | nil => 0
  | leaf _ rest => rest.length + 1
  | node _ _ rest => rest.length + 1

/-- The tokens at the leaves. -/
def yield : ParseForest T P → List T
  | nil => []
  | leaf t rest => t :: rest.yield
  | node _ children rest => children.yield ++ rest.yield

/-- The moves of a bottom up parser that reads the leaves from the left. -/
def moves : ParseForest T P → List (Move T P)
  | nil => []
  | leaf t rest => .shift t :: rest.moves
  | node p children rest => children.moves ++ .reduce p :: rest.moves

def take : Nat → ParseForest T P → ParseForest T P
  | 0, _ => nil
  | _ + 1, nil => nil
  | n + 1, leaf t rest => leaf t (rest.take n)
  | n + 1, node p children rest => node p children (rest.take n)

def drop : Nat → ParseForest T P → ParseForest T P
  | 0, f => f
  | _ + 1, nil => nil
  | n + 1, leaf _ rest => rest.drop n
  | n + 1, node _ _ rest => rest.drop n

/-- The labels of the roots, with the label of a leaf and of a node given. -/
def roots {S : Type} (terminal : T → S) (head : P → S) : ParseForest T P → List S
  | nil => []
  | leaf t rest => terminal t :: rest.roots terminal head
  | node p _ rest => head p :: rest.roots terminal head

-- their equations are needed in most of the proofs below
attribute [local simp] append length yield moves take drop roots

@[simp] theorem append_nil (f : ParseForest T P) : f.append nil = f := by
  induction f with
  | nil => rfl
  | leaf t rest ih => simp only [append, ih]
  | node p children rest _ ih => simp only [append, ih]

theorem append_assoc (f g h : ParseForest T P) :
    (f.append g).append h = f.append (g.append h) := by
  induction f with
  | nil => rfl
  | leaf t rest ih => simp only [append, ih]
  | node p children rest _ ih => simp only [append, ih]

@[simp] theorem length_append (f g : ParseForest T P) :
    (f.append g).length = f.length + g.length := by
  induction f with
  | nil => simp [append, length]
  | leaf t rest ih => simp only [append, length, ih]; omega
  | node p children rest _ ih => simp only [append, length, ih]; omega

@[simp] theorem yield_append (f g : ParseForest T P) :
    (f.append g).yield = f.yield ++ g.yield := by
  induction f with
  | nil => rfl
  | leaf t rest ih => simp only [append, yield, ih, List.cons_append]
  | node p children rest _ ih => simp only [append, yield, ih, List.append_assoc]

@[simp] theorem moves_append (f g : ParseForest T P) :
    (f.append g).moves = f.moves ++ g.moves := by
  induction f with
  | nil => rfl
  | leaf t rest ih => simp only [append, moves, ih, List.cons_append]
  | node p children rest _ ih =>
    simp only [append, moves, ih, List.append_assoc, List.cons_append]

@[simp] theorem roots_append {S : Type} (terminal : T → S) (head : P → S)
    (f g : ParseForest T P) :
    (f.append g).roots terminal head = f.roots terminal head ++ g.roots terminal head := by
  induction f with
  | nil => rfl
  | leaf t rest ih => simp only [append, roots, ih, List.cons_append]
  | node p children rest _ ih => simp only [append, roots, ih, List.cons_append]

@[simp] theorem length_roots {S : Type} (terminal : T → S) (head : P → S)
    (f : ParseForest T P) : (f.roots terminal head).length = f.length := by
  induction f with
  | nil => rfl
  | leaf t rest ih => simp only [roots, length, List.length_cons, ih]
  | node p children rest _ ih => simp only [roots, length, List.length_cons, ih]

theorem eq_nil_of_length {f : ParseForest T P} (h : f.length = 0) : f = nil := by
  cases f with
  | nil => rfl
  | leaf t rest => simp [length] at h
  | node p children rest => simp [length] at h

@[simp] theorem take_append_drop (n : Nat) (f : ParseForest T P) :
    (f.take n).append (f.drop n) = f := by
  induction f generalizing n with
  | nil => cases n <;> rfl
  | leaf t rest ih =>
    cases n with
    | zero => rfl
    | succ n => simp only [take, drop, append, ih]
  | node p children rest _ ih =>
    cases n with
    | zero => rfl
    | succ n => simp only [take, drop, append, ih]

theorem length_take {n : Nat} {f : ParseForest T P} (enough : n ≤ f.length) :
    (f.take n).length = n := by
  induction f generalizing n with
  | nil =>
    obtain rfl : n = 0 := Nat.le_zero.mp enough
    rfl
  | leaf t rest ih =>
    cases n with
    | zero => rfl
    | succ n => rw [take, length, ih (Nat.le_of_succ_le_succ enough)]
  | node p children rest _ ih =>
    cases n with
    | zero => rfl
    | succ n => rw [take, length, ih (Nat.le_of_succ_le_succ enough)]

@[simp] theorem take_length_append (f g : ParseForest T P) : (f.append g).take f.length = f := by
  induction f with
  | nil => cases g <;> rfl
  | leaf t rest ih => simp only [append, length, take, ih]
  | node p children rest _ ih => simp only [append, length, take, ih]

@[simp] theorem drop_length_append (f g : ParseForest T P) : (f.append g).drop f.length = g := by
  induction f with
  | nil => cases g <;> rfl
  | leaf t rest ih => simp only [append, length, drop, ih]
  | node p children rest _ ih => simp only [append, length, drop, ih]

variable (arity : P → Nat)

/-- Every node has as many children as its rule asks for. -/
def Fits : ParseForest T P → Prop
  | nil => True
  | leaf _ rest => rest.Fits
  | node p children rest => children.length = arity p ∧ children.Fits ∧ rest.Fits

/-- The effect of a move on the trees of the stack. -/
def apply (f : ParseForest T P) : Move T P → Option (ParseForest T P)
  | .shift t => some (f.append (leaf t nil))
  | .reduce p =>
    if arity p ≤ f.length then
      some ((f.take (f.length - arity p)).append (node p (f.drop (f.length - arity p)) nil))
    else none

/-- The trees built by a sequence of moves. -/
def replay : ParseForest T P → List (Move T P) → Option (ParseForest T P)
  | f, [] => some f
  | f, m :: ms => do (← f.apply arity m).replay ms

attribute [local simp] Fits apply replay

variable {arity}

theorem apply_reduce {f g : ParseForest T P} {p : P} (fits : g.length = arity p) :
    (f.append g).apply arity (.reduce p) = some (f.append (node p g nil)) := by
  have len : (f.append g).length - arity p = f.length := by
    rw [length_append]
    omega
  have le : arity p ≤ (f.append g).length := by
    rw [length_append]
    omega
  rw [apply, if_pos le, len, take_length_append, drop_length_append]

theorem replay_append {f : ParseForest T P} {ms ns : List (Move T P)} :
    f.replay arity (ms ++ ns) = (f.replay arity ms).bind fun g => g.replay arity ns := by
  induction ms generalizing f with
  | nil => rfl
  | cons m ms ih =>
    rw [List.cons_append, replay, replay]
    cases f.apply arity m with
    | none => rfl
    | some g => exact ih

theorem apply_append_left {f g : ParseForest T P} {m : Move T P} (h : f.apply arity m = some g)
    (below : ParseForest T P) : (below.append f).apply arity m = some (below.append g) := by
  cases m with
  | shift t =>
    obtain rfl : f.append (leaf t nil) = g := by simpa [apply] using h
    simp [apply, append_assoc]
  | reduce p =>
    by_cases le : arity p ≤ f.length
    · rw [apply, if_pos le] at h
      obtain rfl := Option.some.inj h
      have fits : (f.drop (f.length - arity p)).length = arity p := by
        have whole := congrArg length (take_append_drop (f.length - arity p) f)
        rw [length_append, length_take (by omega)] at whole
        omega
      have reduced := apply_reduce (f := below.append (f.take (f.length - arity p))) fits
      rwa [append_assoc, take_append_drop, append_assoc] at reduced
    · simp [apply, le] at h

theorem replay_append_left {f g : ParseForest T P} {ms : List (Move T P)}
    (h : f.replay arity ms = some g) (below : ParseForest T P) :
    (below.append f).replay arity ms = some (below.append g) := by
  induction ms generalizing f with
  | nil =>
    obtain rfl : f = g := by simpa [replay] using h
    rfl
  | cons m ms ih =>
    obtain ⟨f', hm, h⟩ := Option.bind_eq_some_iff.mp h
    rw [replay, apply_append_left hm below]
    exact ih h

theorem moves_of_apply {f g : ParseForest T P} {m : Move T P} (h : f.apply arity m = some g) :
    g.moves = f.moves ++ [m] := by
  cases m with
  | shift t =>
    obtain rfl : f.append (leaf t nil) = g := by simpa [apply] using h
    simp [moves]
  | reduce p =>
    by_cases le : arity p ≤ f.length
    · rw [apply, if_pos le] at h
      obtain rfl := Option.some.inj h
      rw [moves_append, moves, moves, ← List.append_assoc, ← moves_append, take_append_drop]
    · simp [apply, le] at h

theorem moves_of_replay {f g : ParseForest T P} {ms : List (Move T P)}
    (h : f.replay arity ms = some g) : g.moves = f.moves ++ ms := by
  induction ms generalizing f with
  | nil =>
    obtain rfl : f = g := by simpa [replay] using h
    simp
  | cons m ms ih =>
    obtain ⟨f', hm, h⟩ := Option.bind_eq_some_iff.mp h
    rw [ih h, moves_of_apply hm, List.append_assoc, List.singleton_append]

/-- A forest is built by its moves. -/
theorem replay_moves {g : ParseForest T P} (fits : g.Fits arity) (f : ParseForest T P) :
    f.replay arity g.moves = some (f.append g) := by
  induction g generalizing f with
  | nil => simp [moves, replay]
  | leaf t rest ih =>
    show (f.append (leaf t nil)).replay arity rest.moves = some (f.append (leaf t rest))
    rw [ih fits, append_assoc]
    rfl
  | node p children rest ihc ihr =>
    obtain ⟨count, fitc, fitr⟩ := fits
    rw [moves, replay_append, ihc fitc]
    show ((f.append children).apply arity (.reduce p)).bind _ = _
    rw [apply_reduce count]
    show (f.append (node p children nil)).replay arity rest.moves = _
    rw [ihr fitr, append_assoc]
    rfl

/-- The first moves of a forest build trees. -/
theorem exists_replay_prefix {g : ParseForest T P} (fits : g.Fits arity) {ms ns : List (Move T P)}
    (h : g.moves = ms ++ ns) : ∃ f, nil.replay arity ms = some f := by
  have whole := replay_moves fits nil
  rw [h, replay_append] at whole
  obtain ⟨f, first, -⟩ := Option.bind_eq_some_iff.mp whole
  exact ⟨f, first⟩

end ParseForest

/-! Forests with other tokens and rules. -/

section Map

variable {T T' T'' P P' P'' : Type}

def Move.map (tokenOf : T → T') (ruleOf : P → P') : Move T P → Move T' P'
  | .shift t => .shift (tokenOf t)
  | .reduce p => .reduce (ruleOf p)

namespace ParseForest

def map (tokenOf : T → T') (ruleOf : P → P') : ParseForest T P → ParseForest T' P'
  | nil => nil
  | leaf t rest => leaf (tokenOf t) (rest.map tokenOf ruleOf)
  | node p children rest =>
    node (ruleOf p) (children.map tokenOf ruleOf) (rest.map tokenOf ruleOf)

attribute [local simp] Move.map map

variable {tokenOf : T → T'} {ruleOf : P → P'}

@[simp] theorem map_append (f g : ParseForest T P) :
    (f.append g).map tokenOf ruleOf = (f.map tokenOf ruleOf).append (g.map tokenOf ruleOf) := by
  induction f with
  | nil => rfl
  | leaf t rest ih => simp only [append, map, ih]
  | node p children rest _ ih => simp only [append, map, ih]

@[simp] theorem length_map (f : ParseForest T P) : (f.map tokenOf ruleOf).length = f.length := by
  induction f with
  | nil => rfl
  | leaf t rest ih => simp only [map, length, ih]
  | node p children rest _ ih => simp only [map, length, ih]

@[simp] theorem yield_map (f : ParseForest T P) :
    (f.map tokenOf ruleOf).yield = f.yield.map tokenOf := by
  induction f with
  | nil => rfl
  | leaf t rest ih => simp only [map, yield, ih, List.map_cons]
  | node p children rest ihc ihr => simp only [map, yield, ihc, ihr, List.map_append]

@[simp] theorem moves_map (f : ParseForest T P) :
    (f.map tokenOf ruleOf).moves = f.moves.map (Move.map tokenOf ruleOf) := by
  induction f with
  | nil => rfl
  | leaf t rest ih => simp only [map, moves, ih, List.map_cons, Move.map]
  | node p children rest ihc ihr =>
    simp only [map, moves, ihc, ihr, List.map_append, List.map_cons, Move.map]

theorem map_map {tokenOf' : T' → T''} {ruleOf' : P' → P''} (f : ParseForest T P) :
    (f.map tokenOf ruleOf).map tokenOf' ruleOf' = f.map (tokenOf' ∘ tokenOf) (ruleOf' ∘ ruleOf) := by
  induction f with
  | nil => rfl
  | leaf t rest ih => simp only [map, ih, Function.comp_apply]
  | node p children rest ihc ihr => simp only [map, ihc, ihr, Function.comp_apply]

theorem take_map (n : Nat) (f : ParseForest T P) :
    (f.map tokenOf ruleOf).take n = (f.take n).map tokenOf ruleOf := by
  induction f generalizing n with
  | nil => cases n <;> rfl
  | leaf t rest ih =>
    cases n with
    | zero => rfl
    | succ n => simp only [map, take, ih]
  | node p children rest _ ih =>
    cases n with
    | zero => rfl
    | succ n => simp only [map, take, ih]

theorem drop_map (n : Nat) (f : ParseForest T P) :
    (f.map tokenOf ruleOf).drop n = (f.drop n).map tokenOf ruleOf := by
  induction f generalizing n with
  | nil => cases n <;> rfl
  | leaf t rest ih =>
    cases n with
    | zero => rfl
    | succ n => exact ih n
  | node p children rest _ ih =>
    cases n with
    | zero => rfl
    | succ n => exact ih n

theorem roots_map {S : Type} (terminal : T' → S) (head : P' → S) (f : ParseForest T P) :
    (f.map tokenOf ruleOf).roots terminal head = f.roots (terminal ∘ tokenOf) (head ∘ ruleOf) := by
  induction f with
  | nil => rfl
  | leaf t rest ih => simp only [map, roots, ih, Function.comp_apply]
  | node p children rest _ ih => simp only [map, roots, ih, Function.comp_apply]

/-- A forest with given leaves comes from one with other leaves. -/
theorem exists_map_of_yield {f : ParseForest T' P} {ts : List T} (leaves : f.yield = ts.map tokenOf) :
    ∃ g : ParseForest T P, g.map tokenOf id = f ∧ g.yield = ts := by
  induction f generalizing ts with
  | nil =>
    obtain rfl := List.map_eq_nil_iff.mp leaves.symm
    exact ⟨nil, rfl, rfl⟩
  | leaf t rest ih =>
    obtain ⟨u, us, rfl, rfl, tail⟩ := List.map_eq_cons_iff.mp leaves.symm
    obtain ⟨g, rfl, rfl⟩ := ih tail.symm
    exact ⟨leaf u g, rfl, rfl⟩
  | node p children rest ihc ihr =>
    obtain ⟨us, vs, rfl, first, last⟩ := List.map_eq_append_iff.mp leaves.symm
    obtain ⟨gc, rfl, rfl⟩ := ihc first.symm
    obtain ⟨gr, rfl, rfl⟩ := ihr last.symm
    exact ⟨node p gc gr, rfl, rfl⟩

variable {arity : P → Nat} {arity' : P' → Nat}

theorem apply_map (same : ∀ p, arity' (ruleOf p) = arity p) (f : ParseForest T P) (m : Move T P) :
    (f.map tokenOf ruleOf).apply arity' (m.map tokenOf ruleOf) =
      (f.apply arity m).map (map tokenOf ruleOf) := by
  cases m with
  | shift t => simp only [Move.map, apply, Option.map_some, map_append, map]
  | reduce p =>
    simp only [Move.map, apply, same, length_map]
    split
    · simp only [Option.map_some, map_append, map, take_map, drop_map]
    · rfl

theorem replay_map (same : ∀ p, arity' (ruleOf p) = arity p) (f : ParseForest T P)
    (ms : List (Move T P)) :
    (f.map tokenOf ruleOf).replay arity' (ms.map (Move.map tokenOf ruleOf)) =
      (f.replay arity ms).map (map tokenOf ruleOf) := by
  induction ms generalizing f with
  | nil => rfl
  | cons m ms ih =>
    rw [List.map_cons, replay, replay, apply_map same]
    cases f.apply arity m with
    | none => rfl
    | some g => exact ih g

theorem fits_map (same : ∀ p, arity' (ruleOf p) = arity p) {f : ParseForest T P} :
    (f.map tokenOf ruleOf).Fits arity' ↔ f.Fits arity := by
  induction f with
  | nil => exact Iff.rfl
  | leaf t rest ih => exact ih
  | node p children rest ihc ihr => simp only [map, Fits, length_map, same, ihc, ihr]

end ParseForest

end Map

end Mewa.Lib
