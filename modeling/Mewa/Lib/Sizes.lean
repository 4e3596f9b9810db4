/- Module: Mewa/Lib/Sizes
   digest: Parse trees without empty productions and without cycles of unit productions are not larger
   than a multiple of their words. -/

import Mathlib.Tactic.Ring
import Mewa.Lib.Lockstep

set_option autoImplicit false
set_option relaxedAutoImplicit false

namespace Mewa.Lib.Productions

variable {P T N : Type} (G : Productions P T N)

/-- No right side is empty, and the nonterminals that are alone on a right side go down in rank. -/
structure Ranked (rank : N → Nat) (bound : Nat) : Prop where
  nonempty : ∀ p, (G.rule p).output ≠ []
  unit : ∀ p B, (G.rule p).output = [.nonterminal B] → rank B < rank (G.rule p).input
  le_bound : ∀ p, rank (G.rule p).input ≤ bound

/-- What the trees of a forest save of the largest number of productions. -/
def savings (rank : N → Nat) (bound : Nat) : SymbolForest P T N → Nat
  | .nil => 0
  | .leaf _ rest => bound + 1 + savings rank bound rest
  | .node p _ rest => bound - rank (G.rule p).input + savings rank bound rest

variable {G} {rank : N → Nat} {bound : Nat} {f : SymbolForest P T N}

theorem Ranked.savings_children (ranked : G.Ranked rank bound) {p : P}
    {children : SymbolForest P T N} (symbols : G.roots children = (G.rule p).output) :
    bound - rank (G.rule p).input + bound + 2 ≤
      G.savings rank bound children + (bound + 1) * children.length := by
  have some_child := ranked.nonempty p
  have below := ranked.le_bound p
  rw [← symbols] at some_child
  have many (n : Nat) : (bound + 1) * (n + 1 + 1) = (bound + 1) * n + (bound + 1) + (bound + 1) := by
    ring
  cases children with
  | nil => exact absurd rfl some_child
  | leaf s rest =>
    have first : (bound + 1) * (rest.length + 1) = (bound + 1) * rest.length + (bound + 1) := by ring
    simp only [savings, ParseForest.length, first]
    omega
  | node q grandchildren rest =>
    have below' := ranked.le_bound q
    cases rest with
    | nil =>
      have lower := ranked.unit p (G.rule q).input symbols.symm
      simp only [savings, ParseForest.length]
      omega
    | leaf s more =>
      simp only [savings, ParseForest.length, many]
      omega
    | node r others more =>
      simp only [savings, ParseForest.length, many]
      omega

theorem Ranked.reductions_add_le (ranked : G.Ranked rank bound) (valid : G.Valid f) :
    (reductionsOf f.moves).length + G.savings rank bound f + (bound + 1) * f.length ≤
      2 * (bound + 1) * f.yield.length := by
  induction f with
  | nil => simp [ParseForest.moves, reductionsOf, savings, ParseForest.length]
  | leaf s rest ih =>
    have rest_le := ih valid
    have here : (bound + 1) * (rest.length + 1) = (bound + 1) * rest.length + (bound + 1) := by ring
    have total : 2 * (bound + 1) * (rest.yield.length + 1) =
        2 * (bound + 1) * rest.yield.length + 2 * (bound + 1) := by ring
    simp only [ParseForest.moves, reductionsOf, savings, ParseForest.length, ParseForest.yield,
      List.length_cons, here, total]
    omega
  | node p children rest ihc ihr =>
    obtain ⟨symbols, validc, validr⟩ := valid
    have inner := ihc validc
    have rest_le := ihr validr
    have enough := ranked.savings_children symbols
    have here : (bound + 1) * (rest.length + 1) = (bound + 1) * rest.length + (bound + 1) := by ring
    have total : 2 * (bound + 1) * (children.yield.length + rest.yield.length) =
        2 * (bound + 1) * children.yield.length + 2 * (bound + 1) * rest.yield.length := by ring
    simp only [ParseForest.moves, reductionsOf_append, reductionsOf, savings, ParseForest.length,
      ParseForest.yield, List.length_append, List.length_cons, here, total]
    omega

theorem Ranked.reductions_le (ranked : G.Ranked rank bound) (valid : G.Valid f) :
    (reductionsOf f.moves).length ≤ 2 * (bound + 1) * f.yield.length := by
  have weighed := ranked.reductions_add_le valid
  omega

end Mewa.Lib.Productions
