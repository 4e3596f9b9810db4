/- Module: Mewa/Lib/Derivation
   digest: Derivations of context-free productions as valid forests and as rightmost derivations. -/

import Mathlib.Computability.ContextFreeGrammar
import Mewa.Lib.ParseForest

set_option autoImplicit false
set_option relaxedAutoImplicit false

namespace Mewa.Lib

/-- Productions with a start production: it is the only one of its nonterminal, which is on no
    right side. -/
structure Productions (P T N : Type) where
  rule : P → ContextFreeRule T N
  start : P
  start_unique : ∀ p, (rule p).input = (rule start).input → p = start
  start_fresh : ∀ p, Symbol.nonterminal (rule start).input ∉ (rule p).output

/-- Forests with symbols at the leaves. A leaf with a nonterminal is not expanded. -/
abbrev SymbolForest (P T N : Type) := ParseForest (Symbol T N) P

/-- The moves that reduce, by their productions. -/
def reductionsOf {T P : Type} : List (Move T P) → List P
  | [] => []
  | .shift _ :: ms => reductionsOf ms
  | .reduce p :: ms => p :: reductionsOf ms

/-- The moves that shift, by their tokens. -/
def tokensOf {T P : Type} : List (Move T P) → List T
  | [] => []
  | .shift t :: ms => t :: tokensOf ms
  | .reduce _ :: ms => tokensOf ms

section Moves

attribute [local simp] tokensOf reductionsOf

variable {T P : Type}

@[simp] theorem reductionsOf_append (ms ns : List (Move T P)) :
    reductionsOf (ms ++ ns) = reductionsOf ms ++ reductionsOf ns := by
  induction ms with
  | nil => rfl
  | cons m ms ih => cases m <;> simp [reductionsOf, ih]

@[simp] theorem tokensOf_append (ms ns : List (Move T P)) :
    tokensOf (ms ++ ns) = tokensOf ms ++ tokensOf ns := by
  induction ms with
  | nil => rfl
  | cons m ms ih => cases m <;> simp [tokensOf, ih]

/-- The tokens of the moves of a forest are its leaves. -/
@[simp] theorem tokensOf_moves (f : ParseForest T P) : tokensOf f.moves = f.yield := by
  induction f with
  | nil => rfl
  | leaf t rest ih => simp [ParseForest.moves, ParseForest.yield, tokensOf, ih]
  | node p children rest ihc ihr =>
    simp [ParseForest.moves, ParseForest.yield, tokensOf, ihc, ihr]

end Moves

namespace Productions

variable {P T N : Type} (G : Productions P T N)

def Produces (u v : List (Symbol T N)) : Prop := ∃ p, (G.rule p).Rewrites u v

abbrev Derives : List (Symbol T N) → List (Symbol T N) → Prop := Relation.ReflTransGen G.Produces

open Classical in
noncomputable def cfg [Fintype P] : ContextFreeGrammar T where
  NT := N
  initial := (G.rule G.start).input
  rules := Finset.univ.image G.rule

def head (p : P) : Symbol T N := .nonterminal (G.rule p).input

def arity (p : P) : Nat := (G.rule p).output.length

def roots (f : SymbolForest P T N) : List (Symbol T N) := ParseForest.roots id G.head f

/-- The children of every node are the right side of its production. -/
def Valid : SymbolForest P T N → Prop
  | .nil => True
  | .leaf _ rest => Valid rest
  | .node p children rest =>
    G.roots children = (G.rule p).output ∧ Valid children ∧ Valid rest

variable {G}

theorem mem_rules [Fintype P] {r : ContextFreeRule T N} :
    r ∈ G.cfg.rules ↔ ∃ p, G.rule p = r := by
  classical
  show r ∈ Finset.univ.image G.rule ↔ _
  simp

theorem produces_cfg [Fintype P] : G.cfg.Produces = G.Produces := by
  funext u v
  refine propext ⟨?_, ?_⟩
  · intro ⟨r, mem, rewrites⟩
    obtain ⟨p, rfl⟩ := mem_rules.mp mem
    exact ⟨p, rewrites⟩
  · intro ⟨p, rewrites⟩
    exact ⟨G.rule p, mem_rules.mpr ⟨p, rfl⟩, rewrites⟩

theorem derives_cfg [Fintype P] : G.cfg.Derives = G.Derives := by
  show Relation.ReflTransGen G.cfg.Produces = Relation.ReflTransGen G.Produces
  rw [produces_cfg]
  rfl

@[simp] theorem roots_nil : G.roots .nil = [] := rfl

@[simp] theorem roots_leaf (s : Symbol T N) (rest : SymbolForest P T N) :
    G.roots (.leaf s rest) = s :: G.roots rest := rfl

@[simp] theorem roots_node (p : P) (children rest : SymbolForest P T N) :
    G.roots (.node p children rest) = G.head p :: G.roots rest := rfl

@[simp] theorem roots_append (f g : SymbolForest P T N) :
    G.roots (f.append g) = G.roots f ++ G.roots g := ParseForest.roots_append id G.head f g

@[simp] theorem length_roots (f : SymbolForest P T N) : (G.roots f).length = f.length :=
  ParseForest.length_roots id G.head f

theorem Derives.append_left {u v : List (Symbol T N)} (h : G.Derives u v)
    (before : List (Symbol T N)) : G.Derives (before ++ u) (before ++ v) := by
  induction h with
  | refl => exact .refl
  | tail _ last ih =>
    obtain ⟨p, rewrites⟩ := last
    exact ih.tail ⟨p, rewrites.append_left before⟩

theorem Derives.append_right {u v : List (Symbol T N)} (h : G.Derives u v)
    (after : List (Symbol T N)) : G.Derives (u ++ after) (v ++ after) := by
  induction h with
  | refl => exact .refl
  | tail _ last ih =>
    obtain ⟨p, rewrites⟩ := last
    exact ih.tail ⟨p, rewrites.append_right after⟩

theorem Derives.append {u v u' v' : List (Symbol T N)} (h : G.Derives u v) (h' : G.Derives u' v') :
    G.Derives (u ++ u') (v ++ v') := (h.append_right u').trans (h'.append_left v)

theorem derives_rule (p : P) : G.Derives [G.head p] (G.rule p).output :=
  .single ⟨p, ContextFreeRule.Rewrites.input_output⟩

theorem Valid.append {f g : SymbolForest P T N} (hf : G.Valid f) (hg : G.Valid g) :
    G.Valid (f.append g) := by
  induction f with
  | nil => exact hg
  | leaf s rest ih => exact ih hf
  | node p children rest _ ih => exact ⟨hf.1, hf.2.1, ih hf.2.2⟩

theorem Valid.of_append {f g : SymbolForest P T N} (h : G.Valid (f.append g)) :
    G.Valid f ∧ G.Valid g := by
  induction f with
  | nil => exact ⟨trivial, h⟩
  | leaf s rest ih => exact ih h
  | node p children rest _ ih => exact ⟨⟨h.1, h.2.1, (ih h.2.2).1⟩, (ih h.2.2).2⟩

theorem Valid.fits {f : SymbolForest P T N} (h : G.Valid f) : f.Fits G.arity := by
  induction f with
  | nil => trivial
  | leaf s rest ih => exact ih h
  | node p children rest ihc ihr =>
    refine ⟨?_, ihc h.2.1, ihr h.2.2⟩
    rw [arity, ← h.1, length_roots]

theorem Valid.derives {f : SymbolForest P T N} (h : G.Valid f) : G.Derives (G.roots f) f.yield := by
  induction f with
  | nil => exact .refl
  | leaf s rest ih => exact (ih h).append_left [s]
  | node p children rest ihc ihr =>
    obtain ⟨symbols, validc, validr⟩ := h
    have inner : G.Derives [G.head p] children.yield :=
      (derives_rule p).trans (symbols ▸ ihc validc)
    exact inner.append (ihr validr)

theorem exists_append_of_roots {f : SymbolForest P T N} {u v : List (Symbol T N)}
    (h : G.roots f = u ++ v) :
    ∃ g g', f = g.append g' ∧ G.roots g = u ∧ G.roots g' = v := by
  have cut := (ParseForest.take_append_drop u.length f).symm
  have roots_cut : G.roots (f.take u.length) ++ G.roots (f.drop u.length) = u ++ v := by
    rw [← roots_append, ← cut, h]
  have enough : u.length ≤ f.length := by
    rw [← length_roots (G := G) f, h, List.length_append]
    omega
  have len : (G.roots (f.take u.length)).length = u.length := by
    rw [length_roots, ParseForest.length_take enough]
  obtain ⟨left, right⟩ := List.append_inj roots_cut len
  exact ⟨_, _, cut, left, right⟩

/-- What is derived are the leaves of a forest with the given roots. -/
theorem exists_forest {u v : List (Symbol T N)} (h : G.Derives u v) :
    ∃ f : SymbolForest P T N, G.Valid f ∧ G.roots f = u ∧ f.yield = v := by
  induction h using Relation.ReflTransGen.head_induction_on with
  | refl =>
    clear u
    induction v with
    | nil => exact ⟨.nil, trivial, rfl, rfl⟩
    | cons s v ih =>
      obtain ⟨f, valid, roots_eq, yield_eq⟩ := ih
      exact ⟨.leaf s f, valid, by rw [roots_leaf, roots_eq], by rw [ParseForest.yield, yield_eq]⟩
  | head first _ ih =>
    obtain ⟨p, rewrites⟩ := first
    obtain ⟨before, after, rfl, rfl⟩ := rewrites.exists_parts
    obtain ⟨f, valid, roots_eq, yield_eq⟩ := ih
    rw [List.append_assoc] at roots_eq
    obtain ⟨f1, f', rfl, roots1, roots'⟩ := exists_append_of_roots roots_eq
    obtain ⟨f2, f3, rfl, roots2, roots3⟩ := exists_append_of_roots roots'
    obtain ⟨valid1, valid'⟩ := valid.of_append
    obtain ⟨valid2, valid3⟩ := valid'.of_append
    refine ⟨f1.append (.node p f2 f3), valid1.append ⟨roots2, valid2, valid3⟩, ?_, ?_⟩
    · rw [roots_append, roots_node, roots1, roots3]
      simp [head]
    · rw [← yield_eq]
      simp [ParseForest.yield]

/-! A rightmost derivation, with the productions in the order in which they are used. -/

inductive Rightmost (G : Productions P T N) :
    List (Symbol T N) → List P → List (Symbol T N) → Prop
  | refl (u : List (Symbol T N)) : Rightmost G u [] u
  | step (before : List (Symbol T N)) (p : P) (after : List T) {ps : List P}
      {v : List (Symbol T N)} :
      Rightmost G (before ++ (G.rule p).output ++ after.map .terminal) ps v →
      Rightmost G (before ++ [G.head p] ++ after.map .terminal) (p :: ps) v

theorem Rightmost.trans {u v w : List (Symbol T N)} {ps qs : List P} (h : G.Rightmost u ps v)
    (h' : G.Rightmost v qs w) : G.Rightmost u (ps ++ qs) w := by
  induction h with
  | refl => exact h'
  | step before p after _ ih => exact .step before p after (ih h')

theorem Rightmost.append_left {u v : List (Symbol T N)} {ps : List P} (h : G.Rightmost u ps v)
    (front : List (Symbol T N)) : G.Rightmost (front ++ u) ps (front ++ v) := by
  induction h with
  | refl => exact .refl _
  | step before p after _ ih =>
    have grown := Rightmost.step (front ++ before) p after (by simpa using ih)
    simpa using grown

theorem Rightmost.append_right {u v : List (Symbol T N)} {ps : List P} (h : G.Rightmost u ps v)
    (back : List T) : G.Rightmost (u ++ back.map .terminal) ps (v ++ back.map .terminal) := by
  induction h with
  | refl => exact .refl _
  | step before p after _ ih =>
    have grown := Rightmost.step before p (after ++ back) (by simpa using ih)
    simpa using grown

theorem Rightmost.derives {u v : List (Symbol T N)} {ps : List P} (h : G.Rightmost u ps v) :
    G.Derives u v := by
  induction h with
  | refl => exact .refl
  | step before p after _ ih =>
    exact .head ⟨p, ContextFreeRule.rewrites_of_exists_parts _ _ _⟩ ih

/-- The reductions of a forest with terminals at its leaves are a rightmost derivation in
    reverse. -/
theorem Valid.rightmost {f : SymbolForest P T N} (h : G.Valid f) {w : List T}
    (leaves : f.yield = w.map .terminal) :
    G.Rightmost (G.roots f) (reductionsOf f.moves).reverse (w.map .terminal) := by
  induction f generalizing w with
  | nil =>
    obtain rfl : w = [] := by simpa [ParseForest.yield] using leaves.symm
    exact .refl _
  | leaf s rest ih =>
    cases w with
    | nil => simp [ParseForest.yield] at leaves
    | cons t w =>
      obtain ⟨rfl, tail⟩ := List.cons.inj leaves
      exact (ih h tail).append_left [Symbol.terminal t]
  | node p children rest ihc ihr =>
    obtain ⟨symbols, validc, validr⟩ := h
    obtain ⟨w1, w2, rfl, leaves1, leaves2⟩ := List.map_eq_append_iff.mp leaves.symm
    have last := (ihr validr leaves2.symm).append_left [G.head p]
    have inner := (ihc validc leaves1.symm).append_right w2
    rw [symbols] at inner
    have expand : G.Rightmost ([G.head p] ++ w2.map .terminal) (p :: (reductionsOf
        children.moves).reverse) (w1.map .terminal ++ w2.map .terminal) :=
      Rightmost.step [] p w2 inner
    have whole := last.trans expand
    simpa [ParseForest.moves, reductionsOf] using whole

theorem reductionsOf_terminals {f : SymbolForest P T N} {w : List T}
    (h : G.roots f = w.map .terminal) : reductionsOf f.moves = [] := by
  induction f generalizing w with
  | nil => rfl
  | leaf s rest ih =>
    cases w with
    | nil => simp at h
    | cons t w => exact ih (List.cons.inj h).2
  | node p children rest _ _ =>
    cases w with
    | nil => simp at h
    | cons t w => simp [head] at h

/-- A rightmost derivation of a word is read off a forest. -/
theorem Rightmost.exists_forest {u : List (Symbol T N)} {ps : List P} {w : List T}
    (h : G.Rightmost u ps (w.map .terminal)) :
    ∃ f : SymbolForest P T N, G.Valid f ∧ G.roots f = u ∧ f.yield = w.map .terminal ∧
      reductionsOf f.moves = ps.reverse := by
  generalize target : w.map Symbol.terminal = v at h
  induction h with
  | refl u =>
    obtain ⟨f, valid, roots_eq, yield_eq⟩ := Productions.exists_forest (G := G) (u := u) .refl
    exact ⟨f, valid, roots_eq, yield_eq, reductionsOf_terminals (roots_eq.trans target.symm)⟩
  | step before p after _ ih =>
    obtain ⟨f, valid, roots_eq, yield_eq, reductions⟩ := ih target
    rw [List.append_assoc] at roots_eq
    obtain ⟨f1, f', rfl, roots1, roots'⟩ := exists_append_of_roots roots_eq
    obtain ⟨f2, f3, rfl, roots2, roots3⟩ := exists_append_of_roots roots'
    obtain ⟨valid1, valid'⟩ := valid.of_append
    obtain ⟨valid2, valid3⟩ := valid'.of_append
    have nothing := reductionsOf_terminals roots3
    refine ⟨f1.append (.node p f2 f3), valid1.append ⟨roots2, valid2, valid3⟩, ?_, ?_, ?_⟩
    · rw [roots_append, roots_node, roots1, roots3]
      simp
    · rw [← yield_eq]
      simp [ParseForest.yield]
    · simp only [ParseForest.moves_append, ParseForest.moves, reductionsOf_append, nothing,
        List.append_nil, reductionsOf] at reductions ⊢
      rw [List.reverse_cons, ← reductions, List.append_assoc]

end Productions

end Mewa.Lib
