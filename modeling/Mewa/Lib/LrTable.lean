/- Module: Mewa/Lib/LrTable
   digest: A table that acts on all items of a prefix makes the moves of every parse tree. -/

import Mewa.Lib.Items

set_option autoImplicit false
set_option relaxedAutoImplicit false

namespace Mewa.Lib.Productions

variable {P T N : Type} {G : Productions P T N}

/-- A table as a relation: what is done after a prefix with a lookahead is a shift, or a reduction
    with a production. The table is complete if it has an action for every item. -/
structure Complete (G : Productions P T N)
    (acts : List (Symbol T N) → Option T → Option P → Prop) : Prop where
  shift : ∀ {γ p k t}, G.Item γ p k → (G.rule p).output[k]? = some (.terminal t) →
    acts γ (some t) none
  reduce : ∀ {γ p a}, G.ItemLook γ p (G.rule p).output.length a →
    ∃ q, G.rule q = G.rule p ∧ acts γ a (some q)

/-- A move that a table makes, up to productions with the same rule. -/
def Allowed (G : Productions P T N) (acts : List (Symbol T N) → Option T → Option P → Prop)
    (γ : List (Symbol T N)) (a : Option T) : Move (Symbol T N) P → Prop
  | .shift s => a.map Symbol.terminal = some s ∧ acts γ a none
  | .reduce p => ∃ q, G.rule q = G.rule p ∧ acts γ a (some q)

/-- What is known of an item in front of some symbols: if there are none, the lookahead is the one
    of the item, and the first of them else. -/
def Ready (G : Productions P T N) (γ : List (Symbol T N)) (p : P) (k : Nat)
    (symbols : List (Symbol T N)) (a : Option T) : Prop :=
  if symbols = [] then G.ItemLook γ p k a
  else G.Item γ p k ∧ symbols.head? = a.map Symbol.terminal

section Ready

variable {γ : List (Symbol T N)} {p q : P} {k : Nat} {symbols : List (Symbol T N)} {a : Option T}

theorem Ready.item (h : G.Ready γ p k symbols a) : G.Item γ p k := by
  unfold Ready at h
  split at h
  · exact h.item
  · exact h.1

theorem Ready.goto (h : G.Ready γ p k symbols a) {s : Symbol T N}
    (next : (G.rule p).output[k]? = some s) : G.Ready (γ ++ [s]) p (k + 1) symbols a := by
  unfold Ready at h ⊢
  split at h
  · rename_i none_left
    rw [if_pos none_left]
    exact h.goto next
  · rename_i some_left
    rw [if_neg some_left]
    exact ⟨h.1.goto next, h.2⟩

theorem Ready.look {rest : SymbolForest P T N} (valid : G.Valid rest)
    (h : G.Ready γ p k rest.yield a) (next : (G.rule p).output[k]? = some (G.head q))
    (roots_eq : G.roots rest = (G.rule p).output.drop (k + 1)) : G.ItemLook γ q 0 a := by
  have derives := roots_eq ▸ valid.derives
  unfold Ready at h
  split at h
  · rename_i none_left
    rw [none_left] at derives
    exact .inherit h next derives
  · rename_i some_left
    obtain ⟨item, ahead⟩ := h
    cases left : rest.yield with
    | nil => exact absurd left some_left
    | cons s v =>
      rw [left] at ahead derives
      cases a with
      | none => simp at ahead
      | some t =>
        obtain rfl : s = .terminal t := by simpa using ahead
        exact .first item next ⟨v, derives⟩

theorem Ready.closure {rest : SymbolForest P T N} (valid : G.Valid rest)
    (h : G.Ready γ p k (symbols ++ rest.yield) a)
    (next : (G.rule p).output[k]? = some (G.head q))
    (roots_eq : G.roots rest = (G.rule p).output.drop (k + 1)) : G.Ready γ q 0 symbols a := by
  cases symbols with
  | nil =>
    have look := Ready.look valid h next roots_eq
    simpa [Ready] using look
  | cons s symbols =>
    have ahead : (s :: (symbols ++ rest.yield)).head? = a.map Symbol.terminal := by
      simpa [Ready] using h.2
    refine ⟨h.item.closure next, ?_⟩
    simpa using ahead

theorem ItemLook.advance (h : G.ItemLook γ p 0 a) (le : k ≤ (G.rule p).output.length) :
    G.ItemLook (γ ++ (G.rule p).output.take k) p k a := by
  induction k with
  | zero => simpa using h
  | succ k ih =>
    have next := List.getElem?_eq_getElem (show k < (G.rule p).output.length by omega)
    rw [take_succ_eq next, ← List.append_assoc]
    exact (ih (by omega)).goto next

end Ready

/-- The moves of the trees of the rest of an item are made by a complete table. Only the symbol
    in front is looked at, thus what comes later may be left unexpanded. -/
theorem Complete.allowed {acts : List (Symbol T N) → Option T → Option P → Prop}
    (complete : G.Complete acts) {f : SymbolForest P T N} (valid : G.Valid f)
    {γ : List (Symbol T N)} {p : P} {k : Nat} (roots_eq : G.roots f = (G.rule p).output.drop k)
    {ms ns : List (Move (Symbol T N) P)} {m : Move (Symbol T N) P}
    (moves_eq : f.moves = ms ++ m :: ns) {a : Option T}
    (ready : G.Ready γ p k (tokensOf (m :: ns)) a) {g : SymbolForest P T N}
    (before : ParseForest.nil.replay G.arity ms = some g) :
    G.Allowed acts (γ ++ G.roots g) a m := by
  induction f generalizing γ p k ms m ns a g with
  | nil => simp [ParseForest.moves] at moves_eq
  | leaf s rest ih =>
    have next : (G.rule p).output[k]? = some s := by
      have first := congrArg List.head? roots_eq
      simpa [List.head?_drop] using first.symm
    have tail : G.roots rest = (G.rule p).output.drop (k + 1) := by
      have dropped := drop_eq_cons next
      rw [roots_leaf, dropped] at roots_eq
      exact (List.cons.inj roots_eq).2
    cases ms with
    | nil =>
      obtain ⟨rfl, rfl⟩ := List.cons.inj moves_eq
      obtain rfl := Option.some.inj before
      have ahead : some s = a.map Symbol.terminal := by simpa [Ready, tokensOf] using ready.2
      cases a with
      | none => simp at ahead
      | some t =>
        obtain rfl : s = .terminal t := by simpa using ahead
        refine ⟨rfl, ?_⟩
        simpa using complete.shift ready.item next
    | cons m0 ms =>
      obtain ⟨rfl, later_eq⟩ := List.cons.inj moves_eq
      obtain ⟨g', before'⟩ := ParseForest.exists_replay_prefix (g := rest) (Valid.fits valid) later_eq
      have whole := ParseForest.replay_append_left before' (.leaf s .nil)
      change (ParseForest.leaf s .nil).replay G.arity ms = some g at before
      have g_eq : g = .leaf s g' := Option.some.inj (before.symm.trans whole)
      rw [g_eq, roots_leaf, ← List.singleton_append, ← List.append_assoc]
      exact ih valid tail later_eq (ready.goto next) before'
  | node q children rest ihc ihr =>
    obtain ⟨symbols, validc, validr⟩ := valid
    have next : (G.rule p).output[k]? = some (G.head q) := by
      have first := congrArg List.head? roots_eq
      simpa [List.head?_drop] using first.symm
    have tail : G.roots rest = (G.rule p).output.drop (k + 1) := by
      have dropped := drop_eq_cons next
      rw [roots_node, dropped] at roots_eq
      exact (List.cons.inj roots_eq).2
    have reduction : ∀ {g : SymbolForest P T N},
        ParseForest.nil.replay G.arity children.moves = some g →
        G.Ready γ p k rest.yield a → G.Allowed acts (γ ++ G.roots g) a (.reduce q) := by
      intro g before ready
      rw [ParseForest.replay_moves (Valid.fits validc)] at before
      obtain rfl := Option.some.inj before
      have complete_item := (Ready.look validr ready next tail).advance (le_refl _)
      rw [List.take_length, ← symbols] at complete_item
      exact complete.reduce (symbols ▸ complete_item)
    rw [ParseForest.moves] at moves_eq
    rcases List.append_eq_append_iff.mp moves_eq with ⟨later, ms_eq, later_eq⟩ |
      ⟨later, children_eq, later_eq⟩
    · cases later with
      | nil =>
        obtain ⟨rfl, rfl⟩ := List.cons.inj later_eq
        rw [List.append_nil] at ms_eq
        exact reduction (ms_eq ▸ before) (by simpa [tokensOf] using ready)
      | cons m0 later =>
        obtain ⟨rfl, rest_eq⟩ := List.cons.inj later_eq
        obtain ⟨g', before'⟩ := ParseForest.exists_replay_prefix (Valid.fits validr) rest_eq
        have whole := ParseForest.replay_append_left before' (.node q children .nil)
        have g_eq : g = .node q children g' := by
          have applied : (ParseForest.nil.append children).apply G.arity (.reduce q) =
              some (.node q children .nil) :=
            ParseForest.apply_reduce (by rw [arity, ← symbols, length_roots])
          rw [ms_eq, ParseForest.replay_append, ParseForest.replay_moves (Valid.fits validc),
            Option.bind_some, ParseForest.replay, applied] at before
          exact Option.some.inj (before.symm.trans whole)
        rw [g_eq, roots_node, ← List.singleton_append, ← List.append_assoc]
        exact ihr validr tail rest_eq (ready.goto next) before'
    · cases later with
      | nil =>
        obtain ⟨rfl, rfl⟩ := List.cons.inj later_eq
        rw [List.append_nil] at children_eq
        exact reduction (children_eq ▸ before) (by simpa [tokensOf] using ready)
      | cons m0 later =>
        obtain ⟨rfl, rfl⟩ := List.cons.inj later_eq
        refine ihc validc (by rw [symbols, List.drop_zero]) children_eq ?_ before
        refine Ready.closure validr ?_ next tail
        have ahead : tokensOf (m :: (later ++ .reduce q :: rest.moves)) =
            tokensOf (m :: later) ++ rest.yield := by
          rw [← List.cons_append, tokensOf_append]
          simp [tokensOf]
        rwa [← ahead]

end Mewa.Lib.Productions
