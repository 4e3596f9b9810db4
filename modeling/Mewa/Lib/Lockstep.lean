/- Module: Mewa/Lib/Lockstep
   digest: A complete table makes the moves of all parse trees. If it has one action for a place, there
   is one parse tree at most. -/

import Mewa.Lib.LrTable

set_option autoImplicit false
set_option relaxedAutoImplicit false

namespace Mewa.Lib

theorem tokensOf_map {T T' P P' : Type} (tokenOf : T → T') (ruleOf : P → P')
    (ms : List (Move T P)) :
    tokensOf (ms.map (Move.map tokenOf ruleOf)) = (tokensOf ms).map tokenOf := by
  induction ms with
  | nil => rfl
  | cons m ms ih =>
    cases m with
    | shift t =>
      show tokenOf t :: tokensOf (ms.map (Move.map tokenOf ruleOf)) = _
      rw [ih]
      rfl
    | reduce p => exact ih

/-- The moves that reduce, with other tokens and rules. -/
theorem reductionsOf_map {T T' P P' : Type} (tokenOf : T → T') (ruleOf : P → P')
    (ms : List (Move T P)) :
    reductionsOf (ms.map (Move.map tokenOf ruleOf)) = (reductionsOf ms).map ruleOf := by
  induction ms with
  | nil => rfl
  | cons m ms ih =>
    cases m with
    | shift t => exact ih
    | reduce p =>
      show ruleOf p :: reductionsOf (ms.map (Move.map tokenOf ruleOf)) = _
      rw [ih]
      rfl

theorem length_moves {T P : Type} (ms : List (Move T P)) :
    ms.length = (tokensOf ms).length + (reductionsOf ms).length := by
  induction ms with
  | nil => rfl
  | cons m ms ih =>
    cases m with
    | shift t =>
      rw [tokensOf, reductionsOf, List.length_cons, List.length_cons]
      omega
    | reduce p =>
      rw [tokensOf, reductionsOf, List.length_cons, List.length_cons]
      omega

namespace Productions

variable {P T N : Type} (G : Productions P T N)

/-- The trees of the right side of the start production. -/
structure IsParse (f : SymbolForest P T N) : Prop where
  valid : G.Valid f
  roots_eq : G.roots f = (G.rule G.start).output

def ruleMove {S : Type} : Move S P → Move S (ContextFreeRule T N) := Move.map id G.rule

/-- Trees with the rules of their productions. -/
def ruled {S : Type} : ParseForest S P → ParseForest S (ContextFreeRule T N) :=
  ParseForest.map id G.rule

/-- A table that does not leave a choice but that between productions with the same rule. -/
def Single (acts : List (Symbol T N) → Option T → Option P → Prop) : Prop :=
  ∀ {γ a o o'}, acts γ a o → acts γ a o' → o.map G.rule = o'.map G.rule

variable {G}

section Rules

variable {f f' g g' : SymbolForest P T N} {ms ms' : List (Move (Symbol T N) P)}

theorem moves_ruled {S : Type} (f : ParseForest S P) : (G.ruled f).moves = f.moves.map G.ruleMove :=
  ParseForest.moves_map f

theorem roots_eq_of_ruled (same : G.ruled g = G.ruled g') : G.roots g = G.roots g' := by
  have heads (f : SymbolForest P T N) : G.roots f =
      (G.ruled f).roots id fun r => Symbol.nonterminal r.input := by
    unfold ruled
    rw [ParseForest.roots_map]
    rfl
  rw [heads, heads, same]

theorem ruled_eq_of_replay (first : ParseForest.nil.replay G.arity ms = some g)
    (second : ParseForest.nil.replay G.arity ms' = some g')
    (same : ms.map G.ruleMove = ms'.map G.ruleMove) : G.ruled g = G.ruled g' := by
  have mapped (ms : List (Move (Symbol T N) P)) :
      ParseForest.nil.replay (fun r : ContextFreeRule T N => r.output.length) (ms.map G.ruleMove) =
        (ParseForest.nil.replay G.arity ms).map G.ruled :=
    ParseForest.replay_map (fun _ => rfl) .nil ms
  have left := mapped ms
  rw [same, mapped ms', first, second] at left
  exact (Option.some.inj left).symm

theorem Valid.replay (valid : G.Valid f) : ParseForest.nil.replay G.arity f.moves = some f :=
  ParseForest.replay_moves valid.fits .nil

theorem Valid.mem_yield (valid : G.Valid f) {s : Symbol T N} (mem : s ∈ f.yield) :
    s ∈ G.roots f ∨ ∃ p, s ∈ (G.rule p).output := by
  induction f with
  | nil => cases mem
  | leaf s' rest ih =>
    rcases List.mem_cons.mp mem with rfl | later
    · exact Or.inl List.mem_cons_self
    · exact (ih valid later).imp_left (List.mem_cons_of_mem s')
  | node p children rest ihc ihr =>
    obtain ⟨symbols, validc, validr⟩ := valid
    rcases List.mem_append.mp mem with inner | later
    · rcases ihc validc inner with root | deeper
      · exact Or.inr ⟨p, symbols ▸ root⟩
      · exact Or.inr deeper
    · exact (ihr validr later).imp_left (List.mem_cons_of_mem _)

theorem IsParse.mem_yield (parse : G.IsParse f) {s : Symbol T N} (mem : s ∈ f.yield) :
    ∃ p, s ∈ (G.rule p).output := by
  rcases parse.valid.mem_yield mem with root | deeper
  · exact ⟨G.start, parse.roots_eq ▸ root⟩
  · exact deeper

theorem Valid.start_not_mem (valid : G.Valid f) (fresh : G.head G.start ∉ G.roots f) :
    Move.reduce G.start ∉ f.moves := by
  induction f with
  | nil => simp [ParseForest.moves]
  | leaf s rest ih =>
    rw [ParseForest.moves, List.mem_cons]
    rintro (same | later)
    · cases same
    · exact ih valid (fun mem => fresh (List.mem_cons_of_mem s mem)) later
  | node p children rest ihc ihr =>
    obtain ⟨symbols, validc, validr⟩ := valid
    rw [ParseForest.moves, List.mem_append, List.mem_cons]
    rintro (inner | same | later)
    · exact ihc validc (by rw [symbols]; exact G.start_fresh p) inner
    · obtain rfl := Move.reduce.inj same
      exact fresh List.mem_cons_self
    · exact ihr validr (fun mem => fresh (List.mem_cons_of_mem _ mem)) later

theorem IsParse.start_not_mem (parse : G.IsParse f) : Move.reduce G.start ∉ f.moves := by
  apply parse.valid.start_not_mem
  rw [parse.roots_eq]
  exact G.start_fresh G.start

end Rules

section Tables

variable {acts : List (Symbol T N) → Option T → Option P → Prop} {f f' g : SymbolForest P T N}
  {ms ms' ns ns' : List (Move (Symbol T N) P)} {m : Move (Symbol T N) P} {a : Option T} {w : List T}

theorem start_whole :
    G.ItemLook (G.rule G.start).output G.start (G.rule G.start).output.length none := by
  have behind := ItemLook.start.advance (G := G) (le_refl (G.rule G.start).output.length)
  rwa [List.take_length, List.nil_append] at behind

theorem Complete.next (complete : G.Complete acts) (parse : G.IsParse f)
    (moves_eq : f.moves = ms ++ m :: ns)
    (ahead : (tokensOf (m :: ns)).head? = a.map Symbol.terminal)
    (before : ParseForest.nil.replay G.arity ms = some g) : G.Allowed acts (G.roots g) a m := by
  have ready : G.Ready [] G.start 0 (tokensOf (m :: ns)) a := by
    unfold Ready
    split
    · rename_i none_left
      rw [none_left] at ahead
      cases a with
      | none => exact .start
      | some t => simp at ahead
    · exact ⟨.start, ahead⟩
  have roots_eq : G.roots f = (G.rule G.start).output.drop 0 := parse.roots_eq
  simpa using complete.allowed parse.valid roots_eq moves_eq ready before

theorem Complete.not_more (complete : G.Complete acts) (single : G.Single acts)
    (parse : G.IsParse f) (parse' : G.IsParse f') (words : f.yield = f'.yield)
    (moves_eq : f'.moves = ms' ++ m :: ns) (same : ms'.map G.ruleMove = f.moves.map G.ruleMove) :
    False := by
  obtain ⟨g, before⟩ := ParseForest.exists_replay_prefix parse'.valid.fits moves_eq
  have roots_g : G.roots g = (G.rule G.start).output := by
    rw [roots_eq_of_ruled (ruled_eq_of_replay before parse.valid.replay same), parse.roots_eq]
  have nothing_left : tokensOf (m :: ns) = [] := by
    have tokens := congrArg tokensOf same
    have whole := congrArg tokensOf moves_eq
    unfold ruleMove at tokens
    rw [tokensOf_map, tokensOf_map, List.map_id, List.map_id, tokensOf_moves] at tokens
    rw [tokensOf_append, tokensOf_moves, tokens, ← words] at whole
    exact List.self_eq_append_right.mp whole
  have allowed := complete.next parse' moves_eq (a := none) (by rw [nothing_left]; rfl) before
  cases m with
  | shift s => simp [tokensOf] at nothing_left
  | reduce p =>
    obtain ⟨q, rule, action⟩ := allowed
    have behind : G.ItemLook (G.roots g) G.start (G.rule G.start).output.length none := by
      rw [roots_g]
      exact start_whole
    obtain ⟨q', rule', action'⟩ := complete.reduce behind
    have same_rule : G.rule q = G.rule q' := Option.some.inj (single action action')
    have input : (G.rule p).input = (G.rule G.start).input := by
      rw [← rule, same_rule, rule']
    obtain rfl := G.start_unique p input
    apply parse'.start_not_mem
    rw [moves_eq]
    simp

theorem Complete.lockstep (complete : G.Complete acts) (single : G.Single acts)
    (parse : G.IsParse f) (parse' : G.IsParse f') (leaves : f.yield = w.map .terminal)
    (leaves' : f'.yield = w.map .terminal) (moves_eq : f.moves = ms ++ ns) :
    ∃ ms' ns', f'.moves = ms' ++ ns' ∧ ms'.map G.ruleMove = ms.map G.ruleMove := by
  induction ms using List.reverseRecOn generalizing ns with
  | nil => exact ⟨[], f'.moves, rfl, rfl⟩
  | append_singleton ms m ih =>
    have moves_eq : f.moves = ms ++ m :: ns := by
      rw [moves_eq, List.append_assoc, List.singleton_append]
    obtain ⟨ms', ns', moves_eq', same⟩ := ih moves_eq
    cases ns' with
    | nil =>
      rw [List.append_nil] at moves_eq'
      exact (complete.not_more single parse' parse (leaves'.trans leaves.symm) moves_eq
        (by rw [moves_eq', same])).elim
    | cons m' ns' =>
      obtain ⟨g, before⟩ := ParseForest.exists_replay_prefix parse.valid.fits moves_eq
      obtain ⟨g', before'⟩ := ParseForest.exists_replay_prefix parse'.valid.fits moves_eq'
      have roots_g := roots_eq_of_ruled (ruled_eq_of_replay before before' same.symm)
      -- the rest of the word is the same for both
      have left : tokensOf (m :: ns) = tokensOf (m' :: ns') := by
        have tokens := congrArg tokensOf same
        have first := congrArg tokensOf moves_eq
        have second := congrArg tokensOf moves_eq'
        unfold ruleMove at tokens
        rw [tokensOf_map, tokensOf_map, List.map_id, List.map_id] at tokens
        rw [tokensOf_append, tokensOf_moves, leaves] at first
        rw [tokensOf_append, tokensOf_moves, leaves', first, tokens] at second
        exact List.append_cancel_left second
      obtain ⟨a, ahead⟩ : ∃ a : Option T, (tokensOf (m :: ns)).head? = a.map Symbol.terminal := by
        have all : ∀ s ∈ tokensOf (m :: ns), ∃ t : T, s = .terminal t := by
          intro s mem
          have inside : s ∈ w.map Symbol.terminal := by
            rw [← leaves, ← tokensOf_moves, moves_eq, tokensOf_append]
            exact List.mem_append_right _ mem
          obtain ⟨t, -, rfl⟩ := List.mem_map.mp inside
          exact ⟨t, rfl⟩
        cases rest : tokensOf (m :: ns) with
        | nil => exact ⟨none, rfl⟩
        | cons s v =>
          obtain ⟨t, rfl⟩ := all s (by rw [rest]; exact List.mem_cons_self)
          exact ⟨some t, rfl⟩
      have allowed := complete.next parse moves_eq ahead before
      have allowed' := complete.next parse' moves_eq' (left ▸ ahead) before'
      rw [← roots_g] at allowed'
      have move : G.ruleMove m' = G.ruleMove m := by
        cases m with
        | shift s =>
          cases m' with
          | shift s' =>
            have first := allowed.1
            rw [allowed'.1] at first
            rw [Option.some.inj first]
          | reduce p' =>
            obtain ⟨q', -, action'⟩ := allowed'
            have clash := single allowed.2 action'
            simp at clash
        | reduce p =>
          obtain ⟨q, rule, action⟩ := allowed
          cases m' with
          | shift s' =>
            have clash := single allowed'.2 action
            simp at clash
          | reduce p' =>
            obtain ⟨q', rule', action'⟩ := allowed'
            have rules : G.rule q = G.rule q' := Option.some.inj (single action action')
            show Move.reduce (G.rule p') = Move.reduce (G.rule p)
            rw [← rule', ← rules, rule]
      refine ⟨ms' ++ [m'], ns', ?_, ?_⟩
      · rw [moves_eq', List.append_assoc, List.singleton_append]
      · rw [List.map_append, List.map_append, same, List.map_singleton, List.map_singleton, move]

/-- A grammar with a complete table without choices is not ambiguous, up to productions with the same
    rule. -/
theorem Complete.unambiguous (complete : G.Complete acts) (single : G.Single acts)
    (parse : G.IsParse f) (parse' : G.IsParse f') (leaves : f.yield = w.map .terminal)
    (leaves' : f'.yield = w.map .terminal) : G.ruled f = G.ruled f' := by
  obtain ⟨ms', ns', moves_eq, same⟩ :=
    complete.lockstep single parse parse' leaves leaves' (List.append_nil f.moves).symm
  cases ns' with
  | nil =>
    rw [List.append_nil] at moves_eq
    exact ruled_eq_of_replay parse.valid.replay parse'.valid.replay (by rw [moves_eq, same])
  | cons m ns =>
    exact (complete.not_more single parse parse' (leaves.trans leaves'.symm) moves_eq same).elim

/-- A rightmost derivation from the start begins with the start production. -/
theorem Rightmost.exists_parse {ps : List P}
    (derivation : G.Rightmost [G.head G.start] ps (w.map .terminal)) :
    ∃ f qs, ps = G.start :: qs ∧ G.IsParse f ∧ f.yield = w.map .terminal ∧
      reductionsOf f.moves = qs.reverse := by
  obtain ⟨f, valid, roots_eq, leaves, reductions⟩ := derivation.exists_forest
  cases f with
  | nil => simp at roots_eq
  | leaf s rest =>
    -- the start is a nonterminal, thus it is expanded
    obtain ⟨rfl, -⟩ := List.cons.inj roots_eq
    rw [ParseForest.yield] at leaves
    cases w with
    | nil => simp at leaves
    | cons t w => simp [head] at leaves
  | node p children rest =>
    obtain ⟨same, none_left⟩ := List.cons.inj roots_eq
    obtain ⟨symbols, validc, -⟩ := valid
    have input : (G.rule p).input = (G.rule G.start).input := Symbol.nonterminal.inj same
    obtain rfl := G.start_unique p input
    have nothing : rest = .nil := by
      apply ParseForest.eq_nil_of_length
      rw [← length_roots (G := G)]
      exact congrArg List.length none_left
    subst nothing
    refine ⟨children, (reductionsOf children.moves).reverse, ?_, ⟨validc, symbols⟩, ?_, ?_⟩
    · have reversed := congrArg List.reverse reductions
      simpa [ParseForest.moves, reductionsOf] using reversed.symm
    · simpa [ParseForest.yield] using leaves
    · rw [List.reverse_reverse]

/-- There is one rightmost derivation of a word at most. -/
theorem Complete.rightmost_unique (complete : G.Complete acts) (single : G.Single acts)
    {ps qs : List P} (first : G.Rightmost [G.head G.start] ps (w.map .terminal))
    (second : G.Rightmost [G.head G.start] qs (w.map .terminal)) :
    ps.map G.rule = qs.map G.rule := by
  obtain ⟨f, ps, rfl, parse, leaves, reductions⟩ := first.exists_parse
  obtain ⟨f', qs, rfl, parse', leaves', reductions'⟩ := second.exists_parse
  have same := congrArg (fun g => reductionsOf (ParseForest.moves g))
    (complete.unambiguous single parse parse' leaves leaves')
  simp only [moves_ruled] at same
  unfold ruleMove at same
  rw [reductionsOf_map, reductionsOf_map, reductions, reductions', List.map_reverse,
    List.map_reverse] at same
  rw [List.map_cons, List.map_cons, List.reverse_injective same]

end Tables

end Productions

end Mewa.Lib
