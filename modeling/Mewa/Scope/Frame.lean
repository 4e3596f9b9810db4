/- Module: Mewa/Scope/Frame
   digest: A definition for a key changes no answer for another key. -/

import Mewa.Scope.Admitted

set_option autoImplicit false
set_option relaxedAutoImplicit false

namespace Mewa

open Mewa.Lib

variable {K κ V : Type} [LinearOrder K] [EndKey K κ]

section Links

variable {owner : Nat → κ} {key : κ} {scope : Scope} {n : Nat}

theorem linkLeft_keyed {map : SortedMap K Nat} {entries : List (K × Nat)}
    (own : owner n = key) :
    ∀ {tree tree' : ScopedUpValueInvTree V}, Ascending tree.ar →
      (∃ w : ScopedUpValue V, tree.ar[n]? = some w ∧ w.scope = scope) →
      Keyed (⟨map, tree⟩ : ScopeTable K V) owner →
      (∀ x ∈ entries, map.find x.1 = some x.2 ∧ x.2 < tree.ar.length) →
      ((∀ p ∈ ScopeTable.leftWalk scope entries, ∃ sk, p = some sk ∧ EndKey.key sk = key) ∨
        ∀ p ∈ contents tree, ¬ p.1 < scope) →
      ScopeTable.linkLeft scope n entries tree = .ok tree' →
      Keyed (⟨map, tree'⟩ : ScopeTable K V) owner ∧
        SameElsewhere key owner (⟨map, tree⟩ : ScopeTable K V) ⟨map, tree'⟩ := by
  induction entries with
  | nil =>
    intro tree tree' _ _ _ _ _ loop
    simp [ScopeTable.linkLeft] at loop
  | cons x entries ih =>
    obtain ⟨sk, index⟩ := x
    intro tree tree' ascending target keyed entered only loop
    simp only [ScopeTable.linkLeft] at loop
    split_ifs at loop with stop
    · obtain rfl := Except.ok.inj loop
      exact ⟨keyed, SameElsewhere.refl _ _ _⟩
    · obtain ⟨found, inRange⟩ := entered (sk, index) List.mem_cons_self
      have rest : ∀ x ∈ entries, map.find x.1 = some x.2 ∧ x.2 < tree.ar.length :=
        fun x mem => entered x (List.mem_cons_of_mem _ mem)
      have later : (∀ p ∈ ScopeTable.leftWalk scope entries,
          ∃ sk, p = some sk ∧ EndKey.key sk = key) ∨ ∀ p ∈ contents tree, ¬ p.1 < scope := by
        refine only.imp_left fun walk p mem => walk p ?_
        rw [ScopeTable.leftWalk, if_neg stop]
        exact List.mem_cons_of_mem _ mem
      rcases linkLeftNeighbours_cases ascending inRange scope n with
        call | ⟨l, chain, z, hz, below, call⟩
      · rw [call, ok_bind] at loop
        exact ih ascending target keyed rest later loop
      · rw [call, ok_bind] at loop
        have node := chain.node_of_mem hz
        have ownZ : owner z.1 = key := by
          rcases only with walk | outside
          · obtain ⟨sk', same, here⟩ := walk (some sk)
              (by rw [ScopeTable.leftWalk, if_neg stop]; exact List.mem_cons_self)
            rw [keyed.chain chain z hz, keyed.heads sk index found, Option.some.inj same, here]
          · exact absurd below (outside _ (List.mem_map.mpr ⟨z.2, List.mem_of_getElem? node, rfl⟩))
        obtain ⟨written, same⟩ := keyed.setPrev ownZ own
        have content := contents_setPrev tree z.1 (some n)
        obtain ⟨w, hw, hscope⟩ := target
        obtain ⟨w', hw', hscope', -⟩ := contents_node content hw
        have len : (tree.setPrev z.1 (some n)).ar.length = tree.ar.length := by
          simpa [contents] using congrArg List.length content
        obtain ⟨kept, same'⟩ := ih (ascending.setPrev hw fun uv huv => by
            obtain rfl := Option.some.inj (node.symm.trans huv)
            exact hscope ▸ below) ⟨w', hw', hscope'.trans hscope⟩ written
          (fun x mem => ⟨(rest x mem).1, len ▸ (rest x mem).2⟩) (by rwa [content]) loop
        exact ⟨kept, same.trans same'⟩

variable [DecidableEq κ] {table : ScopeTable K V}

theorem linkNew_keyed (sound : SoundTable table) (keyed : Keyed table owner) (own : owner n = key)
    (target : ∃ w : ScopedUpValue V, table.invtree.ar[n]? = some w ∧ w.scope = scope)
    (entered : ∃ i, table.map.find (EndKey.pack key scope.stop) = some i)
    (only : scope.start < scope.stop ∨ ∀ p ∈ contents table.invtree, ¬ p.1 < scope) :
    Keyed (ScopeTable.linkNew key scope n table).1 owner ∧
      SameElsewhere key owner table (ScopeTable.linkNew key scope n table).1 := by
  simp only [ScopeTable.linkNew]
  split
  · exact ⟨keyed, SameElsewhere.refl _ _ _⟩
  · cases loop : ScopeTable.linkLeft scope n
        (table.map.upperBound (EndKey.pack key scope.start)) table.invtree with
    | error e => exact ⟨keyed, SameElsewhere.refl _ _ _⟩
    | ok tree =>
      refine linkLeft_keyed own sound.ascending target keyed (fun x mem => ?_) ?_ loop
      · have found := SortedMap.find_eq_some.mpr (SortedMap.mem_upperBound.mp mem).1
        obtain ⟨uv, node, -⟩ := sound.heads _ _ found
        exact ⟨found, (List.getElem?_eq_some_iff.mp node).1⟩
      · refine only.imp_left fun nonEmpty => ?_
        obtain ⟨i, entered⟩ := entered
        exact ScopeTable.leftWalk_inside (table.map.upperBound_sorted _)
          (fun x mem => (SortedMap.mem_upperBound.mp mem).2)
          (SoundTable.meets_own entered nonEmpty).1

omit [DecidableEq κ] in
private theorem Keyed.extend (sound : SoundTable table) (keyed : Keyed table owner) (key : κ) :
    Keyed table (Function.update owner table.invtree.nextIndex key) := by
  have old : ∀ {i : Nat}, i < table.invtree.ar.length →
      Function.update owner table.invtree.nextIndex key i = owner i := by
    intro i inside
    apply Function.update_of_ne
    show i ≠ table.invtree.ar.length
    omega
  refine ⟨fun sk i found => ?_, fun i uv j node link => ?_⟩
  · obtain ⟨uv, node, -⟩ := sound.heads sk i found
    rw [old (List.getElem?_eq_some_iff.mp node).1]
    exact keyed.heads sk i found
  · obtain ⟨w, node', -⟩ := sound.ascending i uv j node link
    rw [old (List.getElem?_eq_some_iff.mp node).1, old (List.getElem?_eq_some_iff.mp node').1]
    exact keyed.links i uv j node link

theorem insertScope_frame (sound : SoundTable table) (ordered : Ordered table)
    (keyed : ∃ owner, Keyed table owner) (key : κ) {scope : Scope}
    (steps : scope.start ≤ scope.stop) (value : V) (overwrite : Bool) :
    ∃ owner, Keyed table owner ∧ Keyed (table.insertScope key scope value overwrite).1 owner ∧
      SameElsewhere key owner table (table.insertScope key scope value overwrite).1 := by
  obtain ⟨owner, keyed⟩ := keyed
  have before := keyed.extend sound key
  have own : Function.update owner table.invtree.nextIndex key table.invtree.nextIndex = key :=
    Function.update_self ..
  generalize Function.update owner table.invtree.nextIndex key = owner' at before own
  have insertion := sound.insertion key scope value overwrite
  generalize table.insertScope key scope value overwrite = after at insertion
  refine ⟨owner', before, ?_⟩
  cases insertion with
  | rejected => exact ⟨before, SameElsewhere.refl _ _ _⟩
  | @known ai index uv head node _ _ _ _ owned _ =>
    cases overwrite with
    | false => exact ⟨before, SameElsewhere.refl _ _ _⟩
    | true =>
      have ownAi := owned owner' before
      refine ⟨⟨before.heads, fun i w j node' link => ?_⟩, fun _ _ => rfl, fun i w node' other => ?_⟩
      · change (table.invtree.ar.modify ai _)[i]? = some w at node'
        rw [List.getElem?_modify] at node'
        obtain ⟨u, old, rfl⟩ := Option.map_eq_some_iff.mp node'
        refine before.links i u j old ?_
        by_cases here : ai = i
        · simpa [here] using link
        · simpa [here] using link
      · have apart : ai ≠ i := fun same => other (same ▸ ownAi)
        show (table.invtree.ar.modify ai _)[i]? = _
        rw [List.getElem?_modify, node']
        simp [apart]
  | @linked map tree ascending same null heads entered _ owned _ =>
    obtain ⟨pushed, elsewhere⟩ := owned owner' before own
    have sound' : SoundTable (⟨map, tree⟩ : ScopeTable K V) := ⟨ascending, heads⟩
    have only : scope.start < scope.stop ∨ ∀ p ∈ contents tree, ¬ p.1 < scope := by
      by_cases nonEmpty : scope.start < scope.stop
      · exact Or.inl nonEmpty
      · refine Or.inr fun p mem below => ?_
        have inOrder : p.1.start ≤ p.1.stop := by
          rw [same] at mem
          rcases List.mem_append.mp mem with old | new
          · exact ordered p old
          · rw [List.mem_singleton.mp new]
            exact steps
        have le := Scope.le_iff.mp below.le
        exact below.ne (Scope.ext (by omega) (by omega))
    obtain ⟨linked, elsewhere'⟩ := linkNew_keyed sound' pushed own (SoundTable.pushed_node same)
      entered only
    exact ⟨linked, elsewhere.trans elsewhere'⟩

end Links

section Queries

variable [DecidableEq κ] {table table' : ScopeTable K V} {owner : Nat → κ} {key other : κ}

omit [DecidableEq κ] in
theorem SameElsewhere.chain (same : SameElsewhere key owner table table')
    (keyed : Keyed table owner) {index : Nat} {l : List (ChainNode V)}
    (chain : Chain table.invtree.ar (some index) l) (elsewhere : owner index ≠ key) :
    Chain table'.invtree.ar (some index) l := by
  have owned := keyed.chain chain
  generalize some index = start at chain
  induction chain with
  | nil => exact .nil
  | @cons ai uv l node rest ih =>
    have ownAi := owned (ai, uv) List.mem_cons_self
    refine .cons (same.nodes ai uv node ?_) (ih fun x mem => owned x (List.mem_cons_of_mem _ mem))
    rw [ownAi]
    exact elsewhere

omit [DecidableEq κ] in
theorem SameElsewhere.whileUp_eq {σ ρ : Type} (same : SameElsewhere key owner table table')
    (keyed : Keyed table owner) (sound : SoundTable table) (sound' : SoundTable table') {sk : K}
    {index : Nat} (found : table.map.find sk = some index) (elsewhere : EndKey.key sk ≠ key)
    (body : Nat → ScopedUpValue V → σ → Except Failure (Loop σ ρ)) (exit : σ → ρ) (state : σ) :
    whileUp table'.invtree.ar body exit table'.invtree.ar.length (some index) state =
      whileUp table.invtree.ar body exit table.invtree.ar.length (some index) state := by
  obtain ⟨l, chain, -, bounded, -⟩ := sound.exists_chain found
  have chain' := same.chain keyed chain (by rw [keyed.heads sk index found]; exact elsewhere)
  rw [chain.whileUp_eq_walk _ _ _ _ bounded,
    chain'.whileUp_eq_walk _ _ _ _ (sound'.ascending.length_le chain')]

theorem SameElsewhere.neighbour_eq (same : SameElsewhere key owner table table')
    (ne : other ≠ key) (step : Int) :
    ScopeTable.neighbour other (table'.map.upperBound (EndKey.pack other step)) =
      ScopeTable.neighbour other (table.map.upperBound (EndKey.pack other step)) := by
  have heads : ∀ f, table'.map.find (EndKey.pack other f) =
      table.map.find (EndKey.pack other f) := by
    intro f
    apply same.heads
    rw [EndKey.key_pack]
    exact ne
  rcases ScopeTable.neighbour_cases table.map other step with
    ⟨right, none⟩ | ⟨f, i, right, later, found, least⟩
  · rcases ScopeTable.neighbour_cases table'.map other step with
      ⟨right', -⟩ | ⟨f', i', -, later', found', -⟩
    · rw [right, right']
    · rw [heads] at found'
      exact absurd found' (none f' i' later')
  · rcases ScopeTable.neighbour_cases table'.map other step with
      ⟨-, none'⟩ | ⟨f', i', right', later', found', least'⟩
    · rw [← heads] at found
      exact absurd found (none' f i later)
    · have le := least' f i later (heads f ▸ found)
      rw [heads] at found'
      have ge := least f' i' later' found'
      obtain rfl : f = f' := by omega
      rw [right, right', ← found, ← found']

theorem SameElsewhere.queries (same : SameElsewhere key owner table table')
    (keyed : Keyed table owner) (sound : SoundTable table) (sound' : SoundTable table')
    (null : table'.invtree.nullval = table.invtree.nullval) (ne : other ≠ key) :
    (∀ step, table'.innerValue other step = table.innerValue other step) ∧
      ∀ scope, table'.valueOf other scope = table.valueOf other scope := by
  constructor
  · intro step
    simp only [ScopeTable.innerValue, same.neighbour_eq ne step]
    rcases ScopeTable.neighbour_cases table.map other step with
      ⟨right, -⟩ | ⟨f, i, right, -, found, -⟩
    · rw [right, null]
    · rw [right]
      simp only [ScopedUpValueInvTree.getInnerValue, null]
      exact same.whileUp_eq keyed sound sound' found (by rw [EndKey.key_pack]; exact ne) _ _ _
  · intro scope
    have heads := same.heads (EndKey.pack other scope.stop) (by rw [EndKey.key_pack]; exact ne)
    simp only [ScopeTable.valueOf, heads]
    cases found : table.map.find (EndKey.pack other scope.stop) with
    | none => simp only [null]
    | some index =>
      simp only [ScopedUpValueInvTree.findUpValue, null]
      exact same.whileUp_eq keyed sound sound' found (by rw [EndKey.key_pack]; exact ne) _ _ _

theorem insertScope_valueOf (sound : SoundTable table) (key : κ) (scope : Scope) (value : V) :
    (∃ old, table.valueOf key scope = .ok old ∧
      table.insertScope key scope value false = (table, .ok (some old))) ∨
    (table.valueOf key scope = .ok table.invtree.nullval ∧
      ∀ old, (table.insertScope key scope value false).2 ≠ .ok (some old)) := by
  have insertion := sound.insertion key scope value false
  generalize table.insertScope key scope value false = after at insertion
  cases insertion with
  | rejected e _ _ _ _ query => exact Or.inr ⟨query, by simp⟩
  | @known ai index uv head _ _ _ _ _ _ query => exact Or.inl ⟨uv.value, query, rfl⟩
  | @linked map tree ascending same _ heads _ _ _ query =>
    refine Or.inr ⟨query, fun old => ?_⟩
    have pushed : SoundTable (⟨map, tree⟩ : ScopeTable K V) := ⟨ascending, heads⟩
    obtain ⟨tree', -, -, -, cases⟩ :=
      SoundTable.linkNew_cases key pushed (SoundTable.pushed_node same)
    rcases cases with ⟨-, link⟩ | ⟨-, link | ⟨-, link⟩⟩
    all_goals
      rw [link]
      simp

theorem SoundTable.valueOf_ok (sound : SoundTable table) (key : κ) (scope : Scope) :
    ∃ v, table.valueOf key scope = .ok v ∧
      (v = table.invtree.nullval ∨ (scope, v) ∈ contents table.invtree) := by
  rcases insertScope_valueOf sound key scope table.invtree.nullval with
    ⟨old, query, call⟩ | ⟨query, -⟩
  · have outcome := sound.insertScope_outcome key scope table.invtree.nullval
    exact ⟨old, query, Or.inr (outcome.known old (congrArg Prod.snd call)).2⟩
  · exact ⟨_, query, Or.inl rfl⟩

theorem ScopeTable.queries_unknown
    (none : ∀ f i, table.map.find (EndKey.pack other f) ≠ some i) :
    (∀ step, table.innerValue other step = .ok table.invtree.nullval) ∧
      ∀ scope, table.valueOf other scope = .ok table.invtree.nullval := by
  constructor
  · intro step
    rcases ScopeTable.neighbour_cases table.map other step with ⟨right, -⟩ | ⟨f, i, -, -, found, -⟩
    · simp only [ScopeTable.innerValue, right]
    · exact absurd found (none f i)
  · intro scope
    cases found : table.map.find (EndKey.pack other scope.stop) with
    | none => simp only [ScopeTable.valueOf, found]
    | some i => exact absurd found (none _ i)

end Queries

namespace ScopedMap

variable {κ V : Type} [LinearOrder κ] {map map' : ScopedMap κ V} {owner : Nat → κ} {key other : κ}

theorem getOrSet_frame (sound : SoundTable map) (ordered : Ordered map)
    (keyed : ∃ owner, Keyed map owner) (key : κ) {scope : Scope} (api : ApiScope scope)
    (value : V) :
    SoundTable (map.getOrSet scope key value).1 ∧ Ordered (map.getOrSet scope key value).1 ∧
      ∃ owner, Keyed map owner ∧ Keyed (map.getOrSet scope key value).1 owner ∧
        SameElsewhere key owner map (map.getOrSet scope key value).1 := by
  obtain ⟨sound', ordered'⟩ := insertScope_sound_ordered key value false sound ordered api
  exact ⟨sound', ordered', insertScope_frame sound ordered keyed key
    (apiScope_iff.mp api).2.1 value false⟩

theorem queries_frame (same : SameElsewhere key owner map map') (keyed : Keyed map owner)
    (sound : SoundTable map) (sound' : SoundTable map')
    (null : map'.invtree.nullval = map.invtree.nullval) (ne : other ≠ key) :
    (∀ step, map'.get step other = map.get step other) ∧
      ∀ scope, map'.getDef scope other = map.getDef scope other :=
  same.queries keyed sound sound' null ne

theorem queries_unknown (none : ∀ f i, map.map.find ⟨other, f⟩ ≠ some i) :
    (∀ step, map.get step other = .ok map.invtree.nullval) ∧
      ∀ scope, map.getDef scope other = .ok map.invtree.nullval :=
  ScopeTable.queries_unknown none

theorem getOrSet_getDef (sound : SoundTable map) (key : κ) (scope : Scope) (value : V) :
    (∃ old, map.getDef scope key = .ok old ∧ map.getOrSet scope key value = (map, .ok old)) ∨
    (map.getDef scope key = .ok map.invtree.nullval ∧
      ∀ old, (map.getOrSet scope key value).2 = .ok old → old = map.invtree.nullval) := by
  rcases insertScope_valueOf sound key scope value with ⟨old, query, call⟩ | ⟨query, others⟩
  · exact Or.inl ⟨old, query, by simp only [getOrSet, call]; rfl⟩
  · refine Or.inr ⟨query, fun old found => ?_⟩
    simp only [getOrSet] at found
    cases result : (map.insertScope key scope value false).2 with
    | error e => simp [result, Except.map] at found
    | ok known =>
      cases known with
      | none =>
        rw [result] at found
        exact (Except.ok.inj found).symm
      | some v => exact absurd result (others v)

theorem getDef_ok (sound : SoundTable map) (key : κ) (scope : Scope) :
    ∃ v, map.getDef scope key = .ok v ∧
      (v = map.invtree.nullval ∨ (scope, v) ∈ contents map.invtree) :=
  sound.valueOf_ok key scope

end ScopedMap

end Mewa
