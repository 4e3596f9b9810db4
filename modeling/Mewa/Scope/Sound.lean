/- Module: Mewa/Scope/Sound
   digest: What every insertion keeps, also for scopes that overlap or are empty. -/

import Mewa.Scope.Overlap

set_option autoImplicit false
set_option relaxedAutoImplicit false

namespace Mewa

open Mewa.Lib

variable {K κ V : Type}

/-- The links of a table lead to strictly bigger scopes, and its heads have the ends they are found
    with. -/
structure SoundTable [LinearOrder K] [EndKey K κ] (table : ScopeTable K V) : Prop where
  ascending : Ascending table.invtree.ar
  heads : ∀ sk i, table.map.find sk = some i →
    ∃ uv, table.invtree.ar[i]? = some uv ∧ uv.scope.stop = EndKey.stop sk

/-- The definitions of a tree without their links. -/
def contents (tree : ScopedUpValueInvTree V) : List (Scope × V) :=
  tree.ar.map fun uv => (uv.scope, uv.value)

section Links

variable {tree : ScopedUpValueInvTree V}

theorem contents_node {tree' : ScopedUpValueInvTree V} (same : contents tree' = contents tree)
    {i : Nat} {uv : ScopedUpValue V} (node : tree.ar[i]? = some uv) :
    ∃ uv', tree'.ar[i]? = some uv' ∧ uv'.scope = uv.scope ∧ uv'.value = uv.value := by
  have hi := congrArg (fun l => l[i]?) same
  simp only [contents, List.getElem?_map, node, Option.map_some] at hi
  obtain ⟨uv', huv', heq⟩ := Option.map_eq_some_iff.mp hi
  exact ⟨uv', huv', congrArg Prod.fst heq, congrArg Prod.snd heq⟩

theorem contents_setPrev (tree : ScopedUpValueInvTree V) (ai : Nat) (prev : Option Nat) :
    contents (tree.setPrev ai prev) = contents tree := by
  apply List.ext_getElem?
  intro i
  simp only [contents, ScopedUpValueInvTree.setPrev, List.getElem?_map, List.getElem?_modify]
  cases tree.ar[i]? with
  | none => rfl
  | some uv => by_cases hi : ai = i <;> simp [hi]

theorem Ascending.push (ascending : Ascending tree.ar) {scope : Scope} {value : V}
    {uplink : Option Nat}
    (above : ∀ x, uplink = some x → ∃ uv, tree.ar[x]? = some uv ∧ scope < uv.scope) :
    Ascending (tree.pushUpValue scope value uplink).ar := by
  have old {j : Nat} {w : ScopedUpValue V} (h : tree.ar[j]? = some w) :
      (tree.ar ++ [⟨scope, value, uplink⟩])[j]? = some w := by
    rw [List.getElem?_append_left (List.getElem?_eq_some_iff.mp h).1, h]
  intro i uv j node hprev
  simp only [ScopedUpValueInvTree.pushUpValue] at node ⊢
  rcases Nat.lt_or_ge i tree.ar.length with hi | hi
  · rw [List.getElem?_append_left hi] at node
    obtain ⟨w, hw, hlt⟩ := ascending i uv j node hprev
    exact ⟨w, old hw, hlt⟩
  · rw [List.getElem?_append_right hi, List.getElem?_singleton] at node
    split_ifs at node
    obtain rfl := Option.some.inj node
    obtain ⟨w, hw, hlt⟩ := above j hprev
    exact ⟨w, old hw, hlt⟩

theorem Ascending.setPrev (ascending : Ascending tree.ar) {ai n : Nat} {w : ScopedUpValue V}
    (target : tree.ar[n]? = some w)
    (below : ∀ uv, tree.ar[ai]? = some uv → uv.scope < w.scope) :
    Ascending (tree.setPrev ai (some n)).ar := by
  intro i uv j node hprev
  have same := contents_setPrev tree ai (some n)
  have found {j : Nat} {v : ScopedUpValue V} (h : tree.ar[j]? = some v)
      (hlt : uv.scope < v.scope) :
      ∃ v', (tree.setPrev ai (some n)).ar[j]? = some v' ∧ uv.scope < v'.scope := by
    obtain ⟨v', hv', hscope, -⟩ := contents_node same h
    exact ⟨v', hv', hscope ▸ hlt⟩
  simp only [ScopedUpValueInvTree.setPrev, List.getElem?_modify] at node
  obtain ⟨u, hu, rfl⟩ := Option.map_eq_some_iff.mp node
  by_cases hi : ai = i
  · subst hi
    simp only [if_true] at hprev found ⊢
    obtain rfl := Option.some.inj hprev
    exact found target (below u hu)
  · simp only [hi, if_false] at hprev found ⊢
    obtain ⟨v, hv, hlt⟩ := ascending i u j hu hprev
    exact found hv hlt

theorem linkLeftNeighbours_cases (ascending : Ascending tree.ar) {index : Nat}
    (inRange : index < tree.ar.length) (scope : Scope) (n : Nat) :
    tree.linkLeftNeighbours (some index) scope n = .ok tree ∨
      ∃ l, Chain tree.ar (some index) l ∧ ∃ z ∈ l, z.2.scope < scope ∧
        tree.linkLeftNeighbours (some index) scope n = .ok (tree.setPrev z.1 (some n)) := by
  obtain ⟨l, chain⟩ := ascending.exists_chain inRange
  have increasing := ascending.increasing chain
  have bounded := ascending.length_le chain
  obtain ⟨inside, rest, rfl, hinside, hrest⟩ := increasing.split_inside scope
  have left := ScopedUpValueInvTree.leftNeighbour_eq chain bounded hinside hrest
  cases hleft : ScopedUpValueInvTree.leftOf scope inside rest with
  | none => exact Or.inl (by simp [ScopedUpValueInvTree.linkLeftNeighbours, left, hleft])
  | some p =>
    have hlast : inside.getLast?.map Prod.fst = some p := by
      cases rest with
      | nil => exact hleft
      | cons x rest =>
        simp only [ScopedUpValueInvTree.leftOf] at hleft
        split_ifs at hleft
        exact hleft
    obtain ⟨z, hz, rfl⟩ := Option.map_eq_some_iff.mp hlast
    have hzmem := List.mem_of_getLast? hz
    exact Or.inr ⟨inside ++ rest, chain, z, List.mem_append_left rest hzmem, hinside z hzmem,
      by simp [ScopedUpValueInvTree.linkLeftNeighbours, left, hleft]⟩

theorem linkLeft_ascending [LinearOrder K] [EndKey K κ] {scope : Scope} {n : Nat}
    (entries : List (K × Nat)) :
    ∀ tree : ScopedUpValueInvTree V, Ascending tree.ar →
      (∃ w : ScopedUpValue V, tree.ar[n]? = some w ∧ w.scope = scope) →
      (∀ x ∈ entries, x.2 < tree.ar.length) →
      (∃ tree', ScopeTable.linkLeft scope n entries tree = .ok tree' ∧ Ascending tree'.ar ∧
        contents tree' = contents tree ∧ tree'.nullval = tree.nullval) ∨
      ((∀ x ∈ entries, EndKey.stop x.1 ≠ scope.stop) ∧
        ScopeTable.linkLeft scope n entries tree = .error .outOfRange) := by
  induction entries with
  | nil => exact fun tree _ _ _ => Or.inr ⟨by simp, rfl⟩
  | cons x entries ih =>
    obtain ⟨sk, index⟩ := x
    intro tree ascending target inRange
    by_cases hstop : EndKey.stop sk = scope.stop
    · exact Or.inl ⟨tree, by simp [ScopeTable.linkLeft, hstop], ascending, rfl, rfl⟩
    · obtain ⟨tree', call, ascending', same, null⟩ : ∃ tree',
          tree.linkLeftNeighbours (some index) scope n = .ok tree' ∧ Ascending tree'.ar ∧
          contents tree' = contents tree ∧ tree'.nullval = tree.nullval := by
        rcases linkLeftNeighbours_cases ascending (inRange (sk, index) List.mem_cons_self) scope n
          with call | ⟨l, chain, z, hz, below, call⟩
        · exact ⟨tree, call, ascending, rfl, rfl⟩
        · obtain ⟨w, hw, hscope⟩ := target
          refine ⟨tree.setPrev z.1 (some n), call, ascending.setPrev hw fun uv huv => ?_,
            contents_setPrev _ _ _, rfl⟩
          obtain rfl := Option.some.inj ((chain.node_of_mem hz).symm.trans huv)
          exact hscope ▸ below
      have len : tree'.ar.length = tree.ar.length := by
        simpa [contents] using congrArg List.length same
      obtain ⟨w, hw, hscope⟩ := target
      obtain ⟨w', hw', hscope', -⟩ := contents_node same hw
      rcases ih tree' ascending' ⟨w', hw', hscope'.trans hscope⟩
        (fun y hy => len ▸ inRange y (List.mem_cons_of_mem _ hy)) with
        ⟨tree'', loop, ascending'', same', null'⟩ | ⟨others, loop⟩
      · exact Or.inl ⟨tree'', by simp [ScopeTable.linkLeft, hstop, call, loop], ascending'',
          same'.trans same, null'.trans null⟩
      · refine Or.inr ⟨fun y hy => ?_, by simp [ScopeTable.linkLeft, hstop, call, loop]⟩
        rcases List.mem_cons.mp hy with rfl | hy
        · exact hstop
        · exact others y hy

end Links

section Owners

variable [LinearOrder K] [EndKey K κ]

/-- Each definition belongs to the key it is found with, and its links stay within the key. -/
structure Keyed (table : ScopeTable K V) (owner : Nat → κ) : Prop where
  heads : ∀ sk i, table.map.find sk = some i → owner i = EndKey.key sk
  links : ∀ (i : Nat) (uv : ScopedUpValue V) (j : Nat), table.invtree.ar[i]? = some uv →
    uv.prev = some j → owner j = owner i

/-- Nothing that belongs to another key is changed. -/
structure SameElsewhere (key : κ) (owner : Nat → κ) (table table' : ScopeTable K V) : Prop where
  heads : ∀ sk, EndKey.key sk ≠ key → table'.map.find sk = table.map.find sk
  nodes : ∀ (i : Nat) (uv : ScopedUpValue V), table.invtree.ar[i]? = some uv → owner i ≠ key →
    table'.invtree.ar[i]? = some uv

variable {table table' table'' : ScopeTable K V} {owner : Nat → κ} {key : κ}

theorem SameElsewhere.refl (key : κ) (owner : Nat → κ) (table : ScopeTable K V) :
    SameElsewhere key owner table table := ⟨fun _ _ => rfl, fun _ _ node _ => node⟩

theorem SameElsewhere.trans (first : SameElsewhere key owner table table')
    (second : SameElsewhere key owner table' table'') :
    SameElsewhere key owner table table'' where
  heads sk other := (second.heads sk other).trans (first.heads sk other)
  nodes i uv node other := second.nodes i uv (first.nodes i uv node other) other

theorem Keyed.chain (keyed : Keyed table owner) {index : Nat} {l : List (ChainNode V)}
    (chain : Chain table.invtree.ar (some index) l) : ∀ x ∈ l, owner x.1 = owner index := by
  generalize start : some index = i at chain
  induction chain generalizing index with
  | nil => cases start
  | @cons ai uv l node rest ih =>
    obtain rfl := Option.some.inj start
    intro x mem
    rcases List.mem_cons.mp mem with rfl | mem
    · rfl
    · cases link : uv.prev with
      | none =>
        rw [link] at rest
        cases rest
        simp at mem
      | some j => exact (ih link.symm x mem).trans (keyed.links _ uv j node link)

theorem Keyed.push (keyed : Keyed table owner) {scope : Scope} {value : V} {up : Option Nat}
    {index : Nat} (own : owner table.invtree.nextIndex = key)
    (above : ∀ x, up = some x → owner x = key) (head : owner index = key) :
    let pushed : ScopeTable K V := ⟨table.map.set (EndKey.pack key scope.stop) index,
      table.invtree.pushUpValue scope value up⟩
    Keyed pushed owner ∧ SameElsewhere key owner table pushed := by
  intro pushed
  refine ⟨⟨fun sk i found => ?_, fun i uv j node link => ?_⟩, fun sk other => ?_,
    fun i uv node _ => ?_⟩
  · rw [show pushed.map.find sk = _ from SortedMap.find_set _ _ _ _] at found
    split_ifs at found with same
    · rw [← Option.some.inj found, head, ← same, EndKey.key_pack]
    · exact keyed.heads sk i found
  · change (table.invtree.ar ++ [_])[i]? = some uv at node
    rcases Nat.lt_or_ge i table.invtree.ar.length with inside | outside
    · rw [List.getElem?_append_left inside] at node
      exact keyed.links i uv j node link
    · rw [List.getElem?_append_right outside, List.getElem?_singleton] at node
      split_ifs at node with last
      obtain rfl := Option.some.inj node
      have new : i = table.invtree.nextIndex := by
        show i = table.invtree.ar.length
        omega
      rw [new, own]
      exact above j link
  · show (table.map.set _ index).find sk = _
    rw [SortedMap.find_set, if_neg]
    intro same
    apply other
    rw [← same, EndKey.key_pack]
  · show (table.invtree.ar ++ [_])[i]? = _
    rw [List.getElem?_append_left (List.getElem?_eq_some_iff.mp node).1, node]

theorem Keyed.setPrev {map : SortedMap K Nat} {tree : ScopedUpValueInvTree V}
    (keyed : Keyed (⟨map, tree⟩ : ScopeTable K V) owner) {ai n : Nat} (own : owner ai = key)
    (target : owner n = key) :
    Keyed (⟨map, tree.setPrev ai (some n)⟩ : ScopeTable K V) owner ∧
      SameElsewhere key owner ⟨map, tree⟩ ⟨map, tree.setPrev ai (some n)⟩ := by
  refine ⟨⟨keyed.heads, fun i uv j node link => ?_⟩, fun _ _ => rfl, fun i uv node other => ?_⟩
  · change (tree.ar.modify ai _)[i]? = some uv at node
    rw [List.getElem?_modify] at node
    obtain ⟨u, old, rfl⟩ := Option.map_eq_some_iff.mp node
    by_cases here : ai = i
    · simp only [here, if_true] at link
      rw [← Option.some.inj link, target, ← here, own]
    · simp only [here, if_false] at link
      exact keyed.links i u j old link
  · have apart : ai ≠ i := fun same => other (same ▸ own)
    show (tree.ar.modify ai _)[i]? = _
    rw [List.getElem?_modify, node]
    simp [apart]

end Owners

/-- What an insertion does: it rejects a scope that begins before the innermost definition of its
    end, it finds the scope, or it links a pushed definition. -/
inductive Insertion [LinearOrder K] [DecidableEq κ] [EndKey K κ] (key : κ) (scope : Scope)
    (value : V) (overwrite : Bool) (table : ScopeTable K V) :
    ScopeTable K V × Except Failure (Option V) → Prop
  | rejected (e : Error) {index : Nat} {head : ScopedUpValue V} : e.code = .ScopeHierarchyError →
      table.map.find (EndKey.pack key scope.stop) = some index →
      table.invtree.ar[index]? = some head → scope.start < head.scope.start →
      table.valueOf key scope = .ok table.invtree.nullval →
      Insertion key scope value overwrite table (table, .error (.thrown e))
  | known {ai index : Nat} {uv head : ScopedUpValue V} : table.invtree.ar[ai]? = some uv →
      uv.scope = scope → table.map.find (EndKey.pack key scope.stop) = some index →
      table.invtree.ar[index]? = some head → head.scope = scope ∨ scope.start < head.scope.start →
      (∀ owner, Keyed table owner → owner ai = key) → table.valueOf key scope = .ok uv.value →
      Insertion key scope value overwrite table
        (⟨table.map, if overwrite then table.invtree.setValue ai value else table.invtree⟩,
          .ok (some uv.value))
  | linked {map : SortedMap K Nat} {tree : ScopedUpValueInvTree V} : Ascending tree.ar →
      contents tree = contents table.invtree ++ [(scope, value)] →
      tree.nullval = table.invtree.nullval →
      (∀ sk i, map.find sk = some i → ∃ uv, tree.ar[i]? = some uv ∧
        uv.scope.stop = EndKey.stop sk) →
      (∃ i, map.find (EndKey.pack key scope.stop) = some i) →
      (∀ index head, table.map.find (EndKey.pack key scope.stop) = some index →
        table.invtree.ar[index]? = some head → head.scope ≠ scope) →
      (∀ owner, Keyed table owner → owner table.invtree.nextIndex = key →
        Keyed (⟨map, tree⟩ : ScopeTable K V) owner ∧
          SameElsewhere key owner table ⟨map, tree⟩) →
      table.valueOf key scope = .ok table.invtree.nullval →
      Insertion key scope value overwrite table
        (ScopeTable.linkNew key scope table.invtree.nextIndex ⟨map, tree⟩)

/-- What an insertion leaves behind, whatever scope it is called with. -/
structure InsertOutcome [LinearOrder K] [EndKey K κ] (scope : Scope) (value : V)
    (before : ScopeTable K V) (after : ScopeTable K V × Except Failure (Option V)) : Prop where
  sound : SoundTable after.1
  nullval : after.1.invtree.nullval = before.invtree.nullval
  known : ∀ old, after.2 = .ok (some old) →
    after.1 = before ∧ (scope, old) ∈ contents before.invtree
  new : after.2 = .ok none →
    contents after.1.invtree = contents before.invtree ++ [(scope, value)]
  failed : ∀ e, after.2 = .error e → after.1 = before ∨ ¬ scope.start < scope.stop ∧
    contents after.1.invtree = contents before.invtree ++ [(scope, value)]

namespace SoundTable

variable [LinearOrder K] [DecidableEq κ] [EndKey K κ] {table : ScopeTable K V}

omit [DecidableEq κ] in
theorem exists_chain (sound : SoundTable table) {sk : K} {index : Nat}
    (found : table.map.find sk = some index) :
    ∃ l, Chain table.invtree.ar (some index) l ∧ Increasing l ∧
      l.length ≤ table.invtree.ar.length ∧ ∀ x ∈ l, EndKey.stop sk ≤ x.2.scope.stop := by
  obtain ⟨uv, node, hstop⟩ := sound.heads sk index found
  obtain ⟨l, chain⟩ := sound.ascending.exists_chain (List.getElem?_eq_some_iff.mp node).1
  refine ⟨l, chain, sound.ascending.increasing chain, sound.ascending.length_le chain, ?_⟩
  intro x hx
  have increasing := sound.ascending.increasing chain
  cases chain with
  | cons node' _ =>
    obtain rfl := Option.some.inj (node.symm.trans node')
    rcases List.mem_cons.mp hx with rfl | hx
    · exact hstop.ge
    · have := (Scope.le_iff.mp ((List.pairwise_cons.mp increasing).1 x hx).le).2
      rw [← hstop]
      exact this

theorem uplink (sound : SoundTable table) (key : κ) (scope : Scope) :
    ∃ uplink, table.invtree.rightNeighborUpLink
      (ScopeTable.neighbour key (table.map.upperBound (EndKey.pack key scope.stop))) scope =
        .ok uplink ∧
      (∀ x, uplink = some x → ∃ uv, table.invtree.ar[x]? = some uv ∧ scope < uv.scope) ∧
      ∀ owner, Keyed table owner → ∀ x, uplink = some x → owner x = key := by
  rcases ScopeTable.neighbour_cases table.map key scope.stop with
    ⟨none_right, -⟩ | ⟨f, i, right, later, found, -⟩
  · rw [none_right]
    exact ⟨_, ScopedUpValueInvTree.rightNeighborUpLink_eq Chain.nil (Nat.zero_le _) scope,
      by simp, by simp⟩
  · rw [right]
    obtain ⟨l, chain, -, bounded, stops⟩ := sound.exists_chain found
    refine ⟨_, ScopedUpValueInvTree.rightNeighborUpLink_eq chain bounded scope, ?_,
      fun owner keyed x hx => ?_⟩
    rotate_left
    · obtain ⟨y, hy, rfl⟩ := Option.map_eq_some_iff.mp hx
      rw [keyed.chain chain y (List.mem_of_find?_eq_some hy), keyed.heads _ i found,
        EndKey.key_pack]
    rintro x hx
    obtain ⟨y, hy, rfl⟩ := Option.map_eq_some_iff.mp hx
    have hmem := List.mem_of_find?_eq_some hy
    have hle : scope ≤ y.2.scope := by simpa using List.find?_some hy
    have hstop := stops y hmem
    rw [EndKey.stop_pack] at hstop
    refine ⟨y.2, chain.node_of_mem hmem, lt_of_le_of_ne hle fun heq => ?_⟩
    rw [← heq] at hstop
    omega

omit [DecidableEq κ] in
private theorem heads_push (sound : SoundTable table) {key : κ} {scope : Scope} {value : V}
    {up : Option Nat} {tree : ScopedUpValueInvTree V}
    (same : contents tree = contents (table.invtree.pushUpValue scope value up)) {index : Nat}
    (head : index = table.invtree.ar.length ∨
      table.map.find (EndKey.pack key scope.stop) = some index) (sk : K) (i : Nat)
    (found : (table.map.set (EndKey.pack key scope.stop) index).find sk = some i) :
    ∃ uv, tree.ar[i]? = some uv ∧ uv.scope.stop = EndKey.stop sk := by
  have old {j : Nat} {e : Int}
      (h : ∃ uv, table.invtree.ar[j]? = some uv ∧ uv.scope.stop = e) :
      ∃ uv, tree.ar[j]? = some uv ∧ uv.scope.stop = e := by
    obtain ⟨uv, node, hstop⟩ := h
    have pushed : (table.invtree.pushUpValue scope value up).ar[j]? = some uv := by
      simp only [ScopedUpValueInvTree.pushUpValue]
      rw [List.getElem?_append_left (List.getElem?_eq_some_iff.mp node).1, node]
    obtain ⟨uv', node', hscope, -⟩ := contents_node same pushed
    exact ⟨uv', node', hscope ▸ hstop⟩
  rw [SortedMap.find_set] at found
  split_ifs at found with hsk
  · obtain rfl := Option.some.inj found
    subst hsk
    rw [EndKey.stop_pack]
    rcases head with rfl | head
    · have pushed : (table.invtree.pushUpValue scope value up).ar[table.invtree.ar.length]? =
          some ⟨scope, value, up⟩ := by simp [ScopedUpValueInvTree.pushUpValue]
      obtain ⟨uv, node, hscope, -⟩ := contents_node same pushed
      exact ⟨uv, node, by rw [hscope]⟩
    · have := sound.heads _ _ head
      rw [EndKey.stop_pack] at this
      exact old this
  · exact old (sound.heads sk i found)

/-- Linking a definition writes links only. It fails if there is no entry of the key above the
    start of the scope, or none of its end. -/
theorem linkNew_cases (key : κ) {scope : Scope} {n : Nat} (sound : SoundTable table)
    (target : ∃ w : ScopedUpValue V, table.invtree.ar[n]? = some w ∧ w.scope = scope) :
    ∃ tree, Ascending tree.ar ∧ contents tree = contents table.invtree ∧
      tree.nullval = table.invtree.nullval ∧
      let left := table.map.upperBound (EndKey.pack key scope.start)
      (ScopeTable.neighbour key left = none ∧ ScopeTable.linkNew key scope n table =
        (⟨table.map, tree⟩, .error (.thrown ⟨.LogicError, "scope.hpp", 0⟩))) ∨
      (∃ i, ScopeTable.neighbour key left = some i) ∧
        (ScopeTable.linkNew key scope n table = (⟨table.map, tree⟩, .ok none) ∨
          (∀ x ∈ left, EndKey.stop x.1 ≠ scope.stop) ∧
            ScopeTable.linkNew key scope n table = (⟨table.map, tree⟩, .error .outOfRange)) := by
  have inRange : ∀ x ∈ table.map.upperBound (EndKey.pack key scope.start),
      x.2 < table.invtree.ar.length := by
    intro x hx
    obtain ⟨entry, -⟩ := SortedMap.mem_upperBound.mp hx
    obtain ⟨uv, node, -⟩ := sound.heads x.1 x.2 (SortedMap.find_eq_some.mpr entry)
    exact (List.getElem?_eq_some_iff.mp node).1
  cases left : ScopeTable.neighbour key (table.map.upperBound (EndKey.pack key scope.start)) with
  | none =>
    exact ⟨table.invtree, sound.ascending, rfl, rfl, Or.inl ⟨left, by simp [ScopeTable.linkNew, left]⟩⟩
  | some j =>
    rcases linkLeft_ascending (table.map.upperBound (EndKey.pack key scope.start)) table.invtree
      sound.ascending target inRange with ⟨tree, loop, ascending, same, null⟩ | ⟨others, loop⟩
    · exact ⟨tree, ascending, same, null,
        Or.inr ⟨⟨j, left⟩, Or.inl (by simp [ScopeTable.linkNew, left, loop])⟩⟩
    · exact ⟨table.invtree, sound.ascending, rfl, rfl,
        Or.inr ⟨⟨j, left⟩, Or.inr ⟨others, by simp [ScopeTable.linkNew, left, loop]⟩⟩⟩

theorem meets_own {map : SortedMap K Nat} {key : κ} {scope : Scope} {i : Nat}
    (own : map.find (EndKey.pack key scope.stop) = some i) (nonEmpty : scope.start < scope.stop) :
    (EndKey.pack key scope.stop, i) ∈ map.upperBound (EndKey.pack key scope.start) ∧
      ScopeTable.neighbour key (map.upperBound (EndKey.pack key scope.start)) ≠ none := by
  constructor
  · exact SortedMap.mem_upperBound.mpr
      ⟨SortedMap.find_eq_some.mp own, (EndKey.lt_iff key _ _).mpr nonEmpty⟩
  · rcases ScopeTable.neighbour_cases map key scope.start with ⟨-, none⟩ | ⟨f, j, some, -⟩
    · exact absurd own (none _ i nonEmpty)
    · rw [some]
      simp

theorem pushed_node {tree tree' : ScopedUpValueInvTree V} {scope : Scope} {value : V}
    (same : contents tree' = contents tree ++ [(scope, value)]) :
    ∃ w : ScopedUpValue V, tree'.ar[tree.nextIndex]? = some w ∧ w.scope = scope := by
  have len : tree.nextIndex = (contents tree).length := by
    simp [contents, ScopedUpValueInvTree.nextIndex]
  have hi : (contents tree')[tree.nextIndex]? = some (scope, value) := by
    rw [same, len]
    simp
  simp only [contents, List.getElem?_map] at hi
  obtain ⟨w, hw, heq⟩ := Option.map_eq_some_iff.mp hi
  exact ⟨w, hw, congrArg Prod.fst heq⟩

omit [DecidableEq κ] in
theorem relinked (sound : SoundTable table) {tree : ScopedUpValueInvTree V}
    (ascending : Ascending tree.ar) (same : contents tree = contents table.invtree) :
    SoundTable (⟨table.map, tree⟩ : ScopeTable K V) := by
  refine ⟨ascending, fun sk k hk => ?_⟩
  obtain ⟨uv, node, hstop⟩ := sound.heads sk k hk
  obtain ⟨uv', node', hscope, -⟩ := contents_node same node
  exact ⟨uv', node', hscope ▸ hstop⟩

private theorem linkNew_outcome {key : κ} {scope : Scope} {value : V}
    {map : SortedMap K Nat} {tree : ScopedUpValueInvTree V}
    (ascending : Ascending tree.ar)
    (same : contents tree = contents table.invtree ++ [(scope, value)])
    (null : tree.nullval = table.invtree.nullval)
    (heads : ∀ sk i, map.find sk = some i → ∃ uv, tree.ar[i]? = some uv ∧
      uv.scope.stop = EndKey.stop sk)
    (own : ∃ i, map.find (EndKey.pack key scope.stop) = some i) :
    InsertOutcome scope value table
      (ScopeTable.linkNew key scope table.invtree.nextIndex ⟨map, tree⟩) := by
  have sound : SoundTable (⟨map, tree⟩ : ScopeTable K V) := ⟨ascending, heads⟩
  obtain ⟨i, own⟩ := own
  obtain ⟨tree', ascending', same', null', cases⟩ := linkNew_cases key sound (pushed_node same)
  have sound' := sound.relinked ascending' same'
  have grown := same'.trans same
  have empty_of : (∀ x ∈ map.upperBound (EndKey.pack key scope.start),
      EndKey.stop x.1 ≠ scope.stop) ∨ ScopeTable.neighbour key
        (map.upperBound (EndKey.pack key scope.start)) = none → ¬ scope.start < scope.stop := by
    rintro (others | none) nonEmpty
    · exact others _ (meets_own own nonEmpty).1 (EndKey.stop_pack key scope.stop)
    · exact (meets_own own nonEmpty).2 none
  rcases cases with ⟨none, link⟩ | ⟨-, link | ⟨others, link⟩⟩
  · rw [link]
    exact ⟨sound', null'.trans null, by simp, by simp,
      fun e _ => Or.inr ⟨empty_of (Or.inr none), grown⟩⟩
  · rw [link]
    exact ⟨sound', null'.trans null, by simp, fun _ => grown, by simp⟩
  · rw [link]
    exact ⟨sound', null'.trans null, by simp, by simp,
      fun e _ => Or.inr ⟨empty_of (Or.inl others), grown⟩⟩

private theorem contents_push (tree : ScopedUpValueInvTree V) (scope : Scope) (value : V)
    (up : Option Nat) :
    contents (tree.pushUpValue scope value up) = contents tree ++ [(scope, value)] := by
  simp [contents, ScopedUpValueInvTree.pushUpValue]

theorem insertion (sound : SoundTable table) (key : κ) (scope : Scope) (value : V)
    (overwrite : Bool) :
    Insertion key scope value overwrite table (table.insertScope key scope value overwrite) := by
  obtain ⟨uplink, call, above, within⟩ := sound.uplink key scope
  cases found : table.map.find (EndKey.pack key scope.stop) with
  | none =>
    simp only [ScopeTable.insertScope, call, SortedMap.insertNew_of_none found]
    exact .linked (sound.ascending.push above) (contents_push table.invtree scope value uplink) rfl
      (sound.heads_push rfl (Or.inl rfl)) ⟨_, SortedMap.find_set_self _ _ _⟩
      (fun index head h => absurd (found.symm.trans h) (by simp))
      (fun owner keyed own => keyed.push own (within owner keyed) own)
      (by simp only [ScopeTable.valueOf, found])
  | some index =>
    obtain ⟨head, head_node, head_stop⟩ := sound.heads _ _ found
    rw [EndKey.stop_pack] at head_stop
    obtain ⟨l, chain, increasing, bounded, stops⟩ := sound.exists_chain found
    obtain ⟨inside, rest, rfl, hinside, hrest⟩ := increasing.split_inside scope
    rw [EndKey.stop_pack] at stops
    -- the query for the scope looks behind the definitions inside of it
    have query : table.valueOf key scope = .ok (((rest.find? fun x =>
        decide (x.2.scope = scope)).map (·.2.value)).getD table.invtree.nullval) := by
      have before : inside.find? (fun x => decide (x.2.scope = scope)) = none :=
        List.find?_eq_none.mpr fun y hy => by simpa using (hinside y hy).ne
      rw [ScopeTable.valueOf, found]
      show table.invtree.findUpValue (some index) scope = _
      rw [ScopedUpValueInvTree.findUpValue_eq chain bounded increasing stops, List.find?_append,
        before, Option.none_or]
    have unknown (others : ∀ x ∈ rest, x.2.scope ≠ scope) :
        table.valueOf key scope = .ok table.invtree.nullval := by
      rw [query, List.find?_eq_none.mpr fun x hx => by simpa using others x hx]
      rfl
    have place := ScopedUpValueInvTree.findPlace_eq chain bounded hinside hrest
    have owned {owner : Nat → κ} (keyed : Keyed table owner) {x : ChainNode V}
        (hx : x ∈ inside ++ rest) : owner x.1 = key := by
      rw [keyed.chain chain x hx, keyed.heads _ index found, EndKey.key_pack]
    have ownHead {owner : Nat → κ} (keyed : Keyed table owner) : owner index = key := by
      rw [keyed.heads _ index found, EndKey.key_pack]
    -- the first definition of the chain is the one the map leads to
    have first : ∀ {y : ChainNode V} {l' : List (ChainNode V)}, inside ++ rest = y :: l' →
        y.2 = head := by
      intro y l' split
      rw [split] at chain
      cases chain with
      | cons node _ => exact Option.some.inj (node.symm.trans head_node)
    have only {other : ScopedUpValue V} {index' : Nat} (found' : some index = some index')
        (node : table.invtree.ar[index']? = some other) : other = head := by
      obtain rfl := Option.some.inj found'
      exact Option.some.inj (node.symm.trans head_node)
    have inner {y : ChainNode V} {inside' : List (ChainNode V)} (split : inside = y :: inside') :
        scope.start < head.scope.start := by
      have below := hinside y (split ▸ List.mem_cons_self)
      rw [first (by rw [split, List.cons_append] : inside ++ rest = y :: (inside' ++ rest))] at below
      have le := Scope.le_iff.mp below.le
      refine lt_of_le_of_ne le.1 fun same => below.ne (Scope.ext same.symm head_stop)
    -- a new definition between the last one inside of it and the link passed
    have between {z : ChainNode V} (hz : z ∈ inside) {up : Option Nat}
        (hup : ∀ x, up = some x → ∃ uv, table.invtree.ar[x]? = some uv ∧ scope < uv.scope)
        (upOwned : ∀ owner, Keyed table owner → ∀ x, up = some x → owner x = key)
        (others : ∀ x ∈ rest, x.2.scope ≠ scope) :
        Insertion key scope value overwrite table (ScopeTable.linkNew key scope
          table.invtree.nextIndex ⟨table.map.set (EndKey.pack key scope.stop) index,
            (table.invtree.pushUpValue scope value up).setPrev z.1
              (some table.invtree.nextIndex)⟩) := by
      have same := contents_setPrev (table.invtree.pushUpValue scope value up) z.1
        (some table.invtree.nextIndex)
      have target : (table.invtree.pushUpValue scope value up).ar[table.invtree.nextIndex]? =
          some ⟨scope, value, up⟩ := by
        simp [ScopedUpValueInvTree.pushUpValue, ScopedUpValueInvTree.nextIndex]
      have node := (chain.append [⟨scope, value, up⟩]).node_of_mem (x := z) (by simp [hz])
      refine .linked ((sound.ascending.push hup).setPrev target fun uv huv => ?_)
        (same.trans (contents_push _ _ _ _)) rfl (sound.heads_push same (Or.inr found))
        ⟨_, SortedMap.find_set_self _ _ _⟩ (fun index' other found' node' equal => ?_)
        (fun owner keyed own => ?_) (unknown others)
      · obtain rfl := Option.some.inj (node.symm.trans huv)
        exact hinside z hz
      · obtain ⟨y, inside', split⟩ := List.exists_cons_of_ne_nil (List.ne_nil_of_mem hz)
        have later := inner split
        rw [← only (found.symm.trans found') node', equal] at later
        exact lt_irrefl _ later
      · obtain ⟨pushed, same⟩ := keyed.push own (upOwned owner keyed) (ownHead keyed)
        obtain ⟨written, same'⟩ := pushed.setPrev (owned keyed (List.mem_append_left rest hz)) own
        exact ⟨written, same.trans same'⟩
    simp only [ScopeTable.insertScope, call, SortedMap.insertNew_of_some found,
      ScopedUpValueInvTree.insertUpValue, place]
    cases rest with
    | nil =>
      cases hlast : inside.getLast? with
      | none =>
        rw [List.getLast?_eq_none_iff.mp hlast] at chain
        cases chain
      | some z =>
        simp only [ScopedUpValueInvTree.placeOf, hlast, Option.map_some, ok_bind]
        exact between (List.mem_of_getLast? hlast) above within (by simp)
    | cons x rest =>
      have node := chain.node_of_mem (x := x) (by simp)
      by_cases heq : x.2.scope = scope
      · simp only [ScopedUpValueInvTree.placeOf, heq, if_true, ok_bind, node]
        refine .known node heq found head_node ?_ (fun owner keyed => owned keyed (by simp)) ?_
        · cases inside with
          | nil => exact Or.inl (first rfl ▸ heq)
          | cons y inside => exact Or.inr (inner rfl)
        · rw [query]
          simp [heq]
      · have others : ∀ y ∈ x :: rest, y.2.scope ≠ scope := by
          intro y hy same
          rcases List.mem_cons.mp hy with rfl | hy
          · exact heq same
          · have later := (List.pairwise_cons.mp (List.pairwise_append.mp increasing).2.1).1 y hy
            exact hrest x List.mem_cons_self (same ▸ later)
        by_cases hle : scope ≤ x.2.scope
        · have hlt : scope < x.2.scope := lt_of_le_of_ne hle fun h => heq h.symm
          have hup : ∀ y, some x.1 = some y →
              ∃ uv, table.invtree.ar[y]? = some uv ∧ scope < uv.scope := by
            rintro y hy
            obtain rfl := Option.some.inj hy
            exact ⟨x.2, node, hlt⟩
          have upOwned : ∀ owner, Keyed table owner → ∀ y, some x.1 = some y → owner y = key := by
            rintro owner keyed y hy
            rw [← Option.some.inj hy]
            exact owned keyed (by simp)
          cases hlast : inside.getLast? with
          | none =>
            simp only [ScopedUpValueInvTree.placeOf, heq, hle, if_true, if_false, hlast, ok_bind]
            exact .linked (sound.ascending.push hup)
              (contents_push _ _ _ _) rfl (sound.heads_push rfl (Or.inl rfl))
              ⟨_, SortedMap.find_set_self _ _ _⟩ (fun index' other found' node' equal => by
                rw [only (found.symm.trans found') node', ← @first x rest] at equal
                · exact heq equal
                · rw [List.getLast?_eq_none_iff.mp hlast, List.nil_append])
              (fun owner keyed own => keyed.push own (upOwned owner keyed) own) (unknown others)
          | some z =>
            simp only [ScopedUpValueInvTree.placeOf, heq, hle, if_true, if_false, hlast, ok_bind]
            exact between (List.mem_of_getLast? hlast) hup upOwned others
        · simp only [ScopedUpValueInvTree.placeOf, heq, hle, if_false, error_bind]
          refine .rejected _ rfl found head_node ?_ (unknown others)
          cases inside with
          | nil =>
            rw [first rfl] at hle
            rw [Scope.le_iff] at hle
            omega
          | cons y inside => exact inner rfl

/-- Every insertion that keeps old values leaves a sound table with at most one more definition. -/
theorem insertScope_outcome (sound : SoundTable table) (key : κ) (scope : Scope) (value : V) :
    InsertOutcome scope value table (table.insertScope key scope value false) := by
  have inserted := sound.insertion key scope value false
  generalize table.insertScope key scope value false = after at inserted
  cases inserted with
  | rejected e => exact ⟨sound, rfl, by simp, by simp, fun _ _ => Or.inl rfl⟩
  | @known ai index uv head node same =>
    refine ⟨sound, rfl, fun old hold => ⟨rfl, ?_⟩, by simp, by simp⟩
    obtain rfl : uv.value = old := by simpa using hold
    exact List.mem_map.mpr ⟨uv, List.mem_of_getElem? node, by rw [same]⟩
  | linked ascending same null heads own _ _ _ =>
    exact linkNew_outcome ascending same null heads own

theorem queries_ok (sound : SoundTable table) (key : κ) (step : Int) :
    ∃ l, table.matchRange key step = .ok l ∧
      table.innerValue key step = .ok ((l.head?.map Prod.snd).getD table.invtree.nullval) ∧
      ∀ p ∈ l, p ∈ contents table.invtree ∧ p.1.containsStep step = true := by
  rcases ScopeTable.neighbour_cases table.map key step with
    ⟨none_right, -⟩ | ⟨f, index, right, later, found, -⟩
  · exact ⟨[], by simp [ScopeTable.matchRange, none_right],
      by simp [ScopeTable.innerValue, none_right], by simp⟩
  · obtain ⟨l, chain, increasing, bounded, stops⟩ := sound.exists_chain found
    have first := ScopedUpValueInvTree.first_eq chain bounded step
    have inner := ScopedUpValueInvTree.getInnerValue_eq chain bounded step
    cases hfind : l.find? fun x => decide (x.2.scope.start ≤ step) with
    | none =>
      refine ⟨[], ?_, ?_, by simp⟩
      · simp [ScopeTable.matchRange, right, first, hfind,
          ScopedUpValueInvTree.iterate_eq Chain.nil]
      · simp [ScopeTable.innerValue, right, inner, hfind]
    | some x =>
      obtain ⟨hxstart, a, b, rfl, -⟩ := List.find?_eq_some_iff_append.mp hfind
      have tail := chain.from_mem
      have bounded' : (x :: b).length ≤ table.invtree.ar.length := by
        simp only [List.length_append] at bounded
        omega
      refine ⟨(x :: b).map fun y => (y.2.scope, y.2.value), ?_, ?_, ?_⟩
      · simp [ScopeTable.matchRange, right, first, hfind,
          ScopedUpValueInvTree.iterate_eq tail bounded']
      · simp [ScopeTable.innerValue, right, inner, hfind]
      · intro p hp
        obtain ⟨y, hy, rfl⟩ := List.mem_map.mp hp
        have node := tail.node_of_mem hy
        refine ⟨List.mem_map.mpr ⟨y.2, List.mem_of_getElem? node, rfl⟩, ?_⟩
        have hle : x.2.scope ≤ y.2.scope := by
          rcases List.mem_cons.mp hy with rfl | hy
          · exact le_rfl
          · have above := (List.pairwise_append.mp increasing).2.1
            exact ((List.pairwise_cons.mp above).1 y hy).le
        have hstart : x.2.scope.start ≤ step := by simpa using hxstart
        have hstop := stops y (List.mem_append_right a hy)
        rw [EndKey.stop_pack] at hstop
        have hle' := (Scope.le_iff.mp hle).1
        exact Scope.containsStep_iff.mpr ⟨hle'.trans hstart, later.trans_le hstop⟩

end SoundTable

end Mewa
