/- Module: Mewa/Scope/Insert
   digest: A table represents its definitions, and an insertion represents one more of them. -/

import Mewa.Scope.Linking

set_option autoImplicit false
set_option relaxedAutoImplicit false

namespace Mewa

open Mewa.Lib Mewa.Lib.Forest

variable {K κ V : Type} [LinearOrder K] [EndKey K κ]

/-- The ordered map leads from each end of a scope to the innermost definition with this end. -/
structure Heads (defs : List (Definition κ V)) (map : SortedMap K Nat) : Prop where
  head : ∀ sk i, map.find sk = some i → ∃ d, defs[i]? = some d ∧ d.key = EndKey.key sk ∧
    d.scope.stop = EndKey.stop sk ∧
    ∀ s ∈ scopesOf defs d.key, s.stop = d.scope.stop → d.scope ≤ s
  covered : ∀ d ∈ defs, ∃ i, map.find (EndKey.pack d.key d.scope.stop) = some i

/-- A table that stores a list of definitions, each linked to the innermost one around it. -/
structure Represents (defs : List (Definition κ V)) (table : ScopeTable K V) : Prop where
  content : Content table.invtree.ar defs
  distinct : Distinct defs
  placed : ∀ (i : Nat) uv d, table.invtree.ar[i]? = some uv → defs[i]? = some d →
    Placed defs (scopesOf defs d.key) d uv.prev
  heads : Heads defs table.map

theorem Represents.linked {defs : List (Definition κ V)} {table : ScopeTable K V}
    (represents : Represents defs table) : Linked (scopesOf defs) defs table.invtree.ar where
  content := represents.content
  placed i uv d node hd := ⟨_, subset_rfl, represents.placed i uv d node hd⟩

theorem represents_empty (nullval : V) :
    Represents ([] : List (Definition κ V)) (ScopeTable.empty nullval : ScopeTable K V) where
  content := rfl
  distinct i j c d hc := by simp at hc
  placed i uv d _ hd := by simp at hd
  heads := ⟨fun sk i h => by simp [ScopeTable.empty] at h, fun d hd => by simp at hd⟩

namespace ScopeTable

theorem key_eq_of_between {key : κ} {e f : Int} {x : K} (low : (EndKey.pack key e : K) ≤ x)
    (high : x ≤ EndKey.pack key f) : EndKey.key x = key ∧ x = EndKey.pack key (EndKey.stop x) := by
  have hkey := EndKey.convex key e f x low high
  exact ⟨hkey, by rw [← hkey, EndKey.pack_key_stop]⟩

variable [DecidableEq κ]

/-- The neighbour of an end is the entry of the same key with the least end above it. -/
theorem neighbour_cases (map : SortedMap K Nat) (key : κ) (e : Int) :
    (neighbour key (map.upperBound (EndKey.pack key e)) = none ∧
      ∀ f i, e < f → map.find (EndKey.pack key f) ≠ some i) ∨
    ∃ f i, neighbour key (map.upperBound (EndKey.pack key e)) = some i ∧ e < f ∧
      map.find (EndKey.pack key f) = some i ∧
      ∀ g j, e < g → map.find (EndKey.pack key g) = some j → f ≤ g := by
  cases hub : map.upperBound (EndKey.pack key e) with
  | nil =>
    refine Or.inl ⟨rfl, fun f i hlt hfind => ?_⟩
    exact absurd (SortedMap.upperBound_nil hub hfind) (not_le.mpr ((EndKey.lt_iff key e f).mpr hlt))
  | cons x rest =>
    obtain ⟨sk, index⟩ := x
    obtain ⟨hfind, above, least⟩ := SortedMap.upperBound_head hub
    by_cases hkey : EndKey.key sk = key
    · have hsk : EndKey.pack key (EndKey.stop sk) = sk := by rw [← hkey, EndKey.pack_key_stop]
      refine Or.inr ⟨EndKey.stop sk, index, by simp [neighbour, hkey], ?_, ?_, ?_⟩
      · exact (EndKey.lt_iff key e _).mp (by rw [hsk]; exact above)
      · rw [hsk]; exact hfind
      · intro g j hlt hg
        have hle := least _ _ hg ((EndKey.lt_iff key e g).mpr hlt)
        rw [← hsk] at hle
        exact not_lt.mp fun h => absurd ((EndKey.lt_iff key g _).mpr h) (not_lt.mpr hle)
    · refine Or.inl ⟨by simp [neighbour, hkey], fun f i hlt hf => hkey ?_⟩
      have hle := least _ _ hf ((EndKey.lt_iff key e f).mpr hlt)
      exact (key_eq_of_between (le_of_lt above) hle).1

end ScopeTable

theorem Heads.append {defs : List (Definition κ V)} {map : SortedMap K Nat}
    (heads : Heads defs map) {new d : Definition κ V} {index : Nat}
    (hd : (defs ++ [new])[index]? = some d) (hkey : d.key = new.key)
    (hstop : d.scope.stop = new.scope.stop)
    (least : ∀ s ∈ scopesOf (defs ++ [new]) new.key, s.stop = new.scope.stop → d.scope ≤ s) :
    Heads (defs ++ [new]) (map.set (EndKey.pack new.key new.scope.stop) index) where
  head sk i h := by
    rw [SortedMap.find_set] at h
    split_ifs at h with hsk
    · obtain rfl := Option.some.inj h
      refine ⟨d, hd, ?_, ?_, ?_⟩
      · rw [← hsk, EndKey.key_pack, hkey]
      · rw [← hsk, EndKey.stop_pack, hstop]
      · rw [hkey, hstop]; exact least
    · obtain ⟨c, hc, hckey, hcstop, hcleast⟩ := heads.head sk i h
      have hi : i < defs.length := (List.getElem?_eq_some_iff.mp hc).1
      refine ⟨c, by rw [List.getElem?_append_left hi, hc], hckey, hcstop, ?_⟩
      rintro s ⟨b, hb, hbkey, rfl⟩ hbstop
      rcases List.mem_append.mp hb with hb | hb
      · exact hcleast b.scope ⟨b, hb, hbkey, rfl⟩ hbstop
      · obtain rfl := List.mem_singleton.mp hb
        refine absurd ?_ hsk
        rw [hbkey, hbstop, hckey, hcstop, EndKey.pack_key_stop]
  covered c hc := by
    rw [SortedMap.find_set]
    split_ifs with hsk
    · exact ⟨index, rfl⟩
    · rcases List.mem_append.mp hc with hc | hc
      · exact heads.covered c hc
      · obtain rfl := List.mem_singleton.mp hc
        exact absurd rfl hsk

private theorem find_least {l : List (ChainNode V)} (increasing : Increasing l)
    {p : ChainNode V → Bool} {x y : ChainNode V} (found : l.find? p = some x) (hy : y ∈ l)
    (holds : p y = true) : x.2.scope ≤ y.2.scope := by
  induction l with
  | nil => simp at hy
  | cons z l ih =>
    obtain ⟨above, increasing⟩ := List.pairwise_cons.mp increasing
    by_cases hz : p z = true
    · obtain rfl : z = x := by simpa [List.find?_cons, hz] using found
      rcases List.mem_cons.mp hy with rfl | hy
      · exact le_rfl
      · exact (above y hy).le
    · rw [List.find?_cons_of_neg hz] at found
      rcases List.mem_cons.mp hy with rfl | hy
      · exact absurd holds hz
      · exact ih increasing found hy

/-- The chain of a head: from its definition up through everything around it. -/
structure HeadChain (defs : List (Definition κ V)) (ar : List (ScopedUpValue V)) (key : κ)
    (index : Nat) (d : Definition κ V) (l : List (ChainNode V)) : Prop where
  head : defs[index]? = some d
  key_eq : d.key = key
  chain : Chain ar (some index) l
  increasing : Increasing l
  bounded : l.length ≤ ar.length
  definition : ∀ x ∈ l, ∃ c, defs[x.1]? = some c ∧ c.key = key ∧ c.scope = x.2.scope ∧
    c.value = x.2.value
  above : ∀ x ∈ l, d.scope ≤ x.2.scope
  passes : ∀ s ∈ scopesOf defs key, d.scope ≤ s → ∃ x ∈ l, x.2.scope = s

theorem HeadChain.mem {defs : List (Definition κ V)} {ar : List (ScopedUpValue V)} {key : κ}
    {index : Nat} {d : Definition κ V} {l : List (ChainNode V)}
    (h : HeadChain defs ar key index d l) : d.scope ∈ scopesOf defs key :=
  h.key_eq ▸ mem_scopesOf (List.mem_of_getElem? h.head)

theorem HeadChain.scope_mem {defs : List (Definition κ V)} {ar : List (ScopedUpValue V)} {key : κ}
    {index : Nat} {d : Definition κ V} {l : List (ChainNode V)}
    (h : HeadChain defs ar key index d l) {x : ChainNode V} (hx : x ∈ l) :
    x.2.scope ∈ scopesOf defs key := by
  obtain ⟨c, hc, hkey, hscope, -⟩ := h.definition x hx
  exact hscope ▸ hkey ▸ mem_scopesOf (List.mem_of_getElem? hc)

namespace Represents

variable {defs : List (Definition κ V)} {table : ScopeTable K V}

theorem covered (represents : Represents defs table) {key : κ} {s : Scope}
    (hs : s ∈ scopesOf defs key) : ∃ i, table.map.find (EndKey.pack key s.stop) = some i := by
  obtain ⟨d, hd, rfl, rfl⟩ := hs
  exact represents.heads.covered d hd

theorem head_le {key : κ} (laminar : Laminar (scopesOf defs key)) {s : Scope}
    (hs : s ∈ scopesOf defs key)
    (least : ∀ t ∈ scopesOf defs key, t.stop = s.stop → s ≤ t)
    {t : Scope} (ht : t ∈ scopesOf defs key) (around : t.start < s.stop)
    (stop_le : s.stop ≤ t.stop) : s ≤ t := by
  have hne := laminar.nonEmpty s hs
  have hno := laminar.noOverlap s hs t ht
  by_contra hle
  have hge : t ≤ s := by
    by_contra hge
    exact hno ⟨hle, hge, by omega, by omega⟩
  exact hle (least t ht (le_antisymm (Scope.le_iff.mp hge).2 stop_le))

theorem headChain (represents : Represents defs table) {key : κ} {e : Int} {index : Nat}
    (found : table.map.find (EndKey.pack key e) = some index) :
    ∃ d l, HeadChain defs table.invtree.ar key index d l ∧ d.scope.stop = e ∧
      ∀ s ∈ scopesOf defs key, s.stop = e → d.scope ≤ s := by
  obtain ⟨d, hd, hkey, hstop, least⟩ := represents.heads.head _ index found
  rw [EndKey.key_pack] at hkey
  rw [EndKey.stop_pack] at hstop
  obtain ⟨l, chain, increasing, bounded⟩ := represents.linked.exists_chain hd
  have start : ∀ i, some index = some i → ∃ d, defs[i]? = some d ∧ d.key = key := by
    rintro i hi
    obtain rfl := Option.some.inj hi
    exact ⟨d, hd, hkey⟩
  refine ⟨d, l, ⟨hd, hkey, chain, increasing, bounded,
    represents.linked.definition_of_chain key chain start, ?_, ?_⟩, hstop, ?_⟩
  · obtain ⟨uv, node, hscope, -⟩ := represents.content.node hd
    intro x hx
    cases chain with
    | cons node' _ =>
      obtain rfl := Option.some.inj (node.symm.trans node')
      rcases List.mem_cons.mp hx with rfl | hx
      · exact hscope.ge
      · exact hscope ▸ ((List.pairwise_cons.mp increasing).1 x hx).le
  · intro s hs hle
    exact represents.linked.mem_chain chain hs ⟨index, d, rfl, hd, hkey, hle⟩
  · intro s hs hss
    rw [hkey, hstop] at least
    exact least s hs hss

variable [DecidableEq κ]

/-- The search for the enclosing definition among those that end later never fails. -/
theorem uplink_ok (represents : Represents defs table) (key : κ) (scope : Scope) :
    ∃ uplink, table.invtree.rightNeighborUpLink
      (ScopeTable.neighbour key (table.map.upperBound (EndKey.pack key scope.stop))) scope =
        .ok uplink := by
  rcases ScopeTable.neighbour_cases table.map key scope.stop with
    ⟨none_right, -⟩ | ⟨f, i, right, -, found, -⟩
  · rw [none_right]
    exact ⟨_, ScopedUpValueInvTree.rightNeighborUpLink_eq Chain.nil (Nat.zero_le _) scope⟩
  · rw [right]
    obtain ⟨d, l, head, -⟩ := represents.headChain found
    exact ⟨_, ScopedUpValueInvTree.rightNeighborUpLink_eq head.chain head.bounded scope⟩

theorem uplink_parent (represents : Represents defs table) {key : κ} {scope : Scope}
    (laminar : Laminar (scopesOf defs key)) (nonEmpty : scope.start < scope.stop)
    {uplink : Option Nat}
    (call : table.invtree.rightNeighborUpLink
      (ScopeTable.neighbour key (table.map.upperBound (EndKey.pack key scope.stop))) scope =
        .ok uplink) :
    ∃ p, LinkOf defs key uplink p ∧
      IsParent {t | t ∈ scopesOf defs key ∧ scope.stop < t.stop} scope p := by
  rcases ScopeTable.neighbour_cases table.map key scope.stop with
    ⟨none_right, empty⟩ | ⟨f, i, right, later, found, first⟩
  · rw [none_right, ScopedUpValueInvTree.rightNeighborUpLink_eq Chain.nil (Nat.zero_le _)] at call
    obtain rfl := Except.ok.inj call
    refine ⟨none, LinkOf.root, ?_⟩
    rintro t ⟨ht, hstop⟩ -
    obtain ⟨j, hj⟩ := represents.covered ht
    exact empty t.stop j hstop hj
  · obtain ⟨d, l, head, hstop, least⟩ := represents.headChain found
    rw [right, ScopedUpValueInvTree.rightNeighborUpLink_eq head.chain head.bounded] at call
    have passes : ∀ t ∈ scopesOf defs key, scope.stop < t.stop → scope ≤ t →
        ∃ x ∈ l, x.2.scope = t := by
      intro t ht hlt hle
      obtain ⟨j, hj⟩ := represents.covered ht
      have hft := first t.stop j hlt hj
      have hstart := (Scope.le_iff.mp hle).1
      exact head.passes t ht
        (head_le laminar head.mem (hstop ▸ least) ht (by omega) (by omega))
    cases hfind : l.find? fun x => decide (scope ≤ x.2.scope) with
    | none =>
      rw [hfind] at call
      obtain rfl := Except.ok.inj call
      refine ⟨none, LinkOf.root, ?_⟩
      rintro t ⟨ht, hlt⟩ hst
      obtain ⟨x, hx, rfl⟩ := passes t ht hlt hst.le
      have hno := List.find?_eq_none.mp hfind x hx
      simp [hst.le] at hno
    | some x =>
      rw [hfind] at call
      obtain rfl := Except.ok.inj call
      have hx := List.mem_of_find?_eq_some hfind
      have hle : scope ≤ x.2.scope := by simpa using List.find?_some hfind
      obtain ⟨c, hc, hckey, hcscope, -⟩ := head.definition x hx
      have hcstop : scope.stop < c.scope.stop := by
        have := (Scope.le_iff.mp (head.above x hx)).2
        rw [hcscope]; omega
      have hsc : scope < c.scope :=
        lt_of_le_of_ne (hcscope ▸ hle) fun h => absurd (h ▸ hcstop) (lt_irrefl _)
      refine ⟨some c.scope, LinkOf.up hc hckey, ⟨hcscope ▸ head.scope_mem hx, hcstop⟩, hsc, ?_⟩
      rintro t ⟨ht, hlt⟩ hst
      obtain ⟨y, hy, rfl⟩ := passes t ht hlt hst.le
      rw [hcscope]
      exact find_least head.increasing hfind hy (by simpa using hst.le)

end Represents

private theorem LinkOf.append {defs : List (Definition κ V)} {key : κ} {prev : Option Nat}
    {p : Option Scope} (link : LinkOf defs key prev p) (new : Definition κ V) :
    LinkOf (defs ++ [new]) key prev p := by
  cases link with
  | root => exact LinkOf.root
  | up hj hkey =>
    refine LinkOf.up ?_ hkey
    rw [List.getElem?_append_left (List.getElem?_eq_some_iff.mp hj).1, hj]

theorem Represents.push {defs : List (Definition κ V)} {table : ScopeTable K V}
    (represents : Represents defs table) {new : Definition κ V} {uplink : Option Nat}
    (placed : Placed defs (scopesOf defs new.key) new uplink) :
    Linking defs new (table.invtree.pushUpValue new.scope new.value uplink).ar where
  content := by
    have content : table.invtree.ar.map _ = defs.map _ := represents.content
    simp [Content, ScopedUpValueInvTree.pushUpValue, content]
  placed i uv d node hd := by
    have hlen := represents.content.length_eq
    rcases Nat.lt_or_ge i defs.length with hi | hi
    · rw [List.getElem?_append_left hi] at hd
      simp only [ScopedUpValueInvTree.pushUpValue] at node
      rw [List.getElem?_append_left (by omega)] at node
      obtain ⟨p, link, parent⟩ := represents.placed i uv d node hd
      exact Or.inr ⟨p, link.append new, parent⟩
    · have hlt := (List.getElem?_eq_some_iff.mp hd).1
      rw [List.length_append, List.length_singleton] at hlt
      obtain rfl : i = defs.length := by omega
      have hd' : d = new := by simpa using hd.symm
      subst hd'
      have hnode : uv = ⟨d.scope, d.value, uplink⟩ := by
        simp only [ScopedUpValueInvTree.pushUpValue] at node
        rw [← hlen] at node
        simpa using node.symm
      subst hnode
      obtain ⟨p, link, parent⟩ := placed
      refine Or.inl ⟨p, link.append d, ?_⟩
      rw [scopesOf_append_self]
      exact parent.insert_self

section LinkLeft

variable {defs : List (Definition κ V)} {new : Definition κ V}

theorem linkLeft_settles (forest : IsForest (scopesOf (defs ++ [new]) new.key))
    (distinct : Distinct (defs ++ [new])) (entries : List (K × Nat)) :
    ∀ tree : ScopedUpValueInvTree V, Linking defs new tree.ar →
      (entries.map Prod.fst).Pairwise (· < ·) →
      (∀ x ∈ entries, EndKey.pack new.key new.scope.start < x.1) →
      (∃ i, (EndKey.pack new.key new.scope.stop, i) ∈ entries) →
      (∀ x ∈ entries, EndKey.key x.1 = new.key → EndKey.stop x.1 < new.scope.stop →
        ∃ d, (defs ++ [new])[x.2]? = some d ∧ d.key = new.key ∧
          d.scope.stop = EndKey.stop x.1 ∧ d.scope < new.scope ∧
          ∀ s ∈ scopesOf defs new.key, s.stop = d.scope.stop → d.scope ≤ s) →
      (∀ i, ¬ Settled defs new tree.ar i → ∃ d, (defs ++ [new])[i]? = some d ∧
        d.key = new.key ∧ d.scope < new.scope ∧ d.scope.stop < new.scope.stop ∧
        ∃ j, (EndKey.pack new.key d.scope.stop, j) ∈ entries) →
      ∃ tree', ScopeTable.linkLeft new.scope defs.length entries tree = .ok tree' ∧
        tree'.nullval = tree.nullval ∧ Linking defs new tree'.ar ∧
        ∀ i, Settled defs new tree'.ar i := by
  induction entries with
  | nil => intro tree _ _ _ own; simp at own
  | cons x entries ih =>
    obtain ⟨sk, index⟩ := x
    intro tree linking sorted low own heads open_
    obtain ⟨above, sorted'⟩ := List.pairwise_cons.mp sorted
    have first_le : ∀ {y : K} {j : Nat}, (y, j) ∈ (sk, index) :: entries → sk ≤ y := by
      intro y j hy
      rcases List.mem_cons.mp hy with h | h
      · exact (congrArg Prod.fst h).ge
      · exact le_of_lt (above y (List.mem_map.mpr ⟨_, h, rfl⟩))
    obtain ⟨own_index, own⟩ := own
    have low_sk : EndKey.pack new.key new.scope.start ≤ sk :=
      le_of_lt (low (sk, index) List.mem_cons_self)
    obtain ⟨hkey, hsk⟩ := ScopeTable.key_eq_of_between low_sk (first_le own)
    by_cases hstop : EndKey.stop sk = new.scope.stop
    · refine ⟨tree, by simp [ScopeTable.linkLeft, hstop], rfl, linking, fun i => ?_⟩
      by_contra hopen
      obtain ⟨d, -, -, -, hlt, j, hj⟩ := open_ i hopen
      have hle := first_le hj
      rw [hsk, hstop] at hle
      exact absurd ((EndKey.lt_iff new.key _ _).mpr hlt) (not_lt.mpr hle)
    · have hlt : EndKey.stop sk < new.scope.stop := by
        have hle := first_le own
        rw [hsk] at hle
        have := not_lt.mp fun h => absurd ((EndKey.lt_iff new.key _ _).mpr h) (not_lt.mpr hle)
        exact lt_of_le_of_ne this hstop
      obtain ⟨dh, hdh, hdkey, hdstop, below, least⟩ :=
        heads (sk, index) List.mem_cons_self hkey hlt
      obtain ⟨tree', call, hnull, linking', keeps, settles⟩ :=
        linking.linkLeftNeighbours_settles forest distinct hdh hdkey below
      obtain ⟨tree'', loop, hnull', linking'', settled⟩ := ih tree' linking' sorted'
        (fun y hy => low y (List.mem_cons_of_mem _ hy))
        ⟨own_index, (List.mem_cons.mp own).resolve_left fun h => hstop (by
          have hpack : EndKey.pack new.key new.scope.stop = sk := congrArg Prod.fst h
          rw [← hpack, EndKey.stop_pack])⟩
        (fun y hy => heads y (List.mem_cons_of_mem _ hy))
        (by
          intro i hopen
          obtain ⟨d, hd, hkd, hds, hdlt, j, hj⟩ := open_ i fun h => hopen (keeps i h)
          refine ⟨d, hd, hkd, hds, hdlt, j, (List.mem_cons.mp hj).resolve_left fun h => hopen ?_⟩
          have hstop_eq : d.scope.stop = dh.scope.stop := by
            have hpack : EndKey.pack new.key d.scope.stop = sk := congrArg Prod.fst h
            rw [hdstop, ← hpack, EndKey.stop_pack]
          have hmem : d.scope ∈ scopesOf defs new.key :=
            hkd ▸ mem_scopesOf (Linking.mem_old hd hds)
          exact settles i d hd hkd (least d.scope hmem hstop_eq) hds)
      refine ⟨tree'', ?_, hnull'.trans hnull, linking'', settled⟩
      simp [ScopeTable.linkLeft, hstop, call, loop]

end LinkLeft

theorem distinct_append {defs : List (Definition κ V)} {new : Definition κ V} (distinct : Distinct defs)
    (fresh : new.scope ∉ scopesOf defs new.key) : Distinct (defs ++ [new]) := by
  have old_or : ∀ {i : Nat} {d : Definition κ V}, (defs ++ [new])[i]? = some d →
      defs[i]? = some d ∨ i = defs.length ∧ d = new := by
    intro i d hd
    rcases Nat.lt_or_ge i defs.length with hi | hi
    · exact Or.inl (by rwa [List.getElem?_append_left hi] at hd)
    · rw [List.getElem?_append_right hi, List.getElem?_singleton] at hd
      split_ifs at hd with h0
      exact Or.inr ⟨by omega, (Option.some.inj hd).symm⟩
  intro i j c d hc hd hkey hscope
  rcases old_or hc with hoc | ⟨hi, hcn⟩
  · rcases old_or hd with hod | ⟨hj, hdn⟩
    · exact distinct i j c d hoc hod hkey hscope
    · subst hdn
      exact absurd ⟨c, List.mem_of_getElem? hoc, hkey, hscope⟩ fresh
  · rcases old_or hd with hod | ⟨hj, -⟩
    · subst hcn
      exact absurd ⟨d, List.mem_of_getElem? hod, hkey.symm, hscope.symm⟩ fresh
    · omega

section InsertNew

variable [DecidableEq κ] {defs : List (Definition κ V)} {new : Definition κ V}

theorem linkNew_represents {map : SortedMap K Nat} {tree : ScopedUpValueInvTree V}
    (linking : Linking defs new tree.ar) (heads : Heads (defs ++ [new]) map)
    (laminar : Laminar (scopesOf (defs ++ [new]) new.key)) (distinct : Distinct (defs ++ [new]))
    (sameStop : ∀ (i : Nat) d, (defs ++ [new])[i]? = some d → d.key = new.key →
      d.scope < new.scope → d.scope.stop = new.scope.stop → Settled defs new tree.ar i) :
    ∃ table', ScopeTable.linkNew new.key new.scope defs.length ⟨map, tree⟩ = (table', .ok none) ∧
      Represents (defs ++ [new]) table' ∧ table'.invtree.nullval = tree.nullval := by
  have newMem : new.scope ∈ scopesOf (defs ++ [new]) new.key := mem_scopesOf (by simp)
  have nonEmpty := laminar.nonEmpty new.scope newMem
  have mem_left {e : Int} {j : Nat} (h : map.find (EndKey.pack new.key e) = some j)
      (hlt : new.scope.start < e) :
      (EndKey.pack new.key e, j) ∈ map.upperBound (EndKey.pack new.key new.scope.start) :=
    SortedMap.mem_upperBound.mpr ⟨SortedMap.find_eq_some.mp h, (EndKey.lt_iff _ _ _).mpr hlt⟩
  obtain ⟨own, hown⟩ := heads.covered new (by simp)
  have key_of_mem : ∀ x ∈ map.upperBound (EndKey.pack new.key new.scope.start),
      EndKey.key x.1 = new.key → EndKey.stop x.1 < new.scope.stop →
        ∃ d, (defs ++ [new])[x.2]? = some d ∧ d.key = new.key ∧
          d.scope.stop = EndKey.stop x.1 ∧ d.scope < new.scope ∧
          ∀ s ∈ scopesOf defs new.key, s.stop = d.scope.stop → d.scope ≤ s := by
    intro x hx hkey hstop
    obtain ⟨entry, above⟩ := SortedMap.mem_upperBound.mp hx
    obtain ⟨d, hd, hdkey, hdstop, least⟩ := heads.head x.1 x.2 (SortedMap.find_eq_some.mpr entry)
    rw [hkey] at hdkey
    have hdmem : d.scope ∈ scopesOf (defs ++ [new]) new.key :=
      hdkey ▸ mem_scopesOf (List.mem_of_getElem? hd)
    have hstart : new.scope.start < EndKey.stop x.1 := by
      rw [← EndKey.pack_key_stop x.1, hkey] at above
      exact (EndKey.lt_iff new.key _ _).mp above
    have hdne := laminar.nonEmpty d.scope hdmem
    have hno := laminar.noOverlap d.scope hdmem new.scope newMem
    have hle : d.scope ≤ new.scope := by
      by_contra hle
      refine hno ⟨hle, fun hge => ?_, by omega, by omega⟩
      have := (Scope.le_iff.mp hge).2
      omega
    refine ⟨d, hd, hdkey, hdstop, lt_of_le_of_ne hle fun h => ?_, fun s hs hss => ?_⟩
    · rw [h] at hdstop; omega
    · exact least s (hdkey ▸ scopesOf_append_sub defs new new.key hs) hss
  have open_ : ∀ i, ¬ Settled defs new tree.ar i → ∃ d, (defs ++ [new])[i]? = some d ∧
      d.key = new.key ∧ d.scope < new.scope ∧ d.scope.stop < new.scope.stop ∧
      ∃ j, (EndKey.pack new.key d.scope.stop, j) ∈
        map.upperBound (EndKey.pack new.key new.scope.start) := by
    intro i hopen
    cases node : tree.ar[i]? with
    | none => exact absurd (fun uv d h => by simp [node] at h) hopen
    | some uv =>
      obtain ⟨d, hd, -⟩ := linking.content.definition node
      obtain ⟨hkey, below, -⟩ := (linking.settled_or node hd).resolve_left hopen
      obtain ⟨hstart, hstop⟩ := Scope.le_iff.mp below.le
      obtain ⟨j, hj⟩ := heads.covered d (List.mem_of_getElem? hd)
      have hne := laminar.nonEmpty d.scope (hkey ▸ mem_scopesOf (List.mem_of_getElem? hd))
      have hstop_ne : d.scope.stop ≠ new.scope.stop := fun h =>
        hopen (sameStop i d hd hkey below h)
      exact ⟨d, hd, hkey, below, by omega, j, mem_left (hkey ▸ hj) (by omega)⟩
  obtain ⟨tree', loop, hnull, linking', settled⟩ := linkLeft_settles laminar.forest distinct
    (map.upperBound (EndKey.pack new.key new.scope.start)) tree linking
    (map.upperBound_sorted _) (fun x hx => (SortedMap.mem_upperBound.mp hx).2)
    ⟨own, mem_left hown nonEmpty⟩ key_of_mem open_
  refine ⟨⟨map, tree'⟩, ?_, ⟨linking'.content, distinct, fun i uv d node hd =>
    settled i uv d node hd, heads⟩, hnull⟩
  rcases ScopeTable.neighbour_cases map new.key new.scope.start with ⟨-, none⟩ | ⟨f, i, left, -⟩
  · exact absurd hown (none _ own nonEmpty)
  · simp [ScopeTable.linkNew, left, loop]

end InsertNew

private theorem head_comparable {s t : Scope} (hs : s.start < s.stop) (hst : s ≤ t)
    {scope : Scope} (hstop : s.stop = scope.stop) (nonEmpty : scope.start < scope.stop)
    (noOverlap : ¬ t.Overlaps scope) : t ≤ scope ∨ scope ≤ t := by
  obtain ⟨h1, h2⟩ := Scope.le_iff.mp hst
  by_contra h
  obtain ⟨h3, h4⟩ := not_or.mp h
  exact noOverlap ⟨h3, h4, by omega, by omega⟩

/-- Inserting a definition whose end is already there starts the linking. -/
theorem insertUpValue_inserts [DecidableEq κ] {defs : List (Definition κ V)} {table : ScopeTable K V}
    (represents : Represents defs table) {new : Definition κ V} {index : Nat}
    (found : table.map.find (EndKey.pack new.key new.scope.stop) = some index)
    (laminar : Laminar (insert new.scope (scopesOf defs new.key)))
    (fresh : new.scope ∉ scopesOf defs new.key) {uplink : Option Nat}
    (call : table.invtree.rightNeighborUpLink (ScopeTable.neighbour new.key
      (table.map.upperBound (EndKey.pack new.key new.scope.stop))) new.scope = .ok uplink)
    (overwrite : Bool) :
    ∃ tree index', table.invtree.insertUpValue index new.scope new.value uplink overwrite =
        .ok ⟨tree, index', some defs.length, none⟩ ∧
      tree.nullval = table.invtree.nullval ∧ Linking defs new tree.ar ∧
      Heads (defs ++ [new]) (table.map.set (EndKey.pack new.key new.scope.stop) index') ∧
      ∀ (i : Nat) d, (defs ++ [new])[i]? = some d → d.key = new.key → d.scope < new.scope →
        d.scope.stop = new.scope.stop → Settled defs new tree.ar i := by
  have newMem := Set.mem_insert new.scope (scopesOf defs new.key)
  have sub := Set.subset_insert new.scope (scopesOf defs new.key)
  have nonEmpty := laminar.nonEmpty new.scope newMem
  have distinct := distinct_append represents.distinct fresh
  have hlen := represents.content.length_eq
  have last : (defs ++ [new])[defs.length]? = some new := by simp
  have forest : IsForest (scopesOf (defs ++ [new]) new.key) :=
    scopesOf_append_self defs new ▸ laminar.forest
  obtain ⟨p, link, uparent⟩ := represents.uplink_parent (laminar.mono sub) nonEmpty call
  obtain ⟨dh, l, head, hstop, least⟩ := represents.headChain found
  have hdne := laminar.nonEmpty dh.scope (sub head.mem)
  have comparable {t : Scope} (ht : t ∈ scopesOf defs new.key) (hle : dh.scope ≤ t) :
      t ≤ new.scope ∨ new.scope ≤ t :=
    head_comparable hdne hle hstop nonEmpty (laminar.noOverlap t (sub ht) _ newMem)
  have hdh : (defs ++ [new])[index]? = some dh := by
    rw [List.getElem?_append_left (List.getElem?_eq_some_iff.mp head.head).1, head.head]
  obtain ⟨inside, rest, rfl, hinside, hrest⟩ := head.increasing.split_inside new.scope
  have place := ScopedUpValueInvTree.findPlace_eq head.chain head.bounded hinside hrest
  -- the old head keeps its end as soon as something lies inside the new scope
  have keepHead (below : dh.scope ≤ new.scope) :
      Heads (defs ++ [new]) (table.map.set (EndKey.pack new.key new.scope.stop) index) := by
    refine represents.heads.append hdh head.key_eq hstop ?_
    rw [scopesOf_append_self]
    rintro s (rfl | hs) hss
    · exact below
    · exact least s hs hss
  -- pushing the new definition and linking the last definition inside of it
  have relinked {inner : List (ChainNode V)} {z : ChainNode V} (hsplit : inside = inner ++ [z])
      {up : Option Nat} (placed : Placed defs (scopesOf defs new.key) new up)
      (next : ∀ y ∈ rest.head?, ¬ y.2.scope ≤ new.scope) :
      let tree := (table.invtree.pushUpValue new.scope new.value up).setPrev z.1 (some defs.length)
      Linking defs new tree.ar ∧ ∀ (i : Nat) d, (defs ++ [new])[i]? = some d → d.key = new.key →
        d.scope < new.scope → d.scope.stop = new.scope.stop → Settled defs new tree.ar i := by
    have linking := represents.push placed
    have chain : Chain (table.invtree.pushUpValue new.scope new.value up).ar (some index)
        (inner ++ z :: rest) := by
      have := head.chain.append [⟨new.scope, new.value, up⟩]
      rwa [hsplit, List.append_assoc, List.singleton_append] at this
    have hz : z.2.scope < new.scope := hinside z (by simp [hsplit])
    have hinner : ∀ x ∈ inner, x.2.scope < new.scope := fun x hx => hinside x (by simp [hsplit, hx])
    obtain ⟨dz, hdz, hzkey, -⟩ := head.definition z (by simp [hsplit])
    have hdz' : (defs ++ [new])[z.1]? = some dz := by
      rw [List.getElem?_append_left (List.getElem?_eq_some_iff.mp hdz).1, hdz]
    obtain ⟨linking', keeps, settles⟩ := linking.relink forest chain hdz' hzkey hz next
    refine ⟨linking', fun i d hd hkey below hss => ?_⟩
    have hmem : d.scope ∈ scopesOf defs new.key := hkey ▸ mem_scopesOf (Linking.mem_old hd below)
    have above : dh.scope ≤ d.scope := least d.scope hmem hss
    rcases linking.inner_settled distinct hdh head.key_eq chain hinner hz hrest hd hkey above below
      with h | rfl
    · exact keeps i h
    · exact settles
  have index_eq : table.invtree.nextIndex = defs.length := hlen
  cases rest with
  | nil =>
    have nonNil : inside ≠ [] := by
      rintro rfl
      cases head.chain
    obtain ⟨inner, z, rfl⟩ := (List.eq_nil_or_concat' inside).resolve_left nonNil
    have hdz : dh.scope < new.scope :=
      lt_of_le_of_lt (head.above z (by simp)) (hinside z (by simp))
    have parent : IsParent (scopesOf defs new.key) new.scope none := by
      intro t ht hlt
      obtain ⟨x, hx, rfl⟩ := head.passes t ht (hdz.le.trans hlt.le)
      rw [List.append_nil] at hx
      exact absurd (hinside x hx) (lt_asymm hlt)
    obtain rfl : p = none := by
      cases p with
      | none => rfl
      | some q => exact absurd uparent.lt (parent q uparent.mem.1)
    obtain ⟨linking, settled⟩ := relinked rfl ⟨none, link, parent⟩ (by simp)
    refine ⟨(table.invtree.pushUpValue new.scope new.value uplink).setPrev z.1 (some defs.length),
      index, ?_, rfl, linking, keepHead hdz.le, settled⟩
    simp [ScopedUpValueInvTree.insertUpValue, place, ScopedUpValueInvTree.placeOf, index_eq]
  | cons x rest =>
    have hx : x.2.scope ∈ scopesOf defs new.key := head.scope_mem (by simp)
    have hne : ¬ x.2.scope = new.scope := fun h => fresh (h ▸ hx)
    have hle : new.scope ≤ x.2.scope :=
      (comparable hx (head.above x (by simp))).resolve_left fun h =>
        hrest x List.mem_cons_self (lt_of_le_of_ne h hne)
    have hlt : new.scope < x.2.scope := lt_of_le_of_ne hle fun h => hne h.symm
    obtain ⟨c, hc, hckey, hcscope, -⟩ := head.definition x (by simp)
    cases inside.eq_nil_or_concat' with
    | inl hnil =>
      subst hnil
      obtain ⟨uv, node, hscope, -⟩ := represents.content.node head.head
      have hx1 : x.1 = index ∧ x.2.scope = dh.scope := by
        cases head.chain with
        | cons node' _ =>
          obtain rfl := Option.some.inj (node.symm.trans node')
          exact ⟨rfl, hscope⟩
      have parent : IsParent (scopesOf defs new.key) new.scope (some c.scope) := by
        rw [hcscope, hx1.2]
        refine ⟨head.mem, hx1.2 ▸ hlt, fun t ht hst => ?_⟩
        obtain ⟨h1, h2⟩ := Scope.le_iff.mp hst.le
        refine Represents.head_le (laminar.mono sub) head.mem (hstop ▸ least) ht ?_ ?_
        · omega
        · omega
      have linking : Linking defs new
          (table.invtree.pushUpValue new.scope new.value (some x.1)).ar :=
        represents.push ⟨_, LinkOf.up hc hckey, parent⟩
      refine ⟨table.invtree.pushUpValue new.scope new.value (some x.1), defs.length, ?_, rfl,
        linking, ?_, ?_⟩
      · simp [ScopedUpValueInvTree.insertUpValue, place, ScopedUpValueInvTree.placeOf, hne, hle,
          index_eq]
      · refine represents.heads.append last rfl rfl ?_
        rw [scopesOf_append_self]
        rintro s (rfl | hs) hss
        · exact le_rfl
        · exact hle.trans (hx1.2 ▸ least s hs hss)
      · intro i d hd hkey below hss
        have hmem : d.scope ∈ scopesOf defs new.key :=
          hkey ▸ mem_scopesOf (Linking.mem_old hd below)
        have hdh_le : dh.scope ≤ d.scope := least d.scope hmem hss
        exact absurd (hdh_le.trans_lt below) (lt_asymm (hx1.2 ▸ hlt))
    | inr hsome =>
      obtain ⟨inner, z, rfl⟩ := hsome
      have hdz : dh.scope < new.scope :=
        lt_of_le_of_lt (head.above z (by simp)) (hinside z (by simp))
      have parent : IsParent (scopesOf defs new.key) new.scope (some c.scope) := by
        rw [hcscope]
        refine ⟨hx, hlt, fun t ht hst => ?_⟩
        obtain ⟨y, hy, rfl⟩ := head.passes t ht (hdz.le.trans hst.le)
        rcases List.mem_append.mp hy with hy | hy
        · exact absurd (hinside y hy) (lt_asymm hst)
        · have increasing := (List.pairwise_append.mp head.increasing).2.1
          rcases List.mem_cons.mp hy with rfl | hy
          · exact le_rfl
          · exact ((List.pairwise_cons.mp increasing).1 y hy).le
      obtain ⟨linking, settled⟩ := relinked rfl ⟨_, LinkOf.up hc hckey, parent⟩
        (by rintro y hy; obtain rfl := Option.some.inj hy; exact not_le_of_gt hlt)
      refine ⟨(table.invtree.pushUpValue new.scope new.value (some x.1)).setPrev z.1
        (some defs.length), index, ?_, rfl, linking, keepHead hdz.le, settled⟩
      simp [ScopedUpValueInvTree.insertUpValue, place, ScopedUpValueInvTree.placeOf, hne, hle,
        index_eq]

end Mewa
