/- Module: Mewa/Scope/Define
   digest: Defining a value in a scope, as an operation on lists of definitions and in a table. -/

import Mewa.Scope.Insert

set_option autoImplicit false
set_option relaxedAutoImplicit false

namespace Mewa

open Mewa.Lib Mewa.Lib.Forest

variable {K κ V : Type}

namespace Definition

def Same (c d : Definition κ V) : Prop := c.key = d.key ∧ c.scope = d.scope

instance [DecidableEq κ] (c d : Definition κ V) : Decidable (c.Same d) :=
  inferInstanceAs (Decidable (c.key = d.key ∧ c.scope = d.scope))

theorem Same.symm {c d : Definition κ V} (h : c.Same d) : d.Same c := ⟨h.1.symm, h.2.symm⟩

theorem Same.trans {b c d : Definition κ V} (hbc : b.Same c) (hcd : c.Same d) : b.Same d :=
  ⟨hbc.1.trans hcd.1, hbc.2.trans hcd.2⟩

/-- The value that is already defined for the key and the scope of a definition. -/
def known [DecidableEq κ] (defs : List (Definition κ V)) (new : Definition κ V) : Option V :=
  (defs.find? fun d => decide (d.Same new)).map value

/-- Defining a value appends it, unless its key and scope have one: then the first value is kept
    or replaced. -/
def define [DecidableEq κ] (overwrite : Bool) (defs : List (Definition κ V))
    (new : Definition κ V) : List (Definition κ V) :=
  match known defs new with
  | none => defs ++ [new]
  | some _ => if overwrite then defs.map fun d => if d.Same new then new else d else defs

end Definition

open Definition

theorem known_eq_none [DecidableEq κ] {defs : List (Definition κ V)} {new : Definition κ V} :
    known defs new = none ↔ new.scope ∉ scopesOf defs new.key := by
  simp only [known, Option.map_eq_none_iff, List.find?_eq_none, scopesOf, Set.mem_ofPred_eq,
    decide_eq_true_eq]
  constructor
  · rintro h ⟨d, hd, hkey, hscope⟩
    exact h d hd ⟨hkey, hscope⟩
  · intro h d hd hsame
    exact h ⟨d, hd, hsame.1, hsame.2⟩

theorem known_eq_some [DecidableEq κ] {defs : List (Definition κ V)} {new : Definition κ V}
    {old : V} (h : known defs new = some old) :
    ∃ d ∈ defs, d.Same new ∧ d.value = old := by
  obtain ⟨d, hfind, hvalue⟩ := Option.map_eq_some_iff.mp h
  exact ⟨d, List.mem_of_find?_eq_some hfind, by simpa using List.find?_some hfind, hvalue⟩

section Agree

def SameScopes (defs defs' : List (Definition κ V)) : Prop :=
  defs.map (fun d => (d.key, d.scope)) = defs'.map fun d => (d.key, d.scope)

theorem SameScopes.at {defs defs' : List (Definition κ V)} (same : SameScopes defs defs')
    {i : Nat} {d' : Definition κ V} (h : defs'[i]? = some d') :
    ∃ d, defs[i]? = some d ∧ d.Same d' := by
  have hi := congrArg (fun l => l[i]?) same
  simp only [List.getElem?_map, h, Option.map_some] at hi
  obtain ⟨d, hd, heq⟩ := Option.map_eq_some_iff.mp hi
  exact ⟨d, hd, congrArg Prod.fst heq, congrArg Prod.snd heq⟩

theorem SameScopes.scopesOf_eq {defs defs' : List (Definition κ V)}
    (same : SameScopes defs defs') (key : κ) : scopesOf defs key = scopesOf defs' key := by
  have as_pair (l : List (Definition κ V)) :
      scopesOf l key = {s | (key, s) ∈ l.map fun d => (d.key, d.scope)} := by
    ext s
    simp [scopesOf]
  rw [as_pair, as_pair, same]

theorem SameScopes.linkOf {defs defs' : List (Definition κ V)} (same : SameScopes defs defs')
    {key : κ} {prev : Option Nat} {p : Option Scope} (link : LinkOf defs key prev p) :
    LinkOf defs' key prev p := by
  cases link with
  | root => exact LinkOf.root
  | up hj hkey =>
    obtain ⟨c, hc, hsame⟩ := SameScopes.at (Eq.symm same : SameScopes defs' defs) hj
    exact hsame.2 ▸ LinkOf.up hc (hsame.1.trans hkey)

theorem Represents.agree [LinearOrder K] [EndKey K κ] {defs defs' : List (Definition κ V)}
    {table table' : ScopeTable K V} (represents : Represents defs table)
    (same : SameScopes defs defs') (content : Content table'.invtree.ar defs')
    (map_eq : table'.map = table.map)
    (links : ∀ (i : Nat) uv', table'.invtree.ar[i]? = some uv' →
      ∃ uv, table.invtree.ar[i]? = some uv ∧ uv.prev = uv'.prev) : Represents defs' table' where
  content := content
  distinct i j c d hc hd hkey hscope := by
    obtain ⟨c', hc', hcs⟩ := same.at hc
    obtain ⟨d', hd', hds⟩ := same.at hd
    exact represents.distinct i j c' d' hc' hd' (hcs.1.trans (hkey.trans hds.1.symm))
      (hcs.2.trans (hscope.trans hds.2.symm))
  placed i uv' d hi hd := by
    obtain ⟨uv, node, hprev⟩ := links i uv' hi
    obtain ⟨c, hc, hcs⟩ := same.at hd
    obtain ⟨p, link, parent⟩ := represents.placed i uv c node hc
    refine ⟨p, ?_, ?_⟩
    · rw [← hprev, ← hcs.1]; exact same.linkOf link
    · rw [← same.scopesOf_eq, ← hcs.1, ← hcs.2]; exact parent
  heads :=
    { head := by
        intro sk i h
        obtain ⟨d, hd, hkey, hstop, least⟩ := represents.heads.head sk i (map_eq ▸ h)
        obtain ⟨c, hc, hcs⟩ := SameScopes.at (Eq.symm same : SameScopes defs' defs) hd
        refine ⟨c, hc, hcs.1.trans hkey, hcs.2 ▸ hstop, fun s hs hss => ?_⟩
        rw [hcs.2]
        rw [← same.scopesOf_eq, hcs.1] at hs
        exact least s hs (hcs.2 ▸ hss)
      covered := by
        intro d hd
        obtain ⟨i, hi⟩ := List.getElem?_of_mem hd
        obtain ⟨c, hc, hcs⟩ := same.at hi
        rw [map_eq, ← hcs.1, ← hcs.2]
        exact represents.heads.covered c (List.mem_of_getElem? hc) }

end Agree

section InsertScope

variable [LinearOrder K] [EndKey K κ] [DecidableEq κ] {defs : List (Definition κ V)}
  {table : ScopeTable K V}

theorem insertScope_new (represents : Represents defs table) {new : Definition κ V}
    (laminar : Laminar (insert new.scope (scopesOf defs new.key)))
    (fresh : new.scope ∉ scopesOf defs new.key) (overwrite : Bool) :
    ∃ table', table.insertScope new.key new.scope new.value overwrite = (table', .ok none) ∧
      Represents (defs ++ [new]) table' ∧ table'.invtree.nullval = table.invtree.nullval := by
  have newMem := Set.mem_insert new.scope (scopesOf defs new.key)
  have sub := Set.subset_insert new.scope (scopesOf defs new.key)
  have distinct := distinct_append represents.distinct fresh
  have laminar' : Laminar (scopesOf (defs ++ [new]) new.key) :=
    scopesOf_append_self defs new ▸ laminar
  have index_eq : table.invtree.nextIndex = defs.length := represents.content.length_eq
  obtain ⟨uplink, call⟩ := represents.uplink_ok new.key new.scope
  cases found : table.map.find (EndKey.pack new.key new.scope.stop) with
  | none =>
    have noStop : ∀ t ∈ scopesOf defs new.key, t.stop ≠ new.scope.stop := by
      intro t ht hstop
      obtain ⟨i, hi⟩ := represents.covered ht
      rw [hstop, found] at hi
      simp at hi
    obtain ⟨p, link, parent⟩ :=
      represents.uplink_parent (laminar.mono sub) (laminar.nonEmpty _ newMem) call
    have later {t : Scope} (ht : t ∈ scopesOf defs new.key) (hlt : new.scope < t) :
        new.scope.stop < t.stop :=
      lt_of_le_of_ne (Scope.le_iff.mp hlt.le).2 (noStop t ht).symm
    have parent' : IsParent (scopesOf defs new.key) new.scope p := by
      cases p with
      | none => exact fun t ht hlt => parent t ⟨ht, later ht hlt⟩ hlt
      | some q => exact ⟨parent.mem.1, parent.lt, fun t ht hlt =>
          parent.le_of_lt ⟨ht, later ht hlt⟩ hlt⟩
    have linking := represents.push ⟨p, link, parent'⟩
    have last : (defs ++ [new])[defs.length]? = some new := by simp
    have heads := represents.heads.append last rfl rfl (by
      rw [scopesOf_append_self]
      rintro s (rfl | hs) hss
      · exact le_rfl
      · exact absurd hss (noStop s hs))
    obtain ⟨table', link_ok, represents', hnull⟩ := linkNew_represents linking heads laminar'
      distinct (by
        intro i d hd hkey below hstop
        exact absurd hstop (noStop d.scope (hkey ▸ mem_scopesOf (Linking.mem_old hd below))))
    refine ⟨table', ?_, represents', hnull⟩
    simp only [ScopeTable.insertScope, call, SortedMap.insertNew_of_none found, index_eq, link_ok]
  | some index =>
    obtain ⟨tree, index', ins, hnull, linking, heads, sameStop⟩ :=
      insertUpValue_inserts represents found laminar fresh call overwrite
    obtain ⟨table', link_ok, represents', hnull'⟩ :=
      linkNew_represents linking heads laminar' distinct sameStop
    refine ⟨table', ?_, represents', hnull'.trans hnull⟩
    simp only [ScopeTable.insertScope, call, SortedMap.insertNew_of_some found, ins, link_ok]

theorem insertScope_known (represents : Represents defs table) {new d : Definition κ V}
    (member : d ∈ defs) (same : d.Same new) (overwrite : Bool) :
    ∃ table', table.insertScope new.key new.scope new.value overwrite =
        (table', .ok (some d.value)) ∧
      Represents (if overwrite then defs.map fun c => if c.Same new then new else c else defs)
        table' ∧ table'.invtree.nullval = table.invtree.nullval := by
  have hs : new.scope ∈ scopesOf defs new.key := ⟨d, member, same.1, same.2⟩
  obtain ⟨uplink, call⟩ := represents.uplink_ok new.key new.scope
  obtain ⟨index, found⟩ := represents.covered hs
  obtain ⟨dh, l, head, hstop, least⟩ := represents.headChain found
  obtain ⟨x, hx, hxs⟩ := head.passes new.scope hs (least new.scope hs rfl)
  obtain ⟨inside, rest, rfl, hinside, hrest⟩ := head.increasing.split_inside new.scope
  have hxrest : x ∈ rest := (List.mem_append.mp hx).resolve_left fun h =>
    absurd (hinside x h) (hxs ▸ lt_irrefl _)
  obtain ⟨y, rest, rfl⟩ : ∃ y rest', rest = y :: rest' :=
    List.exists_cons_of_ne_nil (List.ne_nil_of_mem hxrest)
  have hys : y.2.scope = new.scope := by
    rcases List.mem_cons.mp hxrest with rfl | h
    · exact hxs
    · have increasing := (List.pairwise_append.mp head.increasing).2.1
      have hlt := (List.pairwise_cons.mp increasing).1 x h
      exact absurd (hxs ▸ hlt) (hrest y List.mem_cons_self)
  obtain ⟨c, hc, hckey, hcscope, hcvalue⟩ := head.definition y (by simp)
  obtain ⟨i, hi⟩ := List.getElem?_of_mem member
  obtain rfl : y.1 = i := represents.distinct y.1 i c d hc hi (hckey.trans same.1.symm)
    (hcscope.trans (hys.trans same.2.symm))
  obtain rfl := Option.some.inj (hc.symm.trans hi)
  have node := head.chain.node_of_mem (x := y) (by simp)
  have place := ScopedUpValueInvTree.findPlace_eq head.chain head.bounded hinside hrest
  have ins : table.invtree.insertUpValue index new.scope new.value uplink overwrite =
      .ok ⟨if overwrite then table.invtree.setValue y.1 new.value else table.invtree, index, none,
        some c.value⟩ := by
    simp [ScopedUpValueInvTree.insertUpValue, place, ScopedUpValueInvTree.placeOf, hys, node,
      hcvalue]
  cases overwrite with
  | false =>
    refine ⟨table, ?_, represents, rfl⟩
    simp only [ScopeTable.insertScope, call, SortedMap.insertNew_of_some found, ins]
    rfl
  | true =>
    refine ⟨⟨table.map, table.invtree.setValue y.1 new.value⟩, ?_, ?_, rfl⟩
    · simp only [ScopeTable.insertScope, call, SortedMap.insertNew_of_some found, ins]
      rfl
    · have replaced : ∀ (j : Nat) (b : Definition κ V), defs[j]? = some b →
          (b.Same new ↔ y.1 = j) := by
        intro j b hb
        constructor
        · exact fun h => represents.distinct y.1 j c b hc hb (same.trans h.symm).1
            (same.trans h.symm).2
        · rintro rfl
          exact Option.some.inj (hc.symm.trans hb) ▸ same
      refine represents.agree ?_ ?_ rfl ?_
      · simp only [SameScopes, if_true, List.map_map]
        refine List.map_congr_left fun b _ => ?_
        by_cases h : b.Same new
        · simp [h, h.1, h.2]
        · simp [h]
      · have content : table.invtree.ar.map _ = defs.map _ := represents.content
        apply List.ext_getElem?
        intro j
        have hj := congrArg (fun l => l[j]?) content
        simp only [List.getElem?_map] at hj
        simp only [if_true, ScopedUpValueInvTree.setValue, List.getElem?_map,
          List.getElem?_modify]
        cases hb : defs[j]? with
        | none =>
          rw [hb] at hj
          have hnone : table.invtree.ar[j]? = none := by simpa using hj
          simp [hnone]
        | some b =>
          rw [hb] at hj
          obtain ⟨uv, huv, heq⟩ := Option.map_eq_some_iff.mp hj
          have hiff := replaced j b hb
          obtain ⟨hscope, hvalue⟩ := Prod.mk.inj heq
          by_cases hjy : y.1 = j
          · have hsame := hiff.mpr hjy
            simp [huv, hjy, hsame, hscope, hsame.2]
          · have hsame : ¬ b.Same new := fun h => hjy (hiff.mp h)
            simp [huv, hjy, hsame, hscope, hvalue]
      · intro j uv' h
        simp only [ScopedUpValueInvTree.setValue, List.getElem?_modify] at h
        obtain ⟨uv, huv, rfl⟩ := Option.map_eq_some_iff.mp h
        refine ⟨uv, huv, ?_⟩
        split_ifs <;> rfl

theorem insertScope_define (represents : Represents defs table) {new : Definition κ V}
    (laminar : Laminar (insert new.scope (scopesOf defs new.key))) (overwrite : Bool) :
    ∃ table', table.insertScope new.key new.scope new.value overwrite =
        (table', .ok (known defs new)) ∧
      Represents (define overwrite defs new) table' ∧
      table'.invtree.nullval = table.invtree.nullval := by
  cases hknown : known defs new with
  | none =>
    simp only [define, hknown]
    exact insertScope_new represents laminar (known_eq_none.mp hknown) overwrite
  | some old =>
    obtain ⟨d, member, same, rfl⟩ := known_eq_some hknown
    simp only [define, hknown]
    exact insertScope_known represents member same overwrite

end InsertScope

end Mewa
