/- Module: Mewa/Scope/Lookup
   digest: The queries of a scoped container answer with the innermost definition. -/

import Mewa.Scope.Define

set_option autoImplicit false
set_option relaxedAutoImplicit false

namespace Mewa

open Mewa.Lib Definition

variable {K κ V : Type} [LinearOrder K] [EndKey K κ] [DecidableEq κ]

section Queries

variable {defs : List (Definition κ V)} {table : ScopeTable K V}

/-- The definitions of a key around a step, from the innermost to the outermost. -/
structure Covering (defs : List (Definition κ V)) (key : κ) (step : Int)
    (l : List (Definition κ V)) : Prop where
  nested : l.Pairwise fun c d => c.scope < d.scope
  mem_iff : ∀ d, d ∈ l ↔ d ∈ defs ∧ d.key = key ∧ d.scope.containsStep step = true

omit [LinearOrder K] [EndKey K κ] [DecidableEq κ] in
private theorem definitions_of_nodes {key : κ} (distinct : Distinct defs)
    {l : List (ChainNode V)}
    (definition : ∀ x ∈ l, ∃ c, defs[x.1]? = some c ∧ c.key = key ∧ c.scope = x.2.scope ∧
      c.value = x.2.value) :
    ∃ ds : List (Definition κ V), ds.map (fun d => (d.scope, d.value)) =
        l.map (fun x => (x.2.scope, x.2.value)) ∧
      (∀ d ∈ ds, d ∈ defs ∧ d.key = key) ∧
      ∀ d ∈ defs, d.key = key → (∃ x ∈ l, x.2.scope = d.scope) → d ∈ ds := by
  induction l with
  | nil => exact ⟨[], rfl, by simp, by simp⟩
  | cons x l ih =>
    obtain ⟨ds, hmap, hmem, hall⟩ := ih fun y hy => definition y (List.mem_cons_of_mem x hy)
    obtain ⟨c, hc, hkey, hscope, hvalue⟩ := definition x List.mem_cons_self
    refine ⟨c :: ds, by simp [hscope, hvalue, hmap], ?_, ?_⟩
    · rintro d hd
      rcases List.mem_cons.mp hd with rfl | hd
      · exact ⟨List.mem_of_getElem? hc, hkey⟩
      · exact hmem d hd
    · rintro d hd hdkey ⟨y, hy, hys⟩
      rcases List.mem_cons.mp hy with rfl | hy
      · obtain ⟨i, hi⟩ := List.getElem?_of_mem hd
        obtain rfl := distinct y.1 i c d hc hi (hkey.trans hdkey.symm) (hscope.trans hys)
        obtain rfl := Option.some.inj (hc.symm.trans hi)
        exact List.mem_cons_self
      · exact List.mem_cons_of_mem c (hall d hd hdkey ⟨y, hy, hys⟩)

theorem queries_covering (represents : Represents defs table) {key : κ}
    (laminar : Laminar (scopesOf defs key)) (step : Int) :
    ∃ l, Covering defs key step l ∧
      table.innerValue key step = .ok ((l.head?.map value).getD table.invtree.nullval) ∧
      table.matchRange key step = .ok (l.map fun d => (d.scope, d.value)) := by
  rcases ScopeTable.neighbour_cases table.map key step with
    ⟨none_right, empty⟩ | ⟨f, index, right, later, found, first⟩
  · refine ⟨[], ⟨List.Pairwise.nil, fun d => ⟨by simp, ?_⟩⟩, ?_, ?_⟩
    · rintro ⟨hd, rfl, hcover⟩
      obtain ⟨i, hi⟩ := represents.heads.covered d hd
      exact absurd hi (empty d.scope.stop i (Scope.containsStep_iff.mp hcover).2)
    · simp [ScopeTable.innerValue, none_right]
    · simp [ScopeTable.matchRange, none_right]
  · obtain ⟨dh, l, head, hstop, least⟩ := represents.headChain found
    -- everything around the step lies on the chain, and ends after it
    have passes : ∀ t ∈ scopesOf defs key, t.containsStep step = true →
        ∃ x ∈ l, x.2.scope = t := by
      intro t ht hcover
      obtain ⟨hstart, hlt⟩ := Scope.containsStep_iff.mp hcover
      obtain ⟨j, hj⟩ := represents.covered ht
      have hft := first t.stop j hlt hj
      exact head.passes t ht
        (Represents.head_le laminar head.mem (hstop ▸ least) ht (by omega) (by omega))
    have later_stop : ∀ x ∈ l, step < x.2.scope.stop := by
      intro x hx
      have := (Scope.le_iff.mp (head.above x hx)).2
      omega
    cases hfind : l.find? fun x => decide (x.2.scope.start ≤ step) with
    | none =>
      have outside := List.find?_eq_none.mp hfind
      refine ⟨[], ⟨List.Pairwise.nil, fun d => ⟨by simp, ?_⟩⟩, ?_, ?_⟩
      · rintro ⟨hd, rfl, hcover⟩
        obtain ⟨x, hx, hxs⟩ := passes d.scope (mem_scopesOf hd) hcover
        have hno := outside x hx
        rw [hxs] at hno
        simp [(Scope.containsStep_iff.mp hcover).1] at hno
      · simp [ScopeTable.innerValue, right,
          ScopedUpValueInvTree.getInnerValue_eq head.chain head.bounded, hfind]
      · simp [ScopeTable.matchRange, right,
          ScopedUpValueInvTree.first_eq head.chain head.bounded, hfind,
          ScopedUpValueInvTree.iterate_eq Chain.nil]
    | some x =>
      obtain ⟨hxstart, a, b, rfl, hbefore⟩ := List.find?_eq_some_iff_append.mp hfind
      have rest : ∀ y ∈ x :: b, ∃ c, defs[y.1]? = some c ∧ c.key = key ∧ c.scope = y.2.scope ∧
          c.value = y.2.value := fun y hy => head.definition y (by simp [List.mem_cons.mp hy])
      obtain ⟨ds, hmap, hmem, hall⟩ := definitions_of_nodes represents.distinct rest
      have increasing : Increasing (x :: b) := (List.pairwise_append.mp head.increasing).2.1
      have scopes : ds.map Definition.scope = (x :: b).map fun y => y.2.scope := by
        have := congrArg (List.map Prod.fst) hmap
        simpa [Function.comp_def] using this
      have x_le : ∀ y ∈ x :: b, x.2.scope ≤ y.2.scope := by
        intro y hy
        rcases List.mem_cons.mp hy with rfl | hy
        · exact le_rfl
        · exact ((List.pairwise_cons.mp increasing).1 y hy).le
      refine ⟨ds, ⟨?_, fun d => ⟨fun hd => ?_, ?_⟩⟩, ?_, ?_⟩
      · rw [← List.pairwise_map (f := Definition.scope) (R := (· < ·)), scopes, List.pairwise_map]
        exact increasing
      · obtain ⟨hdefs, hkey⟩ := hmem d hd
        have hscope : d.scope ∈ (x :: b).map fun y => y.2.scope :=
          scopes ▸ List.mem_map.mpr ⟨d, hd, rfl⟩
        obtain ⟨y, hy, hys⟩ := List.mem_map.mp hscope
        have hxs : x.2.scope.start ≤ step := by simpa using hxstart
        have hle := (Scope.le_iff.mp (x_le y hy)).1
        have hlt := later_stop y (by simp [List.mem_cons.mp hy])
        refine ⟨hdefs, hkey, Scope.containsStep_iff.mpr ⟨?_, ?_⟩⟩
        · rw [← hys]; omega
        · rw [← hys]; exact hlt
      · rintro ⟨hd, hkey, hcover⟩
        obtain ⟨y, hy, hys⟩ := passes d.scope (hkey ▸ mem_scopesOf hd) hcover
        refine hall d hd hkey ⟨y, ?_, hys⟩
        rcases List.mem_append.mp hy with hy | hy
        · have hno := hbefore y hy
          rw [hys] at hno
          simp [(Scope.containsStep_iff.mp hcover).1] at hno
        · exact hy
      · have value_eq : (ds.head?.map value) = some x.2.value := by
          have := congrArg (fun m => (m.head?).map Prod.snd) hmap
          simpa [List.head?_map, Function.comp_def] using this
        simp [ScopeTable.innerValue, right,
          ScopedUpValueInvTree.getInnerValue_eq head.chain head.bounded, hfind, value_eq]
      · have tail := head.chain.from_mem
        have bounded : (x :: b).length ≤ table.invtree.ar.length := by
          have := head.bounded
          simp only [List.length_append] at this
          omega
        rw [hmap]
        simp [ScopeTable.matchRange, right,
          ScopedUpValueInvTree.first_eq head.chain head.bounded, hfind,
          ScopedUpValueInvTree.iterate_eq tail bounded]

theorem valueOf_eq (represents : Represents defs table) (key : κ) (scope : Scope) :
    table.valueOf key scope =
      .ok ((known defs ⟨key, scope, table.invtree.nullval⟩).getD table.invtree.nullval) := by
  cases found : table.map.find (EndKey.pack key scope.stop) with
  | none =>
    have hnone : known defs ⟨key, scope, table.invtree.nullval⟩ = none := by
      refine known_eq_none.mpr fun hs => ?_
      obtain ⟨i, hi⟩ := represents.covered hs
      simp [found] at hi
    simp [ScopeTable.valueOf, found, hnone]
  | some index =>
    obtain ⟨dh, l, head, hstop, least⟩ := represents.headChain found
    have stops : ∀ x ∈ l, scope.stop ≤ x.2.scope.stop := fun x hx => by
      have := (Scope.le_iff.mp (head.above x hx)).2
      omega
    have query := ScopedUpValueInvTree.findUpValue_eq head.chain head.bounded head.increasing stops
    cases hknown : known defs ⟨key, scope, table.invtree.nullval⟩ with
    | none =>
      have absent : l.find? (fun x => decide (x.2.scope = scope)) = none := by
        refine List.find?_eq_none.mpr fun x hx hxs => known_eq_none.mp hknown ?_
        exact (by simpa using hxs : x.2.scope = scope) ▸ head.scope_mem hx
      simp [ScopeTable.valueOf, found, query, absent]
    | some old =>
      obtain ⟨d, hd, same, rfl⟩ := known_eq_some hknown
      have hs : scope ∈ scopesOf defs key := ⟨d, hd, same.1, same.2⟩
      obtain ⟨x, hx, hxs⟩ := head.passes scope hs (least scope hs rfl)
      cases hfind : l.find? fun x => decide (x.2.scope = scope) with
      | none =>
        have := List.find?_eq_none.mp hfind x hx
        simp [hxs] at this
      | some y =>
        obtain ⟨c, hc, hckey, hcscope, hcvalue⟩ :=
          head.definition y (List.mem_of_find?_eq_some hfind)
        have hys : y.2.scope = scope := by simpa using List.find?_some hfind
        obtain ⟨i, hi⟩ := List.getElem?_of_mem hd
        obtain rfl := represents.distinct y.1 i c d hc hi (hckey.trans same.1.symm)
          (hcscope.trans (hys.trans same.2.symm))
        obtain rfl := Option.some.inj (hc.symm.trans hi)
        simp [ScopeTable.valueOf, found, query, hfind, hcvalue]

end Queries

end Mewa
