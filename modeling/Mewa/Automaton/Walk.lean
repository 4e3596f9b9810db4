/- Module: Mewa/Automaton/Walk
   digest: An exploration whose closures keep their promises has a state for every viable prefix. -/

import Mewa.Automaton.Follow

set_option autoImplicit false
set_option relaxedAutoImplicit false

namespace Mewa

open Mewa.Lib

/-- What a closure promises for the states of an exploration. A state is good for some of the
    prefixes that lead to it, and it stays good when the state of the closure grows. -/
structure Promise {σ : Type} (prodlist : List ProductionDef) (closure : CalculateClosure σ)
    (S : Type) (P : Failure → Prop) where
  label : ProductionNode → S
  Ok : σ → Prop
  Le : σ → σ → Prop
  Good : σ → List S → TransitionState → Prop
  refl : ∀ s, Le s s
  trans : ∀ {s t u}, Le s t → Le t u → Le s u
  mono : ∀ {s s' γ st}, Good s γ st → Le s s' → Good s' γ st
  back : ∀ {s s' γ γ' st}, Good s γ st → Le s s' → Good s' γ' st → Good s γ' st
  start : ∀ {s}, Ok s → Yields P (fun rt => Ok rt.1 ∧ Le s rt.1 ∧ Good rt.1 [] rt.2)
    (closure s (({} : TransitionState).insert ⟨0, 0, 0⟩))
  goto : ∀ {s γ st gto}, Ok s → Good s γ st → gto ∈ collectGotoNodes prodlist st →
    Yields P (fun rt => Ok rt.1 ∧ Le s rt.1 ∧ Good rt.1 (γ ++ [label gto]) rt.2 ∧
      rt.2.empty = false) (closure s (gotoKernel prodlist st gto))

namespace Promise

variable {σ S : Type} {prodlist : List ProductionDef} {closure : CalculateClosure σ}
  {P : Failure → Prop} (pr : Promise prodlist closure S P)

/-- A state has successors for all prefixes that it is good for. -/
def Visited (s : σ) (rt : StateAssignments) (st : TransitionState) : Prop :=
  ∀ γ, pr.Good s γ st → ∀ gto ∈ collectGotoNodes prodlist st,
    ∃ st' ∈ rt.map Prod.fst, pr.Good s (γ ++ [pr.label gto]) st'

/-- What holds at every time of the exploration. -/
structure Assigned (s : σ) (rt : StateAssignments) : Prop where
  ok : pr.Ok s
  numbered : rt.Numbered
  good : ∀ st ∈ rt.map Prod.fst, ∃ γ, pr.Good s γ st

/-- What one time of the exploration leaves to a later one. -/
structure Later (s : σ) (rt : StateAssignments) (new : List TransitionState) (s' : σ)
    (rt' : StateAssignments) (new' : List TransitionState) : Prop where
  le : pr.Le s s'
  states : ∃ add, rt'.map Prod.fst = rt.map Prod.fst ++ add ∧ new' = new ++ add

/-- All states found with their successors. -/
structure Walked (s s' : σ) (rt : StateAssignments) : Prop extends pr.Assigned s' rt where
  le : pr.Le s s'
  start : ∃ st, (st, 1) ∈ rt ∧ pr.Good s' [] st
  visited : ∀ st ∈ rt.map Prod.fst, pr.Visited s' rt st

variable {pr} {s s' : σ} {rt rt' : StateAssignments} {state : TransitionState}

theorem Visited.mono (known : ∃ γ, pr.Good s γ state) (visited : pr.Visited s rt state)
    (le : pr.Le s s') (more : rt.map Prod.fst ⊆ rt'.map Prod.fst) : pr.Visited s' rt' state := by
  intro γ good gto node
  obtain ⟨γ0, before⟩ := known
  obtain ⟨st', mem, next⟩ := visited γ (pr.back before le good) gto node
  exact ⟨st', more mem, pr.mono next le⟩

theorem Assigned.assignGoto {new : List TransitionState} {gto : ProductionNode}
    (inv : pr.Assigned s rt) (known : state ∈ rt.map Prod.fst)
    (node : gto ∈ collectGotoNodes prodlist state) :
    Yields P (fun ctx => pr.Assigned ctx.1 ctx.2.1 ∧ pr.Later s rt new ctx.1 ctx.2.1 ctx.2.2 ∧
        ∃ st' ∈ ctx.2.1.map Prod.fst, ∀ γ, pr.Good s γ state →
          pr.Good ctx.1 (γ ++ [pr.label gto]) st')
      (Mewa.assignGoto prodlist closure state (s, rt, new) gto) := by
  obtain ⟨γ0, good0⟩ := inv.good state known
  unfold Mewa.assignGoto
  have first := pr.goto inv.ok good0 node
  have others (γ : List S) (good : pr.Good s γ state) := (pr.goto inv.ok good node).result
  apply first.bind
  intro ⟨t, st'⟩ closed ⟨ok, le, next, not_empty⟩
  simp only [not_empty, Bool.false_eq_true, if_false]
  have reached (γ : List S) (good : pr.Good s γ state) : pr.Good t (γ ++ [pr.label gto]) st' :=
    (others γ good _ closed).2.2.1
  have kept : ∀ st ∈ rt.map Prod.fst, ∃ γ, pr.Good t γ st := by
    intro st mem
    obtain ⟨γ, good⟩ := inv.good st mem
    exact ⟨γ, pr.mono good le⟩
  cases number : numberOf rt st' with
  | some n =>
    refine Yields.ok_iff.mpr ⟨⟨ok, inv.numbered, kept⟩, ⟨le, [], by simp, by simp⟩, st', ?_, reached⟩
    exact List.mem_map.mpr ⟨(st', n), mem_of_numberOf number, rfl⟩
  | none =>
    have states_eq : (rt ++ [(st', (rt.length : Int) + 1)]).map Prod.fst =
        rt.map Prod.fst ++ [st'] := by simp
    refine Yields.ok_iff.mpr ⟨⟨ok, inv.numbered.push (numberOf_eq_none.mp number), ?_⟩,
      ⟨le, [st'], states_eq, rfl⟩, st', ?_, reached⟩
    · intro st mem
      rw [states_eq] at mem
      rcases List.mem_append.mp mem with old | new
      · exact kept st old
      · obtain rfl := List.mem_singleton.mp new
        exact ⟨_, next⟩
    · rw [states_eq]
      exact List.mem_append_right _ (List.mem_singleton_self st')

theorem Assigned.foldGotos (inv : pr.Assigned s rt) (known : state ∈ rt.map Prod.fst) :
    Yields P (fun ctx => pr.Assigned ctx.1 ctx.2.1 ∧ pr.Later s rt [] ctx.1 ctx.2.1 ctx.2.2 ∧
        pr.Visited ctx.1 ctx.2.1 state)
      ((collectGotoNodes prodlist state).elems.foldlM (Mewa.assignGoto prodlist closure state)
        (s, rt, [])) := by
  have along : Yields P
      (fun ctx => pr.Assigned ctx.1 ctx.2.1 ∧ pr.Later s rt [] ctx.1 ctx.2.1 ctx.2.2 ∧
        ∀ gto ∈ (collectGotoNodes prodlist state).elems, ∃ st' ∈ ctx.2.1.map Prod.fst,
          ∀ γ, pr.Good s γ state → pr.Good ctx.1 (γ ++ [pr.label gto]) st')
      ((collectGotoNodes prodlist state).elems.foldlM (Mewa.assignGoto prodlist closure state)
        (s, rt, [])) := by
    apply Yields.foldlM (fun past (ctx : σ × StateAssignments × List TransitionState) =>
      pr.Assigned ctx.1 ctx.2.1 ∧ pr.Later s rt [] ctx.1 ctx.2.1 ctx.2.2 ∧
        ∀ gto ∈ past, ∃ st' ∈ ctx.2.1.map Prod.fst,
          ∀ γ, pr.Good s γ state → pr.Good ctx.1 (γ ++ [pr.label gto]) st')
    · intro past gto ⟨t, mid, new⟩ begins ⟨inv1, later, here⟩
      obtain ⟨add, states, new_eq⟩ := later.states
      have known1 : state ∈ mid.map Prod.fst := by
        rw [states]
        exact List.mem_append_left _ known
      have node : gto ∈ collectGotoNodes prodlist state := begins.subset (by simp)
      apply (inv1.assignGoto known1 node).mono
      intro ⟨u, rt2, new2⟩ _ ⟨inv2, later2, st2, mem2, good2⟩
      obtain ⟨add2, states2, new_eq2⟩ := later2.states
      refine ⟨inv2, ⟨pr.trans later.le later2.le, add ++ add2, ?_, ?_⟩, ?_⟩
      · rw [states2, states, List.append_assoc]
      · change new = [] ++ add at new_eq
        rw [new_eq2, new_eq, List.append_assoc]
      · intro x mem
        rcases List.mem_append.mp mem with old | last
        · obtain ⟨st', mem', good'⟩ := here x old
          refine ⟨st', ?_, fun γ good => pr.mono (good' γ good) later2.le⟩
          rw [states2]
          exact List.mem_append_left _ mem'
        · obtain rfl := List.mem_singleton.mp last
          exact ⟨st2, mem2, fun γ good => good2 γ (pr.mono good later.le)⟩
    · exact ⟨inv, ⟨pr.refl s, [], by simp, by simp⟩, by simp⟩
  apply along.mono
  intro ctx _ ⟨inv', later, here⟩
  refine ⟨inv', later, fun γ good gto node => ?_⟩
  obtain ⟨γ0, before⟩ := inv.good state known
  obtain ⟨st', mem, next⟩ := here gto node
  exact ⟨st', mem, next γ (pr.back before later.le good)⟩

theorem Assigned.loop {fuel : Nat} {done statestk : List TransitionState} (inv : pr.Assigned s rt)
    (split : rt.map Prod.fst = done ++ statestk) (visited : ∀ st ∈ done, pr.Visited s rt st) :
    Yields (fun e => e = .outOfFuel ∨ P e)
      (fun ctx => pr.Assigned ctx.1 ctx.2 ∧ pr.Le s ctx.1 ∧
        rt.map Prod.fst <+: ctx.2.map Prod.fst ∧
          ∀ st ∈ ctx.2.map Prod.fst, pr.Visited ctx.1 ctx.2 st)
      (assignmentLoop prodlist closure fuel s rt statestk) := by
  induction fuel generalizing s rt done statestk with
  | zero =>
    cases statestk with
    | cons state statestk => exact Yields.error_iff.mpr (Or.inl rfl)
    | nil =>
      rw [List.append_nil] at split
      exact Yields.ok_iff.mpr ⟨inv, pr.refl s, List.prefix_refl _, split ▸ visited⟩
  | succ fuel ih =>
    cases statestk with
    | nil =>
      rw [List.append_nil] at split
      exact Yields.ok_iff.mpr ⟨inv, pr.refl s, List.prefix_refl _, split ▸ visited⟩
    | cons state statestk =>
      rw [assignmentLoop]
      have known : state ∈ rt.map Prod.fst := by
        rw [split]
        exact List.mem_append_right _ List.mem_cons_self
      apply ((inv.foldGotos known).allow fun e allowed => Or.inr allowed).bind
      rintro ⟨t, mid, newstates⟩ _ ⟨inv1, later, here⟩
      obtain ⟨add, states1, new_eq⟩ := later.states
      obtain rfl : newstates = add := new_eq
      have more : rt.map Prod.fst <+: mid.map Prod.fst := ⟨newstates, states1.symm⟩
      have split1 : mid.map Prod.fst = (done ++ [state]) ++ (statestk ++ newstates) := by
        change mid.map Prod.fst = _ at states1
        rw [states1, split]
        simp
      have visited1 : ∀ st ∈ done ++ [state], pr.Visited t mid st := by
        intro st mem
        rcases List.mem_append.mp mem with old | new
        · have among : st ∈ rt.map Prod.fst := by
            rw [split]
            exact List.mem_append_left _ old
          exact (visited st old).mono (inv.good st among) later.le more.subset
        · obtain rfl := List.mem_singleton.mp new
          exact here
      apply (ih inv1 split1 visited1).mono
      rintro ctx _ ⟨inv2, le2, more2, all⟩
      exact ⟨inv2, pr.trans later.le le2, more.trans more2, all⟩

theorem assignments_yields (pr : Promise prodlist closure S P) {fuel : Nat} (s : σ)
    (ok : pr.Ok s) :
    Yields (fun e => e = .outOfFuel ∨ P e) (fun ctx => pr.Walked s ctx.1 ctx.2)
      (getAutomatonStateAssignments fuel prodlist closure s) := by
  unfold getAutomatonStateAssignments
  apply ((pr.start ok).allow fun e allowed => Or.inr allowed).bind
  intro ⟨t, st⟩ _ ⟨ok1, le1, good⟩
  have inv : pr.Assigned t [(st, 1)] := by
    refine ⟨ok1, .single st, ?_⟩
    intro st' mem
    obtain rfl := List.mem_singleton.mp mem
    exact ⟨[], good⟩
  have split : [(st, (1 : Int))].map Prod.fst = [] ++ [st] := rfl
  apply (inv.loop split (by simp)).mono
  intro ⟨u, rt⟩ _ ⟨inv', le, more, visited⟩
  refine ⟨inv', pr.trans le1 le, ⟨st, ?_, pr.mono good le⟩, visited⟩
  -- the start is the first state and thus has the first number
  obtain ⟨states, eq⟩ := more
  cases rt with
  | nil => simp at eq
  | cons e rt =>
    have number := inv'.numbered.number 0 e rfl
    have first : st = e.1 := (List.cons.inj eq).1
    have whole : e = (st, 1) := Prod.ext first.symm number
    show (st, 1) ∈ e :: rt
    rw [whole]
    exact List.mem_cons_self

end Promise

end Mewa
