/- Module: Mewa/Automaton/Explore
   digest: The states found are the start and what is reached from it by goto, numbered once. -/

import Mewa.Automaton.States

set_option autoImplicit false
set_option relaxedAutoImplicit false

namespace Mewa

open Mewa.Lib

/-! Numbers of states. -/

/-- The states are different ones and numbered from 1 in their order. -/
structure StateAssignments.Numbered (rt : StateAssignments) : Prop where
  nodup : (rt.map Prod.fst).Nodup
  number : ∀ (i : Nat) e, rt[i]? = some e → e.2 = (i : Int) + 1

namespace StateAssignments.Numbered

variable {rt : StateAssignments}

theorem single (st : TransitionState) : Numbered [(st, 1)] where
  nodup := by simp
  number := by
    intro i e found
    cases i with
    | zero =>
      obtain rfl := Option.some.inj found
      rfl
    | succ i => simp at found

theorem push (h : rt.Numbered) {st : TransitionState} (fresh : st ∉ rt.map Prod.fst) :
    Numbered (rt ++ [(st, (rt.length : Int) + 1)]) where
  nodup := by
    rw [List.map_append, List.nodup_append]
    refine ⟨h.nodup, by simp, ?_⟩
    intro a ha b hb
    obtain rfl := List.mem_singleton.mp hb
    intro same
    exact fresh (same ▸ ha)
  number := by
    intro i e found
    rcases Nat.lt_trichotomy i rt.length with inside | rfl | outside
    · rw [List.getElem?_append_left inside] at found
      exact h.number i e found
    · simp only [List.getElem?_concat_length] at found
      obtain rfl := Option.some.inj found
      rfl
    · rw [List.getElem?_eq_none (by rw [List.length_append, List.length_singleton]; omega)] at found
      simp at found

theorem state_unique (h : rt.Numbered) {st st' : TransitionState} {n : Int}
    (mem : (st, n) ∈ rt) (mem' : (st', n) ∈ rt) : st = st' := by
  obtain ⟨i, found⟩ := List.getElem?_of_mem mem
  obtain ⟨j, found'⟩ := List.getElem?_of_mem mem'
  have number := h.number i _ found
  have number' := h.number j _ found'
  have same : i = j := by
    simp only at number number'
    omega
  subst same
  exact congrArg Prod.fst (Option.some.inj (found.symm.trans found'))

end StateAssignments.Numbered

theorem mem_of_numberOf {rt : StateAssignments} {st : TransitionState} {n : Int}
    (h : numberOf rt st = some n) : (st, n) ∈ rt := by
  unfold numberOf at h
  obtain ⟨e, found, rfl⟩ := Option.map_eq_some_iff.mp h
  have same : e.1 = st := by simpa using List.find?_some found
  rw [← same]
  exact List.mem_of_find?_eq_some found

theorem numberOf_eq_none {rt : StateAssignments} {st : TransitionState} :
    numberOf rt st = none ↔ st ∉ rt.map Prod.fst := by
  unfold numberOf
  rw [Option.map_eq_none_iff, List.find?_eq_none, List.mem_map]
  constructor
  · intro none_found ⟨e, mem, same⟩
    exact none_found e mem (by simpa using same)
  · intro absent e mem same
    exact absent ⟨e, mem, by simpa using same⟩

section Explore

variable {σ : Type} {closure : CalculateClosure σ}

/-- What holds of the states of a closure, and how they grow. -/
structure Growth (closure : CalculateClosure σ) where
  Ok : σ → Prop
  Le : σ → σ → Prop
  refl : ∀ s, Le s s
  trans : ∀ {s t u}, Le s t → Le t u → Le s u
  step : ∀ {s s' ts st}, Ok s → closure s ts = .ok (s', st) → Ok s' ∧ Le s s'

/-- A closure that keeps no state. -/
def Growth.trivial (closure : CalculateClosure σ) : Growth closure where
  Ok _ := True
  Le _ _ := True
  refl _ := True.intro
  trans _ _ := True.intro
  step _ _ := ⟨True.intro, True.intro⟩

variable (g : Growth closure) (prodlist : List ProductionDef)

/-- A state was calculated as the closure of another one before the given state was reached. -/
def ClosureOf (final : σ) (ts st : TransitionState) : Prop :=
  ∃ s s', g.Ok s ∧ closure s ts = .ok (s', st) ∧ g.Le s' final

inductive Reached (final : σ) : TransitionState → Prop
  | start {st : TransitionState} :
      ClosureOf g final (({} : TransitionState).insert ⟨0, 0, 0⟩) st → Reached final st
  | goto {st st' : TransitionState} {gto : ProductionNode} : Reached final st →
      gto ∈ collectGotoNodes prodlist st → ClosureOf g final (gotoKernel prodlist st gto) st' →
      Reached final st'

/-- What holds at every time of the loop. -/
structure Assigned (s : σ) (rt : StateAssignments) : Prop where
  ok : g.Ok s
  numbered : rt.Numbered
  reached : ∀ st ∈ rt.map Prod.fst, Reached g prodlist s st

def Visited (s : σ) (rt : StateAssignments) (st : TransitionState) : Prop :=
  ∀ gto ∈ collectGotoNodes prodlist st, ∃ st' ∈ rt.map Prod.fst,
    ClosureOf g s (gotoKernel prodlist st gto) st'

variable {g prodlist}

theorem ClosureOf.mono {s s' : σ} {ts st : TransitionState} (h : ClosureOf g s ts st)
    (le : g.Le s s') : ClosureOf g s' ts st := by
  obtain ⟨t, t', ok, closed, before⟩ := h
  exact ⟨t, t', ok, closed, g.trans before le⟩

theorem Reached.mono {s s' : σ} {st : TransitionState} (h : Reached g prodlist s st)
    (le : g.Le s s') : Reached g prodlist s' st := by
  induction h with
  | start closed => exact .start (closed.mono le)
  | goto _ node closed ih => exact .goto ih node (closed.mono le)

theorem Visited.mono {s s' : σ} {rt rt' : StateAssignments} {st : TransitionState}
    (h : Visited g prodlist s rt st) (le : g.Le s s')
    (more : rt.map Prod.fst ⊆ rt'.map Prod.fst) : Visited g prodlist s' rt' st := by
  intro gto node
  obtain ⟨st', mem, closed⟩ := h gto node
  exact ⟨st', more mem, closed.mono le⟩

theorem Assigned.assignGoto {s s' : σ} {rt rt' : StateAssignments}
    {new new' : List TransitionState} {state : TransitionState} {gto : ProductionNode}
    (inv : Assigned g prodlist s rt) (known : state ∈ rt.map Prod.fst)
    (node : gto ∈ collectGotoNodes prodlist state)
    (h : Mewa.assignGoto prodlist closure state (s, rt, new) gto = .ok (s', rt', new')) :
    Assigned g prodlist s' rt' ∧ g.Le s s' ∧
      (∃ add, rt'.map Prod.fst = rt.map Prod.fst ++ add ∧ new' = new ++ add) ∧
      ∃ st' ∈ rt'.map Prod.fst, ClosureOf g s' (gotoKernel prodlist state gto) st' := by
  unfold Mewa.assignGoto at h
  obtain ⟨⟨t, st'⟩, closed, h⟩ := bind_eq_ok.mp h
  obtain ⟨ok, le⟩ := g.step inv.ok closed
  have closure_of : ClosureOf g t (gotoKernel prodlist state gto) st' :=
    ⟨s, t, inv.ok, closed, g.refl t⟩
  have reached : Reached g prodlist t st' :=
    .goto ((inv.reached state known).mono le) node closure_of
  simp only at h
  split at h
  · simp [logicError] at h
  · cases number : numberOf rt st' with
    | some n =>
      rw [number] at h
      obtain ⟨rfl, rfl, rfl⟩ : t = s' ∧ rt = rt' ∧ new = new' := by
        simpa using Except.ok.inj h
      refine ⟨⟨ok, inv.numbered, fun st mem => (inv.reached st mem).mono le⟩, le,
        ⟨[], by simp, by simp⟩, st', ?_, closure_of⟩
      exact List.mem_map.mpr ⟨(st', n), mem_of_numberOf number, rfl⟩
    | none =>
      rw [number] at h
      obtain ⟨rfl, rfl, rfl⟩ : t = s' ∧ rt ++ [(st', (rt.length : Int) + 1)] = rt' ∧
          new ++ [st'] = new' := by simpa using Except.ok.inj h
      have states_eq : (rt ++ [(st', (rt.length : Int) + 1)]).map Prod.fst =
          rt.map Prod.fst ++ [st'] := by simp
      refine ⟨⟨ok, inv.numbered.push (numberOf_eq_none.mp number), ?_⟩, le,
        ⟨[st'], states_eq, rfl⟩, st', ?_, closure_of⟩
      · intro st mem
        rw [states_eq] at mem
        rcases List.mem_append.mp mem with old | new
        · exact (inv.reached st old).mono le
        · obtain rfl := List.mem_singleton.mp new
          exact reached
      · rw [states_eq]
        exact List.mem_append_right _ (List.mem_singleton_self st')

theorem Assigned.foldGotos {s s' : σ} {rt rt' : StateAssignments}
    {new new' : List TransitionState} {state : TransitionState} {gtos : List ProductionNode}
    (inv : Assigned g prodlist s rt) (known : state ∈ rt.map Prod.fst)
    (nodes : ∀ gto ∈ gtos, gto ∈ collectGotoNodes prodlist state)
    (h : gtos.foldlM (Mewa.assignGoto prodlist closure state) (s, rt, new) = .ok (s', rt', new')) :
    Assigned g prodlist s' rt' ∧ g.Le s s' ∧
      (∃ add, rt'.map Prod.fst = rt.map Prod.fst ++ add ∧ new' = new ++ add) ∧
      ∀ gto ∈ gtos, ∃ st' ∈ rt'.map Prod.fst,
        ClosureOf g s' (gotoKernel prodlist state gto) st' := by
  induction gtos generalizing s rt new with
  | nil =>
    obtain ⟨rfl, rfl, rfl⟩ : s = s' ∧ rt = rt' ∧ new = new' := by
      simpa [pure, Except.pure] using h
    exact ⟨inv, g.refl s, ⟨[], by simp, by simp⟩, by simp⟩
  | cons gto gtos ih =>
    rw [List.foldlM_cons] at h
    obtain ⟨⟨t, mid, new1⟩, first, h⟩ := bind_eq_ok.mp h
    obtain ⟨inv1, le1, ⟨add1, states1, rfl⟩, st1, mem1, closed1⟩ :=
      inv.assignGoto known (nodes gto List.mem_cons_self) first
    have known1 : state ∈ mid.map Prod.fst := by
      rw [states1]
      exact List.mem_append_left _ known
    obtain ⟨inv2, le2, ⟨add2, states2, rfl⟩, rest⟩ :=
      ih inv1 known1 (fun x mem => nodes x (List.mem_cons_of_mem gto mem)) h
    refine ⟨inv2, g.trans le1 le2, ⟨add1 ++ add2, ?_, by rw [List.append_assoc]⟩, ?_⟩
    · rw [states2, states1, List.append_assoc]
    · intro x mem
      rcases List.mem_cons.mp mem with rfl | mem
      · refine ⟨st1, ?_, closed1.mono le2⟩
        rw [states2]
        exact List.mem_append_left _ mem1
      · exact rest x mem

theorem Assigned.loop {fuel : Nat} {s s' : σ} {rt rt' : StateAssignments}
    {done statestk : List TransitionState} (inv : Assigned g prodlist s rt)
    (split : rt.map Prod.fst = done ++ statestk)
    (visited : ∀ st ∈ done, Visited g prodlist s rt st)
    (h : assignmentLoop prodlist closure fuel s rt statestk = .ok (s', rt')) :
    Assigned g prodlist s' rt' ∧ g.Le s s' ∧ rt.map Prod.fst <+: rt'.map Prod.fst ∧
      ∀ st ∈ rt'.map Prod.fst, Visited g prodlist s' rt' st := by
  induction fuel generalizing s rt done statestk with
  | zero =>
    cases statestk with
    | cons state statestk => simp [assignmentLoop] at h
    | nil =>
      obtain ⟨rfl, rfl⟩ : s = s' ∧ rt = rt' := by simpa [assignmentLoop] using h
      rw [List.append_nil] at split
      exact ⟨inv, g.refl s, List.prefix_refl _, split ▸ visited⟩
  | succ fuel ih =>
    cases statestk with
    | nil =>
      obtain ⟨rfl, rfl⟩ : s = s' ∧ rt = rt' := by simpa [assignmentLoop] using h
      rw [List.append_nil] at split
      exact ⟨inv, g.refl s, List.prefix_refl _, split ▸ visited⟩
    | cons state statestk =>
      rw [assignmentLoop] at h
      obtain ⟨⟨t, mid, newstates⟩, gotos, h⟩ := bind_eq_ok.mp h
      have known : state ∈ rt.map Prod.fst := by
        rw [split]
        exact List.mem_append_right _ List.mem_cons_self
      obtain ⟨inv1, le1, ⟨add, states1, new_eq⟩, here⟩ :=
        inv.foldGotos known (fun _ mem => mem) gotos
      obtain rfl : newstates = add := new_eq
      have more : rt.map Prod.fst <+: mid.map Prod.fst := ⟨newstates, states1.symm⟩
      have split1 : mid.map Prod.fst = (done ++ [state]) ++ (statestk ++ newstates) := by
        rw [states1, split]
        simp
      have visited1 : ∀ st ∈ done ++ [state], Visited g prodlist t mid st := by
        intro st mem
        rcases List.mem_append.mp mem with old | new
        · exact (visited st old).mono le1 more.subset
        · obtain rfl := List.mem_singleton.mp new
          exact here
      obtain ⟨inv2, le2, more2, all⟩ := ih inv1 split1 visited1 h
      exact ⟨inv2, g.trans le1 le2, more.trans more2, all⟩

/-- The states with their numbers at the end: the start is the first one, all of them are reached
    from it, and their successors are among them. -/
structure Explored (g : Growth closure) (prodlist : List ProductionDef) (final : σ)
    (rt : StateAssignments) : Prop extends Assigned g prodlist final rt where
  start : ∃ st, (st, 1) ∈ rt ∧ ClosureOf g final (({} : TransitionState).insert ⟨0, 0, 0⟩) st
  visited : ∀ st ∈ rt.map Prod.fst, Visited g prodlist final rt st

theorem explored_of_getAutomatonStateAssignments {fuel : Nat} {s s' : σ} {rt : StateAssignments}
    (ok : g.Ok s) (h : getAutomatonStateAssignments fuel prodlist closure s = .ok (s', rt)) :
    Explored g prodlist s' rt ∧ g.Le s s' := by
  obtain ⟨⟨t, st⟩, closed, h⟩ := bind_eq_ok.mp h
  obtain ⟨ok1, le1⟩ := g.step ok closed
  have closure_of : ClosureOf g t (({} : TransitionState).insert ⟨0, 0, 0⟩) st :=
    ⟨s, t, ok, closed, g.refl t⟩
  have inv : Assigned g prodlist t [(st, 1)] := by
    refine ⟨ok1, .single st, ?_⟩
    intro st' mem
    obtain rfl := List.mem_singleton.mp mem
    exact .start closure_of
  have split : [(st, (1 : Int))].map Prod.fst = [] ++ [st] := rfl
  obtain ⟨inv', le, more, visited⟩ := inv.loop split (by simp) h
  refine ⟨⟨inv', ⟨st, ?_, closure_of.mono le⟩, visited⟩, g.trans le1 le⟩
  -- the start is the first state and thus has the first number
  obtain ⟨states, eq⟩ := more
  cases rt with
  | nil => simp at eq
  | cons e rt =>
    have number := inv'.numbered.number 0 e rfl
    have first : st = e.1 := (List.cons.inj eq).1
    have whole : e = (st, 1) := Prod.ext first.symm number
    rw [whole]
    exact List.mem_cons_self

theorem Explored.exists_labels {S : Type} {final : σ} {rt : StateAssignments}
    (label : ProductionNode → S) (h : Explored g prodlist final rt)
    (R : List S → TransitionState → Prop)
    (start : ∀ {st}, ClosureOf g final (({} : TransitionState).insert ⟨0, 0, 0⟩) st → R [] st)
    (goto : ∀ {γ st gto st'}, R γ st → gto ∈ collectGotoNodes prodlist st →
      ClosureOf g final (gotoKernel prodlist st gto) st' → R (γ ++ [label gto]) st')
    {st : TransitionState} (mem : st ∈ rt.map Prod.fst) : ∃ γ, R γ st := by
  have reached := h.reached st mem
  clear mem
  induction reached with
  | start closed => exact ⟨[], start closed⟩
  | goto _ node closed ih =>
    obtain ⟨γ, holds⟩ := ih
    exact ⟨_, goto holds node closed⟩

end Explore

end Mewa
