/- Module: Mewa/Scope/Chain
   digest: The chains of enclosing definitions, and the loops of the tree functions along them. -/

import Mathlib.Data.Fintype.EquivFin
import Mathlib.Order.WellFounded
import Mewa.Scope.Structs

set_option autoImplicit false
set_option relaxedAutoImplicit false

namespace Mewa

variable {V σ ρ : Type}

abbrev ChainNode (V : Type) := Nat × ScopedUpValue V

/-- The definitions reached from an index by following the links up to the end. -/
inductive Chain (ar : List (ScopedUpValue V)) : Option Nat → List (ChainNode V) → Prop
  | nil : Chain ar none []
  | cons {ai : Nat} {uv : ScopedUpValue V} {l : List (ChainNode V)} :
      ar[ai]? = some uv → Chain ar uv.prev l → Chain ar (some ai) ((ai, uv) :: l)

namespace Chain

/-- The loop of `whileUp` written along the list of the visited definitions. -/
def walk (body : Nat → ScopedUpValue V → σ → Except Failure (Loop σ ρ)) (exit : σ → ρ) :
    List (ChainNode V) → σ → Except Failure ρ
  | [], state => .ok (exit state)
  | (ai, uv) :: l, state =>
    match body ai uv state with
    | .error e => .error e
    | .ok (.next state') => walk body exit l state'
    | .ok (.done result) => .ok result

theorem whileUp_eq_walk {ar : List (ScopedUpValue V)} {index : Option Nat}
    {l : List (ChainNode V)} (chain : Chain ar index l)
    (body : Nat → ScopedUpValue V → σ → Except Failure (Loop σ ρ)) (exit : σ → ρ) :
    ∀ (fuel : Nat) (state : σ), l.length ≤ fuel →
      whileUp ar body exit fuel index state = walk body exit l state := by
  induction chain with
  | nil =>
    intro fuel state _
    cases fuel <;> rfl
  | @cons ai uv l node _ ih =>
    intro fuel state enough
    cases fuel with
    | zero => simp at enough
    | succ fuel =>
      have enough' : l.length ≤ fuel := by simpa using enough
      simp only [whileUp, node, walk]
      cases hbody : body ai uv state with
      | error e => rfl
      | ok next =>
        cases next with
        | next state' => exact ih fuel state' enough'
        | done result => rfl

theorem unique {ar : List (ScopedUpValue V)} {index : Option Nat} {l m : List (ChainNode V)}
    (hl : Chain ar index l) (hm : Chain ar index m) : l = m := by
  induction hl generalizing m with
  | nil => cases hm; rfl
  | cons node _ ih =>
    cases hm with
    | cons node' rest =>
      obtain rfl := Option.some.inj (node.symm.trans node')
      rw [ih rest]

theorem node_of_mem {ar : List (ScopedUpValue V)} {index : Option Nat} {l : List (ChainNode V)}
    (chain : Chain ar index l) {x : ChainNode V} (member : x ∈ l) : ar[x.1]? = some x.2 := by
  induction chain with
  | nil => simp at member
  | cons node _ ih =>
    rcases List.mem_cons.mp member with rfl | member
    · exact node
    · exact ih member

theorem append {ar : List (ScopedUpValue V)} {index : Option Nat} {l : List (ChainNode V)}
    (chain : Chain ar index l) (pushed : List (ScopedUpValue V)) :
    Chain (ar ++ pushed) index l := by
  induction chain with
  | nil => exact Chain.nil
  | cons node _ ih =>
    refine Chain.cons ?_ ih
    rw [List.getElem?_append_left (List.getElem?_eq_some_iff.mp node).1, node]

theorem suffix {ar : List (ScopedUpValue V)} {index : Option Nat} {l m : List (ChainNode V)}
    {x : ChainNode V} (chain : Chain ar index (l ++ x :: m)) : Chain ar x.2.prev m := by
  induction l generalizing index with
  | nil =>
    cases chain with
    | cons _ rest => exact rest
  | cons y l ih =>
    cases chain with
    | cons _ rest => exact ih rest

theorem from_mem {ar : List (ScopedUpValue V)} {index : Option Nat} {l m : List (ChainNode V)}
    {x : ChainNode V} (chain : Chain ar index (l ++ x :: m)) : Chain ar (some x.1) (x :: m) :=
  Chain.cons (chain.node_of_mem (by simp)) chain.suffix

end Chain

/-- Every link leads to a definition with a strictly bigger scope. -/
def Ascending (ar : List (ScopedUpValue V)) : Prop :=
  ∀ (i : Nat) (uv : ScopedUpValue V) (j : Nat), ar[i]? = some uv → uv.prev = some j →
    ∃ w : ScopedUpValue V, ar[j]? = some w ∧ uv.scope < w.scope

def Increasing (l : List (ChainNode V)) : Prop := l.Pairwise fun x y => x.2.scope < y.2.scope

private theorem above_of_chain {ar : List (ScopedUpValue V)} (ascending : Ascending ar)
    {index : Option Nat} {l : List (ChainNode V)} (chain : Chain ar index l) :
    Increasing l ∧ ∀ i, index = some i → ∀ x ∈ l, ∀ uv, ar[i]? = some uv →
      uv.scope ≤ x.2.scope := by
  induction chain with
  | nil => exact ⟨List.Pairwise.nil, fun i h => by simp at h⟩
  | @cons ai uv l node rest ih =>
    obtain ⟨increasing, above⟩ := ih
    have strict : ∀ x ∈ l, uv.scope < x.2.scope := by
      intro x hx
      cases hprev : uv.prev with
      | none =>
        rw [hprev] at rest
        cases rest
        simp at hx
      | some j =>
        obtain ⟨w, hw, hlt⟩ := ascending ai uv j node hprev
        exact lt_of_lt_of_le hlt (above j hprev x hx w hw)
    refine ⟨List.pairwise_cons.mpr ⟨strict, increasing⟩, ?_⟩
    rintro i hi x hx w hw
    obtain rfl := Option.some.inj hi
    obtain rfl := Option.some.inj (node.symm.trans hw)
    rcases List.mem_cons.mp hx with rfl | hx
    · exact le_rfl
    · exact (strict x hx).le

theorem Ascending.increasing {ar : List (ScopedUpValue V)} (ascending : Ascending ar)
    {index : Option Nat} {l : List (ChainNode V)} (chain : Chain ar index l) : Increasing l :=
  (above_of_chain ascending chain).1

/-- A chain visits no definition twice, so the number of definitions bounds its length. -/
theorem Ascending.length_le {ar : List (ScopedUpValue V)} (ascending : Ascending ar)
    {index : Option Nat} {l : List (ChainNode V)} (chain : Chain ar index l) :
    l.length ≤ ar.length := by
  have increasing := ascending.increasing chain
  have nodup : (l.map Prod.fst).Nodup := by
    refine List.pairwise_map.mpr (increasing.imp_of_mem fun {x y} hx hy hlt heq => ?_)
    have hnode := (chain.node_of_mem hx).symm.trans (heq ▸ chain.node_of_mem hy)
    rw [Option.some.inj hnode] at hlt
    exact lt_irrefl _ hlt
  have sub : l.map Prod.fst ⊆ List.range ar.length := by
    intro i hi
    obtain ⟨x, hx, rfl⟩ := List.mem_map.mp hi
    exact List.mem_range.mpr (List.getElem?_eq_some_iff.mp (chain.node_of_mem hx)).1
  simpa using (nodup.subperm sub).length_le

theorem Ascending.exists_chain {ar : List (ScopedUpValue V)} (ascending : Ascending ar)
    {i : Nat} (hi : i < ar.length) : ∃ l, Chain ar (some i) l := by
  have above : WellFounded fun i j : Fin ar.length => ar[j].scope < ar[i].scope :=
    @Finite.wellFounded_of_trans_of_irrefl _ _ _
      ⟨fun _ _ _ hab hbc => lt_trans hbc hab⟩ ⟨fun _ h => lt_irrefl _ h⟩
  have chain : ∀ i : Fin ar.length, ∃ l, Chain ar (some i.val) l := by
    intro i
    induction i using above.induction with
    | _ i ih =>
      have node : ar[i.val]? = some ar[i] := List.getElem?_eq_getElem i.isLt
      cases hprev : ar[i].prev with
      | none => exact ⟨_, Chain.cons node (hprev ▸ Chain.nil)⟩
      | some j =>
        obtain ⟨w, hw, hlt⟩ := ascending i ar[i] j node hprev
        obtain ⟨hj, rfl⟩ := List.getElem?_eq_some_iff.mp hw
        obtain ⟨l, hl⟩ := ih ⟨j, hj⟩ hlt
        exact ⟨_, Chain.cons node (hprev ▸ hl)⟩
  exact chain ⟨i, hi⟩

namespace ScopedUpValueInvTree

variable {tree : ScopedUpValueInvTree V} {index : Option Nat} {l : List (ChainNode V)}

theorem getInnerValue_eq (chain : Chain tree.ar index l) (bounded : l.length ≤ tree.ar.length)
    (step : Int) :
    tree.getInnerValue index step =
      .ok (((l.find? fun x => decide (x.2.scope.start ≤ step)).map (·.2.value)).getD
        tree.nullval) := by
  rw [getInnerValue, chain.whileUp_eq_walk _ _ _ _ bounded]
  clear chain bounded
  induction l with
  | nil => rfl
  | cons x l ih =>
    by_cases h : x.2.scope.start ≤ step
    · simp [Chain.walk, h]
    · simp [Chain.walk, h, ih]

theorem first_eq (chain : Chain tree.ar index l) (bounded : l.length ≤ tree.ar.length)
    (step : Int) :
    tree.first index step =
      .ok ((l.find? fun x => decide (x.2.scope.start ≤ step)).map Prod.fst) := by
  rw [first, chain.whileUp_eq_walk _ _ _ _ bounded]
  clear chain bounded
  induction l with
  | nil => rfl
  | cons x l ih =>
    by_cases h : x.2.scope.start ≤ step
    · simp [Chain.walk, h]
    · simp [Chain.walk, h, ih]

theorem iterate_eq (chain : Chain tree.ar index l) (bounded : l.length ≤ tree.ar.length) :
    tree.iterate index = .ok (l.map fun x => (x.2.scope, x.2.value)) := by
  rw [iterate, chain.whileUp_eq_walk _ _ _ _ bounded]
  have general : ∀ (m : List (ChainNode V)) (seen : List (Scope × V)),
      Chain.walk (fun _ uv seen => .ok (.next (seen ++ [(uv.scope, uv.value)]))) id m seen =
        .ok (seen ++ m.map fun x => (x.2.scope, x.2.value)) := by
    intro m
    induction m with
    | nil => intro seen; simp [Chain.walk]
    | cons x m ih => intro seen; simp [Chain.walk, ih]
  simpa using general l []

theorem rightNeighborUpLink_eq (chain : Chain tree.ar index l)
    (bounded : l.length ≤ tree.ar.length) (scope : Scope) :
    tree.rightNeighborUpLink index scope =
      .ok ((l.find? fun x => decide (scope ≤ x.2.scope)).map Prod.fst) := by
  rw [rightNeighborUpLink, chain.whileUp_eq_walk _ _ _ _ bounded]
  clear chain bounded
  simp only [Scope.contains_iff]
  induction l with
  | nil => rfl
  | cons x l ih =>
    by_cases h : scope ≤ x.2.scope
    · simp [Chain.walk, h]
    · simp [Chain.walk, h, ih]

end ScopedUpValueInvTree

private theorem walk_inside (body : Nat → ScopedUpValue V → Option Nat →
      Except Failure (Loop (Option Nat) ρ)) (exit : Option Nat → ρ)
    (inside rest : List (ChainNode V))
    (passes : ∀ x ∈ inside, ∀ pred, body x.1 x.2 pred = .ok (.next (some x.1)))
    (pred : Option Nat) :
    Chain.walk body exit (inside ++ rest) pred =
      Chain.walk body exit rest ((inside.getLast?.map Prod.fst).or pred) := by
  induction inside generalizing pred with
  | nil => rfl
  | cons x inside ih =>
    have hx := passes x List.mem_cons_self pred
    simp only [List.cons_append, Chain.walk, hx]
    rw [ih (fun y hy => passes y (List.mem_cons_of_mem x hy)) (some x.1)]
    cases inside with
    | nil => rfl
    | cons y inside => simp [List.getLast?_eq_some_getLast]

theorem Increasing.split_inside {l : List (ChainNode V)} (increasing : Increasing l)
    (scope : Scope) :
    ∃ inside rest, l = inside ++ rest ∧ (∀ x ∈ inside, x.2.scope < scope) ∧
      ∀ x ∈ rest, ¬ x.2.scope < scope := by
  induction l with
  | nil => exact ⟨[], [], rfl, by simp, by simp⟩
  | cons x l ih =>
    obtain ⟨above, increasing⟩ := List.pairwise_cons.mp increasing
    by_cases h : x.2.scope < scope
    · obtain ⟨inside, rest, rfl, hinside, hrest⟩ := ih increasing
      refine ⟨x :: inside, rest, rfl, ?_, hrest⟩
      rintro y hy
      rcases List.mem_cons.mp hy with rfl | hy
      · exact h
      · exact hinside y hy
    · refine ⟨[], x :: l, rfl, by simp, ?_⟩
      rintro y hy
      rcases List.mem_cons.mp hy with rfl | hy
      · exact h
      · exact fun hlt => h ((above y hy).trans hlt)

namespace ScopedUpValueInvTree

variable {tree : ScopedUpValueInvTree V} {index : Option Nat}
  {inside rest : List (ChainNode V)} {scope : Scope}

/-- The last definition inside the scope is to be linked, unless the scope itself comes next. -/
def leftOf (scope : Scope) (inside : List (ChainNode V)) : List (ChainNode V) → Option Nat
  | [] => inside.getLast?.map Prod.fst
  | x :: _ => if x.2.scope = scope then none else inside.getLast?.map Prod.fst

/-- The place of a scope between the definitions inside of it and the other ones of a chain. -/
def placeOf (scope : Scope) (inside : List (ChainNode V)) :
    List (ChainNode V) → Except Failure Place
  | [] => .ok (.last (inside.getLast?.map Prod.fst))
  | x :: _ =>
    if x.2.scope = scope then .ok (.known x.1)
    else if scope ≤ x.2.scope then
      match inside.getLast? with
      | none => .ok (.front x.1)
      | some z => .ok (.between z.1 x.1)
    else .error (.thrown ⟨.ScopeHierarchyError,
      x.2.scope.tostring ++ " <-> " ++ scope.tostring, 0⟩)

theorem leftNeighbour_eq (chain : Chain tree.ar index (inside ++ rest))
    (bounded : (inside ++ rest).length ≤ tree.ar.length)
    (hinside : ∀ x ∈ inside, x.2.scope < scope) (hrest : ∀ x ∈ rest, ¬ x.2.scope < scope) :
    tree.leftNeighbour index scope = .ok (leftOf scope inside rest) := by
  rw [leftNeighbour, chain.whileUp_eq_walk _ _ _ _ bounded, walk_inside]
  · cases rest with
    | nil => simp [Chain.walk, leftOf]
    | cons x rest =>
      have hx : ¬ x.2.scope < scope := hrest x List.mem_cons_self
      by_cases heq : x.2.scope = scope
      · simp [Chain.walk, leftOf, heq]
      · have hne : ¬ scope = x.2.scope := fun h => heq h.symm
        have hle : ¬ x.2.scope ≤ scope := fun hle => hx (lt_of_le_of_ne hle heq)
        simp [Chain.walk, leftOf, heq, hne, hle]
  · intro x hx pred
    have hlt := hinside x hx
    have hne : ¬ scope = x.2.scope := fun h => hlt.ne h.symm
    simp [hne, hlt.le]

theorem findPlace_eq {head : Nat} (chain : Chain tree.ar (some head) (inside ++ rest))
    (bounded : (inside ++ rest).length ≤ tree.ar.length)
    (hinside : ∀ x ∈ inside, x.2.scope < scope) (hrest : ∀ x ∈ rest, ¬ x.2.scope < scope) :
    tree.findPlace head scope = placeOf scope inside rest := by
  rw [findPlace, chain.whileUp_eq_walk _ _ _ _ bounded, walk_inside]
  · cases rest with
    | nil => simp [Chain.walk, placeOf]
    | cons x rest =>
      have hx : ¬ x.2.scope < scope := hrest x List.mem_cons_self
      by_cases heq : x.2.scope = scope
      · simp [Chain.walk, placeOf, heq]
      · have hle : ¬ x.2.scope ≤ scope := fun hle => hx (lt_of_le_of_ne hle heq)
        by_cases hge : scope ≤ x.2.scope
        · have hcontains : x.2.scope.contains scope = true := Scope.contains_iff.mpr hge
          cases hlast : inside.getLast? with
          | none => simp [Chain.walk, placeOf, heq, hle, hge, hcontains, hlast]
          | some z => simp [Chain.walk, placeOf, heq, hle, hge, hcontains, hlast]
        · have hcontains : x.2.scope.contains scope = false :=
            Bool.eq_false_iff.mpr fun h => hge (Scope.contains_iff.mp h)
          simp [Chain.walk, placeOf, heq, hle, hge, hcontains]
  · intro x hx pred
    have hlt := hinside x hx
    simp [hlt.le, hlt.ne]

theorem findUpValue_eq {l : List (ChainNode V)} (chain : Chain tree.ar index l)
    (bounded : l.length ≤ tree.ar.length) (increasing : Increasing l)
    (stops : ∀ x ∈ l, scope.stop ≤ x.2.scope.stop) :
    tree.findUpValue index scope =
      .ok (((l.find? fun x => decide (x.2.scope = scope)).map (·.2.value)).getD tree.nullval) := by
  rw [findUpValue, chain.whileUp_eq_walk _ _ _ _ bounded]
  clear chain bounded
  induction l with
  | nil => rfl
  | cons x l ih =>
    obtain ⟨above, increasing⟩ := List.pairwise_cons.mp increasing
    have absent (h : ∀ y ∈ l, y.2.scope ≠ scope) :
        l.find? (fun x => decide (x.2.scope = scope)) = none :=
      List.find?_eq_none.mpr fun y hy => by simpa using h y hy
    by_cases hstop : x.2.scope.stop = scope.stop
    · by_cases hstart : x.2.scope.start = scope.start
      · have heq : x.2.scope = scope := Scope.ext hstart hstop
        simp [Chain.walk, heq]
      · have hne : ¬ x.2.scope = scope := fun h => hstart (congrArg Scope.start h)
        by_cases hlt : x.2.scope.start < scope.start
        · have none_above := absent fun y hy heq => by
            have hle := (Scope.le_iff.mp (above y hy).le).1
            rw [heq] at hle
            exact absurd hle (not_le.mpr hlt)
          simp [Chain.walk, hstop, hstart, hlt, hne, none_above]
        · have later := ih increasing fun y hy => stops y (List.mem_cons_of_mem x hy)
          simp only [ne_eq, ite_not] at later
          simp [Chain.walk, hstop, hstart, hlt, hne, later]
    · have hne : ¬ x.2.scope = scope := fun h => hstop (congrArg Scope.stop h)
      have none_above := absent fun y hy heq => by
        have hle := (Scope.le_iff.mp (above y hy).le).2
        rw [heq] at hle
        exact hstop (le_antisymm hle (stops x List.mem_cons_self))
      simp [Chain.walk, hstop, hne, none_above]

end ScopedUpValueInvTree

end Mewa
