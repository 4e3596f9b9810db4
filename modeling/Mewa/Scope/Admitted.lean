/- Module: Mewa/Scope/Admitted
   digest: The scopes of the Lua interface, and which of them a scoped container handles. -/

import Mathlib.Data.Rat.Floor
import Mewa.Scope.Sound

set_option autoImplicit false
set_option relaxedAutoImplicit false

namespace Mewa

open Mewa.Lib

variable {K κ V : Type}

/-! A scope as the argument of a Lua function. -/

/-- A key or a value in a table, a finite number or something else. -/
inductive LuaArgument
  | number (n : ℚ)
  | other

def throwArgumentError {α : Type} (functionName : String) (li : Nat) (ec : ErrorCode) :
    Except Failure α :=
  .error (.thrown ⟨ec, functionName ++ " [" ++ toString li ++ "] ", 0⟩)

def indexTolerance : ℚ := 4 / 2 ^ 52

/-- The conversion of a floating point number to an integer cuts its digits off. -/
def cutDigits (n : ℚ) : Int := if 0 ≤ n then ⌊n⌋ else ⌈n⌉

def getTableIndex (kk : ℚ) : Int :=
  if kk - ⌊kk⌋ < indexTolerance then cutDigits (kk + indexTolerance) else 0

/-- The integer that a number is, or 0 if it is none of 64 bits. -/
def luaToInteger (n : ℚ) : Int := if n.den = 1 ∧ -2 ^ 63 ≤ n.num ∧ n.num < 2 ^ 63 then n.num else 0

/-- An integer as a scope step, with 32 bits. -/
def toStep (n : Int) : Int := n.bmod (2 ^ 32)

/-- One turn of the loop over the table: the element with index 1 is the start, the one with
    index 2 is the end. -/
def scopeElement (functionName : String) (li : Nat) (steps : Int × Int) :
    LuaArgument × LuaArgument → Except Failure (Int × Int)
  | (.number key, .number value) =>
    let kidx := getTableIndex key
    if kidx = 1 then .ok (toStep (luaToInteger value), steps.2)
    else if kidx = 2 then
      let stop := toStep (luaToInteger value)
      .ok (steps.1, if stop < 0 then maxStep + stop + 1 else stop)
    else throwArgumentError functionName li .ExpectedArgumentScopeStructure
  | _ => throwArgumentError functionName li .ExpectedArgumentScopeStructure

/-- The scope given by the elements of a table in the order they are visited. -/
def getArgumentAsScope (functionName : String) (li : Nat)
    (table : List (LuaArgument × LuaArgument)) : Except Failure Scope := do
  let steps ← table.foldlM (scopeElement functionName li) (0, maxStep)
  if steps.1 < 0 ∨ steps.2 < 0 ∨ steps.1 > steps.2 then
    throwArgumentError functionName li .ExpectedArgumentScopeStructure
  else .ok (Scope.ofSteps steps.1 steps.2)

/-- A scope that a call from Lua may have. -/
def ApiScope (scope : Scope) : Prop :=
  ∃ functionName li table, getArgumentAsScope functionName li table = .ok scope

theorem toStep_le (n : Int) : toStep n ≤ maxStep := by
  have := Int.bmod_lt (x := n) (m := 2 ^ 32) (by decide)
  unfold toStep maxStep
  omega

theorem toStep_of_bounds {n : Int} (low : 0 ≤ n) (high : n ≤ maxStep) : toStep n = n := by
  unfold toStep
  unfold maxStep at high
  apply Int.bmod_eq_of_le
  · omega
  · omega

theorem scopeElement_le {functionName : String} {li : Nat} {steps steps' : Int × Int}
    {element : LuaArgument × LuaArgument} (le : steps.2 ≤ maxStep)
    (h : scopeElement functionName li steps element = .ok steps') : steps'.2 ≤ maxStep := by
  obtain ⟨key, value⟩ := element
  cases key with
  | other => simp [scopeElement, throwArgumentError] at h
  | number key =>
    cases value with
    | other => simp [scopeElement, throwArgumentError] at h
    | number value =>
      simp only [scopeElement, throwArgumentError] at h
      split at h
      · obtain rfl := Except.ok.inj h
        exact le
      · split at h
        · obtain rfl := Except.ok.inj h
          have := toStep_le (luaToInteger value)
          show (if toStep (luaToInteger value) < 0 then _ else _) ≤ maxStep
          split
          · omega
          · exact this
        · simp at h

theorem scopeElements_le {functionName : String} {li : Nat}
    {table : List (LuaArgument × LuaArgument)} {steps steps' : Int × Int} (le : steps.2 ≤ maxStep)
    (h : table.foldlM (scopeElement functionName li) steps = .ok steps') : steps'.2 ≤ maxStep := by
  induction table generalizing steps with
  | nil =>
    obtain rfl := Except.ok.inj h
    exact le
  | cons element table ih =>
    rw [List.foldlM_cons] at h
    obtain ⟨steps'', first, rest⟩ := bind_eq_ok.mp h
    exact ih (scopeElement_le le first) rest

theorem getArgumentAsScope_bounds {functionName : String} {li : Nat}
    {table : List (LuaArgument × LuaArgument)} {scope : Scope}
    (h : getArgumentAsScope functionName li table = .ok scope) :
    0 ≤ scope.start ∧ scope.start ≤ scope.stop ∧ scope.stop ≤ maxStep := by
  unfold getArgumentAsScope at h
  obtain ⟨⟨start, stop⟩, fold, h⟩ := bind_eq_ok.mp h
  have le : stop ≤ maxStep := scopeElements_le le_rfl fold
  dsimp only at h
  split at h
  · simp [throwArgumentError] at h
  · rename_i valid
    obtain rfl := Except.ok.inj h
    unfold Scope.ofSteps
    rw [if_pos (by omega), if_pos (by omega)]
    show 0 ≤ start ∧ start ≤ stop ∧ stop ≤ maxStep
    omega

/-- The scopes of the interface are those with steps in order, the empty ones among them. -/
theorem apiScope_iff {scope : Scope} :
    ApiScope scope ↔ 0 ≤ scope.start ∧ scope.start ≤ scope.stop ∧ scope.stop ≤ maxStep := by
  constructor
  · rintro ⟨functionName, li, table, h⟩
    exact getArgumentAsScope_bounds h
  · rintro ⟨low, ordered, high⟩
    refine ⟨"scope", 2, [(.number 1, .number scope.start), (.number 2, .number scope.stop)], ?_⟩
    have integer : ∀ n : Int, 0 ≤ n → n ≤ maxStep → toStep (luaToInteger (n : ℚ)) = n := by
      intro n low high
      have whole : luaToInteger (n : ℚ) = n := by
        unfold luaToInteger
        unfold maxStep at high
        rw [if_pos ⟨Rat.den_intCast n, by rw [Rat.num_intCast]; omega⟩, Rat.num_intCast]
      rw [whole, toStep_of_bounds low high]
    have first : scopeElement "scope" 2 (0, maxStep) (.number 1, .number scope.start) =
        .ok (scope.start, maxStep) := by
      have index : getTableIndex 1 = 1 := by decide +kernel
      simp only [scopeElement, index, if_true]
      rw [integer scope.start low (by omega)]
    have second : scopeElement "scope" 2 (scope.start, maxStep) (.number 2, .number scope.stop) =
        .ok (scope.start, scope.stop) := by
      have index : getTableIndex 2 = 2 := by decide +kernel
      simp only [scopeElement, index, if_true, if_neg (show ¬ (2 : Int) = 1 by decide)]
      rw [integer scope.stop (by omega) high, if_neg (by omega)]
    unfold getArgumentAsScope
    rw [List.foldlM_cons, first, ok_bind, List.foldlM_cons, second, ok_bind]
    show (if _ then _ else _) = _
    rw [if_neg (by show ¬ (scope.start < 0 ∨ scope.stop < 0 ∨ scope.start > scope.stop); omega)]
    unfold Scope.ofSteps
    rw [if_pos low, if_pos (by omega)]

/-! The loop over the left neighbours of a new definition. -/

section Walk

variable [LinearOrder K] [DecidableEq κ] [EndKey K κ]

/-- The entries the iterator of the loop points to, and none if it is at the end of the map. -/
def ScopeTable.leftWalk (scope : Scope) : List (K × Nat) → List (Option K)
  | [] => [none]
  | (sk, _) :: rest =>
    if EndKey.stop sk = scope.stop then [some sk] else some sk :: leftWalk scope rest

/-- The entries visited for a definition that was pushed. Nothing is visited where the search for
    the first one fails. -/
def ScopeTable.visited (key : κ) (scope : Scope) (map : SortedMap K Nat) : List (Option K) :=
  match neighbour key (map.upperBound (EndKey.pack key scope.start)) with
  | none => []
  | some _ => leftWalk scope (map.upperBound (EndKey.pack key scope.start))

/-- A call that was handled: its loop stays inside of the entries of its key, it fails with no
    internal error after it has inserted, and only definitions around a step are visible there. -/
structure HandlesScope {α : Type} (key : κ) (scope : Scope) (before : ScopeTable K V)
    (after : ScopeTable K V × Except Failure α) : Prop where
  inside : after.1.invtree.ar.length ≠ before.invtree.ar.length →
    ∀ p ∈ ScopeTable.visited key scope after.1.map, ∃ sk, p = some sk ∧ EndKey.key sk = key
  internal : ∀ e, after.2 = .error (.thrown e) → e.code = .LogicError → after.1 = before
  visible : ∀ key' step, ∃ l, after.1.matchRange key' step = .ok l ∧
    after.1.innerValue key' step = .ok ((l.head?.map Prod.snd).getD after.1.invtree.nullval) ∧
    ∀ p ∈ l, p.1.containsStep step = true

def DefinesInnermost (table : ScopeTable K V) (key : κ) (scope : Scope) : Prop :=
  ∃ index uv, table.map.find (EndKey.pack key scope.stop) = some index ∧
    table.invtree.ar[index]? = some uv ∧ uv.scope = scope

/-- The definitions have scopes with steps in order. -/
def Ordered (table : ScopeTable K V) : Prop :=
  ∀ p ∈ contents table.invtree, p.1.start ≤ p.1.stop

variable {table : ScopeTable K V} {key : κ} {scope : Scope} {value : V} {overwrite : Bool}

omit [DecidableEq κ] in
theorem ScopeTable.leftWalk_inside {entries : List (K × Nat)} {i : Nat}
    (sorted : (entries.map Prod.fst).Pairwise (· < ·))
    (above : ∀ x ∈ entries, EndKey.pack key scope.start < x.1)
    (own : (EndKey.pack key scope.stop, i) ∈ entries) :
    ∀ p ∈ leftWalk scope entries, ∃ sk, p = some sk ∧ EndKey.key sk = key := by
  induction entries with
  | nil => simp at own
  | cons x entries ih =>
    obtain ⟨sk, index⟩ := x
    obtain ⟨least, sorted⟩ := List.pairwise_cons.mp sorted
    have here : EndKey.key sk = key := by
      have le : sk ≤ EndKey.pack key scope.stop := by
        rcases List.mem_cons.mp own with same | later
        · rw [(Prod.mk.inj same).1]
        · exact (least _ (List.mem_map.mpr ⟨_, later, rfl⟩)).le
      exact EndKey.convex key _ _ sk (above _ List.mem_cons_self).le le
    intro p mem
    unfold leftWalk at mem
    split at mem
    · rw [List.mem_singleton.mp mem]
      exact ⟨sk, rfl, here⟩
    · rename_i other
      rcases List.mem_cons.mp mem with rfl | mem
      · exact ⟨sk, rfl, here⟩
      · have later : (EndKey.pack key scope.stop, i) ∈ entries := by
          refine (List.mem_cons.mp own).resolve_left fun same => other ?_
          rw [← (Prod.mk.inj same).1, EndKey.stop_pack]
        exact ih sorted (fun x mem => above x (List.mem_cons_of_mem _ mem)) later p mem

omit [DecidableEq κ] in
theorem ScopeTable.leftWalk_leaves (key : κ) {entries : List (K × Nat)}
    (others : ∀ x ∈ entries, EndKey.key x.1 = key → EndKey.stop x.1 ≠ scope.stop) :
    ¬ ∀ p ∈ leftWalk scope entries, ∃ sk, p = some sk ∧ EndKey.key sk = key := by
  induction entries with
  | nil =>
    intro inside
    obtain ⟨sk, absurd, -⟩ := inside none (by simp [leftWalk])
    simp at absurd
  | cons x entries ih =>
    intro inside
    unfold leftWalk at inside
    split at inside
    · rename_i own
      obtain ⟨sk, same, here⟩ := inside (some x.1) List.mem_cons_self
      rw [← Option.some.inj same] at here
      exact others x List.mem_cons_self here own
    · exact ih (fun x mem => others x (List.mem_cons_of_mem _ mem))
        fun p mem => inside p (List.mem_cons_of_mem _ mem)

theorem Insertion.sound (sound : SoundTable table)
    {after : ScopeTable K V × Except Failure (Option V)}
    (h : Insertion key scope value overwrite table after) :
    SoundTable after.1 ∧ ∀ p ∈ contents after.1.invtree, p.1 = scope ∨
      ∃ q ∈ contents table.invtree, q.1 = p.1 := by
  cases h with
  | rejected e => exact ⟨sound, fun p mem => Or.inr ⟨p, mem, rfl⟩⟩
  | @known ai index uv head node same =>
    cases overwrite with
    | false => exact ⟨sound, fun p mem => Or.inr ⟨p, mem, rfl⟩⟩
    | true =>
      have old : ∀ {i : Nat} {w : ScopedUpValue V},
          (table.invtree.setValue ai value).ar[i]? = some w →
          ∃ w', table.invtree.ar[i]? = some w' ∧ w'.scope = w.scope ∧ w'.prev = w.prev := by
        intro i w node'
        simp only [ScopedUpValueInvTree.setValue, List.getElem?_modify] at node'
        obtain ⟨w', found, rfl⟩ := Option.map_eq_some_iff.mp node'
        refine ⟨w', found, ?_⟩
        split
        · exact ⟨rfl, rfl⟩
        · exact ⟨rfl, rfl⟩
      have new : ∀ {i : Nat} {w : ScopedUpValue V}, table.invtree.ar[i]? = some w →
          ∃ w', (table.invtree.setValue ai value).ar[i]? = some w' ∧ w'.scope = w.scope := by
        intro i w found
        simp only [ScopedUpValueInvTree.setValue, List.getElem?_modify, found]
        refine ⟨_, rfl, ?_⟩
        split
        · rfl
        · rfl
      refine ⟨⟨fun i w j node' link => ?_, fun sk i found => ?_⟩, fun p mem => Or.inr ?_⟩
      · obtain ⟨w', found, scope_eq, prev_eq⟩ := old node'
        obtain ⟨v, target, less⟩ := sound.ascending i w' j found (prev_eq.trans link)
        obtain ⟨v', target', same'⟩ := new target
        refine ⟨v', target', ?_⟩
        rwa [same', ← scope_eq]
      · obtain ⟨w, found', stop⟩ := sound.heads sk i found
        obtain ⟨w', found'', same'⟩ := new found'
        exact ⟨w', found'', same' ▸ stop⟩
      · obtain ⟨w, mem', rfl⟩ := List.mem_map.mp mem
        obtain ⟨i, node'⟩ := List.getElem?_of_mem mem'
        obtain ⟨w', found, scope_eq, -⟩ := old node'
        exact ⟨_, List.mem_map.mpr ⟨w', List.mem_of_getElem? found, rfl⟩, scope_eq⟩
  | @linked map tree ascending same null heads own _ _ _ =>
    have pushed : SoundTable (⟨map, tree⟩ : ScopeTable K V) := ⟨ascending, heads⟩
    obtain ⟨tree', ascending', same', -, cases⟩ :=
      SoundTable.linkNew_cases key pushed (SoundTable.pushed_node same)
    have state : (ScopeTable.linkNew key scope table.invtree.nextIndex ⟨map, tree⟩).1 =
        ⟨map, tree'⟩ := by
      rcases cases with ⟨-, link⟩ | ⟨-, link | ⟨-, link⟩⟩
      all_goals rw [link]
    rw [state]
    refine ⟨pushed.relinked ascending' same', fun p mem => ?_⟩
    rw [show contents tree' = _ from same'.trans same] at mem
    rcases List.mem_append.mp mem with old | new
    · exact Or.inr ⟨p, old, rfl⟩
    · exact Or.inl (by rw [List.mem_singleton.mp new])

theorem SoundTable.visible (sound : SoundTable table) (key' : κ) (step : Int) :
    ∃ l, table.matchRange key' step = .ok l ∧
      table.innerValue key' step = .ok ((l.head?.map Prod.snd).getD table.invtree.nullval) ∧
      ∀ p ∈ l, p.1.containsStep step = true := by
  obtain ⟨l, range, inner, around⟩ := sound.queries_ok key' step
  exact ⟨l, range, inner, fun p mem => (around p mem).2⟩

theorem insertScope_handles_iff (sound : SoundTable table) (ordered : Ordered table)
    (steps : scope.start ≤ scope.stop) :
    HandlesScope key scope table (table.insertScope key scope value overwrite) ↔
      scope.start < scope.stop ∨ DefinesInnermost table key scope := by
  have insertion := sound.insertion key scope value overwrite
  obtain ⟨sound', -⟩ := insertion.sound sound
  generalize table.insertScope key scope value overwrite = after at insertion sound'
  -- an empty scope does not begin before the innermost definition of its end
  have head_le : ∀ {index : Nat} {head : ScopedUpValue V},
      table.map.find (EndKey.pack key scope.stop) = some index →
      table.invtree.ar[index]? = some head → head.scope.start ≤ scope.stop := by
    intro index head found node
    obtain ⟨uv, node', stop⟩ := sound.heads _ _ found
    obtain rfl := Option.some.inj (node.symm.trans node')
    rw [EndKey.stop_pack] at stop
    rw [← stop]
    exact ordered _ (List.mem_map.mpr ⟨head, List.mem_of_getElem? node, rfl⟩)
  cases insertion with
  | @rejected e index head code found node before =>
    refine iff_of_true ⟨fun grown => absurd rfl grown, fun _ _ _ => rfl, sound'.visible⟩ (Or.inl ?_)
    have := head_le found node
    omega
  | @known ai index uv head node same found head_node first =>
    refine iff_of_true ⟨fun grown => absurd ?_ grown, fun e err => by simp at err, sound'.visible⟩ ?_
    · cases overwrite with
      | false => rfl
      | true => simp [ScopedUpValueInvTree.setValue]
    · rcases first with here | before
      · exact Or.inr ⟨index, head, found, head_node, here⟩
      · have := head_le found head_node
        exact Or.inl (by omega)
  | @linked map tree ascending same null heads own unknown _ _ =>
    have pushed : SoundTable (⟨map, tree⟩ : ScopeTable K V) := ⟨ascending, heads⟩
    obtain ⟨i, own⟩ := own
    obtain ⟨tree', -, same', -, cases⟩ :=
      SoundTable.linkNew_cases key pushed (SoundTable.pushed_node same)
    have grown : tree'.ar.length ≠ table.invtree.ar.length := by
      have := congrArg List.length (same'.trans same)
      simp only [contents, List.length_map, List.length_append, List.length_singleton] at this
      omega
    by_cases nonEmpty : scope.start < scope.stop
    · refine iff_of_true ?_ (Or.inl nonEmpty)
      obtain ⟨member, some_entry⟩ := SoundTable.meets_own own nonEmpty
      rcases cases with ⟨none, -⟩ | ⟨-, link | ⟨others, -⟩⟩
      · exact absurd none some_entry
      · rw [link] at sound' ⊢
        refine ⟨fun _ => ?_, fun e err => by simp at err, sound'.visible⟩
        show ∀ p ∈ ScopeTable.visited key scope map, _
        unfold ScopeTable.visited
        split
        · simp
        · exact ScopeTable.leftWalk_inside (map.upperBound_sorted _)
            (fun x mem => (SortedMap.mem_upperBound.mp mem).2) member
      · exact absurd (EndKey.stop_pack key scope.stop) (others _ member)
    · have empty : scope.start = scope.stop := by omega
      refine iff_of_false (fun handles => ?_) ?_
      · rcases cases with ⟨none, link⟩ | ⟨some_entry, link⟩
        · rw [link] at handles
          have unchanged := handles.internal _ rfl rfl
          exact grown (by rw [← unchanged])
        · have state : (ScopeTable.linkNew key scope table.invtree.nextIndex ⟨map, tree⟩).1 =
              ⟨map, tree'⟩ := by
            rcases link with link | ⟨-, link⟩
            all_goals rw [link]
          have inside := handles.inside
          rw [state] at inside
          obtain ⟨j, found⟩ := some_entry
          have left : ScopeTable.visited key scope map =
              ScopeTable.leftWalk scope (map.upperBound (EndKey.pack key scope.start)) := by
            unfold ScopeTable.visited
            rw [found]
          have walk := inside grown
          rw [left] at walk
          -- the entries of the key above the start end after the scope
          refine ScopeTable.leftWalk_leaves key (fun x mem here stop => ?_) walk
          have above := (SortedMap.mem_upperBound.mp mem).2
          rw [← EndKey.pack_key_stop x.1, here, stop, empty] at above
          exact lt_irrefl _ above
      · rintro (nonEmpty' | ⟨index, uv, found, node, here⟩)
        · exact nonEmpty nonEmpty'
        · exact unknown index uv found node here

theorem handlesScope_map {α β : Type} {f : α → β} {before : ScopeTable K V}
    {after : ScopeTable K V × Except Failure α} :
    HandlesScope key scope before (after.1, after.2.map f) ↔
      HandlesScope key scope before after := by
  obtain ⟨state, result⟩ := after
  have same : ∀ e, result.map f = .error (.thrown e) ↔ result = .error (.thrown e) := by
    intro e
    cases result <;> simp [Except.map]
  constructor
  · rintro ⟨inside, internal, visible⟩
    exact ⟨inside, fun e err => internal e ((same e).mpr err), visible⟩
  · rintro ⟨inside, internal, visible⟩
    exact ⟨inside, fun e err => internal e ((same e).mp err), visible⟩

end Walk

/-- The scoped maps after calls with any scopes of the interface, whether they returned or threw.
    There is no state after a read outside of the map. -/
inductive MapState [LinearOrder κ] : ScopedMap κ V → Prop
  | empty (nullval : V) : MapState (ScopedMap.empty nullval)
  | call {map : ScopedMap κ V} (call : MapCall κ V) : MapState map →
      ApiScope call.definition.scope → (call.run map).2 ≠ .error .outOfRange →
      MapState (call.run map).1

/-- The scoped instances after calls with any scopes of the interface. -/
inductive InstanceState : ScopedInstance V → Prop
  | empty (nullval : V) : InstanceState (ScopedInstance.empty nullval)
  | set {inst : ScopedInstance V} (scope : Scope) (value : V) : InstanceState inst →
      ApiScope scope → (inst.set scope value).2 ≠ .error .outOfRange →
      InstanceState (inst.set scope value).1

section States

variable [LinearOrder K] [DecidableEq κ] [EndKey K κ] {table : ScopeTable K V}

omit [DecidableEq κ] in
theorem sound_ordered_empty (nullval : V) :
    SoundTable (ScopeTable.empty nullval : ScopeTable K V) ∧
      Ordered (ScopeTable.empty nullval : ScopeTable K V) := by
  refine ⟨⟨?_, ?_⟩, ?_⟩
  · simp [Ascending, ScopeTable.empty]
  · simp [ScopeTable.empty]
  · simp [Ordered, contents, ScopeTable.empty]

theorem insertScope_sound_ordered (key : κ) {scope : Scope} (value : V) (overwrite : Bool)
    (sound : SoundTable table) (ordered : Ordered table) (api : ApiScope scope) :
    SoundTable (table.insertScope key scope value overwrite).1 ∧
      Ordered (table.insertScope key scope value overwrite).1 := by
  obtain ⟨sound', scopes⟩ := (sound.insertion key scope value overwrite).sound sound
  refine ⟨sound', fun p mem => ?_⟩
  rcases scopes p mem with same | ⟨q, old, same⟩
  · rw [same]
    exact (apiScope_iff.mp api).2.1
  · rw [← same]
    exact ordered q old

end States

theorem MapState.sound [LinearOrder κ] {map : ScopedMap κ V} (state : MapState map) :
    SoundTable map ∧ Ordered map := by
  induction state with
  | empty nullval => exact sound_ordered_empty nullval
  | call call _ api _ ih =>
    rw [(call.run_insert _).1]
    exact insertScope_sound_ordered _ _ _ ih.1 ih.2 api

theorem InstanceState.sound {inst : ScopedInstance V} (state : InstanceState inst) :
    SoundTable inst ∧ Ordered inst := by
  induction state with
  | empty nullval => exact sound_ordered_empty nullval
  | set scope value _ api _ ih =>
    exact insertScope_sound_ordered () value true ih.1 ih.2 api

/-- A call with a scope of the interface is handled in any state if and only if the scope is not
    empty, or was entered by a call that failed before. -/
theorem handles_scope_iff [LinearOrder κ] :
    (∀ map : ScopedMap κ V, MapState map → ∀ call : MapCall κ V,
      ApiScope call.definition.scope →
      (HandlesScope call.definition.key call.definition.scope map (call.run map) ↔
        call.definition.scope.start < call.definition.scope.stop ∨
          DefinesInnermost map call.definition.key call.definition.scope)) ∧
    ∀ inst : ScopedInstance V, InstanceState inst → ∀ (scope : Scope) (value : V),
      ApiScope scope →
      (HandlesScope () scope inst (inst.set scope value) ↔
        scope.start < scope.stop ∨ DefinesInnermost inst () scope) := by
  constructor
  · intro map state call api
    obtain ⟨sound, ordered⟩ := state.sound
    obtain ⟨state_eq, result_eq⟩ := call.run_insert map
    have split : call.run map = ((call.run map).1, (call.run map).2) := rfl
    rw [split, state_eq, result_eq, handlesScope_map]
    exact insertScope_handles_iff sound ordered (apiScope_iff.mp api).2.1
  · intro inst state scope value api
    obtain ⟨sound, ordered⟩ := state.sound
    have split : inst.set scope value = ((inst.insertScope () scope value true).1,
        (inst.insertScope () scope value true).2.map fun _ => ()) := rfl
    rw [split, handlesScope_map]
    exact insertScope_handles_iff sound ordered (apiScope_iff.mp api).2.1

/-- The first definition with an empty scope fails after it was entered. -/
theorem empty_scope_not_handled :
    let inst : ScopedInstance Nat := ScopedInstance.empty 0
    InstanceState inst ∧ ApiScope ⟨5, 5⟩ ∧
      (inst.set ⟨5, 5⟩ 1).2 = .error (.thrown ⟨.LogicError, "scope.hpp", 0⟩) ∧
      ¬ HandlesScope () ⟨5, 5⟩ inst (inst.set ⟨5, 5⟩ 1) := by
  have thrown : ((ScopedInstance.empty 0 : ScopedInstance Nat).set ⟨5, 5⟩ 1).2 =
      .error (.thrown ⟨.LogicError, "scope.hpp", 0⟩) := by decide
  refine ⟨.empty 0, apiScope_iff.mpr (by decide), thrown, fun handles => ?_⟩
  have unchanged := congrArg (fun inst => inst.invtree.ar.length)
    (handles.internal _ thrown rfl)
  exact absurd unchanged (by decide)

theorem handles_scope_after_step :
    let map := ((MapCall.set ⟨0, 10⟩ 7 1 : MapCall Int Nat).run (ScopedMap.empty 0)).1
    HandlesScope 7 ⟨2, 5⟩ map ((MapCall.getOrSet ⟨2, 5⟩ 7 2).run map) :=
  (handles_scope_iff.1 _ (.call (MapCall.set ⟨0, 10⟩ 7 1) (.empty 0)
    (apiScope_iff.mpr (by decide)) (by decide)) (MapCall.getOrSet ⟨2, 5⟩ 7 2)
    (apiScope_iff.mpr (by decide))).mpr (Or.inl (by decide))

end Mewa
