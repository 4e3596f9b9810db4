/- Module: Mewa/Scope/Overlap
   digest: Which overlapping scopes are rejected, and that a rejected call changes nothing. -/

import Mewa.Scope.Runs

set_option autoImplicit false
set_option relaxedAutoImplicit false

namespace Mewa

open Mewa.Lib Definition

variable {K κ V : Type}

def OverlapsDefined (defs : List (Definition κ V)) (new : Definition κ V) : Prop :=
  ∃ d ∈ defs, d.key = new.key ∧ new.scope.Overlaps d.scope

/-- What the loop of `insertUpValue` detects: a scope inside with the same end, and a scope that
    begins inside and ends later. -/
def DetectsOverlap (defs : List (Definition κ V)) (new : Definition κ V) : Prop :=
  (∃ d ∈ defs, d.key = new.key ∧ d.scope.stop = new.scope.stop ∧
    new.scope.start ≤ d.scope.start) ∧
  ∃ d ∈ defs, d.key = new.key ∧ new.scope.start < d.scope.start ∧
    d.scope.start < new.scope.stop ∧ new.scope.stop < d.scope.stop

/-- A non-empty scope that overlaps nothing of its key, or whose overlap is detected. -/
def Admissible (defs : List (Definition κ V)) (new : Definition κ V) : Prop :=
  new.scope.start < new.scope.stop ∧ (¬ OverlapsDefined defs new ∨ DetectsOverlap defs new)

theorem DetectsOverlap.overlaps {defs : List (Definition κ V)} {new : Definition κ V}
    (detects : DetectsOverlap defs new) : OverlapsDefined defs new := by
  obtain ⟨-, d, hd, hkey, hstart, hinside, hstop⟩ := detects
  refine ⟨d, hd, hkey, fun hle => ?_, fun hle => ?_, by omega, by omega⟩
  · have := (Scope.le_iff.mp hle).1
    omega
  · have := (Scope.le_iff.mp hle).2
    omega

instance [DecidableEq κ] (defs : List (Definition κ V)) (new : Definition κ V) :
    Decidable (Admissible defs new) :=
  inferInstanceAs (Decidable (_ ∧ (¬ (∃ d ∈ defs, d.key = new.key ∧ new.scope.Overlaps d.scope) ∨
    ((∃ d ∈ defs, _ ∧ _ ∧ _) ∧ ∃ d ∈ defs, _ ∧ _ ∧ _ ∧ _))))

def ThrowsHierarchy {α : Type} (result : Except Failure α) : Prop :=
  ∃ e, result = .error (.thrown e) ∧ e.code = .ScopeHierarchyError

section NoThrow

variable {σ ρ : Type}

private theorem whileUp_not_thrown (ar : List (ScopedUpValue V))
    (body : Nat → ScopedUpValue V → σ → Except Failure (Loop σ ρ)) (exit : σ → ρ)
    (total : ∀ ai uv state, ∃ next, body ai uv state = .ok next) (e : Error) :
    ∀ fuel index state, whileUp ar body exit fuel index state ≠ .error (.thrown e) := by
  intro fuel
  induction fuel with
  | zero => intro index state; cases index <;> simp [whileUp]
  | succ fuel ih =>
    intro index state
    cases index with
    | none => simp [whileUp]
    | some ai =>
      cases node : ar[ai]? with
      | none => simp [whileUp, node]
      | some uv =>
        obtain ⟨next, hnext⟩ := total ai uv state
        cases next with
        | next state' => simpa [whileUp, node, hnext] using ih uv.prev state'
        | done result => simp [whileUp, node, hnext]

private theorem linkLeft_not_thrown [LinearOrder K] [EndKey K κ] (scope : Scope) (newindex : Nat)
    (e : Error) (entries : List (K × Nat)) :
    ∀ tree : ScopedUpValueInvTree V,
      ScopeTable.linkLeft scope newindex entries tree ≠ .error (.thrown e) := by
  induction entries with
  | nil => intro tree; simp [ScopeTable.linkLeft]
  | cons x entries ih =>
    obtain ⟨sk, index⟩ := x
    intro tree
    simp only [ScopeTable.linkLeft]
    split_ifs with hstop
    · simp
    · have left := whileUp_not_thrown tree.ar
        (fun ai uv pred_ai => .ok <|
          if scope = uv.scope then .done none
          else if scope.contains uv.scope then .next (some ai)
          else .done pred_ai) id (fun _ _ _ => ⟨_, rfl⟩) e tree.ar.length (some index) none
      cases hleft : tree.leftNeighbour (some index) scope with
      | error f =>
        simp only [ScopedUpValueInvTree.linkLeftNeighbours, hleft, error_bind, ne_eq]
        exact fun h => left (hleft.trans (congrArg _ (Except.error.inj h)))
      | ok found =>
        cases found with
        | none => simpa [ScopedUpValueInvTree.linkLeftNeighbours, hleft] using ih _
        | some p => simpa [ScopedUpValueInvTree.linkLeftNeighbours, hleft] using ih _

private theorem linkNew_not_hierarchy [LinearOrder K] [DecidableEq κ] [EndKey K κ] (key : κ)
    (scope : Scope) (newindex : Nat) (table : ScopeTable K V) :
    ¬ ThrowsHierarchy (table.linkNew key scope newindex).2 := by
  rintro ⟨e, thrown, code⟩
  simp only [ScopeTable.linkNew] at thrown
  split at thrown
  · obtain rfl := Failure.thrown.inj (Except.error.inj thrown)
    simp at code
  · split at thrown
    · next f hlink =>
      obtain rfl := Except.error.inj thrown
      exact linkLeft_not_thrown _ _ _ _ _ hlink
    · simp at thrown

end NoThrow

section Insert

variable [LinearOrder K] [DecidableEq κ] [EndKey K κ] {defs : List (Definition κ V)}
  {table : ScopeTable K V}

private theorem throws_iff_findPlace {new : Definition κ V} {index : Nat} {uplink : Option Nat}
    (call : table.invtree.rightNeighborUpLink (ScopeTable.neighbour new.key
      (table.map.upperBound (EndKey.pack new.key new.scope.stop))) new.scope = .ok uplink)
    (found : table.map.find (EndKey.pack new.key new.scope.stop) = some index)
    (overwrite : Bool) :
    ThrowsHierarchy (table.insertScope new.key new.scope new.value overwrite).2 ↔
      ThrowsHierarchy (table.invtree.findPlace index new.scope) := by
  simp only [ScopeTable.insertScope, call, SortedMap.insertNew_of_some found]
  cases place : table.invtree.findPlace index new.scope with
  | error f =>
    simp [ScopedUpValueInvTree.insertUpValue, place, ThrowsHierarchy]
  | ok p =>
    have no_throw : ¬ ThrowsHierarchy (Except.ok p : Except Failure ScopedUpValueInvTree.Place) := by
      rintro ⟨e, h, -⟩
      cases h
    refine iff_of_false ?_ no_throw
    cases ins : table.invtree.insertUpValue index new.scope new.value uplink overwrite with
    | error f =>
      rintro ⟨e, h, -⟩
      obtain rfl := Except.error.inj h
      simp only [ScopedUpValueInvTree.insertUpValue, place, ok_bind] at ins
      cases p with
      | known ai => cases node : table.invtree.ar[ai]? <;> simp [node] at ins
      | front ai => simp at ins
      | between pred ai => simp at ins
      | last pred => cases pred <;> simp at ins
    | ok result =>
      obtain ⟨tree, index', newindex, oldval⟩ := result
      cases newindex with
      | none =>
        rintro ⟨e, h, -⟩
        cases h
      | some n => exact linkNew_not_hierarchy _ _ _ _

theorem insertScope_throws_iff (represents : Represents defs table) (wellScoped : WellScoped defs)
    (new : Definition κ V) (overwrite : Bool) :
    ThrowsHierarchy (table.insertScope new.key new.scope new.value overwrite).2 ↔
      DetectsOverlap defs new := by
  obtain ⟨uplink, call⟩ := represents.uplink_ok new.key new.scope
  have laminar := wellScoped.laminar new.key
  cases found : table.map.find (EndKey.pack new.key new.scope.stop) with
  | none =>
    constructor
    · intro throws
      simp only [ScopeTable.insertScope, call, SortedMap.insertNew_of_none found] at throws
      exact absurd throws (linkNew_not_hierarchy _ _ _ _)
    · rintro ⟨⟨d, hd, hkey, hstop, -⟩, -⟩
      obtain ⟨i, hi⟩ := represents.heads.covered d hd
      rw [hkey, hstop, found] at hi
      simp at hi
  | some index =>
    rw [throws_iff_findPlace call found]
    obtain ⟨dh, l, head, hstop, least⟩ := represents.headChain found
    obtain ⟨inside, rest, rfl, hinside, hrest⟩ := head.increasing.split_inside new.scope
    rw [ScopedUpValueInvTree.findPlace_eq head.chain head.bounded hinside hrest]
    have hdne := laminar.nonEmpty dh.scope head.mem
    have at_scope {s : Scope} (hs : s ∈ scopesOf defs new.key) :
        ∃ d ∈ defs, d.key = new.key ∧ d.scope = s := hs
    constructor
    · -- the first definition that is not inside the scope is neither equal to nor around it
      intro throws
      cases rest with
      | nil =>
        obtain ⟨e, h, -⟩ := throws
        simp [ScopedUpValueInvTree.placeOf] at h
      | cons x rest =>
        have hx := head.scope_mem (x := x) (by simp)
        have hne : x.2.scope ≠ new.scope := by
          rintro heq
          obtain ⟨e, h, -⟩ := throws
          simp [ScopedUpValueInvTree.placeOf, heq] at h
        have hnle : ¬ new.scope ≤ x.2.scope := by
          intro hle
          obtain ⟨e, h, -⟩ := throws
          simp only [ScopedUpValueInvTree.placeOf, hne, hle, if_true, if_false] at h
          split at h <;> simp at h
        have hnge : ¬ x.2.scope ≤ new.scope := fun hle =>
          hrest x List.mem_cons_self (lt_of_le_of_ne hle hne)
        obtain ⟨hxstart, hxstop⟩ := Scope.le_iff.mp (head.above x (by simp))
        rw [Scope.le_iff] at hnle hnge
        have hlater : new.scope.start < x.2.scope.start ∧ new.scope.stop < x.2.scope.stop := by
          omega
        obtain ⟨d, hd, hdkey, hdscope⟩ := at_scope head.mem
        obtain ⟨u, hu, hukey, huscope⟩ := at_scope hx
        refine ⟨⟨d, hd, hdkey, by rw [hdscope, hstop], ?_⟩, u, hu, hukey, ?_, ?_, ?_⟩
        · rw [hdscope]; omega
        · rw [huscope]; exact hlater.1
        · rw [huscope]; omega
        · rw [huscope]; exact hlater.2
    · rintro ⟨⟨d, hd, hdkey, hdstop, hdstart⟩, u, hu, hukey, hustart, huinside, hustop⟩
      have hus : u.scope ∈ scopesOf defs new.key := hukey ▸ mem_scopesOf hu
      have hds : d.scope ∈ scopesOf defs new.key := hdkey ▸ mem_scopesOf hd
      have hdu : dh.scope ≤ u.scope :=
        Represents.head_le laminar head.mem (hstop ▸ least) hus (by omega) (by omega)
      obtain ⟨y, hy, hyu⟩ := head.passes u.scope hus hdu
      have hyrest : y ∈ rest := (List.mem_append.mp hy).resolve_left fun h => by
        have := (Scope.le_iff.mp (hinside y h).le).2
        rw [hyu] at this
        omega
      obtain ⟨x, rest, rfl⟩ := List.exists_cons_of_ne_nil (List.ne_nil_of_mem hyrest)
      have hxu : x.2.scope ≤ u.scope := by
        rcases List.mem_cons.mp hyrest with rfl | h
        · exact hyu.le
        · have increasing := (List.pairwise_append.mp head.increasing).2.1
          exact hyu ▸ ((List.pairwise_cons.mp increasing).1 y h).le
      have hnle : ¬ new.scope ≤ x.2.scope := fun hle => by
        have := (Scope.le_iff.mp (hle.trans hxu)).1
        omega
      have hne : x.2.scope ≠ new.scope := fun heq => hnle heq.ge
      exact ⟨⟨.ScopeHierarchyError, x.2.scope.tostring ++ " <-> " ++ new.scope.tostring, 0⟩,
        by simp [ScopedUpValueInvTree.placeOf, hne, hnle], rfl⟩

theorem insertScope_throws_unchanged (represents : Represents defs table)
    {new : Definition κ V} {overwrite : Bool}
    (throws : ThrowsHierarchy (table.insertScope new.key new.scope new.value overwrite).2) :
    (table.insertScope new.key new.scope new.value overwrite).1 = table := by
  obtain ⟨uplink, call⟩ := represents.uplink_ok new.key new.scope
  cases found : table.map.find (EndKey.pack new.key new.scope.stop) with
  | none =>
    simp only [ScopeTable.insertScope, call, SortedMap.insertNew_of_none found] at throws
    exact absurd throws (linkNew_not_hierarchy _ _ _ _)
  | some index =>
    simp only [ScopeTable.insertScope, call, SortedMap.insertNew_of_some found] at throws ⊢
    cases ins : table.invtree.insertUpValue index new.scope new.value uplink overwrite with
    | error f => rfl
    | ok result =>
      obtain ⟨tree, index', newindex, oldval⟩ := result
      rw [ins] at throws
      cases newindex with
      | none =>
        obtain ⟨e, h, -⟩ := throws
        simp at h
      | some n => exact absurd throws (linkNew_not_hierarchy _ _ _ _)

theorem insertScope_admissible (represents : Represents defs table) (wellScoped : WellScoped defs)
    {new : Definition κ V} (admissible : Admissible defs new) (overwrite : Bool) :
    let result := table.insertScope new.key new.scope new.value overwrite
    (DetectsOverlap defs new ∧ ThrowsHierarchy result.2 ∧ result.1 = table) ∨
    (¬ OverlapsDefined defs new ∧ result.2 = .ok (known defs new) ∧
      Represents (define overwrite defs new) result.1 ∧
      WellScoped (define overwrite defs new)) := by
  obtain ⟨nonEmpty, free | detects⟩ := admissible
  · refine Or.inr ⟨free, ?_⟩
    have laminar : Laminar (insert new.scope (scopesOf defs new.key)) := by
      have old := wellScoped.laminar new.key
      have apart : ∀ t ∈ scopesOf defs new.key, ¬ new.scope.Overlaps t := by
        rintro t ⟨d, hd, hkey, rfl⟩ h
        exact free ⟨d, hd, hkey, h⟩
      refine ⟨?_, ?_⟩
      · rintro s (rfl | hs)
        · exact nonEmpty
        · exact old.nonEmpty s hs
      · rintro s (rfl | hs) t (rfl | ht)
        · exact fun h => h.1 le_rfl
        · exact apart t ht
        · exact fun h => apart s hs ⟨h.2.1, h.1, h.2.2.2, h.2.2.1⟩
        · exact old.noOverlap s hs t ht
    obtain ⟨table', inserted, represents', -⟩ := insertScope_define represents laminar overwrite
    rw [inserted]
    refine ⟨rfl, represents', ?_⟩
    have wellScoped' := wellScoped.append laminar
    cases hknown : known defs new with
    | none => simpa [define, hknown] using wellScoped'
    | some old =>
      refine wellScoped_of_mem wellScoped' fun d hd => ?_
      simp only [define, hknown] at hd
      split_ifs at hd
      · obtain ⟨b, hb, rfl⟩ := List.mem_map.mp hd
        split_ifs
        · simp
        · exact List.mem_append_left _ hb
      · exact List.mem_append_left _ hd
  · have throws := (insertScope_throws_iff represents wellScoped _ overwrite).mpr detects
    exact Or.inl ⟨detects, throws, insertScope_throws_unchanged represents throws⟩

end Insert

/-- The definitions after a call: one more or a new value if it returned, the old ones if it
    threw. -/
def definedAfter [DecidableEq κ] {α : Type} (overwrite : Bool) (defs : List (Definition κ V))
    (new : Definition κ V) : Except Failure α → List (Definition κ V)
  | .ok _ => define overwrite defs new
  | .error _ => defs

/-- The states of a scoped map after runs of admissible calls, with the definitions made. -/
inductive MapReached [LinearOrder κ] : ScopedMap κ V → List (Definition κ V) → Prop
  | empty (nullval : V) : MapReached (ScopedMap.empty nullval) []
  | call {map : ScopedMap κ V} {defs : List (Definition κ V)} (call : MapCall κ V) :
      MapReached map defs → Admissible defs call.definition →
      MapReached (call.run map).1 (definedAfter false defs call.definition (call.run map).2)

/-- The states of a scoped instance after runs of admissible calls, with the definitions made. -/
inductive InstanceReached : ScopedInstance V → List (Definition Unit V) → Prop
  | empty (nullval : V) : InstanceReached (ScopedInstance.empty nullval) []
  | set {inst : ScopedInstance V} {defs : List (Definition Unit V)} (scope : Scope) (value : V) :
      InstanceReached inst defs → Admissible defs ⟨(), scope, value⟩ →
      InstanceReached (inst.set scope value).1
        (definedAfter true defs ⟨(), scope, value⟩ (inst.set scope value).2)

section Reached

theorem throwsHierarchy_map {α β : Type} (result : Except Failure α) (f : α → β) :
    ThrowsHierarchy (result.map f) ↔ ThrowsHierarchy result := by
  cases result <;> simp [ThrowsHierarchy, Except.map]

theorem MapCall.run_insert [LinearOrder κ] (call : MapCall κ V) (map : ScopedMap κ V) :
    let result := map.insertScope call.definition.key call.definition.scope
      call.definition.value false
    (call.run map).1 = result.1 ∧
      (call.run map).2 = result.2.map (call.reply map.invtree.nullval) := by
  cases call with
  | set scope key value =>
    refine ⟨rfl, ?_⟩
    simp only [MapCall.run, ScopedMap.set, definition]
    cases (map.insertScope key scope value false).2 <;> rfl
  | getOrSet scope key value =>
    refine ⟨rfl, ?_⟩
    simp only [MapCall.run, ScopedMap.getOrSet, definition]
    cases (map.insertScope key scope value false).2 <;> rfl

theorem MapReached.represents [LinearOrder κ] {map : ScopedMap κ V}
    {defs : List (Definition κ V)} (reached : MapReached map defs) :
    Represents defs map ∧ WellScoped defs := by
  induction reached with
  | empty nullval => exact ⟨represents_empty nullval, by simp [WellScoped]⟩
  | @call map defs call _ admissible ih =>
    obtain ⟨represents, wellScoped⟩ := ih
    obtain ⟨hstate, hresult⟩ := call.run_insert map
    rcases insertScope_admissible represents wellScoped admissible false with
      ⟨-, ⟨e, throws, -⟩, unchanged⟩ | ⟨-, ok, represents', wellScoped'⟩
    · rw [hstate, hresult, throws]
      refine ⟨?_, wellScoped⟩
      rw [unchanged]
      exact represents
    · rw [hstate, hresult, ok]
      exact ⟨represents', wellScoped'⟩

theorem InstanceReached.represents {inst : ScopedInstance V} {defs : List (Definition Unit V)}
    (reached : InstanceReached inst defs) : Represents defs inst ∧ WellScoped defs := by
  induction reached with
  | empty nullval => exact ⟨represents_empty nullval, by simp [WellScoped]⟩
  | @set inst defs scope value _ admissible ih =>
    obtain ⟨represents, wellScoped⟩ := ih
    simp only [ScopedInstance.set]
    rcases insertScope_admissible represents wellScoped admissible true with
      ⟨-, ⟨e, throws, -⟩, unchanged⟩ | ⟨-, ok, represents', wellScoped'⟩
    · rw [throws]
      refine ⟨?_, wellScoped⟩
      rw [unchanged]
      exact represents
    · rw [ok]
      exact ⟨represents', wellScoped'⟩

end Reached

/-- A call rejects exactly the overlapping scopes, and a rejected call changes nothing. -/
def RejectsOverlap {state α : Type} (defs : List (Definition κ V)) (new : Definition κ V)
    (before : state) (after : state × Except Failure α) : Prop :=
  (ThrowsHierarchy after.2 ↔ OverlapsDefined defs new) ∧
    (ThrowsHierarchy after.2 → after.1 = before)

private theorem rejectsOverlap_iff [LinearOrder K] [DecidableEq κ] [EndKey K κ]
    {defs : List (Definition κ V)} {table : ScopeTable K V} (represents : Represents defs table)
    (wellScoped : WellScoped defs) (new : Definition κ V)
    (nonEmpty : new.scope.start < new.scope.stop) (overwrite : Bool) :
    RejectsOverlap defs new table
        (table.insertScope new.key new.scope new.value overwrite) ↔ Admissible defs new := by
  have throws_iff := insertScope_throws_iff represents wellScoped new overwrite
  constructor
  · rintro ⟨rejects, -⟩
    refine ⟨nonEmpty, ?_⟩
    by_cases overlaps : OverlapsDefined defs new
    · exact Or.inr (throws_iff.mp (rejects.mpr overlaps))
    · exact Or.inl overlaps
  · rintro ⟨-, free | detects⟩
    · refine ⟨⟨fun throws => (throws_iff.mp throws).overlaps, fun h => absurd h free⟩, ?_⟩
      exact insertScope_throws_unchanged represents
    · exact ⟨⟨fun throws => (throws_iff.mp throws).overlaps,
        fun _ => throws_iff.mpr detects⟩, insertScope_throws_unchanged represents⟩

/-- After every run of admissible calls, the next call on a non-empty scope rejects exactly the
    overlapping scopes if and only if it is admissible too. -/
theorem rejects_overlap_iff_admissible [LinearOrder κ] :
    (∀ (map : ScopedMap κ V) (defs : List (Definition κ V)), MapReached map defs →
      ∀ call : MapCall κ V, call.definition.scope.start < call.definition.scope.stop →
        (RejectsOverlap defs call.definition map (call.run map) ↔
          Admissible defs call.definition)) ∧
    ∀ (inst : ScopedInstance V) (defs : List (Definition Unit V)), InstanceReached inst defs →
      ∀ (scope : Scope) (value : V), scope.start < scope.stop →
        (RejectsOverlap defs ⟨(), scope, value⟩ inst (inst.set scope value) ↔
          Admissible defs ⟨(), scope, value⟩) := by
  constructor
  · intro map defs reached call nonEmpty
    obtain ⟨represents, wellScoped⟩ := reached.represents
    obtain ⟨hstate, hresult⟩ := call.run_insert map
    rw [← rejectsOverlap_iff represents wellScoped _ nonEmpty false]
    simp only [RejectsOverlap, hstate, hresult, throwsHierarchy_map]
  · intro inst defs reached scope value nonEmpty
    obtain ⟨represents, wellScoped⟩ := reached.represents
    have general := rejectsOverlap_iff represents wellScoped
      (⟨(), scope, value⟩ : Definition Unit V) nonEmpty true
    rw [← general]
    simp only [RejectsOverlap, ScopedInstance.set, throwsHierarchy_map]

/-- An overlapping scope with an end of its own is accepted. -/
theorem overlap_accepted :
    let map := ((MapCall.set ⟨0, 10⟩ 7 1 : MapCall Int Nat).run (ScopedMap.empty 0)).1
    let defs := [(⟨7, ⟨0, 10⟩, 1⟩ : Definition Int Nat)]
    let call := MapCall.set ⟨5, 15⟩ 7 2
    MapReached map defs ∧ OverlapsDefined defs call.definition ∧
      (call.run map).2 = .ok (.isNew true) ∧
      ¬ RejectsOverlap defs call.definition map (call.run map) := by
  have accepted : ((MapCall.set ⟨5, 15⟩ 7 2).run
      ((MapCall.set ⟨0, 10⟩ 7 1 : MapCall Int Nat).run (ScopedMap.empty 0)).1).2 =
        .ok (.isNew true) := by decide
  have overlaps : OverlapsDefined [(⟨7, ⟨0, 10⟩, 1⟩ : Definition Int Nat)] ⟨7, ⟨5, 15⟩, 2⟩ :=
    ⟨⟨7, ⟨0, 10⟩, 1⟩, by decide, by decide, by decide⟩
  refine ⟨MapReached.call (MapCall.set ⟨0, 10⟩ 7 1) (MapReached.empty 0) (by decide), overlaps,
    accepted, fun rejects => ?_⟩
  obtain ⟨e, thrown, -⟩ := rejects.1.mpr overlaps
  exact absurd (accepted.symm.trans thrown) (by simp)

/-- A scope that ends with an inner scope and begins before the outer one is rejected. -/
theorem rejects_overlap_at_detected :
    let outer := (MapCall.set ⟨5, 15⟩ 7 1 : MapCall Int Nat).run (ScopedMap.empty 0)
    let inner := (MapCall.set ⟨8, 10⟩ 7 2).run outer.1
    let result := (MapCall.set ⟨2, 10⟩ 7 3).run inner.1
    ThrowsHierarchy result.2 ∧ result.1 = inner.1 := by
  intro outer inner result
  have reached := MapReached.call (MapCall.set ⟨8, 10⟩ 7 2)
    (MapReached.call (MapCall.set ⟨5, 15⟩ 7 1 : MapCall Int Nat) (MapReached.empty 0) (by decide))
    (by decide)
  have rejects := (rejects_overlap_iff_admissible.1 _ _ reached (MapCall.set ⟨2, 10⟩ 7 3)
    (by decide)).mpr (by decide)
  have thrown := rejects.1.mpr ⟨⟨7, ⟨5, 15⟩, 1⟩, by decide, by decide, by decide⟩
  exact ⟨thrown, rejects.2 thrown⟩

end Mewa
