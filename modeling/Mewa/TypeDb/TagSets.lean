/- Module: Mewa/TypeDb/TagSets
   digest: Tag masks as sets of tags, and the operators that add a tag to them. -/

import Mathlib.Data.Set.Insert
import Mewa.TypeDb.Relation

set_option autoImplicit false
set_option relaxedAutoImplicit false

namespace Mewa

namespace TagMask

/-- The tags 1 to 32. -/
def ValidTag (tag : Int) : Prop := minTag ≤ tag ∧ tag ≤ maxTag

instance (tag : Int) : Decidable (ValidTag tag) := inferInstanceAs (Decidable (_ ∧ _))

def add (tag : Int) (m : TagMask) : TagMask × Except Failure Unit :=
  if tag > maxTag ∨ tag < minTag then
    (m, .error (.thrown ⟨.BadRelationTag, toString tag, 0⟩))
  else (⟨m.mask ||| (1#32 <<< tagValFromTag tag)⟩, .ok ())

def orAssign (tag : Int) (m : TagMask) : TagMask × Except Failure Unit := m.add tag

/-- The operator that returns a new mask, which it makes from an empty one. -/
def or (tag : Int) (_ : TagMask) : Except Failure TagMask :=
  match matchNothing.add tag with
  | (rt, .ok _) => .ok rt
  | (_, .error e) => .error e

def tags (m : TagMask) : Set Int := {t | ValidTag t ∧ m.matchesTag (tagValFromTag t) = true}

/-- A step in the making of a mask: an assignment, or the value of an expression in its place. -/
inductive Step
  | orAssign (tag : Int)
  | or (tag : Int)
  deriving DecidableEq, Repr

namespace Step

def tag : Step → Int
  | orAssign tag => tag
  | or tag => tag

/-- The mask after a step. An error leaves the mask that was there. -/
def run (m : TagMask) : Step → TagMask
  | orAssign tag => (m.orAssign tag).1
  | or tag =>
    match m.or tag with
    | .ok rt => rt
    | .error _ => m

def thrown (m : TagMask) : Step → Option Failure
  | orAssign tag =>
    match (m.orAssign tag).2 with
    | .ok _ => none
    | .error e => some e
  | or tag =>
    match m.or tag with
    | .ok _ => none
    | .error e => some e

end Step

def runAll (m : TagMask) (steps : List Step) : TagMask := steps.foldl Step.run m

/-! One bit for each tag. -/

section Bits

variable {m : TagMask} {tag t : Int}

theorem tagValFromTag_lt (valid : ValidTag tag) : tagValFromTag tag < 32 := by
  obtain ⟨low, high⟩ := valid
  unfold minTag at low
  unfold maxTag at high
  unfold tagValFromTag
  omega

theorem matchesTag_iff (m : TagMask) {n : Nat} (inside : n < 32) :
    m.matchesTag n = true ↔ m.mask.getLsbD n = true := by
  unfold matchesTag
  rw [bne_iff_ne]
  constructor
  · intro some_bit
    by_contra unset
    apply some_bit
    apply BitVec.eq_of_getLsbD_eq
    intro i bound
    by_cases own : i = n
    · subst own
      simp [unset]
    · have other : ¬ (i - n = 0 ∧ n ≤ i) := by omega
      simp only [BitVec.getLsbD_and, BitVec.getLsbD_shiftLeft, BitVec.getLsbD_one,
        BitVec.getLsbD_zero]
      by_cases below : i < n
      · simp [below]
      · have positive : i - n ≠ 0 := by omega
        simp [positive]
  · intro set none_set
    rw [BitVec.getLsbD_eq_getElem inside] at set
    have bit := congrArg (fun v => v.getLsbD n) none_set
    simp [inside, set] at bit

theorem getLsbD_add (mask : BitVec 32) {n k : Nat} (inside : k < 32) :
    (mask ||| (1#32 <<< n)).getLsbD k = true ↔ mask.getLsbD k = true ∨ k = n := by
  rw [BitVec.getLsbD_or, BitVec.getLsbD_shiftLeft, BitVec.getLsbD_one, Bool.or_eq_true]
  apply or_congr_right
  constructor
  · intro bit
    simp only [inside, Bool.and_eq_true, decide_eq_true_eq] at bit
    simp at bit
    omega
  · rintro rfl
    simp [inside]

theorem add_eq (m : TagMask) (tag : Int) :
    ValidTag tag ∧ (m.add tag).2 = .ok () ∧ (m.add tag).1.tags = insert tag m.tags ∨
    ¬ ValidTag tag ∧ m.add tag = (m, .error (.thrown ⟨.BadRelationTag, toString tag, 0⟩)) := by
  unfold add
  by_cases bad : tag > maxTag ∨ tag < minTag
  · rw [if_pos bad]
    refine Or.inr ⟨fun valid => ?_, rfl⟩
    obtain ⟨low, high⟩ := valid
    omega
  · rw [if_neg bad]
    have valid : ValidTag tag := ⟨by omega, by omega⟩
    refine Or.inl ⟨valid, rfl, ?_⟩
    ext t
    unfold tags
    rw [Set.mem_insert_iff, Set.mem_ofPred_eq, Set.mem_ofPred_eq]
    constructor
    · rintro ⟨here, matched⟩
      rw [matchesTag_iff _ (tagValFromTag_lt here), getLsbD_add _ (tagValFromTag_lt here)] at matched
      rcases matched with old | same
      · exact Or.inr ⟨here, (matchesTag_iff m (tagValFromTag_lt here)).mpr old⟩
      · obtain ⟨low, -⟩ := here
        obtain ⟨low', -⟩ := valid
        unfold minTag at low low'
        unfold tagValFromTag at same
        exact Or.inl (by omega)
    · rintro (rfl | ⟨here, matched⟩)
      · refine ⟨valid, ?_⟩
        rw [matchesTag_iff _ (tagValFromTag_lt valid), getLsbD_add _ (tagValFromTag_lt valid)]
        exact Or.inr rfl
      · refine ⟨here, ?_⟩
        rw [matchesTag_iff _ (tagValFromTag_lt here), getLsbD_add _ (tagValFromTag_lt here)]
        exact Or.inl ((matchesTag_iff m (tagValFromTag_lt here)).mp matched)

theorem tags_matchNothing : matchNothing.tags = ∅ := by
  ext t
  refine ⟨fun ⟨valid, matched⟩ => ?_, fun none => absurd none (Set.notMem_empty t)⟩
  rw [matchesTag_iff _ (tagValFromTag_lt valid)] at matched
  simp [matchNothing] at matched

end Bits

/-! The tags after some steps. -/

section Steps

variable {m : TagMask} {steps : List Step}

def added (steps : List Step) : Set Int := {t | ∃ s ∈ steps, s.tag = t}

theorem run_orAssign {tag : Int} (valid : ValidTag tag) (m : TagMask) :
    ((Step.orAssign tag).run m).tags = insert tag m.tags := by
  rcases add_eq m tag with ⟨-, -, grown⟩ | ⟨bad, -⟩
  · exact grown
  · exact absurd valid bad

theorem run_or {tag : Int} (valid : ValidTag tag) (m : TagMask) :
    ((Step.or tag).run m).tags = {tag} := by
  rcases add_eq matchNothing tag with ⟨-, result, grown⟩ | ⟨bad, -⟩
  · have made : m.or tag = .ok (matchNothing.add tag).1 := by
      unfold TagMask.or
      split
      · rename_i rt u same
        rw [same]
      · rename_i rt e same
        rw [same] at result
        simp at result
    have run : (Step.or tag).run m = (matchNothing.add tag).1 := by
      show (match m.or tag with
        | .ok rt => rt
        | .error _ => m) = _
      rw [made]
    rw [run, grown, tags_matchNothing]
    exact LawfulSingleton.insert_empty_eq tag
  · exact absurd valid bad

theorem run_sub {s : Step} (valid : ValidTag s.tag) (m : TagMask) :
    (s.run m).tags ⊆ insert s.tag m.tags := by
  cases s with
  | orAssign tag => exact (run_orAssign valid m).le
  | or tag =>
    have forgotten : ((Step.or tag).run m).tags = {tag} := run_or valid m
    rw [forgotten]
    exact Set.singleton_subset_iff.mpr (Set.mem_insert _ _)

theorem runAll_sub (valid : ∀ s ∈ steps, ValidTag s.tag) (m : TagMask) :
    (m.runAll steps).tags ⊆ m.tags ∪ added steps := by
  induction steps generalizing m with
  | nil => exact Set.subset_union_left
  | cons s steps ih =>
    intro t mem
    rcases ih (fun s mem => valid s (List.mem_cons_of_mem _ mem)) (s.run m) mem with old | later
    · rcases run_sub (valid s List.mem_cons_self) m old with rfl | here
      · exact Or.inr ⟨s, List.mem_cons_self, rfl⟩
      · exact Or.inl here
    · obtain ⟨s', mem', same⟩ := later
      exact Or.inr ⟨s', List.mem_cons_of_mem _ mem', same⟩

/-- What was in the mask before each operator that makes a new one is added again. -/
def AddedAgain (m : TagMask) (steps : List Step) : Prop :=
  ∀ before tag after, steps = before ++ .or tag :: after →
    m.tags ∪ added before ⊆ insert tag (added after)

theorem AddedAgain.all_kept (again : AddedAgain m steps)
    (valid : ∀ s ∈ steps, ValidTag s.tag) :
    m.tags ∪ added steps ⊆ (m.runAll steps).tags := by
  induction steps generalizing m with
  | nil =>
    rintro t (old | ⟨s, mem, -⟩)
    · exact old
    · simp at mem
  | cons s steps ih =>
    have valid_s := valid s List.mem_cons_self
    have rest : AddedAgain (s.run m) steps := by
      rintro before tag after rfl t mem
      refine again (s :: before) tag after rfl ?_
      rcases mem with here | ⟨s', mem', same⟩
      · rcases run_sub valid_s m here with rfl | old
        · exact Or.inr ⟨s, List.mem_cons_self, rfl⟩
        · exact Or.inl old
      · exact Or.inr ⟨s', List.mem_cons_of_mem _ mem', same⟩
    refine Set.Subset.trans ?_ (ih rest fun s mem => valid s (List.mem_cons_of_mem _ mem))
    -- what the first step has or keeps, and what comes later
    have own : s.tag ∈ (s.run m).tags := by
      cases s with
      | orAssign tag => exact (run_orAssign valid_s m).ge (Set.mem_insert _ _)
      | or tag => exact (run_or valid_s m).ge (Set.mem_singleton _)
    rintro t (old | ⟨s', mem, rfl⟩)
    · cases s with
      | orAssign tag =>
        apply Or.inl
        exact (run_orAssign valid_s m).ge (Set.mem_insert_of_mem _ old)
      | or tag =>
        rcases again [] tag steps rfl (Or.inl old) with rfl | later
        · exact Or.inl own
        · exact Or.inr later
    · rcases List.mem_cons.mp mem with rfl | later
      · exact Or.inl own
      · exact Or.inr ⟨s', later, rfl⟩

/-- Every step adds its tag to the set, and a bad tag throws and changes nothing. -/
structure Accumulates (m : TagMask) (steps : List Step) : Prop where
  union : ∀ t, ValidTag t → ((m.runAll steps).matchesTag (tagValFromTag t) = true ↔
    m.matchesTag (tagValFromTag t) = true ∨ ∃ s ∈ steps, s.tag = t)
  refused : ∀ s : Step, ¬ ValidTag s.tag → s.run (m.runAll steps) = m.runAll steps ∧
    s.thrown (m.runAll steps) = some (.thrown ⟨.BadRelationTag, toString s.tag, 0⟩)

theorem refuses (m : TagMask) {s : Step} (bad : ¬ ValidTag s.tag) :
    s.run m = m ∧ s.thrown m = some (.thrown ⟨.BadRelationTag, toString s.tag, 0⟩) := by
  cases s with
  | orAssign tag =>
    rcases add_eq m tag with ⟨valid, -⟩ | ⟨-, result⟩
    · exact absurd valid bad
    · constructor
      · show (m.add tag).1 = m
        rw [result]
      · show (match (m.add tag).2 with
          | .ok _ => none
          | .error e => some e) = _
        rw [result]
        rfl
  | or tag =>
    rcases add_eq matchNothing tag with ⟨valid, -⟩ | ⟨-, result⟩
    · exact absurd valid bad
    · have made : m.or tag = .error (.thrown ⟨.BadRelationTag, toString tag, 0⟩) := by
        unfold TagMask.or
        rw [result]
      constructor
      · show (match m.or tag with
          | .ok rt => rt
          | .error _ => m) = m
        rw [made]
      · show (match m.or tag with
          | .ok _ => none
          | .error e => some e) = _
        rw [made]
        rfl

/-- The operators accumulate the tags if all that the operator for new masks forgets is added
    again. -/
theorem accumulates_iff (m : TagMask) (steps : List Step) (valid : ∀ s ∈ steps, ValidTag s.tag) :
    Accumulates m steps ↔ AddedAgain m steps := by
  have union_iff : (∀ t, ValidTag t → ((m.runAll steps).matchesTag (tagValFromTag t) = true ↔
      m.matchesTag (tagValFromTag t) = true ∨ ∃ s ∈ steps, s.tag = t)) ↔
      m.tags ∪ added steps ⊆ (m.runAll steps).tags := by
    constructor
    · rintro union t (⟨valid_t, old⟩ | ⟨s, mem, rfl⟩)
      · exact ⟨valid_t, (union t valid_t).mpr (Or.inl old)⟩
      · exact ⟨valid s mem, (union s.tag (valid s mem)).mpr (Or.inr ⟨s, mem, rfl⟩)⟩
    · intro sub t valid_t
      constructor
      · intro matched
        rcases runAll_sub valid m ⟨valid_t, matched⟩ with old | here
        · exact Or.inl old.2
        · exact Or.inr here
      · rintro (old | here)
        · exact (sub (Or.inl ⟨valid_t, old⟩)).2
        · exact (sub (Or.inr here)).2
  constructor
  · rintro ⟨union, -⟩ before tag after rfl t mem
    have sub := union_iff.mp union
    have kept : t ∈ (m.runAll (before ++ .or tag :: after)).tags := by
      apply sub
      rcases mem with old | ⟨s, mem, rfl⟩
      · exact Or.inl old
      · exact Or.inr ⟨s, List.mem_append_left _ mem, rfl⟩
    have split : m.runAll (before ++ .or tag :: after) =
        ((Step.or tag).run (m.runAll before)).runAll after := by
      simp [runAll]
    rw [split] at kept
    have valid_after : ∀ s ∈ after, ValidTag s.tag := fun s mem => valid s (by simp [mem])
    rcases runAll_sub valid_after _ kept with here | later
    · have valid_tag : ValidTag tag := valid (.or tag) (by simp)
      rw [run_or valid_tag] at here
      exact Or.inl here
    · exact Or.inr later
  · intro again
    exact ⟨union_iff.mpr (again.all_kept valid), fun s bad => refuses _ bad⟩

/-- A tag that is added again by the last step is not lost. -/
theorem accumulates_assigned :
    Accumulates matchNothing [.orAssign 1, .or 32, .orAssign 1] ∧
      ¬ Accumulates matchNothing [.orAssign 1, .or 32] := by
  constructor
  · rw [accumulates_iff matchNothing [.orAssign 1, .or 32, .orAssign 1] (by decide)]
    intro before tag after split
    rcases before with _ | ⟨s, _ | ⟨s', _ | ⟨s'', before⟩⟩⟩ <;> simp at split
    obtain ⟨rfl, rfl, rfl⟩ := split
    simp [tags_matchNothing, added]
  · rw [accumulates_iff matchNothing [.orAssign 1, .or 32] (by decide)]
    intro again
    have lost := again [.orAssign 1] 32 [] rfl (Or.inr ⟨.orAssign 1, List.mem_cons_self, rfl⟩)
    simp [added] at lost
    cases lost

/-- The mask of two tags in one expression has the last one only. -/
theorem first_forgotten : ¬ Accumulates matchNothing [.or 1, .or 2] := by
  intro accumulates
  have both := (accumulates.union 1 (by decide)).mpr (Or.inr ⟨.or 1, by simp, rfl⟩)
  have lost : (matchNothing.runAll [.or 1, .or 2]).matchesTag (tagValFromTag 1) = false := by
    decide
  rw [lost] at both
  exact Bool.false_ne_true both

end Steps

end TagMask

end Mewa
