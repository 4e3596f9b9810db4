/- Module: Mewa/Automaton/FlatSets
   digest: Sets kept as sorted vectors, through all of their constructions and assignments. -/

import Mathlib.Data.Finset.Basic
import Mathlib.Data.Finset.Dedup
import Mathlib.Data.Finset.Card
import Mewa.Automaton.Structs
import Mewa.Lib.BinarySearch

set_option autoImplicit false
set_option relaxedAutoImplicit false

namespace Mewa

open Mewa.Lib

namespace FlatVector

section Operations

variable {α : Type} [LinearOrder α]

/-- The element is put where the search ends, unless it is there. -/
def insertInOrder (l : List α) (elem : α) : List α × Bool :=
  let pi := lowerBound l elem
  match l[pi]? with
  | none => (l ++ [elem], true)
  | some here => if here > elem then (l.take pi ++ elem :: l.drop pi, true) else (l, false)

/-- The elements of a range one after the other. -/
def insertRange (l : List α) (items : List α) : List α × Bool :=
  items.foldl (fun rt elem =>
    let inserted := insertInOrder rt.1 elem
    (inserted.1, rt.2 || inserted.2)) (l, false)

def ofList (itemlist : List α) : List α := (insertRange [] itemlist).1

/-- The copy assignment appends to what the target has. -/
def assign (l o : List α) : List α := l ++ o

def contains (l : List α) (elem : α) : Bool :=
  match l[lowerBound l elem]? with
  | none => false
  | some here => here = elem

/-- The comparison of two vectors of the same size. -/
def compareElements : List α → List α → Int
  | a :: l, b :: o => if a ≠ b then (if a < b then -1 else 1) else compareElements l o
  | _, _ => 0

/-- The smaller vector comes first. -/
def compare (l o : List α) : Int :=
  if l.length = o.length then compareElements l o
  else if l.length < o.length then -1 else 1

def equal (l o : List α) : Bool := compare l o = 0

def less (l o : List α) : Bool := compare l o < 0

end Operations

/-! Single vectors. -/

section Vectors

variable {α : Type} [LinearOrder α] {l o : List α} {s t : Finset α} {elem a : α}

/-- The vector is strictly increasing and has the elements of the set. -/
structure Represents (l : List α) (s : Finset α) : Prop where
  sorted : l.Pairwise (· < ·)
  mem : ∀ a, a ∈ l ↔ a ∈ s

theorem insertElems_append {before after : List α} (below : ∀ a ∈ before, a < elem) :
    SortedSet.insertElems elem (before ++ after) =
      before ++ SortedSet.insertElems elem after := by
  induction before with
  | nil => rfl
  | cons b before ih =>
    have smaller := below b List.mem_cons_self
    have rest := ih fun a mem => below a (List.mem_cons_of_mem _ mem)
    rw [List.cons_append, SortedSet.insertElems, if_neg (not_lt_of_gt smaller),
      if_neg (ne_of_gt smaller), rest, List.cons_append]

theorem insertInOrder_eq (sorted : l.Pairwise (· < ·)) :
    (insertInOrder l elem).1 = SortedSet.insertElems elem l := by
  obtain ⟨bound, below, above⟩ : Splits l elem (lowerBound l elem) := lowerBound_splits sorted
  have split : SortedSet.insertElems elem l = l.take (lowerBound l elem) ++
      SortedSet.insertElems elem (l.drop (lowerBound l elem)) := by
    rw [← insertElems_append below, List.take_append_drop]
  have whole := List.take_append_drop (lowerBound l elem) l
  unfold insertInOrder
  simp only
  rw [split]
  cases rest : l.drop (lowerBound l elem) with
  | nil =>
    have at_end := List.drop_eq_nil_iff.mp rest
    rw [List.getElem?_eq_none at_end, List.take_of_length_le at_end]
    rfl
  | cons b tail =>
    have here : l[lowerBound l elem]? = some b := by
      have head := congrArg List.head? rest
      rwa [List.head?_drop] at head
    rw [here]
    simp only
    by_cases greater : b > elem
    · rw [if_pos greater, SortedSet.insertElems, if_pos greater]
    · have same : elem = b := by
        rw [rest] at above
        exact le_antisymm (above b List.mem_cons_self) (not_lt.mp greater)
      rw [if_neg greater, SortedSet.insertElems, if_neg greater, if_pos same, ← rest, whole]

theorem insertRange_eq (set : FlatSet α) (items : List α) :
    (insertRange set.elems items).1 = (set.insertAll items).elems := by
  unfold insertRange SortedSet.insertAll
  generalize false = rt
  induction items generalizing set rt with
  | nil => rfl
  | cons elem items ih =>
    have step : (insertInOrder set.elems elem).1 = (set.insert elem).elems :=
      insertInOrder_eq set.sorted
    rw [List.foldl_cons, List.foldl_cons]
    simp only [step]
    exact ih (set.insert elem) _

namespace Represents

theorem eq_toFinset (represents : Represents l s) : s = l.toFinset := by
  ext a
  rw [List.mem_toFinset]
  exact (represents.mem a).symm

theorem length (represents : Represents l s) : l.length = s.card := by
  rw [represents.eq_toFinset]
  exact (List.toFinset_card_of_nodup (represents.sorted.imp ne_of_lt)).symm

theorem nil : Represents ([] : List α) ∅ := ⟨.nil, by simp⟩

theorem insertInOrder (represents : Represents l s) (elem : α) :
    Represents (insertInOrder l elem).1 (insert elem s) := by
  rw [insertInOrder_eq represents.sorted]
  refine ⟨SortedSet.insertElems_sorted represents.sorted, fun a => ?_⟩
  rw [SortedSet.mem_insertElems, Finset.mem_insert, represents.mem]

theorem insertRange (represents : Represents l s) (items : List α) :
    Represents (insertRange l items).1 (items.toFinset ∪ s) := by
  unfold FlatVector.insertRange
  generalize false = rt
  induction items generalizing l s rt with
  | nil => simpa using represents
  | cons elem items ih =>
    have rest := ih (represents.insertInOrder elem) (rt || (FlatVector.insertInOrder l elem).2)
    have same : (elem :: items).toFinset ∪ s = items.toFinset ∪ insert elem s := by
      ext a
      simp only [Finset.mem_union, List.mem_toFinset, List.mem_cons, Finset.mem_insert]
      tauto
    rw [same]
    exact rest

theorem assign_iff (represents : Represents l s) (represents' : Represents o t) :
    Represents (assign l o) t ↔ s = ∅ := by
  constructor
  · intro both
    rw [Finset.eq_empty_iff_forall_notMem]
    intro a mem
    have left := (represents.mem a).mpr mem
    have right : a ∈ o :=
      (represents'.mem a).mpr ((both.mem a).mp (List.mem_append_left _ left))
    have ordered := (List.pairwise_append.mp both.sorted).2.2 a left a right
    exact lt_irrefl a ordered
  · rintro rfl
    have nothing : l = [] := by
      apply List.eq_nil_iff_forall_not_mem.mpr
      intro a mem
      exact Finset.notMem_empty a ((represents.mem a).mp mem)
    rw [nothing]
    exact represents'

theorem contains_iff (represents : Represents l s) (elem : α) :
    contains l elem = true ↔ elem ∈ s := by
  rw [← represents.mem, mem_iff_lowerBound represents.sorted]
  unfold contains
  cases l[lowerBound l elem]? with
  | none => simp
  | some here => simp

end Represents

/-- The order of two sets: by the number of elements, and by the least element in which they
    differ if the numbers are the same. -/
def Before (s t : Finset α) : Prop :=
  s.card < t.card ∨ s.card = t.card ∧ ∃ a ∈ s, a ∉ t ∧ ∀ b ∈ t, b ∉ s → a < b

theorem compareElements_eq (same_length : l.length = o.length) :
    compareElements l o = 0 ↔ l = o := by
  induction l generalizing o with
  | nil =>
    have empty := List.length_eq_zero_iff.mp same_length.symm
    simp [compareElements, empty]
  | cons a l ih =>
    cases o with
    | nil => cases same_length
    | cons b o =>
      have rest := ih (Nat.succ.inj same_length)
      by_cases same : a = b
      · subst same
        simp [compareElements, rest]
      · by_cases smaller : a < b
        · simp [compareElements, same, smaller]
        · simp [compareElements, same, smaller]

theorem compareElements_less (sorted : l.Pairwise (· < ·)) (sorted' : o.Pairwise (· < ·))
    (same_length : l.length = o.length) :
    compareElements l o < 0 ↔ ∃ a ∈ l, a ∉ o ∧ ∀ b ∈ o, b ∉ l → a < b := by
  induction l generalizing o with
  | nil => simp [compareElements]
  | cons a l ih =>
    cases o with
    | nil => cases same_length
    | cons b o =>
      obtain ⟨first, sorted_l⟩ := List.pairwise_cons.mp sorted
      obtain ⟨first', sorted_o⟩ := List.pairwise_cons.mp sorted'
      rcases lt_trichotomy a b with smaller | rfl | greater
      · have result : compareElements (a :: l) (b :: o) < 0 := by
          simp [compareElements, ne_of_lt smaller, smaller]
        refine iff_of_true result ⟨a, List.mem_cons_self, ?_, ?_⟩
        · intro mem
          rcases List.mem_cons.mp mem with same | later
          · exact ne_of_lt smaller same
          · exact lt_asymm smaller (first' a later)
        · intro c mem _
          rcases List.mem_cons.mp mem with rfl | later
          · exact smaller
          · exact lt_trans smaller (first' c later)
      · have rest := ih sorted_l sorted_o (Nat.succ.inj same_length)
        have result : compareElements (a :: l) (a :: o) = compareElements l o := by
          simp [compareElements]
        rw [result, rest]
        constructor
        · rintro ⟨c, mem, missing, least⟩
          refine ⟨c, List.mem_cons_of_mem _ mem, ?_, ?_⟩
          · intro mem'
            rcases List.mem_cons.mp mem' with rfl | later
            · exact lt_irrefl _ (first _ mem)
            · exact missing later
          · intro d mem' other
            rcases List.mem_cons.mp mem' with rfl | later
            · exact absurd List.mem_cons_self other
            · exact least d later fun here => other (List.mem_cons_of_mem _ here)
        · rintro ⟨c, mem, missing, least⟩
          rcases List.mem_cons.mp mem with rfl | here
          · exact absurd List.mem_cons_self missing
          refine ⟨c, here, fun mem' => missing (List.mem_cons_of_mem _ mem'), ?_⟩
          intro d mem' other
          apply least d (List.mem_cons_of_mem _ mem')
          intro mem_d
          rcases List.mem_cons.mp mem_d with rfl | later
          · exact lt_irrefl _ (first' _ mem')
          · exact other later
      · have result : ¬ compareElements (a :: l) (b :: o) < 0 := by
          simp [compareElements, ne_of_gt greater, not_lt_of_gt greater]
        refine iff_of_false result ?_
        rintro ⟨c, mem, -, least⟩
        have not_there : b ∉ a :: l := by
          intro mem'
          rcases List.mem_cons.mp mem' with same | later
          · exact ne_of_lt greater same
          · exact lt_asymm greater (first b later)
        have before := least b List.mem_cons_self not_there
        rcases List.mem_cons.mp mem with rfl | later
        · exact lt_asymm before greater
        · exact lt_asymm (lt_trans before greater) (first c later)

theorem Represents.equal_iff (represents : Represents l s) (represents' : Represents o t) :
    equal l o = true ↔ s = t := by
  have sizes : l.length = s.card ∧ o.length = t.card := ⟨represents.length, represents'.length⟩
  have lists : l = o ↔ s = t := by
    constructor
    · rintro rfl
      rw [represents.eq_toFinset, represents'.eq_toFinset]
    · rintro rfl
      have perm : l.Perm o := (List.perm_ext_iff_of_nodup (represents.sorted.imp ne_of_lt)
        (represents'.sorted.imp ne_of_lt)).mpr fun a =>
          (represents.mem a).trans (represents'.mem a).symm
      exact perm.eq_of_pairwise (fun a b _ _ first second => absurd first (lt_asymm second))
        represents.sorted represents'.sorted
  unfold equal compare
  rw [decide_eq_true_iff, ← lists]
  by_cases same_length : l.length = o.length
  · rw [if_pos same_length]
    exact compareElements_eq same_length
  · rw [if_neg same_length]
    have apart : l ≠ o := fun same => same_length (congrArg List.length same)
    refine iff_of_false ?_ apart
    split
    · decide
    · decide

theorem Represents.less_iff (represents : Represents l s) (represents' : Represents o t) :
    less l o = true ↔ Before s t := by
  unfold less compare Before
  rw [decide_eq_true_iff, ← represents.length, ← represents'.length]
  by_cases same_length : l.length = o.length
  · rw [if_pos same_length,
      compareElements_less represents.sorted represents'.sorted same_length]
    simp [represents.mem, represents'.mem, same_length]
  · rw [if_neg same_length]
    by_cases smaller : l.length < o.length
    · simp [smaller]
    · simp [smaller, same_length]

end Vectors

/-! Sets in variables, through any sequence of operations. -/

section Variables

variable {ι α : Type} [DecidableEq ι] [LinearOrder α]

/-- An operation on sets in variables. -/
inductive Op (ι α : Type)
  | construct (x : ι)
  | list (x : ι) (itemlist : List α)
  | copy (x o : ι)
  | move (x o : ι)
  | insert (x : ι) (elem : α)
  | insertRange (x : ι) (items : List α)
  | copyAssign (x o : ι)
  | moveAssign (x o : ι)
  | clear (x : ι)
  deriving DecidableEq, Repr

/-- The vectors after an operation. A vector that has been moved is empty. -/
def Op.run (vars : ι → List α) : Op ι α → ι → List α
  | construct x => Function.update vars x []
  | list x itemlist => Function.update vars x (ofList itemlist)
  | copy x o => Function.update vars x (vars o)
  | move x o => Function.update (Function.update vars x (vars o)) o []
  | insert x elem => Function.update vars x (insertInOrder (vars x) elem).1
  | insertRange x items => Function.update vars x (FlatVector.insertRange (vars x) items).1
  | copyAssign x o => Function.update vars x (assign (vars x) (vars o))
  | moveAssign x o => Function.update (Function.update vars x (vars o)) o []
  | clear x => Function.update vars x []

/-- What the operation means for sets. -/
def Op.denote (sets : ι → Finset α) : Op ι α → ι → Finset α
  | construct x => Function.update sets x ∅
  | list x itemlist => Function.update sets x itemlist.toFinset
  | copy x o => Function.update sets x (sets o)
  | move x o => Function.update (Function.update sets x (sets o)) o ∅
  | insert x elem => Function.update sets x (Insert.insert elem (sets x))
  | insertRange x items => Function.update sets x (items.toFinset ∪ sets x)
  | copyAssign x o => Function.update sets x (sets o)
  | moveAssign x o => Function.update (Function.update sets x (sets o)) o ∅
  | clear x => Function.update sets x ∅

/-- The vectors after some operations, from none. -/
def runAll (ops : List (Op ι α)) : ι → List α := ops.foldl Op.run fun _ => []

/-- The sets after some operations, from none. -/
def denoteAll (ops : List (Op ι α)) : ι → Finset α := ops.foldl Op.denote fun _ => ∅

/-- The vectors are the sets in all that can be seen of them. -/
structure Faithful (vars : ι → List α) (sets : ι → Finset α) : Prop where
  sorted : ∀ x, (vars x).Pairwise (· < ·)
  mem : ∀ x a, a ∈ vars x ↔ a ∈ sets x
  contains : ∀ x a, contains (vars x) a = true ↔ a ∈ sets x
  equal : ∀ x y, equal (vars x) (vars y) = true ↔ sets x = sets y
  less : ∀ x y, less (vars x) (vars y) = true ↔ Before (sets x) (sets y)

/-- Whether the target of a copy assignment has no elements. -/
def Op.Fresh (sets : ι → Finset α) : Op ι α → Prop
  | copyAssign x _ => sets x = ∅
  | _ => True

theorem represents_update {vars : ι → List α} {sets : ι → Finset α}
    (represents : ∀ x, Represents (vars x) (sets x)) {l : List α} {s : Finset α}
    (new : Represents l s) (x y : ι) :
    Represents (Function.update vars x l y) (Function.update sets x s y) := by
  by_cases same : y = x
  · subst same
    rw [Function.update_self, Function.update_self]
    exact new
  · rw [Function.update_of_ne same, Function.update_of_ne same]
    exact represents y

/-- The operations keep the sets, but for the copy assignment to what is not empty. -/
theorem Op.run_represents {vars : ι → List α} {sets : ι → Finset α}
    (represents : ∀ x, Represents (vars x) (sets x)) {op : Op ι α} (fresh : op.Fresh sets) :
    ∀ x, Represents (op.run vars x) (op.denote sets x) := by
  cases op with
  | construct x => exact represents_update represents .nil x
  | list x itemlist =>
    have items := Represents.nil.insertRange itemlist
    rw [Finset.union_empty] at items
    exact represents_update represents items x
  | copy x o => exact represents_update represents (represents o) x
  | move x o => exact represents_update (represents_update represents (represents o) x) .nil o
  | insert x elem =>
    exact represents_update represents ((represents x).insertInOrder elem) x
  | insertRange x items =>
    exact represents_update represents ((represents x).insertRange items) x
  | copyAssign x o =>
    exact represents_update represents (((represents x).assign_iff (represents o)).mpr fresh) x
  | moveAssign x o =>
    exact represents_update (represents_update represents (represents o) x) .nil o
  | clear x => exact represents_update represents .nil x

/-- No copy assignment has a target with elements. -/
def AllFresh (ops : List (Op ι α)) : Prop :=
  ∀ before op after, ops = before ++ op :: after → op.Fresh (denoteAll before)

theorem runAll_represents {ops : List (Op ι α)} (fresh : AllFresh ops) :
    ∀ x, Represents (runAll ops x) (denoteAll ops x) := by
  induction ops using List.reverseRecOn with
  | nil => exact fun x => .nil
  | append_singleton ops op ih =>
    have before : AllFresh ops := by
      rintro first op' after rfl
      exact fresh first op' (after ++ [op]) (by simp)
    have last : op.Fresh (denoteAll ops) := fresh ops op [] rfl
    have step := op.run_represents (ih before) last
    simpa [runAll, denoteAll] using step

omit [DecidableEq ι] in
theorem faithful_of_represents {vars : ι → List α} {sets : ι → Finset α}
    (represents : ∀ x, Represents (vars x) (sets x)) : Faithful vars sets where
  sorted x := (represents x).sorted
  mem x := (represents x).mem
  contains x := (represents x).contains_iff
  equal x y := (represents x).equal_iff (represents y)
  less x y := (represents x).less_iff (represents y)

/-- The vectors are the sets after all operations of a sequence exactly if the target of every
    copy assignment is empty. -/
theorem faithful_iff (ops : List (Op ι α)) :
    (∀ before after, ops = before ++ after → Faithful (runAll before) (denoteAll before)) ↔
      AllFresh ops := by
  constructor
  · rintro faithful before op after rfl
    cases op with
    | copyAssign x o =>
      have here := faithful before (.copyAssign x o :: after) rfl
      have next := faithful (before ++ [.copyAssign x o]) after (by simp)
      have represents : ∀ y, Represents (runAll before y) (denoteAll before y) :=
        fun y => ⟨here.sorted y, here.mem y⟩
      apply ((represents x).assign_iff (represents o)).mp
      have sorted := next.sorted x
      have mem := next.mem x
      simp only [runAll, denoteAll, List.foldl_append, List.foldl_cons, List.foldl_nil, Op.run,
        Op.denote, Function.update_self] at sorted mem
      exact ⟨sorted, mem⟩
    | _ => exact trivial
  · rintro fresh before after rfl
    apply faithful_of_represents
    apply runAll_represents
    rintro first op rest rfl
    exact fresh first op (rest ++ after) (by simp)

/-- A copy of a set to another one with elements has the elements of both. -/
theorem assigned_twice : ¬ ∀ before after, ([.insert 0 1, .insert 1 2, .copyAssign 0 1] :
    List (Op Nat Nat)) = before ++ after → Faithful (runAll before) (denoteAll before) := by
  intro faithful
  have last := (faithful _ [] (List.append_nil _).symm).mem 0 1
  have kept : 1 ∈ runAll ([.insert 0 1, .insert 1 2, .copyAssign 0 1] : List (Op Nat Nat)) 0 := by
    decide
  have gone : 1 ∉ denoteAll ([.insert 0 1, .insert 1 2, .copyAssign 0 1] :
      List (Op Nat Nat)) 0 := by decide
  exact gone (last.mp kept)

end Variables

end FlatVector

end Mewa
