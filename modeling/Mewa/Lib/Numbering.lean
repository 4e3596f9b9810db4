/- Module: Mewa/Lib/Numbering
   digest: Numbers given to the elements of a list in the order in which they occur first. -/

import Mathlib.Data.List.Induction
import Mathlib.Data.List.Nodup

set_option autoImplicit false
set_option relaxedAutoImplicit false

namespace Mewa.Lib

universe u

variable {α : Type u} [DecidableEq α]

/-- The number of an element, counted from 1, if it occurs. -/
def numberIn (l : List α) (a : α) : Option Nat :=
  if a ∈ l then some (l.eraseDups.idxOf a + 1) else none

theorem eraseDups_snoc (l : List α) (a : α) :
    (l ++ [a]).eraseDups = if a ∈ l then l.eraseDups else l.eraseDups ++ [a] := by
  rw [List.eraseDups_append]
  by_cases known : a ∈ l <;> simp [List.removeAll, known, List.eraseDups_cons]

theorem nodup_eraseDups (l : List α) : l.eraseDups.Nodup := by
  induction l using List.reverseRecOn with
  | nil => simp
  | append_singleton l a ih =>
    rw [eraseDups_snoc]
    split
    · exact ih
    · rename_i fresh
      exact List.nodup_append.mpr ⟨ih, List.nodup_singleton a, by
        intro x mem y single same
        rw [List.mem_singleton.mp single] at same
        exact fresh (same ▸ List.mem_eraseDups.mp mem)⟩

theorem numberIn_snoc (l : List α) (a b : α) :
    numberIn (l ++ [a]) b =
      if b = a ∧ a ∉ l then some (l.eraseDups.length + 1) else numberIn l b := by
  unfold numberIn
  rw [eraseDups_snoc]
  by_cases known : a ∈ l
  · by_cases same : b = a
    · simp [same, known]
    · simp [same, known]
  · by_cases same : b = a
    · subst same
      simp [known, List.idxOf_append_of_notMem (fun mem => known (List.mem_eraseDups.mp mem))]
    · by_cases old : b ∈ l
      · simp [same, known, old, List.idxOf_append_of_mem (List.mem_eraseDups.mpr old)]
      · simp [same, old]

theorem numberIn_bound {l : List α} {a : α} {n : Nat} (h : numberIn l a = some n) :
    0 < n ∧ n ≤ l.eraseDups.length := by
  unfold numberIn at h
  split at h
  · rename_i mem
    have inside := List.idxOf_lt_length_iff.mpr (List.mem_eraseDups.mpr mem)
    have same := Option.some.inj h
    omega
  · simp at h

theorem numberIn_of_mem {l : List α} {a : α} (mem : a ∈ l) :
    numberIn l a = some (l.eraseDups.idxOf a + 1) := if_pos mem

/-- Elements with the same number are the same. -/
theorem numberIn_injective {l : List α} {a b : α} {n : Nat} (ha : numberIn l a = some n)
    (hb : numberIn l b = some n) : a = b := by
  unfold numberIn at ha hb
  split at ha
  · rename_i mem_a
    split at hb
    · have same : l.eraseDups.idxOf a = l.eraseDups.idxOf b := by
        have := Option.some.inj ha
        have := Option.some.inj hb
        omega
      exact (List.idxOf_inj (List.mem_eraseDups.mpr mem_a)).mp same
    · simp at hb
  · simp at ha

theorem eraseDups_filter (p : α → Bool) (l : List α) :
    (l.filter p).eraseDups = l.eraseDups.filter p := by
  induction l using List.reverseRecOn with
  | nil => simp
  | append_singleton l a ih =>
    rw [eraseDups_snoc, List.filter_append]
    cases taken : p a with
    | false =>
      split <;> simp [taken, ih]
    | true =>
      have member : a ∈ l.filter p ↔ a ∈ l := by simp [taken]
      simp only [List.filter_cons_of_pos taken, List.filter_nil, eraseDups_snoc, ih]
      by_cases known : a ∈ l
      · simp [known, taken]
      · simp [known, taken]

/-- The elements in the order of their first occurrence. -/
def distinct (l : List α) : List α := l.eraseDups

@[simp] theorem mem_distinct {l : List α} {a : α} : a ∈ distinct l ↔ a ∈ l := List.mem_eraseDups

theorem distinct_snoc (l : List α) (a : α) :
    distinct (l ++ [a]) = if a ∈ l then distinct l else distinct l ++ [a] := eraseDups_snoc l a

theorem find_distinct (l : List α) (a : α) :
    ((distinct l).zipIdx.find? fun e => a = e.1).map (fun e => e.2 + 1) = numberIn l a := by
  induction l using List.reverseRecOn with
  | nil => simp [distinct, numberIn]
  | append_singleton l b ih =>
    rw [distinct_snoc, numberIn_snoc]
    by_cases known : b ∈ l
    · simp [known, ih]
    · rw [if_neg known, List.zipIdx_append, List.find?_append]
      by_cases same : a = b
      · have missing : numberIn l a = none := by
          rw [same]
          exact if_neg known
        rw [missing, Option.map_eq_none_iff] at ih
        rw [ih, if_pos ⟨same, known⟩]
        simp [same, distinct]
      · simp [same, ih]

theorem numberIn_snoc_fresh {l : List α} {a : α} (fresh : a ∉ l) :
    numberIn (l ++ [a]) a = some ((distinct l).length + 1) := by
  rw [numberIn_snoc, if_pos ⟨rfl, fresh⟩]
  rfl

theorem exists_number {l : List α} {a : α} (mem : a ∈ l) :
    ∃ n, numberIn l a = some (n + 1) ∧ (distinct l)[n]? = some a := by
  have inside := List.idxOf_lt_length_iff.mpr (List.mem_eraseDups.mpr mem)
  refine ⟨l.eraseDups.idxOf a, numberIn_of_mem mem, ?_⟩
  rw [distinct, List.getElem?_eq_getElem inside, List.getElem_idxOf inside]

theorem numberIn_of_node {l : List α} {a : α} {n : Nat} (node : (distinct l)[n]? = some a) :
    numberIn l a = some (n + 1) := by
  obtain ⟨m, number, node'⟩ := exists_number (mem_distinct.mp (List.mem_of_getElem? node))
  obtain ⟨inside, -⟩ := List.getElem?_eq_some_iff.mp node
  have same := (List.getElem?_inj inside (nodup_eraseDups l)).mp (node.trans node'.symm)
  rw [number, same]

theorem numberIn_append {l : List α} {a : α} {n : Nat} (number : numberIn l a = some n)
    (more : List α) : numberIn (l ++ more) a = some n := by
  induction more using List.reverseRecOn with
  | nil => simpa using number
  | append_singleton more b ih =>
    have known : a ∈ l ++ more := by
      by_contra fresh
      rw [numberIn, if_neg fresh] at ih
      simp at ih
    rw [← List.append_assoc, numberIn_snoc, if_neg, ih]
    rintro ⟨rfl, fresh⟩
    exact fresh known

omit [DecidableEq α] in
theorem filter_append_filter {l : List α} {p : α → Bool}
    (sorted : l.Pairwise fun a b => p b = true → p a = true) :
    l.filter p ++ l.filter (fun a => !p a) = l := by
  induction l with
  | nil => rfl
  | cons a l ih =>
    obtain ⟨before, sorted⟩ := List.pairwise_cons.mp sorted
    cases taken : p a with
    | true => simp [taken, ih sorted]
    | false =>
      have none_taken : l.filter p = [] := List.filter_eq_nil_iff.mpr fun b mem later => by
        have := before b mem later
        simp [taken] at this
      have rest := ih sorted
      rw [none_taken, List.nil_append] at rest
      simp [taken, none_taken, rest]

theorem numberIn_sorted {l : List α} {p : α → Bool}
    (less : ∀ a ∈ l, ∀ b ∈ l, p a = true → p b = false →
      l.eraseDups.idxOf a < l.eraseDups.idxOf b) (a : α) :
    numberIn (l.filter p ++ l.filter fun b => !p b) a = numberIn l a := by
  have sorted : l.eraseDups.Pairwise fun a b => p b = true → p a = true := by
    refine List.pairwise_iff_getElem.mpr fun i j hi hj before taken => ?_
    by_contra not_taken
    have later := less _ (List.mem_eraseDups.mp (List.getElem_mem hj)) _
      (List.mem_eraseDups.mp (List.getElem_mem hi)) taken (by simpa using not_taken)
    rw [List.Nodup.idxOf_getElem (nodup_eraseDups l) j hj,
      List.Nodup.idxOf_getElem (nodup_eraseDups l) i hi] at later
    omega
  have other : ∀ b, b ∈ l.filter (fun b => !p b) → b ∉ l.filter p := by
    intro b mem taken
    have := (List.mem_filter.mp mem).2
    simp [(List.mem_filter.mp taken).2] at this
  have names : (l.filter p ++ l.filter fun b => !p b).eraseDups = l.eraseDups := by
    have kept : (l.filter fun b => !p b).removeAll (l.filter p) = l.filter fun b => !p b :=
      List.filter_eq_self.mpr fun b mem => by simp [List.elem_eq_contains, other b mem]
    rw [List.eraseDups_append, kept, eraseDups_filter, eraseDups_filter,
      filter_append_filter sorted]
  have member : a ∈ (l.filter p ++ l.filter fun b => !p b) ↔ a ∈ l := by
    rw [List.mem_append, List.mem_filter, List.mem_filter]
    cases p a <;> simp
  unfold numberIn
  simp only [names, member]

theorem numberIn_lt {l l' : List α} {a b : α} {n m : Nat} (first : a ∈ l) (second : b ∉ l)
    (ha : numberIn (l ++ l') a = some n) (hb : numberIn (l ++ l') b = some m) : n < m := by
  unfold numberIn at ha hb
  split at ha
  · split at hb
    · rw [List.eraseDups_append] at ha hb
      have before : (l.eraseDups ++ (l'.removeAll l).eraseDups).idxOf a = l.eraseDups.idxOf a :=
        List.idxOf_append_of_mem (List.mem_eraseDups.mpr first)
      rw [List.idxOf_append_of_notMem fun mem => second (List.mem_eraseDups.mp mem)] at hb
      have inside := List.idxOf_lt_length_iff.mpr (List.mem_eraseDups.mpr first)
      have := Option.some.inj ha
      have := Option.some.inj hb
      omega
    · simp at hb
  · simp at ha

end Mewa.Lib
