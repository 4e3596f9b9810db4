/- Module: Mewa/Lib/Sorted
   digest: Strictly sorted lists as finite sets and finite maps, with their point laws. -/

import Mathlib

set_option autoImplicit false
set_option relaxedAutoImplicit false

namespace Mewa.Lib

universe u v

/-- A finite set kept as its strictly increasing list of elements. -/
@[ext] structure SortedSet (α : Type u) [LinearOrder α] where
  elems : List α
  sorted : elems.Pairwise (· < ·)

namespace SortedSet

variable {α : Type u} [LinearOrder α]

instance : DecidableEq (SortedSet α) := fun s t =>
  decidable_of_iff (s.elems = t.elems) SortedSet.ext_iff.symm

instance : Membership α (SortedSet α) := ⟨fun s a => a ∈ s.elems⟩

instance (s : SortedSet α) (a : α) : Decidable (a ∈ s) :=
  inferInstanceAs (Decidable (a ∈ s.elems))

theorem mem_def {s : SortedSet α} {a : α} : a ∈ s ↔ a ∈ s.elems := Iff.rfl

def empty : SortedSet α := ⟨[], List.Pairwise.nil⟩

instance : Inhabited (SortedSet α) := ⟨empty⟩

/-- Insertion before the first element that is not smaller, unless it is equal. -/
def insertElems (a : α) : List α → List α
  | [] => [a]
  | b :: l => if a < b then a :: b :: l else if a = b then b :: l else b :: insertElems a l

theorem mem_insertElems {a b : α} {l : List α} : b ∈ insertElems a l ↔ b = a ∨ b ∈ l := by
  induction l with
  | nil => simp [insertElems]
  | cons c l ih =>
    simp only [insertElems]
    split_ifs with hlt heq
    · simp
    · subst heq; simp
    · simp only [List.mem_cons, ih]; tauto

theorem insertElems_sorted {a : α} {l : List α} (h : l.Pairwise (· < ·)) :
    (insertElems a l).Pairwise (· < ·) := by
  induction l with
  | nil => simp [insertElems]
  | cons c l ih =>
    obtain ⟨hc, hl⟩ := List.pairwise_cons.mp h
    simp only [insertElems]
    split_ifs with hlt heq
    · refine List.pairwise_cons.mpr ⟨fun b hb => ?_, h⟩
      rcases List.mem_cons.mp hb with rfl | hb
      · exact hlt
      · exact lt_trans hlt (hc b hb)
    · exact h
    · refine List.pairwise_cons.mpr ⟨fun b hb => ?_, ih hl⟩
      rcases mem_insertElems.mp hb with rfl | hb
      · exact lt_of_le_of_ne (not_lt.mp hlt) (Ne.symm heq)
      · exact hc b hb

def insert (s : SortedSet α) (a : α) : SortedSet α :=
  ⟨insertElems a s.elems, insertElems_sorted s.sorted⟩

@[simp] theorem mem_empty {a : α} : a ∈ (empty : SortedSet α) ↔ False := by
  simp [mem_def, empty]

@[simp] theorem mem_insert {s : SortedSet α} {a b : α} : b ∈ s.insert a ↔ b = a ∨ b ∈ s :=
  mem_insertElems

/-- Two sets with the same elements are the same value. -/
theorem eq_of_mem_iff {s t : SortedSet α} (h : ∀ a, a ∈ s ↔ a ∈ t) : s = t := by
  have perm : s.elems.Perm t.elems :=
    (List.perm_ext_iff_of_nodup (s.sorted.imp ne_of_lt) (t.sorted.imp ne_of_lt)).mpr h
  exact SortedSet.ext (perm.eq_of_pairwise
    (fun a b _ _ hab hba => absurd hab (lt_asymm hba)) s.sorted t.sorted)

theorem insert_of_mem {s : SortedSet α} {a : α} (h : a ∈ s) : s.insert a = s :=
  eq_of_mem_iff fun b => by
    rw [mem_insert]
    exact ⟨fun hb => hb.elim (fun he => he ▸ h) id, Or.inr⟩

/-- Insertion of a list, element by element. -/
def insertAll (s : SortedSet α) (l : List α) : SortedSet α := l.foldl insert s

@[simp] theorem mem_insertAll {s : SortedSet α} {l : List α} {b : α} :
    b ∈ s.insertAll l ↔ b ∈ l ∨ b ∈ s := by
  induction l generalizing s with
  | nil => simp [insertAll]
  | cons c l ih =>
    have h := ih (s := s.insert c)
    simp only [insertAll, List.foldl_cons] at h ⊢
    rw [h, mem_insert, List.mem_cons]
    tauto

def ofList (l : List α) : SortedSet α := empty.insertAll l

@[simp] theorem mem_ofList {l : List α} {b : α} : b ∈ ofList l ↔ b ∈ l := by
  simp [ofList]

def isEmpty (s : SortedSet α) : Bool := s.elems.isEmpty

theorem isEmpty_iff {s : SortedSet α} : s.isEmpty = true ↔ ∀ a, a ∉ s := by
  simp only [isEmpty, List.isEmpty_iff, mem_def]
  exact List.eq_nil_iff_forall_not_mem

end SortedSet

/-- A finite map kept as its list of entries with strictly increasing keys. -/
@[ext] structure SortedMap (κ : Type u) (ν : Type v) [LinearOrder κ] where
  entries : List (κ × ν)
  sorted : (entries.map Prod.fst).Pairwise (· < ·)

namespace SortedMap

variable {κ : Type u} {ν : Type v} [LinearOrder κ]

def empty : SortedMap κ ν := ⟨[], List.Pairwise.nil⟩

instance : Inhabited (SortedMap κ ν) := ⟨empty⟩

instance [DecidableEq ν] : DecidableEq (SortedMap κ ν) := fun s t =>
  decidable_of_iff (s.entries = t.entries) SortedMap.ext_iff.symm

def findEntry (k : κ) : List (κ × ν) → Option ν
  | [] => none
  | e :: l => if e.1 = k then some e.2 else findEntry k l

def find (m : SortedMap κ ν) (k : κ) : Option ν := findEntry k m.entries

def setEntry (k : κ) (v : ν) : List (κ × ν) → List (κ × ν)
  | [] => [(k, v)]
  | e :: l => if k < e.1 then (k, v) :: e :: l else
      if k = e.1 then (k, v) :: l else e :: setEntry k v l

theorem mem_keys_setEntry {k j : κ} {v : ν} {l : List (κ × ν)} :
    j ∈ (setEntry k v l).map Prod.fst ↔ j = k ∨ j ∈ l.map Prod.fst := by
  induction l with
  | nil => simp [setEntry]
  | cons e l ih =>
    simp only [setEntry]
    split_ifs with hlt heq
    · simp
    · subst heq; simp
    · simp only [List.map_cons, List.mem_cons, ih]; tauto

theorem setEntry_sorted {k : κ} {v : ν} {l : List (κ × ν)}
    (h : (l.map Prod.fst).Pairwise (· < ·)) :
    ((setEntry k v l).map Prod.fst).Pairwise (· < ·) := by
  induction l with
  | nil => simp [setEntry]
  | cons e l ih =>
    obtain ⟨he, hl⟩ := List.pairwise_cons.mp h
    simp only [setEntry]
    split_ifs with hlt heq
    · refine List.pairwise_cons.mpr ⟨fun b hb => ?_, h⟩
      rcases List.mem_cons.mp hb with rfl | hb
      · exact hlt
      · exact lt_trans hlt (he b hb)
    · subst heq; exact h
    · refine List.pairwise_cons.mpr ⟨fun b hb => ?_, ih hl⟩
      rcases mem_keys_setEntry.mp hb with rfl | hb
      · exact lt_of_le_of_ne (not_lt.mp hlt) (Ne.symm heq)
      · exact he b hb

/-- Assignment at a key, which creates the entry or replaces its value. -/
def set (m : SortedMap κ ν) (k : κ) (v : ν) : SortedMap κ ν :=
  ⟨setEntry k v m.entries, setEntry_sorted m.sorted⟩

/-- Insertion of an entry that leaves an existing one alone. The second result is the value of the
    existing entry, or none if the insertion took place. -/
def insertNew (m : SortedMap κ ν) (k : κ) (v : ν) : SortedMap κ ν × Option ν :=
  match m.find k with
  | some w => (m, some w)
  | none => (m.set k v, none)

/-- The entries with a key above the given one, in order. -/
def upperBound (m : SortedMap κ ν) (k : κ) : List (κ × ν) :=
  m.entries.dropWhile (fun e => decide (e.1 ≤ k))

private theorem findEntry_setEntry (k j : κ) (v : ν) (l : List (κ × ν)) :
    findEntry j (setEntry k v l) = if k = j then some v else findEntry j l := by
  induction l with
  | nil => simp [setEntry, findEntry]
  | cons e l ih =>
    by_cases hlt : k < e.1
    · simp [setEntry, hlt, findEntry]
    · by_cases heq : k = e.1
      · simp only [setEntry, heq, if_true, if_false, lt_irrefl, findEntry]
        split_ifs <;> rfl
      · simp only [setEntry, hlt, heq, if_false, findEntry, ih]
        by_cases hj : e.1 = j
        · have hk : k ≠ j := fun h => heq (h.trans hj.symm)
          simp [hj, hk]
        · simp [hj]

@[simp] theorem find_empty (k : κ) : (empty : SortedMap κ ν).find k = none := rfl

theorem find_set (m : SortedMap κ ν) (k j : κ) (v : ν) :
    (m.set k v).find j = if k = j then some v else m.find j :=
  findEntry_setEntry k j v m.entries

@[simp] theorem find_set_self (m : SortedMap κ ν) (k : κ) (v : ν) :
    (m.set k v).find k = some v := by
  simp [find_set]

private theorem mem_of_findEntry {k : κ} {v : ν} {l : List (κ × ν)}
    (h : findEntry k l = some v) : (k, v) ∈ l := by
  induction l with
  | nil => simp [findEntry] at h
  | cons e l ih =>
    simp only [findEntry] at h
    split_ifs at h with he
    · obtain rfl := Option.some.inj h
      simp [← he]
    · exact List.mem_cons_of_mem _ (ih h)

private theorem findEntry_of_mem {k : κ} {v : ν} {l : List (κ × ν)}
    (sorted : (l.map Prod.fst).Pairwise (· < ·)) (h : (k, v) ∈ l) : findEntry k l = some v := by
  induction l with
  | nil => simp at h
  | cons e l ih =>
    obtain ⟨he, hl⟩ := List.pairwise_cons.mp sorted
    rcases List.mem_cons.mp h with rfl | h
    · simp [findEntry]
    · have hlt : e.1 < k := he k (List.mem_map.mpr ⟨_, h, rfl⟩)
      simp [findEntry, ne_of_lt hlt, ih hl h]

theorem find_eq_some {m : SortedMap κ ν} {k : κ} {v : ν} :
    m.find k = some v ↔ (k, v) ∈ m.entries :=
  ⟨mem_of_findEntry, findEntry_of_mem m.sorted⟩

theorem insertNew_of_some {m : SortedMap κ ν} {k : κ} {v w : ν} (h : m.find k = some w) :
    m.insertNew k v = (m, some w) := by
  simp [insertNew, h]

theorem insertNew_of_none {m : SortedMap κ ν} {k : κ} {v : ν} (h : m.find k = none) :
    m.insertNew k v = (m.set k v, none) := by
  simp [insertNew, h]

/-- A new key gives one more entry. -/
theorem length_set_of_none {m : SortedMap κ ν} {k : κ} {v : ν} (h : m.find k = none) :
    (m.set k v).entries.length = m.entries.length + 1 := by
  have grow : ∀ l : List (κ × ν), findEntry k l = none →
      (setEntry k v l).length = l.length + 1 := by
    intro l
    induction l with
    | nil => simp [setEntry]
    | cons e l ih =>
      intro absent
      simp only [findEntry] at absent
      split at absent
      · simp at absent
      · rename_i other
        simp only [setEntry, Ne.symm other, if_false]
        split
        · rfl
        · simp [ih absent]
  exact grow m.entries h

theorem find_set_of_none {m : SortedMap κ ν} {e : κ × ν} (fresh : m.find e.1 = none) (k : κ)
    (v : ν) : (m.set e.1 e.2).find k = some v ↔ m.find k = some v ∨ (k, v) = e := by
  rw [find_set]
  by_cases same : e.1 = k
  · subst same
    rw [if_pos rfl, fresh]
    constructor
    · intro found
      exact Or.inr (Prod.ext rfl (Option.some.inj found).symm)
    · rintro (found | here)
      · cases found
      · exact congrArg some (congrArg Prod.snd here).symm
  · rw [if_neg same]
    constructor
    · exact Or.inl
    · rintro (found | here)
      · exact found
      · exact absurd (congrArg Prod.fst here).symm same

theorem find_foldl_set {l : List (κ × ν)} (apart : l.Pairwise fun e f => e.1 ≠ f.1)
    {m : SortedMap κ ν} (fresh : ∀ e ∈ l, m.find e.1 = none) (k : κ) (v : ν) :
    (l.foldl (fun m e => m.set e.1 e.2) m).find k = some v ↔ m.find k = some v ∨ (k, v) ∈ l := by
  induction l generalizing m with
  | nil => simp
  | cons e l ih =>
    obtain ⟨others, apart⟩ := List.pairwise_cons.mp apart
    have fresh' : ∀ f ∈ l, (m.set e.1 e.2).find f.1 = none := by
      intro f mem
      rw [find_set, if_neg (others f mem)]
      exact fresh f (List.mem_cons_of_mem e mem)
    rw [List.foldl_cons, ih apart fresh', find_set_of_none (fresh e List.mem_cons_self),
      List.mem_cons, or_assoc]

theorem nodup_entries (m : SortedMap κ ν) : m.entries.Nodup :=
  (List.pairwise_map.mp m.sorted).imp fun hlt heq => ne_of_lt hlt (congrArg Prod.fst heq)

/-- Maps with the same lookups are the same value. -/
theorem eq_of_find_eq {m n : SortedMap κ ν} (h : ∀ k, m.find k = n.find k) : m = n := by
  have mem : ∀ e, e ∈ m.entries ↔ e ∈ n.entries := fun e => by
    rw [← find_eq_some (k := e.1) (v := e.2), ← find_eq_some (k := e.1) (v := e.2), h]
  have perm := (List.perm_ext_iff_of_nodup m.nodup_entries n.nodup_entries).mpr mem
  exact SortedMap.ext (perm.eq_of_pairwise
    (fun a b _ _ hab hba => absurd hab (lt_asymm hba))
    (List.pairwise_map.mp m.sorted) (List.pairwise_map.mp n.sorted))

theorem mem_upperBound {m : SortedMap κ ν} {k : κ} {e : κ × ν} :
    e ∈ m.upperBound k ↔ e ∈ m.entries ∧ k < e.1 := by
  have general : ∀ l : List (κ × ν), (l.map Prod.fst).Pairwise (· < ·) →
      (e ∈ l.dropWhile (fun e => decide (e.1 ≤ k)) ↔ e ∈ l ∧ k < e.1) := by
    intro l sorted
    induction l with
    | nil => simp
    | cons f l ih =>
      obtain ⟨hf, hl⟩ := List.pairwise_cons.mp sorted
      by_cases hle : f.1 ≤ k
      · rw [List.dropWhile_cons_of_pos (by simpa using hle), ih hl, List.mem_cons]
        constructor
        · exact fun h => ⟨Or.inr h.1, h.2⟩
        · rintro ⟨rfl | h, hk⟩
          · exact absurd hk (not_lt.mpr hle)
          · exact ⟨h, hk⟩
      · rw [List.dropWhile_cons_of_neg (by simpa using hle)]
        refine ⟨fun h => ⟨h, ?_⟩, And.left⟩
        rcases List.mem_cons.mp h with rfl | h
        · exact not_le.mp hle
        · exact lt_trans (not_le.mp hle) (hf _ (List.mem_map.mpr ⟨_, h, rfl⟩))
  exact general m.entries m.sorted

theorem upperBound_sorted (m : SortedMap κ ν) (k : κ) :
    ((m.upperBound k).map Prod.fst).Pairwise (· < ·) :=
  m.sorted.sublist ((List.dropWhile_sublist _).map Prod.fst)

theorem upperBound_head {m : SortedMap κ ν} {k : κ} {e : κ × ν} {l : List (κ × ν)}
    (h : m.upperBound k = e :: l) :
    m.find e.1 = some e.2 ∧ k < e.1 ∧ ∀ j w, m.find j = some w → k < j → e.1 ≤ j := by
  have head : e ∈ m.upperBound k := by simp [h]
  obtain ⟨mem, above⟩ := mem_upperBound.mp head
  refine ⟨find_eq_some.mpr mem, above, fun j w hj hk => ?_⟩
  have member : (j, w) ∈ m.upperBound k := mem_upperBound.mpr ⟨find_eq_some.mp hj, hk⟩
  have sorted := m.upperBound_sorted k
  rw [h] at member sorted
  rcases List.mem_cons.mp member with rfl | member
  · exact le_rfl
  · exact le_of_lt ((List.pairwise_cons.mp sorted).1 j (List.mem_map.mpr ⟨_, member, rfl⟩))

theorem upperBound_nil {m : SortedMap κ ν} {k : κ} (h : m.upperBound k = []) {j : κ} {w : ν}
    (hj : m.find j = some w) : j ≤ k := by
  by_contra hk
  have member : (j, w) ∈ m.upperBound k :=
    mem_upperBound.mpr ⟨find_eq_some.mp hj, not_le.mp hk⟩
  simp [h] at member

end SortedMap

end Mewa.Lib
