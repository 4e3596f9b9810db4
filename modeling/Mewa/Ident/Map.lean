/- Module: Mewa/Ident/Map
   digest: The identifier map gives numbers in the order of the first occurrence up to 65529 bytes. -/

import Mewa.Ident.Key
import Mewa.Lib.Numbering
import Mewa.TypeDb.Names

set_option autoImplicit false
set_option relaxedAutoImplicit false

namespace Mewa.Ident

open Mewa.Lib IdentKey

/-- The elements of the hash table with their numbers, and the keys by number. -/
structure IdentMap where
  table : List (IdentKey × Int) := []
  inv : List IdentKey := []

namespace IdentMap

/-- The walk through the elements of a bucket. -/
def findIn (env : IdentKey) : List (IdentKey × Int) → Except Failure (Option Int)
  | [] => .ok none
  | (key, id) :: rest => do
    if ← env.equal key then return some id
    findIn env rest

/-- The number of buckets is a choice of the hash table, as it grows. -/
def find (buckets : Nat → Nat) (map : IdentMap) (env : IdentKey) : Except Failure (Option Int) :=
  let bucket (key : IdentKey) := key.hash.toNat % buckets map.table.length
  findIn env (map.table.filter fun element => bucket element.1 = bucket env)

/-- The insertion of a new element finds its place with another search. -/
def insert (buckets : Nat → Nat) (map : IdentMap) (env : IdentKey) (rt : Int) :
    Except Failure IdentMap :=
  map.find buckets env >>= fun
  | some _ => .error (.thrown ⟨.LogicError, "", 0⟩)
  | none => .ok ⟨map.table ++ [(env, rt)], map.inv ++ [env]⟩

def get (buckets : Nat → Nat) (map : IdentMap) (str : List Byte) : Except Failure (Int × IdentMap) :=
  IdentKey.create str >>= fun env => map.find buckets env >>= fun
  | some rt => .ok (rt, map)
  | none => do
    let env ← IdentKey.create str
    let rt := (map.inv.length : Int) + 1
    let map ← map.insert buckets env rt
    return (rt, map)

def lookup (buckets : Nat → Nat) (map : IdentMap) (str : List Byte) : Except Failure Int := do
  let env ← IdentKey.create str
  return (← map.find buckets env).getD 0

/-- The string of a number, read without a check of the number. -/
def invert (map : IdentMap) (id : Int) : Except Failure (List Byte) :=
  match map.inv[(id - 1).toNat]? with
  | none => .error .outOfRange
  | some key => .ok (key.buf.take key.size)

end IdentMap

inductive Op
  | get (str : List Byte)
  | lookup (str : List Byte)

def Op.str : Op → List Byte
  | .get str => str
  | .lookup str => str

def gets (ops : List Op) : List (List Byte) :=
  ops.flatMap fun
    | .get str => [str]
    | .lookup _ => []

/-- The numbers returned by a run of calls, and the map after it. -/
def runOps (buckets : Nat → Nat) : IdentMap → List Op → Except Failure (List Int × IdentMap)
  | map, [] => .ok ([], map)
  | map, .get str :: ops => do
    let (id, map) ← map.get buckets str
    let (ids, map) ← runOps buckets map ops
    return (id :: ids, map)
  | map, .lookup str :: ops => do
    let id ← map.lookup buckets str
    let (ids, map) ← runOps buckets map ops
    return (id :: ids, map)

/-- The number of a string after some were passed to get, and 0 for others. -/
def numberOf (names : List (List Byte)) (str : List Byte) : Int := ((numberIn names str).getD 0 : Nat)

/-- The numbers that calls return, after some strings were passed to get. -/
def expected : List (List Byte) → List Op → List Int
  | _, [] => []
  | names, .get str :: ops => numberOf (names ++ [str]) str :: expected (names ++ [str]) ops
  | names, .lookup str :: ops => numberOf names str :: expected names ops

/-- The calls return, with the numbers in the order of the first occurrences and 0 for what was not
    passed to get, different strings have different numbers, and the string of a number is the one
    passed to get. -/
def NumbersOnce (buckets : Nat → Nat) (ops : List Op) : Prop :=
  ∃ map, runOps buckets {} ops = .ok (expected [] ops, map) ∧
    (∀ a ∈ ops.zip (expected [] ops), ∀ b ∈ ops.zip (expected [] ops), a.2 = b.2 → a.2 ≠ 0 →
      a.1.str = b.1.str) ∧
    ∀ str ∈ gets ops, map.invert (numberOf (gets ops) str) = .ok str

/-- The map after the strings were passed to get. -/
structure Holds (map : IdentMap) (names : List (List Byte)) : Prop where
  table : map.table = (distinct names).zipIdx.map fun e => (keyOf e.1, (e.2 : Int) + 1)
  inv : map.inv = (distinct names).map keyOf
  fits : ∀ str ∈ names, str.length ≤ maxBlockString

section Finding

variable {buckets : Nat → Nat} {map : IdentMap} {names : List (List Byte)} {str : List Byte}

theorem findIn_eq (fits : str.length ≤ maxBlockString) {elements : List (List Byte × Nat)}
    (all : ∀ e ∈ elements, e.1.length ≤ maxBlockString) :
    IdentMap.findIn (keyOf str) (elements.map fun e => (keyOf e.1, (e.2 : Int) + 1)) =
      .ok ((elements.find? fun e => str = e.1).map fun e => (e.2 : Int) + 1) := by
  induction elements with
  | nil => rfl
  | cons e elements ih =>
    obtain ⟨head, tail⟩ := List.forall_mem_cons.mp all
    simp only [List.map_cons, IdentMap.findIn, equal_keyOf fits head, ok_bind, ih tail]
    by_cases same : str = e.1 <;> simp [same, pure, Except.pure]

theorem Holds.find (holds : Holds map names) (fits : str.length ≤ maxBlockString) :
    map.find buckets (keyOf str) = .ok ((numberIn names str).map fun (n : Nat) => (n : Int)) := by
  have all : ∀ e ∈ (distinct names).zipIdx, e.1.length ≤ maxBlockString := fun e mem =>
    holds.fits e.1 (mem_distinct.mp (List.fst_mem_of_mem_zipIdx mem))
  unfold IdentMap.find
  simp only [holds.table, List.filter_map]
  rw [findIn_eq fits fun e mem => all e (List.mem_of_mem_filter mem), List.find?_filter,
    ← find_distinct, Option.map_map]
  -- an equal string has the same hash, so that the bucket does not matter
  congr 3
  ext e
  by_cases same : str = e.1 <;> simp [same]

theorem Holds.length (holds : Holds map names) : map.inv.length = (distinct names).length := by
  rw [holds.inv, List.length_map]

theorem holds_empty : Holds {} [] where
  table := by simp [distinct]
  inv := by simp [distinct]
  fits := by simp

theorem Holds.snoc_known (holds : Holds map names) (known : str ∈ names) :
    Holds map (names ++ [str]) where
  table := by rw [distinct_snoc, if_pos known, holds.table]
  inv := by rw [distinct_snoc, if_pos known, holds.inv]
  fits := by
    intro name mem
    rcases List.mem_append.mp mem with old | last
    · exact holds.fits name old
    · exact holds.fits name (List.mem_singleton.mp last ▸ known)

theorem Holds.snoc_fresh (holds : Holds map names) (fits : str.length ≤ maxBlockString)
    (fresh : str ∉ names) :
    Holds ⟨map.table ++ [(keyOf str, (map.inv.length : Int) + 1)], map.inv ++ [keyOf str]⟩
      (names ++ [str]) where
  table := by
    rw [distinct_snoc, if_neg fresh, List.zipIdx_append, List.map_append, holds.table,
      holds.length]
    simp
  inv := by
    rw [distinct_snoc, if_neg fresh, List.map_append, holds.inv]
    rfl
  fits := by
    intro name mem
    rcases List.mem_append.mp mem with old | last
    · exact holds.fits name old
    · exact List.mem_singleton.mp last ▸ fits

theorem Holds.lookup (holds : Holds map names) (fits : str.length ≤ maxBlockString) :
    map.lookup buckets str = .ok (numberOf names str) := by
  simp only [IdentMap.lookup, create_fits fits, ok_bind, holds.find fits, numberOf]
  cases numberIn names str <;> rfl

theorem Holds.get (buckets : Nat → Nat) (holds : Holds map names) (fits : str.length ≤ maxBlockString) :
    ∃ map', map.get buckets str = .ok (numberOf (names ++ [str]) str, map') ∧
      Holds map' (names ++ [str]) := by
  by_cases known : str ∈ names
  · refine ⟨map, ?_, holds.snoc_known known⟩
    have number : numberIn (names ++ [str]) str = numberIn names str := by
      rw [numberIn_snoc, if_neg fun fresh => fresh.2 known]
    rw [IdentMap.get, create_fits fits, ok_bind, holds.find fits, ok_bind, numberOf, number,
      numberIn_of_mem known]
    rfl
  · refine ⟨_, ?_, holds.snoc_fresh fits known⟩
    have missing : numberIn names str = none := if_neg known
    simp only [IdentMap.get, IdentMap.insert, create_fits fits, ok_bind, holds.find fits, missing,
      Option.map_none, numberOf, numberIn_snoc_fresh known, holds.length]
    rfl

theorem Holds.invert (holds : Holds map names) (mem : str ∈ names) :
    map.invert (numberOf names str) = .ok str := by
  obtain ⟨n, number, node⟩ := exists_number mem
  have position : (numberOf names str - 1).toNat = n := by
    simp [numberOf, number]
  rw [IdentMap.invert, position, holds.inv, List.getElem?_map, node]
  simp [keyOf]

end Finding

section Runs

variable {buckets : Nat → Nat}

theorem runOps_expected (buckets : Nat → Nat) : ∀ {ops : List Op} {map : IdentMap} {names : List (List Byte)},
    Holds map names → (∀ op ∈ ops, op.str.length ≤ maxBlockString) →
    ∃ map', runOps buckets map ops = .ok (expected names ops, map') ∧
      Holds map' (names ++ gets ops)
  | [], map, names, holds, _ => ⟨map, rfl, by simpa [gets] using holds⟩
  | .get str :: ops, map, names, holds, fits => by
    obtain ⟨head, tail⟩ := List.forall_mem_cons.mp fits
    obtain ⟨map', got, holds'⟩ := holds.get buckets head
    obtain ⟨last, run, after⟩ := runOps_expected buckets holds' tail
    refine ⟨last, ?_, by simpa [gets, Op.str] using after⟩
    change IdentMap.get buckets map str = _ at got
    simp only [runOps, got, ok_bind, run]
    rfl
  | .lookup str :: ops, map, names, holds, fits => by
    obtain ⟨head, tail⟩ := List.forall_mem_cons.mp fits
    obtain ⟨last, run, after⟩ := runOps_expected buckets holds tail
    refine ⟨last, ?_, by simpa [gets] using after⟩
    have found : map.lookup buckets str = _ := holds.lookup head
    simp only [runOps, found, ok_bind, run]
    rfl

theorem fits_of_runOps : ∀ {ops : List Op} {map map' : IdentMap} {ids : List Int},
    runOps buckets map ops = .ok (ids, map') → ∀ op ∈ ops, op.str.length ≤ maxBlockString
  | [], _, _, _, _ => by simp
  | .get str :: ops, map, map', ids, run => by
    obtain ⟨⟨id, next⟩, got, run⟩ := bind_eq_ok.mp run
    obtain ⟨⟨ids, last⟩, run, -⟩ := bind_eq_ok.mp run
    refine List.forall_mem_cons.mpr ⟨?_, fits_of_runOps run⟩
    obtain ⟨env, key, -⟩ := bind_eq_ok.mp got
    exact Nat.not_lt.mp fun more => by simp [Op.str] at more; simp [create_overflow more] at key
  | .lookup str :: ops, map, map', ids, run => by
    obtain ⟨id, got, run⟩ := bind_eq_ok.mp run
    obtain ⟨⟨ids, last⟩, run, -⟩ := bind_eq_ok.mp run
    refine List.forall_mem_cons.mpr ⟨?_, fits_of_runOps run⟩
    obtain ⟨env, key, -⟩ := bind_eq_ok.mp got
    exact Nat.not_lt.mp fun more => by simp [Op.str] at more; simp [create_overflow more] at key

theorem numberOf_eq_zero {names : List (List Byte)} {str : List Byte} :
    numberOf names str = 0 ↔ str ∉ names := by
  constructor
  · intro zero mem
    obtain ⟨n, number, -⟩ := exists_number mem
    simp [numberOf, number] at zero
    omega
  · intro missing
    simp [numberOf, numberIn, missing]

theorem numberOf_of_mem_expected : ∀ {ops : List Op} {names : List (List Byte)} {op : Op} {id : Int},
    (op, id) ∈ ops.zip (expected names ops) → id ≠ 0 →
    numberIn (names ++ gets ops) op.str = some id.toNat
  | .get str :: ops, names, op, id, mem, valid => by
    rcases List.mem_cons.mp mem with first | later
    · obtain ⟨rfl, rfl⟩ := Prod.mk.inj first
      have known : str ∈ names ++ [str] := by simp
      obtain ⟨n, number, -⟩ := exists_number known
      have := numberIn_append number (gets ops)
      simpa [gets, Op.str, numberOf, number] using this
    · have := numberOf_of_mem_expected later valid
      simpa [gets] using this
  | .lookup str :: ops, names, op, id, mem, valid => by
    rcases List.mem_cons.mp mem with first | later
    · obtain ⟨rfl, rfl⟩ := Prod.mk.inj first
      have known : str ∈ names := by
        by_contra missing
        exact valid (numberOf_eq_zero.mpr missing)
      obtain ⟨n, number, -⟩ := exists_number known
      have := numberIn_append number (gets ops)
      simpa [gets, Op.str, numberOf, number] using this
    · exact @numberOf_of_mem_expected ops names op id later valid

end Runs

/-- The map is a bijection exactly for strings whose key has a block with a size of 16 bits. -/
theorem numbersOnce_iff (buckets : Nat → Nat) (ops : List Op) :
    NumbersOnce buckets ops ↔ ∀ op ∈ ops, op.str.length ≤ maxBlockString := by
  constructor
  · rintro ⟨map, run, -⟩
    exact fits_of_runOps run
  · intro fits
    obtain ⟨map, run, holds⟩ := runOps_expected buckets holds_empty fits
    refine ⟨map, run, ?_, fun str mem => holds.invert mem⟩
    rintro ⟨op, id⟩ first ⟨op', id'⟩ second same valid
    obtain rfl : id = id' := same
    exact numberIn_injective (numberOf_of_mem_expected first valid)
      (numberOf_of_mem_expected second valid)

/-- A string of 65530 bytes has no key, though its size is less than the greatest size of a key. -/
theorem longString_outside : (65530 ≤ maxsize) ∧
    ¬ NumbersOnce (fun _ => 1) [.get (List.replicate 65530 0)] := by
  refine ⟨by decide, ?_⟩
  rintro ⟨map, run, -⟩
  have overflow : create (List.replicate 65530 0) = .error .outOfRange := by
    apply create_overflow
    rw [List.length_replicate]
    decide
  have failed : runOps (fun _ => 1) {} [.get (List.replicate 65530 0)] = .error .outOfRange := by
    simp only [runOps, IdentMap.get, overflow, error_bind]
  rw [failed] at run
  cases run

section Names

variable {buckets : Nat → Nat} {map : IdentMap} {idents : Mewa.IdentMap} {name : String}

def ByteName (name : String) : Prop := ∀ ch ∈ name.toList, ch.toNat < 256

theorem ofList_bytesOf (bytes : ByteName name) :
    String.ofList ((bytesOf name).map fun byte => Char.ofNat byte.toNat) = name := by
  have chars : ((bytesOf name).map fun byte => Char.ofNat byte.toNat) = name.toList := by
    rw [bytesOf, List.map_map]
    refine (List.map_congr_left fun ch mem => ?_).trans (List.map_id _)
    have small := bytes ch mem
    simp [Nat.mod_eq_of_lt small]
  rw [chars, String.ofList_toList]

theorem bytesOf_inj {other : String} (first : ByteName name) (second : ByteName other) :
    bytesOf name = bytesOf other ↔ name = other := by
  refine ⟨fun same => ?_, fun same => by rw [same]⟩
  rw [← ofList_bytesOf first, same, ofList_bytesOf second]

/-- The map of the code stands for the map of the names known to the database. -/
structure Refines (map : IdentMap) (idents : Mewa.IdentMap) : Prop where
  holds : ∃ names, Holds map names ∧ distinct names = idents.inv.map bytesOf
  bytes : ∀ name ∈ idents.inv, ByteName name

theorem refines_empty : Refines {} ⟨[]⟩ where
  holds := ⟨[], holds_empty, by simp [distinct]⟩
  bytes := by simp

section Positions

variable {names : List (List Byte)}

theorem node_of_found (inv : distinct names = idents.inv.map bytesOf) {i : Nat}
    (found : idents.inv.findIdx? (· == name) = some i) :
    (distinct names)[i]? = some (bytesOf name) := by
  obtain ⟨inside, same, -⟩ := List.findIdx?_eq_some_iff_getElem.mp found
  rw [inv, List.getElem?_map, List.getElem?_eq_getElem inside, eq_of_beq same]
  rfl

theorem fresh_of_missing (inv : distinct names = idents.inv.map bytesOf)
    (all : ∀ other ∈ idents.inv, ByteName other) (bytes : ByteName name)
    (missing : idents.inv.findIdx? (· == name) = none) : bytesOf name ∉ names := by
  intro mem
  rw [← mem_distinct, inv] at mem
  obtain ⟨other, known, same⟩ := List.mem_map.mp mem
  have differs := List.findIdx?_eq_none_iff.mp missing other known
  rw [(bytesOf_inj (all other known) bytes).mp same] at differs
  simp at differs

end Positions

theorem Refines.enter (refines : Refines map idents) (bytes : ByteName name)
    (fits : NameFits name) :
    ∃ map', map.get buckets (bytesOf name) = .ok ((idents.enter name).2, map') ∧
      Refines map' (idents.enter name).1 := by
  obtain ⟨⟨names, holds, inv⟩, all⟩ := refines
  have short : (bytesOf name).length ≤ maxBlockString := by
    rw [length_bytesOf]
    exact fits
  obtain ⟨map', got, holds'⟩ := holds.get buckets short
  unfold Mewa.IdentMap.enter
  cases found : idents.inv.findIdx? (· == name) with
  | some i =>
    have node := node_of_found inv found
    have mem : bytesOf name ∈ names := mem_distinct.mp (List.mem_of_getElem? node)
    have number : numberIn (names ++ [bytesOf name]) (bytesOf name) = some (i + 1) :=
      numberIn_append (numberIn_of_node node) _
    refine ⟨map', ?_, ⟨_, holds', ?_⟩, all⟩
    · rw [got, numberOf, number]
      rfl
    · rw [distinct_snoc, if_pos mem, inv]
  | none =>
    have fresh := fresh_of_missing inv all bytes found
    have size : (distinct names).length = idents.inv.length := by rw [inv, List.length_map]
    refine ⟨map', ?_, ⟨_, holds', ?_⟩, ?_⟩
    · rw [got, numberOf, numberIn_snoc_fresh fresh, size]
      rfl
    · rw [distinct_snoc, if_neg fresh, inv, List.map_append]
      rfl
    · intro other mem
      rcases List.mem_append.mp mem with old | last
      · exact all other old
      · rw [List.mem_singleton.mp last]
        exact bytes

theorem Refines.get (refines : Refines map idents) (bytes : ByteName name) :
    (∀ idents' ident, idents.get name = .ok (idents', ident) →
      ∃ map', map.get buckets (bytesOf name) = .ok (ident, map') ∧ Refines map' idents') ∧
    ∀ e, idents.get name = .error e → map.get buckets (bytesOf name) = .error e := by
  by_cases fits : NameFits name
  · rw [idents.get_of_fits fits]
    obtain ⟨map', got, refines'⟩ := @Refines.enter buckets _ _ _ refines bytes fits
    refine ⟨fun idents' ident same => ?_, fun e failed => (nomatch failed)⟩
    obtain ⟨rfl, rfl⟩ := Prod.mk.inj (Except.ok.inj same)
    exact ⟨map', got, refines'⟩
  · have more : maxBlockString < (bytesOf name).length := by
      rw [length_bytesOf]
      exact not_le.mp fits
    rw [idents.get_of_long fits]
    refine ⟨fun idents' ident same => (nomatch same), fun e failed => ?_⟩
    rw [IdentMap.get, create_overflow more, error_bind, Except.error.inj failed]

theorem Refines.lookup (refines : Refines map idents) (bytes : ByteName name) :
    map.lookup buckets (bytesOf name) = idents.lookup name := by
  by_cases fits : NameFits name
  · have short : (bytesOf name).length ≤ maxBlockString := by
      rw [length_bytesOf]
      exact fits
    obtain ⟨⟨names, holds, inv⟩, all⟩ := refines
    rw [holds.lookup short, idents.lookup_of_fits fits, Mewa.IdentMap.find]
    cases found : idents.inv.findIdx? (· == name) with
    | some i =>
      rw [numberOf, numberIn_of_node (node_of_found inv found)]
      rfl
    | none => rw [numberOf_eq_zero.mpr (fresh_of_missing inv all bytes found)]
  · have more : maxBlockString < (bytesOf name).length := by
      rw [length_bytesOf]
      exact not_le.mp fits
    rw [IdentMap.lookup, create_overflow more, error_bind, idents.lookup_of_long fits]

end Names

end Mewa.Ident
