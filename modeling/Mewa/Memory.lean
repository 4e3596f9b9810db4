/- Module: Mewa/Memory
   digest: A memory resource that hands out blocks of a buffer and asks its upstream for the rest. -/

import Mathlib

set_option autoImplicit false
set_option relaxedAutoImplicit false

namespace Mewa

namespace Memory

/-- Sizes and addresses have 64 bits. -/
abbrev Size := BitVec 64

/-- A resource over a buffer, whose end has an address. -/
structure MonotonicBufferResource where
  baseptr : Size
  index : Size := 0
  size : Size
  buffer : baseptr.toNat + size.toNat < 2 ^ 64

/-- The answer to a request: a block of the buffer, a block of the upstream or an error. -/
inductive Answer
  | buffer (address : Size)
  | upstream (bytes alignment : Size)
  | badAlloc
  deriving DecidableEq, Repr

structure Request where
  bytes : Size
  alignment : Size
  deriving DecidableEq, Repr

def isPowerOfTwo (x : Size) : Bool := x != 0 && (x &&& (~~~x + 1)) == x

namespace MonotonicBufferResource

/-- The index moves to the next multiple of the alignment, without regard to the address of the
    buffer. -/
def skipAlign (m : MonotonicBufferResource) (alignment : Size) :
    Option MonotonicBufferResource :=
  if isPowerOfTwo alignment then
    let rest := m.index &&& (alignment - 1)
    if rest ≠ 0 then some { m with index := m.index + (alignment - rest) } else some m
  else none

/-- The sum in the comparison can overflow. A request for the upstream has moved the index, too. -/
def allocate (m : MonotonicBufferResource) (r : Request) : MonotonicBufferResource × Answer :=
  match m.skipAlign r.alignment with
  | none => (m, .badAlloc)
  | some m =>
    if m.index + r.bytes > m.size then (m, .upstream r.bytes r.alignment)
    else ({ m with index := m.index + r.bytes }, .buffer (m.baseptr + m.index))

/-- The answers to some requests. -/
def serve (m : MonotonicBufferResource) : List Request → List (Request × Answer)
  | [] => []
  | r :: requests => (r, (m.allocate r).2) :: (m.allocate r).1.serve requests

/-- The first position for a request that has an aligned index. -/
def padded (m : MonotonicBufferResource) (r : Request) : Nat :=
  let rest := m.index.toNat % r.alignment.toNat
  if rest = 0 then m.index.toNat else m.index.toNat + (r.alignment.toNat - rest)

end MonotonicBufferResource

/-! One request. -/

section Allocate

variable {m : MonotonicBufferResource} {r : Request}

def Aligned (r : Request) : Prop := ∃ k, r.alignment.toNat = 2 ^ k

theorem isPowerOfTwo_shift :
    ∀ k : Fin 64, isPowerOfTwo (1#64 <<< k.val) = true := by decide

theorem isPowerOfTwo_of_aligned (aligned : Aligned r) : isPowerOfTwo r.alignment = true := by
  obtain ⟨k, power⟩ := aligned
  have small : k < 64 := by
    have bound := r.alignment.isLt
    rw [power] at bound
    exact (Nat.pow_lt_pow_iff_right (by decide)).mp bound
  have shift : r.alignment = 1#64 <<< k := by
    apply BitVec.eq_of_toNat_eq
    have bound : 2 ^ k < 2 ^ 64 := Nat.pow_lt_pow_right (by decide) small
    rw [power, BitVec.toNat_shiftLeft, Nat.shiftLeft_eq]
    show 2 ^ k = 1 * 2 ^ k % 2 ^ 64
    rw [Nat.one_mul, Nat.mod_eq_of_lt bound]
  rw [shift]
  exact isPowerOfTwo_shift ⟨k, small⟩

theorem padded_ge (m : MonotonicBufferResource) (r : Request) : m.index.toNat ≤ m.padded r := by
  unfold MonotonicBufferResource.padded
  simp only
  split
  · exact Nat.le_refl _
  · exact Nat.le_add_right _ _

theorem dvd_padded (aligned : Aligned r) : r.alignment.toNat ∣ m.padded r := by
  obtain ⟨k, power⟩ := aligned
  unfold MonotonicBufferResource.padded
  simp only
  split
  · rename_i rest
    exact Nat.dvd_of_mod_eq_zero rest
  · have positive : 0 < r.alignment.toNat := power ▸ Nat.pow_pos (by decide)
    have below := Nat.mod_lt m.index.toNat positive
    have split := Nat.div_add_mod m.index.toNat r.alignment.toNat
    refine ⟨m.index.toNat / r.alignment.toNat + 1, ?_⟩
    rw [Nat.mul_add, Nat.mul_one]
    omega

theorem rest_toNat (aligned : Aligned r) :
    (m.index &&& (r.alignment - 1)).toNat = m.index.toNat % r.alignment.toNat := by
  obtain ⟨k, power⟩ := aligned
  have positive : 0 < 2 ^ k := Nat.pow_pos (by decide)
  have one : (1 : Size) ≤ r.alignment := by
    rw [BitVec.le_def, power]
    exact positive
  rw [BitVec.toNat_and, BitVec.toNat_sub_of_le one, power]
  exact Nat.and_two_pow_sub_one_eq_mod _ k

theorem skipAlign_some (aligned : Aligned r) :
    ∃ m', m.skipAlign r.alignment = some m' ∧ m'.baseptr = m.baseptr ∧ m'.size = m.size ∧
      m'.index.toNat = m.padded r % 2 ^ 64 := by
  unfold MonotonicBufferResource.skipAlign MonotonicBufferResource.padded
  rw [if_pos (isPowerOfTwo_of_aligned aligned)]
  have rest := rest_toNat (m := m) aligned
  have small := m.index.isLt
  have alignment_small := r.alignment.isLt
  by_cases zero : m.index.toNat % r.alignment.toNat = 0
  · have none_left : m.index &&& (r.alignment - 1) = 0 := by
      apply BitVec.eq_of_toNat_eq
      rw [rest, zero]
      rfl
    refine ⟨m, ?_, rfl, rfl, ?_⟩
    · exact if_neg (not_not_intro none_left)
    · simp only [zero, if_true]
      exact (Nat.mod_eq_of_lt small).symm
  · have some_left : m.index &&& (r.alignment - 1) ≠ 0 := by
      intro none_left
      rw [none_left] at rest
      exact zero rest.symm
    have positive : 0 < r.alignment.toNat := by
      obtain ⟨k, power⟩ := aligned
      exact power ▸ Nat.pow_pos (by decide)
    have below := Nat.mod_lt m.index.toNat positive
    refine ⟨{ m with index := m.index + (r.alignment - (m.index &&& (r.alignment - 1))) }, ?_,
      rfl, rfl, ?_⟩
    · exact if_pos some_left
    · have padding : (r.alignment - (m.index &&& (r.alignment - 1))).toNat =
          r.alignment.toNat - m.index.toNat % r.alignment.toNat := by
        rw [BitVec.toNat_sub_of_le, rest]
        rw [BitVec.le_def, rest]
        omega
      simp only [zero, if_false]
      rw [BitVec.toNat_add, padding]

end Allocate

/-! The answers to some requests. -/

section Serve

variable {m : MonotonicBufferResource} {r : Request} {requests : List Request}

/-- A block of the buffer, by the request and the address. -/
def Block (log : List (Request × Answer)) (r : Request) (address : Size) : Prop :=
  (r, .buffer address) ∈ log

/-- Two blocks without a common byte. -/
def Apart (r : Request) (address : Size) (r' : Request) (address' : Size) : Prop :=
  address.toNat + r.bytes.toNat ≤ address'.toNat ∨ address'.toNat + r'.bytes.toNat ≤ address.toNat

def Inside (m : MonotonicBufferResource) (r : Request) (address : Size) : Prop :=
  m.baseptr.toNat ≤ address.toNat ∧
    address.toNat + r.bytes.toNat ≤ m.baseptr.toNat + m.size.toNat

def Fits (m : MonotonicBufferResource) (log : List (Request × Answer)) (r : Request) : Prop :=
  ∃ address, Inside m r address ∧ r.alignment.toNat ∣ address.toNat ∧
    ∀ r' address', Block log r' address' → Apart r' address' r address

/-- The blocks are apart, inside of the buffer and aligned, and the requests without a place go
    to the upstream. -/
structure Correct (m : MonotonicBufferResource) (log : List (Request × Answer)) : Prop where
  apart : log.Pairwise fun e e' => ∀ address address', e.2 = .buffer address →
    e'.2 = .buffer address' → Apart e.1 address e'.1 address'
  inside : ∀ r address, Block log r address → Inside m r address
  aligned : ∀ r address, Block log r address → r.alignment.toNat ∣ address.toNat
  upstream : ∀ before r answer after, log = before ++ (r, answer) :: after →
    ¬ Fits m before r → answer = .upstream r.bytes r.alignment

/-- The padding does not overflow and neither does the sum that is compared, or it is still too
    large. A buffer with room for the block starts at a multiple of the alignment. -/
structure Safe (m : MonotonicBufferResource) (r : Request) : Prop where
  padding : m.padded r < 2 ^ 64
  sum : m.padded r + r.bytes.toNat < 2 ^ 64 ∨
    m.size.toNat < m.padded r + r.bytes.toNat - 2 ^ 64
  base : m.padded r + r.bytes.toNat ≤ m.size.toNat → r.alignment.toNat ∣ m.baseptr.toNat

def AllSafe (m : MonotonicBufferResource) : List Request → Prop
  | [] => True
  | r :: requests => Safe m r ∧ AllSafe (m.allocate r).1 requests

theorem allocate_cases (aligned : Aligned r) (safe : Safe m r) :
    (m.allocate r).1.baseptr = m.baseptr ∧ (m.allocate r).1.size = m.size ∧
      (m.padded r + r.bytes.toNat ≤ m.size.toNat ∧
        (m.allocate r).1.index.toNat = m.padded r + r.bytes.toNat ∧
        (∃ address, (m.allocate r).2 = .buffer address ∧
          address.toNat = m.baseptr.toNat + m.padded r) ∨
      m.size.toNat < m.padded r + r.bytes.toNat ∧
        (m.allocate r).1.index.toNat = m.padded r ∧
        (m.allocate r).2 = .upstream r.bytes r.alignment) := by
  obtain ⟨m', skipped, baseptr, size, index⟩ := skipAlign_some (m := m) aligned
  rw [Nat.mod_eq_of_lt safe.padding] at index
  have small := r.bytes.isLt
  have sum : (m'.index + r.bytes).toNat = (m.padded r + r.bytes.toNat) % 2 ^ 64 := by
    rw [BitVec.toNat_add, index]
  have buffer := m.buffer
  unfold MonotonicBufferResource.allocate
  rw [skipped]
  by_cases room : m.padded r + r.bytes.toNat ≤ m.size.toNat
  · rw [Nat.mod_eq_of_lt (by omega)] at sum
    have served : ¬ m'.index + r.bytes > m'.size := by
      rw [gt_iff_lt, BitVec.lt_def, sum, size]
      omega
    simp only [if_neg served]
    refine ⟨baseptr, size, Or.inl ⟨room, sum, _, rfl, ?_⟩⟩
    rw [BitVec.toNat_add, baseptr, index, Nat.mod_eq_of_lt (by omega)]
  · have refused : m'.index + r.bytes > m'.size := by
      rw [gt_iff_lt, BitVec.lt_def, sum, size]
      rcases safe.sum with fits | wraps
      · rw [Nat.mod_eq_of_lt fits]
        omega
      · have overflow : m.padded r + r.bytes.toNat = 2 ^ 64 +
            (m.padded r + r.bytes.toNat - 2 ^ 64) := by omega
        rw [overflow, Nat.add_mod_left, Nat.mod_eq_of_lt]
        · exact wraps
        · have padding := safe.padding
          omega
    simp only [if_pos refused]
    exact ⟨baseptr, size, Or.inr ⟨by omega, index, trivial⟩⟩

theorem serve_blocks (aligned : ∀ r ∈ requests, Aligned r) (safe : AllSafe m requests)
    {address : Size} (block : Block (m.serve requests) r address) :
    m.baseptr.toNat + m.index.toNat ≤ address.toNat ∧
      address.toNat + r.bytes.toNat ≤ m.baseptr.toNat + m.size.toNat ∧
      r.alignment.toNat ∣ address.toNat := by
  induction requests generalizing m with
  | nil => cases block
  | cons first requests ih =>
    obtain ⟨safe_first, safe⟩ := safe
    have aligned_first := aligned first List.mem_cons_self
    obtain ⟨baseptr, size, cases⟩ := allocate_cases aligned_first safe_first
    have after := padded_ge m first
    rcases List.mem_cons.mp block with here | later
    · obtain ⟨rfl, answer⟩ := Prod.mk.inj here
      rcases cases with ⟨room, -, address', served, start⟩ | ⟨-, -, refused⟩
      · rw [served] at answer
        obtain rfl := Answer.buffer.inj answer
        refine ⟨by omega, by omega, ?_⟩
        rw [start]
        exact Nat.dvd_add (safe_first.base room) (dvd_padded aligned_first)
      · rw [refused] at answer
        cases answer
    · have rest := ih (fun r mem => aligned r (List.mem_cons_of_mem _ mem)) safe later
      rw [baseptr, size] at rest
      obtain ⟨start, bound, divides⟩ := rest
      rcases cases with ⟨-, index, -⟩ | ⟨-, index, -⟩
      · exact ⟨by omega, bound, divides⟩
      · exact ⟨by omega, bound, divides⟩

theorem serve_apart (aligned : ∀ r ∈ requests, Aligned r) (safe : AllSafe m requests) :
    (m.serve requests).Pairwise fun e e' => ∀ address address', e.2 = .buffer address →
      e'.2 = .buffer address' → Apart e.1 address e'.1 address' := by
  induction requests generalizing m with
  | nil => exact .nil
  | cons first requests ih =>
    obtain ⟨safe_first, safe⟩ := safe
    have aligned_rest : ∀ r ∈ requests, Aligned r :=
      fun r mem => aligned r (List.mem_cons_of_mem _ mem)
    refine .cons ?_ (ih aligned_rest safe)
    rintro ⟨r, answer⟩ mem address address' served rfl
    obtain ⟨baseptr, -, cases⟩ := allocate_cases (aligned first List.mem_cons_self) safe_first
    obtain ⟨start, -⟩ := serve_blocks aligned_rest safe mem
    simp only at served
    rcases cases with ⟨-, index, place, served', at_place⟩ | ⟨-, -, refused⟩
    · rw [served'] at served
      obtain rfl := Answer.buffer.inj served
      rw [baseptr] at start
      exact Or.inl (by simp only; omega)
    · rw [refused] at served
      cases served

theorem serve_answer (aligned : ∀ r ∈ requests, Aligned r) (safe : AllSafe m requests)
    {answer : Answer} (mem : (r, answer) ∈ m.serve requests) :
    (∃ address, answer = .buffer address) ∨ answer = .upstream r.bytes r.alignment := by
  induction requests generalizing m with
  | nil => cases mem
  | cons first requests ih =>
    obtain ⟨safe_first, safe⟩ := safe
    rcases List.mem_cons.mp mem with here | later
    · obtain ⟨rfl, rfl⟩ := Prod.mk.inj here
      obtain ⟨-, -, ⟨-, -, address, served, -⟩ | ⟨-, -, refused⟩⟩ :=
        allocate_cases (aligned r List.mem_cons_self) safe_first
      · exact Or.inl ⟨address, served⟩
      · exact Or.inr refused
    · exact ih (fun r mem => aligned r (List.mem_cons_of_mem _ mem)) safe later

/-- With safe requests only, the resource is correct whatever the history of the index. -/
theorem serve_correct (m : MonotonicBufferResource) (requests : List Request)
    (aligned : ∀ r ∈ requests, Aligned r) (safe : AllSafe m requests) :
    Correct m (m.serve requests) := by
  have apart := serve_apart aligned safe
  refine ⟨apart, ?_, ?_, ?_⟩
  · intro r address block
    obtain ⟨start, bound, -⟩ := serve_blocks aligned safe block
    exact ⟨by omega, bound⟩
  · intro r address block
    exact (serve_blocks aligned safe block).2.2
  · intro before r answer after split no_place
    have mem : (r, answer) ∈ m.serve requests := by simp [split]
    rcases serve_answer aligned safe mem with ⟨address, rfl⟩ | refused
    · refine absurd ⟨address, ?_, ?_, ?_⟩ no_place
      · obtain ⟨start, bound, -⟩ := serve_blocks aligned safe mem
        exact ⟨by omega, bound⟩
      · exact (serve_blocks aligned safe mem).2.2
      · intro r' address' block
        rw [split, List.pairwise_append] at apart
        exact apart.2.2 _ block _ List.mem_cons_self address' address rfl rfl
    · exact refused

theorem serve_correct_sample : Correct ⟨16, 0, 8, by decide⟩
    (MonotonicBufferResource.serve ⟨16, 0, 8, by decide⟩ [⟨3, 1⟩, ⟨4, 4⟩, ⟨1, 1⟩]) := by
  apply serve_correct
  · intro r mem
    simp only [List.mem_cons, List.not_mem_nil, or_false] at mem
    rcases mem with rfl | rfl | rfl
    · exact ⟨0, rfl⟩
    · exact ⟨2, rfl⟩
    · exact ⟨0, rfl⟩
  · refine ⟨⟨by decide, by decide, by decide⟩, ⟨by decide, by decide, by decide⟩,
      ⟨by decide, by decide, by decide⟩, trivial⟩

/-- The first block of a buffer at an odd address is not aligned. -/
theorem odd_buffer : ¬ Correct ⟨17, 0, 8, by decide⟩
    (MonotonicBufferResource.serve ⟨17, 0, 8, by decide⟩ [⟨4, 4⟩]) := by
  intro correct
  have block : Block (MonotonicBufferResource.serve ⟨17, 0, 8, by decide⟩ [⟨4, 4⟩]) ⟨4, 4⟩ 17 := by
    unfold Block
    decide
  have aligned := correct.aligned _ _ block
  revert aligned
  decide

end Serve

end Memory

end Mewa
