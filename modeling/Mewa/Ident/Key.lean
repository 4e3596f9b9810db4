/- Module: Mewa/Ident/Key
   digest: The keys of identifiers as blocks of words, their comparison and their hash. -/

import Mewa.Error
import Mewa.Lib.Result
import Mathlib

set_option autoImplicit false
set_option relaxedAutoImplicit false

namespace Mewa.Ident

open Mewa.Lib

abbrev Byte := BitVec 8

abbrev Word := BitVec 32

def bytesOf (name : String) : List Byte := name.toList.map fun ch => BitVec.ofNat 8 ch.toNat

theorem length_bytesOf (name : String) : (bytesOf name).length = name.length := by
  rw [bytesOf, List.length_map, String.length_toList]

/-- The key of an identifier, in a block of its own: two bytes for the size, and the characters
    padded with zeros. -/
structure IdentKey where
  size : Nat
  buf : List Byte
  deriving DecidableEq

namespace IdentKey

/-- The characters begin behind the size. -/
def offs_buf : Nat := 2

/-- The maximum of a short integer of 16 bits less 4. -/
def maxsize : Nat := 65535 - 4

/-- The size of the block of a string with its terminating zero, aligned to words, in integers of
    16 bits. -/
def blksize (strsize : Nat) : Nat :=
  let blksize := (offs_buf + strsize + 1) % 2 ^ 16
  (blksize + (4 - blksize % 4) % 4) % 2 ^ 16

/-- A key in a new block. There is none if the string and its padding do not fit into the block. -/
def create (src : List Byte) : Except Failure IdentKey :=
  let strsize := if src.length > maxsize then maxsize else src.length
  let restsize := (((blksize strsize : Int) - strsize - offs_buf) % 2 ^ 16).toNat
  if offs_buf + strsize + restsize > blksize strsize then .error .outOfRange
  else .ok ⟨strsize, src.take strsize ++ List.replicate restsize 0⟩

/-- The number of the words of the block, computed from the size again. -/
def alignedsize (key : IdentKey) : Nat := blksize key.size / 4

/-- The bytes of the block, the lower byte of the size first. -/
def block (key : IdentKey) : List Byte :=
  BitVec.ofNat 8 key.size :: BitVec.ofNat 8 (key.size / 256) :: key.buf

/-- The words that bytes are read as, the lowest byte first. -/
def wordsOf : List Byte → List Word
  | a :: b :: c :: d :: rest => (d ++ c ++ b ++ a) :: wordsOf rest
  | _ => []

def alignedptr (key : IdentKey) : List Word := wordsOf key.block

/-- The loop over the words of both keys, with the length of the first one. -/
def equalWords : Nat → List Word → List Word → Except Failure Bool
  | 0, _, _ => .ok true
  | n + 1, k :: kk, l :: ll => if k = l then equalWords n kk ll else .ok false
  | _ + 1, _, _ => .error .outOfRange

def equal (key o : IdentKey) : Except Failure Bool :=
  equalWords key.alignedsize key.alignedptr o.alignedptr

structure Bank where
  a : Word := 0xdeadbeef#32
  b : Word := 0xdeadbeef#32
  c : Word := 0xdeadbeef#32

namespace Bank

def rot (n : Word) (d : Nat) : Word := (n <<< d) ||| (n >>> (32 - d))

def mix (bank : Bank) : Bank :=
  let ⟨a, b, c⟩ := bank
  let a := a - c; let a := a ^^^ rot c 4; let c := c + b
  let b := b - a; let b := b ^^^ rot a 6; let a := a + c
  let c := c - b; let c := c ^^^ rot b 8; let b := b + a
  let a := a - c; let a := a ^^^ rot c 16; let c := c + b
  let b := b - a; let b := b ^^^ rot a 19; let a := a + c
  let c := c - b; let c := c ^^^ rot b 4; let b := b + a
  ⟨a, b, c⟩

def final (bank : Bank) : Bank :=
  let ⟨a, b, c⟩ := bank
  let c := c ^^^ b; let c := c - rot b 14
  let a := a ^^^ c; let a := a - rot c 11
  let b := b ^^^ a; let b := b - rot a 25
  let c := c ^^^ b; let c := c - rot b 16
  let a := a ^^^ c; let a := a - rot c 4
  let b := b ^^^ a; let b := b - rot a 14
  let c := c ^^^ b; let c := c - rot b 24
  ⟨a, b, c⟩

end Bank

/-- The loop of the hash function takes three words at a time and leaves one to three, if there are
    any. -/
def hashWords : Bank → List Word → Bank
  | bank, x :: y :: z :: w :: rest =>
    hashWords (Bank.mix ⟨bank.a + x, bank.b + y, bank.c + z⟩) (w :: rest)
  | bank, [x, y, z] => Bank.final ⟨bank.a + x, bank.b + y, bank.c + z⟩
  | bank, [x, y] => Bank.final ⟨bank.a + x, bank.b + y, bank.c⟩
  | bank, [x] => Bank.final ⟨bank.a + x, bank.b, bank.c⟩
  | bank, [] => bank

def hash (key : IdentKey) : BitVec 64 :=
  let bank := hashWords {} (key.alignedptr.take key.alignedsize)
  (bank.c.setWidth 64 <<< 32) + (bank.b + bank.a).setWidth 64

end IdentKey

open IdentKey

/-- The longest string whose block has a size of 16 bits. -/
def maxBlockString : Nat := 65529

section Blocks

variable {s t : List Byte}

theorem blksize_fits {n : Nat} (fits : n ≤ maxBlockString) :
    blksize n = 4 * ((n + 3 + 3) / 4) := by
  unfold maxBlockString at fits
  simp only [blksize, offs_buf]
  omega

theorem blksize_overflow {n : Nat} (more : maxBlockString < n) (most : n ≤ maxsize) :
    blksize n = 0 := by
  simp only [maxBlockString, maxsize] at more most
  simp only [blksize, offs_buf]
  omega

/-- The key of a string whose block has a size. -/
def keyOf (s : List Byte) : IdentKey :=
  ⟨s.length, s ++ List.replicate (blksize s.length - s.length - offs_buf) 0⟩

theorem create_fits (fits : s.length ≤ maxBlockString) : create s = .ok (keyOf s) := by
  have size := blksize_fits fits
  have short : ¬ s.length > maxsize := by
    simp only [maxBlockString, maxsize] at fits ⊢
    omega
  have rest : (((blksize s.length : Int) - s.length - offs_buf) % 2 ^ 16).toNat =
      blksize s.length - s.length - offs_buf := by
    unfold maxBlockString at fits
    rw [size]
    simp only [offs_buf]
    omega
  have room : ¬ offs_buf + s.length + (blksize s.length - s.length - offs_buf) >
      blksize s.length := by
    rw [size]
    simp only [offs_buf]
    omega
  simp only [create, if_neg short, rest, if_neg room, List.take_length]
  rfl

theorem create_overflow (more : maxBlockString < s.length) : create s = .error .outOfRange := by
  obtain ⟨n, cut, above, most⟩ : ∃ n, (if s.length > maxsize then maxsize else s.length) = n ∧
      maxBlockString < n ∧ n ≤ maxsize := by
    by_cases long : s.length > maxsize
    · exact ⟨maxsize, if_pos long, by decide, Nat.le_refl _⟩
    · exact ⟨s.length, if_neg long, more, Nat.not_lt.mp long⟩
  have none := blksize_overflow above most
  simp only [create, cut, none]
  rw [if_pos]
  simp only [offs_buf]
  omega

theorem length_wordsOf : ∀ (l : List Byte), (wordsOf l).length = l.length / 4
  | [] => rfl
  | [_] => by simp [wordsOf]
  | [_, _] => by simp [wordsOf]
  | [_, _, _] => by simp [wordsOf]
  | a :: b :: c :: d :: rest => by
    simp only [wordsOf, List.length_cons, length_wordsOf rest]
    omega

theorem word_injective {a b c d a' b' c' d' : Byte}
    (same : (d ++ c ++ b ++ a : Word) = (d' ++ c' ++ b' ++ a' : Word)) :
    a = a' ∧ b = b' ∧ c = c' ∧ d = d' := by
  have bytes := congrArg BitVec.toNat same
  simp only [BitVec.toNat_append] at bytes
  have := a.isLt; have := b.isLt; have := c.isLt; have := d.isLt
  have := a'.isLt; have := b'.isLt; have := c'.isLt; have := d'.isLt
  rw [← BitVec.toNat_inj, ← BitVec.toNat_inj, ← BitVec.toNat_inj, ← BitVec.toNat_inj]
  simp only [← Nat.shiftLeft_add_eq_or_of_lt, BitVec.isLt] at bytes
  omega

theorem wordsOf_injective : ∀ {l l' : List Byte}, l.length % 4 = 0 → l.length = l'.length →
    wordsOf l = wordsOf l' → l = l'
  | [], [], _, _, _ => rfl
  | a :: b :: c :: d :: rest, a' :: b' :: c' :: d' :: rest', whole, equal, same => by
    obtain ⟨first, later⟩ := List.cons.inj same
    obtain ⟨rfl, rfl, rfl, rfl⟩ := word_injective first
    rw [wordsOf_injective (by simp at whole; omega) (by simpa using equal) later]
  | [], _ :: _, _, equal, _ => by simp at equal
  | [_], _, whole, _, _ => by simp at whole
  | [_, _], _, whole, _, _ => by simp at whole
  | [_, _, _], _, whole, _, _ => by simp at whole
  | _ :: _ :: _ :: _ :: _, [], _, equal, _ => by simp at equal
  | _ :: _ :: _ :: _ :: _, [_], _, equal, _ => by simp at equal
  | _ :: _ :: _ :: _ :: _, [_, _], _, equal, _ => by simp at equal
  | _ :: _ :: _ :: _ :: _, [_, _, _], _, equal, _ => by simp at equal

theorem length_block (fits : s.length ≤ maxBlockString) :
    (keyOf s).block.length = blksize s.length := by
  have size := blksize_fits fits
  simp only [block, keyOf, List.length_cons, List.length_append, List.length_replicate, size,
    offs_buf]
  omega

theorem length_alignedptr (fits : s.length ≤ maxBlockString) :
    (keyOf s).alignedptr.length = (keyOf s).alignedsize := by
  rw [alignedptr, length_wordsOf, length_block fits]
  rfl

theorem equalWords_eq : ∀ {n : Nat} {kk ll : List Word}, kk.length = n → ll.length = n →
    equalWords n kk ll = .ok (decide (kk = ll))
  | 0, [], [], _, _ => rfl
  | n + 1, k :: kk, l :: ll, first, second => by
    unfold equalWords
    by_cases same : k = l
    · rw [if_pos same, equalWords_eq (by simpa using first) (by simpa using second)]
      simp [same]
    · simp [same]

theorem alignedptr_first (fits : s.length ≤ maxBlockString) :
    ∃ (a b : Byte) (rest : List Word), (keyOf s).alignedptr = (b ++ a ++ BitVec.ofNat 8 (s.length / 256) ++
      BitVec.ofNat 8 s.length : Word) :: rest := by
  have length := length_block fits
  rw [blksize_fits fits] at length
  have more : 2 ≤ (keyOf s).buf.length := by
    simp only [block, List.length_cons] at length
    omega
  match split : (keyOf s).buf, more with
  | a :: b :: rest, _ =>
    refine ⟨a, b, wordsOf rest, ?_⟩
    rw [alignedptr, block, split]
    rfl

theorem equal_keyOf (fits : s.length ≤ maxBlockString) (fits' : t.length ≤ maxBlockString) :
    (keyOf s).equal (keyOf t) = .ok (decide (s = t)) := by
  by_cases length : s.length = t.length
  · have aligned : (keyOf t).alignedsize = (keyOf s).alignedsize := by
      simp only [alignedsize, keyOf, length]
    rw [IdentKey.equal, equalWords_eq (length_alignedptr fits)
      ((length_alignedptr fits').trans aligned)]
    have same : (keyOf s).alignedptr = (keyOf t).alignedptr ↔ s = t := by
      refine ⟨fun words => ?_, fun equal => by rw [equal]⟩
      have whole : (keyOf s).block.length % 4 = 0 := by
        rw [length_block fits, blksize_fits fits]
        omega
      have blocks := wordsOf_injective whole
        (by rw [length_block fits, length_block fits', length]) words
      have bufs : (keyOf s).buf = (keyOf t).buf := by
        simp only [block, List.cons.injEq] at blocks
        exact blocks.2.2
      exact List.append_inj_left bufs length
    rw [decide_eq_decide.mpr same]
  · obtain ⟨a, b, rest, first⟩ := alignedptr_first fits
    obtain ⟨a', b', rest', first'⟩ := alignedptr_first fits'
    have size : (keyOf s).alignedsize = ((s.length + 3 + 3) / 4 - 1) + 1 := by
      have : (keyOf s).alignedsize = blksize s.length / 4 := rfl
      rw [this, blksize_fits fits]
      omega
    have other : s ≠ t := fun same => length (congrArg List.length same)
    rw [IdentKey.equal, first, first', size, equalWords, if_neg, decide_eq_false other]
    intro same
    obtain ⟨low, high, -⟩ := word_injective same
    have low := congrArg BitVec.toNat low
    have high := congrArg BitVec.toNat high
    simp only [BitVec.toNat_ofNat] at low high
    unfold maxBlockString at fits fits'
    omega

end Blocks

end Mewa.Ident
