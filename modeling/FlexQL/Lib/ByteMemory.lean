import Mathlib.Data.List.GetD
import Mathlib.Tactic.Ring

/-!
# Byte memories

A memory assigns a byte to every address. This file collects the facts used to reason about
code that copies blocks of bytes: reading back a written block, reading beside a written block,
and the little-endian representation of fixed-width integers. Nothing here depends on the
layout of a particular program.
-/

/-- A memory addressed by byte offset. -/
abbrev ByteMemory := ℕ → UInt8

namespace ByteMemory

/-- The block of `len` bytes that starts at `off`. -/
def read (m : ByteMemory) (off len : ℕ) : List UInt8 :=
  (List.range len).map fun i => m (off + i)

/-- Overwrite the bytes from `off` on by the given block. -/
def write (m : ByteMemory) (off : ℕ) (block : List UInt8) : ByteMemory :=
  fun a => if off ≤ a ∧ a < off + block.length then block.getD (a - off) 0 else m a

@[simp] theorem read_length (m : ByteMemory) (off len : ℕ) : (m.read off len).length = len := by
  simp [read]

@[simp] theorem read_zero (m : ByteMemory) (off : ℕ) : m.read off 0 = [] := rfl

/-- A read depends only on the bytes of its own block. -/
theorem read_congr {m m' : ByteMemory} {off len : ℕ}
    (h : ∀ a, off ≤ a → a < off + len → m a = m' a) : m.read off len = m'.read off len := by
  apply List.map_congr_left
  intro i hi
  have hi' := List.mem_range.mp hi
  exact h _ (by omega) (by omega)

/-- Outside the written block a write changes nothing. -/
theorem write_of_outside {m : ByteMemory} {off a : ℕ} {block : List UInt8}
    (h : a < off ∨ off + block.length ≤ a) : m.write off block a = m a := by
  rw [write, if_neg (by omega)]

theorem write_of_inside {m : ByteMemory} {off i : ℕ} {block : List UInt8}
    (h : i < block.length) : m.write off block (off + i) = block.getD i 0 := by
  rw [write, if_pos (by omega)]
  congr 1
  omega

/-- Reading a written block gives the block back. -/
@[simp] theorem read_write_same (m : ByteMemory) (off : ℕ) (block : List UInt8) :
    (m.write off block).read off block.length = block := by
  apply List.ext_getElem
  · simp
  · intro i hi hi'
    simp only [read_length] at hi
    simp [read, write_of_inside hi, hi]

/-- Reading beside a written block is not affected by the write. -/
theorem read_write_disjoint {m : ByteMemory} {off off' len : ℕ} {block : List UInt8}
    (h : off' + len ≤ off ∨ off + block.length ≤ off') :
    (m.write off block).read off' len = m.read off' len := by
  apply read_congr
  intro a ha ha'
  exact write_of_outside (by omega)

/-- A block consists of its first and its remaining bytes. -/
theorem read_add (m : ByteMemory) (off a b : ℕ) :
    m.read off (a + b) = m.read off a ++ m.read (off + a) b := by
  simp [read, List.range_add, Nat.add_assoc]

/-- A part of a block. -/
theorem read_part (m : ByteMemory) (off : ℕ) {d len n : ℕ} (h : d + len ≤ n) :
    m.read (off + d) len = ((m.read off n).drop d).take len := by
  obtain ⟨k, rfl⟩ := Nat.exists_eq_add_of_le h
  rw [Nat.add_assoc, read_add, List.drop_left' (read_length ..), read_add, List.take_left' (read_length ..)]

/-- A written block of equal bytes reads as equal bytes. -/
theorem read_write_replicate {m : ByteMemory} {off off' len size : ℕ} {b : UInt8}
    (h : off ≤ off') (h' : off' + len ≤ off + size) :
    (m.write off (List.replicate size b)).read off' len = List.replicate len b := by
  apply List.ext_getElem
  · simp
  · intro i hi hi'
    simp only [read_length] at hi
    obtain ⟨j, rfl⟩ := Nat.exists_eq_add_of_le h
    have hj : j + i < (List.replicate size b).length := by simp; omega
    simp only [read, List.getElem_map, List.getElem_range, List.getElem_replicate]
    rw [Nat.add_assoc, write_of_inside hj, List.getD_eq_getElem _ _ hj, List.getElem_replicate]

/-! ## Little-endian integers -/

/-- The `width` little-endian bytes of `n`; higher digits are cut off. -/
def encode : ℕ → ℕ → List UInt8
  | 0, _ => []
  | width + 1, n => UInt8.ofNat n :: encode width (n / 256)

/-- The number that a block of little-endian bytes denotes. -/
def decode : List UInt8 → ℕ
  | [] => 0
  | b :: block => b.toNat + 256 * decode block

@[simp] theorem encode_length (width n : ℕ) : (encode width n).length = width := by
  induction width generalizing n with
  | zero => rfl
  | succ width ih => simp [encode, ih]

theorem read_write_encode (m : ByteMemory) (off width n : ℕ) :
    (m.write off (encode width n)).read off width = encode width n := by
  have h := read_write_same m off (encode width n)
  rwa [encode_length] at h

theorem decode_lt (block : List UInt8) : decode block < 256 ^ block.length := by
  induction block with
  | nil => simp [decode]
  | cons b block ih =>
    have hb := b.toNat_lt
    simp only [decode, List.length_cons, pow_succ]
    omega

/-- The first bytes of a block are the low digits. -/
theorem decode_append (a b : List UInt8) : decode (a ++ b) = decode a + 256 ^ a.length * decode b := by
  induction a with
  | nil => simp [decode]
  | cons x a ih =>
    rw [List.cons_append, decode, decode, ih, List.length_cons, pow_succ]
    ring

/-- Decoding recovers a number up to the width it was stored with. -/
theorem decode_encode_mod (width n : ℕ) : decode (encode width n) = n % 256 ^ width := by
  induction width generalizing n with
  | zero => simp [encode, decode, Nat.mod_one]
  | succ width ih =>
    have hb : (UInt8.ofNat n).toNat = n % 256 := rfl
    rw [encode, decode, ih, hb, pow_succ, Nat.mul_comm (256 ^ width), Nat.mod_mul]

theorem decode_encode {width n : ℕ} (h : n < 256 ^ width) : decode (encode width n) = n := by
  rw [decode_encode_mod, Nat.mod_eq_of_lt h]

/-- Encoding recovers the bytes of a block. -/
theorem encode_decode (block : List UInt8) : encode block.length (decode block) = block := by
  induction block with
  | nil => rfl
  | cons b block ih =>
    have hb := b.toNat_lt
    have hdiv : (b.toNat + 256 * decode block) / 256 = decode block := by omega
    have hbyte : UInt8.ofNat (b.toNat + 256 * decode block) = b := by
      apply UInt8.toNat_inj.mp
      change (b.toNat + 256 * decode block) % 256 = b.toNat
      omega
    rw [List.length_cons, decode, encode, hdiv, hbyte, ih]

theorem decode_inj {a b : List UInt8} (h : a.length = b.length) : decode a = decode b ↔ a = b := by
  refine ⟨fun heq => ?_, fun heq => heq ▸ rfl⟩
  rw [← encode_decode a, h, heq, encode_decode]

/-- Digits beyond the width make no difference. -/
theorem encode_mod (width n : ℕ) : encode width (n % 256 ^ width) = encode width n := by
  have h := encode_decode (encode width n)
  rwa [encode_length, decode_encode_mod] at h

@[simp] theorem decode_replicate_zero (n : ℕ) : decode (List.replicate n 0) = 0 := by
  induction n with
  | zero => rfl
  | succ n ih => simp [List.replicate_succ, decode, ih]

end ByteMemory
