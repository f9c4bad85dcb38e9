import Mathlib

/-!
# Byte strings and little-endian digits

`Bytes` is a byte string, `Blob n` a byte string of exactly `n` bytes (a hash,
a key, a commitment), and `leBytes k x` the `k` little-endian base-256 digits
of `x`.  The one fact the codecs need is `leValue_leBytes`: reading the digits
back gives `x` modulo `256 ^ k`.
-/

namespace ByteCodec

/-- A byte string. -/
abbrev Bytes := List UInt8

/-- A byte string of exactly `n` bytes.  The length is a field, so a value of
the wrong size cannot be built. -/
structure Blob (n : Nat) where
  bytes : Bytes
  length_eq : bytes.length = n
  deriving DecidableEq

namespace Blob

/-- The blob of `n` zero bytes. -/
def zero (n : Nat) : Blob n := ⟨List.replicate n 0, List.length_replicate⟩

/-- Two blobs are equal when their bytes are. -/
theorem ext {n : Nat} {a b : Blob n} (h : a.bytes = b.bytes) : a = b := by
  cases a
  cases b
  cases h
  rfl

end Blob

/-- The `k` little-endian base-256 digits of `x`. -/
def leBytes : Nat → Nat → Bytes
  | 0, _ => []
  | k + 1, x => UInt8.ofNat (x % 256) :: leBytes k (x / 256)

/-- The number whose little-endian base-256 digits are `bs`. -/
def leValue : Bytes → Nat
  | [] => 0
  | b :: bs => b.toNat + 256 * leValue bs

theorem leBytes_length (k x : Nat) : (leBytes k x).length = k := by
  induction k generalizing x with
  | zero => rfl
  | succ k ih => simp [leBytes, ih]

/-- Reading the digits back recovers `x` up to the width. -/
theorem leValue_leBytes (k x : Nat) : leValue (leBytes k x) = x % 256 ^ k := by
  induction k generalizing x with
  | zero => simp [leBytes, leValue, Nat.mod_one]
  | succ k ih =>
    have hdigit : (UInt8.ofNat (x % 256)).toNat = x % 256 := by
      simp [Nat.mod_mod_of_dvd]
    simp only [leBytes, leValue, hdigit, ih]
    rw [Nat.pow_succ', Nat.mod_mul]

/-- The first `n` of `k` digits are the `n` digits. -/
theorem take_leBytes {n k : Nat} (h : n ≤ k) (x : Nat) : (leBytes k x).take n = leBytes n x := by
  induction n generalizing k x with
  | zero => simp [leBytes]
  | succ n ih =>
    obtain ⟨k, rfl⟩ : ∃ k', k = k' + 1 := ⟨k - 1, by omega⟩
    simp only [leBytes, List.take_succ_cons, ih (Nat.le_of_succ_le_succ h)]

theorem leValue_lt (bs : Bytes) : leValue bs < 256 ^ bs.length := by
  induction bs with
  | nil => simp [leValue]
  | cons b bs ih =>
    have hb := b.toNat_lt
    simp only [leValue, List.length_cons, Nat.pow_succ]
    omega

/-- Digits of a value that fits the width read back exactly. -/
theorem leValue_leBytes_of_lt {k x : Nat} (h : x < 256 ^ k) : leValue (leBytes k x) = x := by
  rw [leValue_leBytes, Nat.mod_eq_of_lt h]

/-- Writing the value of `k` digits gives the digits back. -/
theorem leBytes_leValue (bs : Bytes) : leBytes bs.length (leValue bs) = bs := by
  induction bs with
  | nil => rfl
  | cons b bs ih =>
    have hb := b.toNat_lt
    have hmod : (b.toNat + 256 * leValue bs) % 256 = b.toNat := by omega
    have hdiv : (b.toNat + 256 * leValue bs) / 256 = leValue bs := by omega
    simp only [List.length_cons, leBytes, leValue, hmod, hdiv, ih, UInt8.ofNat_toNat]

/-! ## Digits and bits of a number -/

/-- The low digit of `y` in base `b` at place `P`, and the digits above it at
place `P * b`. -/
theorem mod_add_div_mul (y b P : Nat) : y % b * P + y / b * (P * b) = y * P := by
  conv_rhs => rw [← Nat.mod_add_div y b]
  rw [Nat.add_mul, Nat.mul_comm P b, ← Nat.mul_assoc, Nat.mul_comm (y / b) b]

/-- An AND with a power of two keeps that one bit. -/
theorem and_two_pow_eq (x k : Nat) : x &&& 2 ^ k = x / 2 ^ k % 2 * 2 ^ k := by
  rw [Nat.and_two_pow, Nat.testBit_eq_decide_div_mod_eq]
  rcases Nat.mod_two_eq_zero_or_one (x / 2 ^ k) with h | h <;> simp [h]

/-- Below `2 ^ (k + 1)`, bit `k` is clear exactly below `2 ^ k`. -/
theorem and_two_pow_eq_zero_iff {x k : Nat} (hx : x < 2 ^ (k + 1)) :
    x &&& 2 ^ k = 0 ↔ x < 2 ^ k := by
  have hdiv : x / 2 ^ k < 2 := Nat.div_lt_of_lt_mul (by rwa [← Nat.pow_succ])
  rw [and_two_pow_eq, Nat.mod_eq_of_lt hdiv, Nat.mul_eq_zero, Nat.div_eq_zero_iff]
  have := Nat.two_pow_pos k
  omega

end ByteCodec
