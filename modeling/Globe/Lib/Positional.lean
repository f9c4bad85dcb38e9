import Mathlib

/-!
# Positional numerals multiplied in place

A big number kept in a buffer of digits is multiplied by a small factor, and a
small carry added, by the schoolbook pass: from the least significant digit
on, digit `d` becomes `(carry + mult * d) % base` and the carry moves on as the
quotient.  Code that converts between bases runs this pass once per input
digit, and keeps in `length` how many digits of the buffer are in use, so that
a pass stops once the carry is zero and the digits still to come are zero.

`mulAdd` is the pass over a list of digits, least significant first.  A buffer
of `n` digits holding `x` is `pad base n x`, Mathlib's `Nat.digits` padded with
zeros, and `mulAdd_pad` says that the pass turns it into
`pad base n (mult * x + c)`, with nothing carried out and the digits in use
counted exactly, whenever those digits fit the buffer.  `pow_le_pow_div_add_one`
bounds the digits needed in one base by those in another at a rational rate
`p / q`, rounded up, which is how such code sizes its buffer.
-/

namespace Positional

open Nat List

/-- One pass of `x ← mult * x + carry` over digits in base `base`, least
significant first, while the carry is nonzero or fewer than `length` digits
have been visited.  Returns the digits, the carry left over and the number of
digits visited. -/
def mulAdd (base mult length : ℕ) : List ℕ → ℕ → ℕ → List ℕ × ℕ × ℕ
  | [], carry, i => ([], carry, i)
  | d :: ds, carry, i =>
    if carry ≠ 0 ∨ i < length then
      let r := mulAdd base mult length ds ((carry + mult * d) / base) (i + 1)
      ((carry + mult * d) % base :: r.1, r.2)
    else (d :: ds, carry, i)

/-- `x` written with `n` digits in base `base`, least significant first. -/
def pad (base n x : ℕ) : List ℕ := digits base x ++ replicate (n - (digits base x).length) 0

variable {base : ℕ}

@[simp] theorem pad_zero (n : ℕ) : pad base n 0 = replicate n 0 := by
  simp [pad]

theorem length_digits_div (hb : 1 < base) (x : ℕ) :
    (digits base (x / base)).length = (digits base x).length - 1 := by
  rcases Nat.eq_zero_or_pos x with rfl | hx
  · simp
  · rw [digits_def' hb hx, length_cons, Nat.add_sub_cancel]

/-- The lowest digit of a padded numeral, and the rest. -/
theorem pad_succ (hb : 1 < base) (n x : ℕ) :
    pad base (n + 1) x = x % base :: pad base n (x / base) := by
  rcases Nat.eq_zero_or_pos x with rfl | hx
  · simp [replicate_succ]
  · rw [pad, pad, digits_def' hb hx, length_cons, cons_append, Nat.add_sub_add_right]

theorem reverse_pad (n x : ℕ) :
    (pad base n x).reverse = replicate (n - (digits base x).length) 0 ++ (digits base x).reverse := by
  rw [pad, reverse_append, reverse_replicate]

/-- The digits in use, most significant first, are what follows the padding. -/
theorem drop_reverse_pad (n x : ℕ) :
    (pad base n x).reverse.drop (n - (digits base x).length) = (digits base x).reverse := by
  rw [reverse_pad, drop_left' (length_replicate ..)]

/-- The arithmetic of one digit of the pass: the next carry and the written
digit are the quotient and the remainder of `mult * x + c`. -/
theorem mul_add_div_mod (hb : 0 < base) (mult x c : ℕ) :
    (mult * x + c) / base = mult * (x / base) + (c + mult * (x % base)) / base ∧
      (mult * x + c) % base = (c + mult * (x % base)) % base := by
  have hsplit : mult * x + c = (c + mult * (x % base)) + base * (mult * (x / base)) := by
    conv_lhs => rw [← Nat.mod_add_div x base]
    ring
  rw [hsplit, Nat.add_mul_div_left _ _ hb, Nat.add_mul_mod_self_left]
  exact ⟨Nat.add_comm _ _, rfl⟩

/-- A pass over a buffer holding `x` leaves it holding `mult * x + c` when the
digits of the result fit: nothing is carried out, and the digits visited are
exactly the digits in use.  `length - i` counts the digits of `x` still to be
visited, which is what makes the pass stop at the right place. -/
theorem mulAdd_pad (hb : 1 < base) {mult : ℕ} (hm : 0 < mult) {length : ℕ} :
    ∀ {n x c i : ℕ}, length - i = (digits base x).length →
      (digits base (mult * x + c)).length ≤ n →
      mulAdd base mult length (pad base n x) c i =
        (pad base n (mult * x + c), 0, i + (digits base (mult * x + c)).length) := by
  intro n
  induction n with
  | zero =>
    intro x c i _ hfit
    have h0 : (digits base (mult * x + c)).length = 0 := by omega
    have hy : mult * x + c = 0 := digits_eq_nil_iff_eq_zero.mp (length_eq_zero_iff.mp h0)
    have hx : x = 0 := by
      rcases Nat.eq_zero_or_pos x with h | h
      · exact h
      · have := Nat.mul_pos hm h
        omega
    have hc : c = 0 := by omega
    subst hx hc
    simp [pad, mulAdd]
  | succ n ih =>
    intro x c i hlen hfit
    obtain ⟨hdiv, hmod⟩ := mul_add_div_mod (by omega : 0 < base) mult x c
    rw [pad_succ hb, pad_succ hb, mulAdd]
    by_cases hcond : c ≠ 0 ∨ i < length
    · -- the pass writes this digit; the result is nonzero, so it has a lowest digit
      have hy : 0 < mult * x + c := by
        rcases hcond with hc | hi
        · omega
        · have hx : x ≠ 0 := fun hx => by simp [hx] at hlen; omega
          have := Nat.mul_pos hm (Nat.pos_of_ne_zero hx)
          omega
      have hlen_y := length_digits_div hb (mult * x + c)
      have hpos : 0 < (digits base (mult * x + c)).length := by
        rw [digits_def' hb hy, length_cons]
        omega
      have hrest := ih (x := x / base) (c := (c + mult * (x % base)) / base) (i := i + 1)
        (by rw [length_digits_div hb]; omega) (by rw [← hdiv, hlen_y]; omega)
      rw [if_pos hcond, hrest, ← hdiv, ← hmod, hlen_y]
      simp only [Prod.mk.injEq, true_and]
      omega
    · -- the carry is zero and the digits of `x` are all visited: `x` is zero
      have hc : c = 0 := by omega
      have hx : x = 0 := by
        have : (digits base x).length = 0 := by omega
        exact digits_eq_nil_iff_eq_zero.mp (length_eq_zero_iff.mp this)
      subst hc hx
      rw [if_neg hcond]
      simp

/-- Reading digits most significant first, multiplying by the base before each. -/
theorem foldl_mul_add (b : ℕ) (ds : List ℕ) (x : ℕ) :
    ds.foldl (fun x d => b * x + d) x = b ^ ds.length * x + ofDigits b ds.reverse := by
  induction ds generalizing x with
  | nil => simp
  | cons d ds ih =>
    rw [foldl_cons, ih, reverse_cons, ofDigits_append, ofDigits_singleton, length_cons,
      length_reverse, pow_succ]
    ring

/-- The fold only grows the number. -/
theorem le_foldl_mul_add {b : ℕ} (hb : 0 < b) (ds : List ℕ) (x : ℕ) :
    x ≤ ds.foldl (fun x d => b * x + d) x := by
  rw [foldl_mul_add]
  exact le_add_right (Nat.le_mul_of_pos_left x (Nat.pow_pos hb))

/-- `n` digits in base `B` fit in `n * p / q + 1` digits in base `b` when
`B ^ q ≤ b ^ p`: the rate `p / q`, rounded up. -/
theorem pow_le_pow_div_add_one {B b p q : ℕ} (hb : 0 < b) (hq : 0 < q) (hpow : B ^ q ≤ b ^ p)
    (n : ℕ) : B ^ n ≤ b ^ (n * p / q + 1) := by
  have hq' : n * p < q * (n * p / q + 1) := Nat.lt_mul_div_succ (n * p) hq
  have hpow' : (B ^ n) ^ q ≤ (b ^ (n * p / q + 1)) ^ q := calc
    (B ^ n) ^ q = (B ^ q) ^ n := by rw [← pow_mul, ← pow_mul, Nat.mul_comm]
    _ ≤ (b ^ p) ^ n := Nat.pow_le_pow_left hpow n
    _ = b ^ (n * p) := by rw [← pow_mul, Nat.mul_comm]
    _ ≤ b ^ (q * (n * p / q + 1)) := Nat.pow_le_pow_right hb hq'.le
    _ = (b ^ (n * p / q + 1)) ^ q := by rw [← pow_mul, Nat.mul_comm]
  exact (Nat.pow_le_pow_iff_left hq.ne').mp hpow'

end Positional
