import Mathlib

/-!
# A field from a cyclic additive map

Let `T` be an additive map of an abelian group `V` and `e` a point whose orbit
under `T` is periodic, avoids 0 and meets every other point.  Then `V` is a
field in which multiplying by `T^[i] e` is applying `T^[i]`, with unit `e`.
This is how GF(2^n) is computed with exp/log tables: `V` is the vectors of
bits, `T` multiplication by a primitive element, `e` the unit, and the table
entry `exp[i]` the point `T^[i] e`.

The vectors of bits are `XorVec n`, the numbers below `2 ^ n` under XOR, as
code that keeps field elements in machine words has them.
-/

namespace CyclicField

open Function

variable {V : Type} [AddCommGroup V] (T : V →+ V) (e : V)

/-- `e` generates `V` under `T`: its orbit is periodic and meets every nonzero point. -/
structure Generates : Prop where
  period : ∃ N, 0 < N ∧ T^[N] e = e
  ne_zero : e ≠ 0
  orbit : ∀ x, x ≠ 0 → ∃ i, T^[i] e = x

variable {T e}

section Orbit

variable (h : Generates T e)
include h

theorem Generates.iterate_mul_period (k : ℕ) : T^[Classical.choose h.period * k] e = e :=
  IsPeriodicPt.mul_const (Classical.choose_spec h.period).2 k

theorem Generates.iterate_ne_zero (i : ℕ) : T^[i] e ≠ 0 := by
  intro hzero
  -- a multiple of the period past `i` leads from 0 back to `e`
  have hN := (Classical.choose_spec h.period).1
  have hle : i ≤ Classical.choose h.period * i := Nat.le_mul_of_pos_left i hN
  have hback := h.iterate_mul_period i
  rw [← Nat.sub_add_cancel hle, iterate_add_apply, hzero, iterate_map_zero] at hback
  exact h.ne_zero hback.symm

theorem Generates.zero_or_orbit (x : V) : x = 0 ∨ ∃ i, T^[i] e = x := by
  by_cases hx : x = 0
  · exact .inl hx
  · exact .inr (h.orbit x hx)

/-- Points of the orbit that agree move every point alike. -/
theorem Generates.iterate_congr {i j : ℕ} (hij : T^[i] e = T^[j] e) (y : V) :
    T^[i] y = T^[j] y := by
  rcases h.zero_or_orbit y with rfl | ⟨m, rfl⟩
  · rw [iterate_map_zero, iterate_map_zero]
  · rw [← iterate_add_apply, Nat.add_comm, iterate_add_apply, hij, ← iterate_add_apply,
      Nat.add_comm, iterate_add_apply]

end Orbit

/-- `V`, with the field structure `T` and `e` give it. -/
@[nolint unusedArguments]
def Carrier (_h : Generates T e) : Type := V

namespace Carrier

open Classical

variable {h : Generates T e}

instance : AddCommGroup (Carrier h) := inferInstanceAs (AddCommGroup V)

/-- A point of `V` as an element of the field. -/
def of (h : Generates T e) (x : V) : Carrier h := x

/-- An element of the field as a point of `V`. -/
def val (x : Carrier h) : V := x

@[simp] theorem val_of (x : V) : (of h x).val = x := rfl

@[simp] theorem of_val (x : Carrier h) : of h x.val = x := rfl

@[simp] theorem of_add (x y : V) : of h (x + y) = of h x + of h y := rfl

@[simp] theorem of_zero : of h 0 = 0 := rfl

@[simp] theorem val_add (x y : Carrier h) : (x + y).val = x.val + y.val := rfl

@[simp] theorem val_zero : (0 : Carrier h).val = 0 := rfl

theorem of_injective : Injective (of h) := fun _ _ hxy => hxy

/-- A discrete logarithm: some `i` with `T^[i] e = x`, and 0 for 0. -/
noncomputable def dlog (h : Generates T e) (x : V) : ℕ :=
  if hx : x = 0 then 0 else Classical.choose (h.orbit x hx)

theorem iterate_dlog {x : V} (hx : x ≠ 0) : T^[dlog h x] e = x := by
  rw [dlog, dif_neg hx]
  exact Classical.choose_spec (h.orbit x hx)

noncomputable instance : Mul (Carrier h) where
  mul x y := if x.val = 0 then 0 else of h (T^[dlog h x.val] y.val)

noncomputable instance : Inv (Carrier h) where
  inv x := if x.val = 0 then 0 else
    of h (T^[Classical.choose h.period - dlog h x.val % Classical.choose h.period] e)

noncomputable instance : One (Carrier h) where
  one := of h e

theorem one_def : (1 : Carrier h) = of h e := rfl

theorem mul_zero_left (y : Carrier h) : (0 : Carrier h) * y = 0 := by
  change (if (0 : V) = 0 then _ else _) = _
  rw [if_pos rfl]

/-- Multiplying by a point of the orbit applies the map as often. -/
theorem of_iterate_mul (i : ℕ) (y : Carrier h) : of h (T^[i] e) * y = of h (T^[i] y.val) := by
  have hne := h.iterate_ne_zero i
  change (if T^[i] e = 0 then _ else _) = _
  rw [if_neg hne, val_of, h.iterate_congr (iterate_dlog hne)]

theorem exists_of_iterate {x : Carrier h} (hx : x ≠ 0) : ∃ i, x = of h (T^[i] e) := by
  obtain ⟨i, hi⟩ := h.orbit x.val hx
  exact ⟨i, hi.symm⟩

theorem mul_zero_right (x : Carrier h) : x * 0 = 0 := by
  by_cases hx : x = 0
  · rw [hx, mul_zero_left]
  · obtain ⟨i, rfl⟩ := exists_of_iterate hx
    rw [of_iterate_mul, val_zero, iterate_map_zero]
    rfl

theorem mul_comm' (x y : Carrier h) : x * y = y * x := by
  by_cases hx : x = 0
  · rw [hx, mul_zero_left, mul_zero_right]
  by_cases hy : y = 0
  · rw [hy, mul_zero_left, mul_zero_right]
  obtain ⟨i, rfl⟩ := exists_of_iterate hx
  obtain ⟨j, rfl⟩ := exists_of_iterate hy
  rw [of_iterate_mul, of_iterate_mul, val_of, val_of, ← iterate_add_apply, ← iterate_add_apply,
    Nat.add_comm]

theorem of_iterate_mul_iterate (i j : ℕ) : of h (T^[i] e) * of h (T^[j] e) = of h (T^[i + j] e) := by
  rw [of_iterate_mul, val_of, iterate_add_apply]

theorem mul_assoc' (x y z : Carrier h) : x * y * z = x * (y * z) := by
  by_cases hx : x = 0
  · rw [hx, mul_zero_left, mul_zero_left, mul_zero_left]
  by_cases hy : y = 0
  · rw [hy, mul_zero_right, mul_zero_left, mul_zero_right]
  obtain ⟨i, rfl⟩ := exists_of_iterate hx
  obtain ⟨j, rfl⟩ := exists_of_iterate hy
  rw [of_iterate_mul_iterate, of_iterate_mul, of_iterate_mul, of_iterate_mul, val_of,
    iterate_add_apply]

theorem one_mul' (x : Carrier h) : 1 * x = x := by
  rw [one_def]
  exact of_iterate_mul 0 x

theorem left_distrib' (x y z : Carrier h) : x * (y + z) = x * y + x * z := by
  by_cases hx : x = 0
  · rw [hx, mul_zero_left, mul_zero_left, mul_zero_left, add_zero]
  obtain ⟨i, rfl⟩ := exists_of_iterate hx
  rw [of_iterate_mul, of_iterate_mul, of_iterate_mul, val_add, iterate_map_add, of_add]

theorem mul_inv_cancel' (x : Carrier h) (hx : x ≠ 0) : x * x⁻¹ = 1 := by
  have hval : x.val ≠ 0 := hx
  obtain ⟨hN, -⟩ := Classical.choose_spec h.period
  set N := Classical.choose h.period
  set d := dlog h x.val
  have hinv : x⁻¹ = of h (T^[N - d % N] e) := by
    change (if x.val = 0 then _ else _) = _
    rw [if_neg hval]
  have hx' : x = of h (T^[d] e) := by rw [iterate_dlog hval]; rfl
  -- `d` and `N - d % N` add up to a multiple of the period
  have hsum : d + (N - d % N) = N * (d / N + 1) := by
    have hdiv := Nat.div_add_mod d N
    have hmod := Nat.mod_lt d hN
    rw [Nat.mul_add, Nat.mul_one]
    omega
  rw [hinv, hx', of_iterate_mul_iterate, hsum, h.iterate_mul_period]
  rfl

noncomputable instance : Field (Carrier h) where
  mul_assoc := mul_assoc'
  one_mul := one_mul'
  mul_one x := by rw [mul_comm', one_mul']
  zero_mul := mul_zero_left
  mul_zero := mul_zero_right
  left_distrib := left_distrib'
  right_distrib x y z := by rw [mul_comm', left_distrib', mul_comm' z, mul_comm' z]
  mul_comm := mul_comm'
  exists_pair_ne := ⟨0, 1, fun h01 => h.ne_zero (congrArg val h01).symm⟩
  mul_inv_cancel := mul_inv_cancel'
  inv_zero := by
    change (if (0 : V) = 0 then _ else _) = _
    rw [if_pos rfl]
  nnqsmul := _
  nnqsmul_def := fun _ _ => rfl
  qsmul := _
  qsmul_def := fun _ _ => rfl

/-- The generator of the multiplicative group. -/
noncomputable def gen (h : Generates T e) : Carrier h := of h (T e)

theorem of_iterate_eq_gen_pow (i : ℕ) : of h (T^[i] e) = gen h ^ i := by
  induction i with
  | zero => rfl
  | succ i ih =>
    rw [pow_succ, ← ih, gen, show T e = T^[1] e from rfl, of_iterate_mul_iterate]

theorem gen_ne_zero : gen h ≠ 0 := h.iterate_ne_zero 1

/-- The sum of an element and itself is 0 when it is so in `V`. -/
theorem neg_eq_self (hchar : ∀ x : V, x + x = 0) (x : Carrier h) : -x = x := by
  rw [neg_eq_iff_add_eq_zero]
  exact hchar x.val

end Carrier

end CyclicField

/-- The numbers below `2 ^ n` under XOR: vectors of `n` bits. -/
@[ext]
structure XorVec (n : ℕ) where
  val : ℕ
  lt : val < 2 ^ n

namespace XorVec

variable {n : ℕ}

instance : Add (XorVec n) := ⟨fun a b => ⟨a.val ^^^ b.val, Nat.xor_lt_two_pow a.lt b.lt⟩⟩

instance : Zero (XorVec n) := ⟨⟨0, Nat.two_pow_pos n⟩⟩

/-- Every vector is its own opposite. -/
instance : Neg (XorVec n) := ⟨fun a => a⟩

instance : AddCommGroup (XorVec n) where
  add_assoc a b c := XorVec.ext (Nat.xor_assoc a.val b.val c.val)
  zero_add a := XorVec.ext (Nat.zero_xor a.val)
  add_zero a := XorVec.ext (Nat.xor_zero a.val)
  add_comm a b := XorVec.ext (Nat.xor_comm a.val b.val)
  neg_add_cancel a := XorVec.ext (Nat.xor_self a.val)
  nsmul := nsmulRec
  zsmul := zsmulRec

@[simp] theorem val_add (a b : XorVec n) : (a + b).val = a.val ^^^ b.val := rfl

@[simp] theorem val_zero : (0 : XorVec n).val = 0 := rfl

theorem add_self (a : XorVec n) : a + a = 0 := XorVec.ext (Nat.xor_self a.val)

/-- A word added when a bit is set is added when it is set in either of two
summands, but not in both. -/
theorem ite_xor (p q : Bool) (c : Nat) :
    (if (p ^^ q) = true then c else 0) = (if p = true then c else 0) ^^^ (if q = true then c else 0) := by
  cases p <;> cases q <;> simp

end XorVec
