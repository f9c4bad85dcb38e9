import Globe.Lib.Bytes
import Mathlib.Tactic.Ring
import Mathlib.Tactic.IntervalCases

/-!
# Big-endian digits and bit fields

`beBytes k x` is `x` as `k` big-endian base-256 digits, and `beValue` reads
digits back.  A byte string read most significant bit first is one number: a
field of `w` bits starting `i` bits below its top is a quotient and a
remainder of it (`bitField`).  `fieldsValue w xs` is the number whose `w`-bit
fields are `xs`, the first the most significant, and `packFields w n xs` is
those fields written into `n` bytes and padded with zero bits.

A packer that ORs bits into a zeroed buffer is reasoned about digit by digit:
`beBytes_split` cuts the digits around one position, and `modify_or_beBytes`
says that OR-ing a value into a digit whose low bits (and every later digit)
are still zero adds it at that digit.
-/

namespace ByteCodec

/-! ## Little-endian digits, split and reduced -/

theorem leBytes_add (a b x : Nat) : leBytes (a + b) x = leBytes a x ++ leBytes b (x / 256 ^ a) := by
  induction a generalizing x with
  | zero => simp [leBytes]
  | succ a ih =>
    rw [Nat.add_right_comm, leBytes, leBytes, ih, Nat.div_div_eq_div_mul, ← Nat.pow_succ']
    rfl

theorem leBytes_mod (k x : Nat) : leBytes k (x % 256 ^ k) = leBytes k x := by
  have h := leBytes_leValue (leBytes k x)
  rwa [leBytes_length, leValue_leBytes] at h

theorem leValue_append (u v : Bytes) : leValue (u ++ v) = leValue u + 256 ^ u.length * leValue v := by
  induction u with
  | nil => simp [leValue]
  | cons b u ih =>
    simp only [List.cons_append, leValue, ih, List.length_cons, Nat.pow_succ']
    ring

/-! ## Big-endian digits -/

/-- The `k` big-endian base-256 digits of `x`. -/
def beBytes (k x : Nat) : Bytes := (leBytes k x).reverse

/-- The number whose big-endian base-256 digits are `bs`. -/
def beValue (bs : Bytes) : Nat := leValue bs.reverse

@[simp] theorem beBytes_length (k x : Nat) : (beBytes k x).length = k := by
  simp [beBytes, leBytes_length]

theorem beValue_beBytes (k x : Nat) : beValue (beBytes k x) = x % 256 ^ k := by
  simp [beValue, beBytes, leValue_leBytes]

theorem beBytes_beValue (bs : Bytes) : beBytes bs.length (beValue bs) = bs := by
  have h := leBytes_leValue bs.reverse
  rw [List.length_reverse] at h
  rw [beBytes, beValue, h, List.reverse_reverse]

theorem beValue_lt (bs : Bytes) : beValue bs < 256 ^ bs.length := by
  have h := leValue_lt bs.reverse
  rwa [List.length_reverse] at h

theorem beBytes_mod (k x : Nat) : beBytes k (x % 256 ^ k) = beBytes k x := by
  rw [beBytes, leBytes_mod]
  rfl

theorem beValue_append (a b : Bytes) : beValue (a ++ b) = beValue a * 256 ^ b.length + beValue b := by
  rw [beValue, List.reverse_append, leValue_append, List.length_reverse]
  simp only [beValue]
  ring

/-- The first `a` of `a + b` digits are those of `x / 256 ^ b`. -/
theorem beBytes_add (a b x : Nat) : beBytes (a + b) x = beBytes a (x / 256 ^ b) ++ beBytes b x := by
  rw [beBytes, Nat.add_comm, leBytes_add, List.reverse_append]
  rfl

theorem beBytes_one (x : Nat) : beBytes 1 x = [UInt8.ofNat x] := by
  have h : UInt8.ofNat (x % 256) = UInt8.ofNat x := by
    apply UInt8.toNat.inj
    simp
  simp [beBytes, leBytes, h]

theorem beBytes_zero (k : Nat) : beBytes k 0 = List.replicate k 0 := by
  induction k with
  | zero => rfl
  | succ k ih =>
    rw [beBytes_add k 1, Nat.zero_div, ih, beBytes_one, List.replicate_succ']
    rfl

theorem beValue_replicate_zero (k : Nat) : beValue (List.replicate k 0) = 0 := by
  rw [← beBytes_zero, beValue_beBytes, Nat.zero_mod]

/-- Digits of `x * 256 ^ n + y` with `y` below `256 ^ n`: those of `x`, then those of `y`. -/
theorem beBytes_append {m n x y : Nat} (hy : y < 256 ^ n) :
    beBytes (m + n) (x * 256 ^ n + y) = beBytes m x ++ beBytes n y := by
  have hpos : 0 < 256 ^ n := Nat.pow_pos (by norm_num)
  have hdiv : (x * 256 ^ n + y) / 256 ^ n = x := by
    rw [Nat.add_comm, Nat.add_mul_div_right _ _ hpos, Nat.div_eq_of_lt hy, Nat.zero_add]
  have hmod : (x * 256 ^ n + y) % 256 ^ n = y := by
    rw [Nat.add_comm, Nat.add_mul_mod_self_right, Nat.mod_eq_of_lt hy]
  rw [beBytes_add, hdiv, ← beBytes_mod n, hmod]

/-- The digits around the one at position `j`. -/
theorem beBytes_split {k j : Nat} (hj : j < k) (x : Nat) :
    beBytes k x = beBytes j (x / 256 ^ (k - j)) ++
      UInt8.ofNat (x / 256 ^ (k - 1 - j)) :: beBytes (k - 1 - j) x := by
  have hk : k = j + (1 + (k - 1 - j)) := by omega
  have he : 1 + (k - 1 - j) = k - j := by omega
  conv_lhs => rw [hk, beBytes_add, beBytes_add 1, beBytes_one, he]
  rfl

theorem getElem?_beBytes {k j : Nat} (hj : j < k) (x : Nat) :
    (beBytes k x)[j]? = some (UInt8.ofNat (x / 256 ^ (k - 1 - j))) := by
  rw [beBytes_split hj, List.getElem?_append_right (by simp)]
  simp

/-! ## Writing bits into a digit -/

theorem or_eq_add_of_mod {a b p : Nat} (ha : a % 2 ^ p = 0) (hb : b < 2 ^ p) : a ||| b = a + b := by
  obtain ⟨c, rfl⟩ := Nat.dvd_of_mod_eq_zero ha
  exact (Nat.two_pow_add_eq_or_of_lt hb c).symm

theorem modify_append_cons {α : Type} {A C : List α} {j : Nat} (hA : A.length = j) (b : α)
    (f : α → α) : (A ++ b :: C).modify j f = A ++ f b :: C := by
  subst hA
  induction A with
  | nil => simp [List.modify_cons]
  | cons a A ih => simp [ih]

/-- A digit whose `p` low bits are zero, plus a value below `2 ^ p`, stays a digit. -/
theorem digit_add_lt {d c p : Nat} (hd : d < 256) (hdp : d % 2 ^ p = 0) (hp : p ≤ 8)
    (hc : c < 2 ^ p) : d + c < 256 := by
  interval_cases p <;> omega

/-- OR-ing `c` into digit `j` of `x`, where the `p` low bits of that digit and
all later digits are zero, adds `c` at that digit. -/
theorem modify_or_beBytes {k j p c x : Nat} (hj : j < k) (hp : p ≤ 8) (hc : c < 2 ^ p)
    (hlow : x % 2 ^ (8 * (k - 1 - j) + p) = 0) :
    (beBytes k x).modify j (· ||| UInt8.ofNat c) = beBytes k (x + c * 256 ^ (k - 1 - j)) := by
  set e := k - 1 - j with he
  have hB : 0 < 256 ^ e := Nat.pow_pos (by norm_num)
  -- the low bits of the digit, from the zero tail of `x`
  have hpow : 2 ^ (8 * e + p) = 256 ^ e * 2 ^ p := by
    rw [Nat.pow_add, Nat.pow_mul]
  have hdigit : x / 256 ^ e % 2 ^ p = 0 := by
    rw [← Nat.mod_mul_right_div_self, ← hpow, hlow, Nat.zero_div]
  have hdvd : 2 ^ p ∣ 256 := by
    rw [show (256 : Nat) = 2 ^ 8 by norm_num]
    exact Nat.pow_dvd_pow 2 hp
  have hd : x / 256 ^ e % 256 % 2 ^ p = 0 := by rw [Nat.mod_mod_of_dvd _ hdvd, hdigit]
  have hsum := digit_add_lt (Nat.mod_lt _ (by norm_num)) hd hp hc
  -- the digit itself, and the digits before and after it
  have hnew : UInt8.ofNat (x / 256 ^ e) ||| UInt8.ofNat c = UInt8.ofNat ((x + c * 256 ^ e) / 256 ^ e) := by
    rw [Nat.add_mul_div_right _ _ hB]
    apply UInt8.toNat.inj
    have hc8 : c < 256 := lt_of_lt_of_le hc (Nat.le_of_dvd (by norm_num) hdvd)
    simp only [UInt8.toNat_or, UInt8.toNat_ofNat', show (2 : Nat) ^ 8 = 256 by norm_num,
      Nat.mod_eq_of_lt hc8, or_eq_add_of_mod hd hc]
    omega
  have hhigh : (x + c * 256 ^ e) / 256 ^ (k - j) = x / 256 ^ (k - j) := by
    have hkj : 256 ^ (k - j) = 256 ^ e * 256 := by
      rw [← Nat.pow_succ]
      congr 1
      omega
    rw [hkj, ← Nat.div_div_eq_div_mul, ← Nat.div_div_eq_div_mul, Nat.add_mul_div_right _ _ hB]
    omega
  have htail : beBytes e (x + c * 256 ^ e) = beBytes e x := by
    rw [← beBytes_mod e (x + c * 256 ^ e), Nat.add_mul_mod_self_right, beBytes_mod]
  rw [beBytes_split hj, beBytes_split hj (x + c * 256 ^ e), ← he,
    modify_append_cons (beBytes_length _ _), hnew, hhigh, htail]

/-- Clearing the `q` low bits of the last digit. -/
theorem modify_last_and_beBytes {k q : Nat} (hk : 0 < k) (hq : q ≤ 8) (x : Nat) :
    (beBytes k x).modify (k - 1) (· &&& UInt8.ofNat (256 - 2 ^ q)) =
      beBytes k (x / 2 ^ q * 2 ^ q) := by
  have hsplit : ∀ y, beBytes k y = beBytes (k - 1) (y / 256) ++ [UInt8.ofNat y] := by
    intro y
    have h := beBytes_add (k - 1) 1 y
    rwa [Nat.sub_add_cancel hk, Nat.pow_one, beBytes_one] at h
  have hq2 : 2 ^ q ∣ 256 := by
    rw [show (256 : Nat) = 2 ^ 8 by norm_num]
    exact Nat.pow_dvd_pow 2 hq
  have hhigh : x / 2 ^ q * 2 ^ q / 256 = x / 256 := by
    obtain ⟨t, ht⟩ := hq2
    have hpos : 0 < 2 ^ q := Nat.two_pow_pos q
    rw [ht, ← Nat.div_div_eq_div_mul, Nat.mul_div_cancel _ hpos, ← Nat.div_div_eq_div_mul]
  -- the last digit, bit by bit
  have hmask : (x % 2 ^ 8) &&& (256 - 2 ^ q) = x / 2 ^ q * 2 ^ q % 2 ^ 8 := by
    have hm : 256 - 2 ^ q = (2 ^ (8 - q) - 1) * 2 ^ q := by
      rw [Nat.sub_mul, Nat.one_mul, ← Nat.pow_add, Nat.sub_add_cancel hq]
    rw [hm]
    apply Nat.eq_of_testBit_eq
    intro i
    rw [Nat.testBit_and, Nat.testBit_mod_two_pow, Nat.testBit_mod_two_pow,
      Nat.testBit_mul_two_pow, Nat.testBit_mul_two_pow, Nat.testBit_two_pow_sub_one,
      Nat.testBit_div_two_pow]
    by_cases hi : q ≤ i
    · rw [Nat.sub_add_cancel hi]
      by_cases h8 : i < 8
      · simp [hi, h8, show i - q < 8 - q by omega]
      · simp [h8]
    · simp [hi]
  have hlast : UInt8.ofNat x &&& UInt8.ofNat (256 - 2 ^ q) = UInt8.ofNat (x / 2 ^ q * 2 ^ q) := by
    apply UInt8.toNat.inj
    have hm8 : 256 - 2 ^ q < 256 := Nat.sub_lt (by norm_num) (Nat.two_pow_pos q)
    simp only [UInt8.toNat_and, UInt8.toNat_ofNat', Nat.mod_eq_of_lt hm8, hmask]
  rw [hsplit x, hsplit, hhigh, modify_append_cons (beBytes_length _ _), hlast]

/-! ## Bit fields -/

/-- The number whose fields of `w` bits are `xs`, the first the most significant. -/
def fieldsValue (w : Nat) (xs : List Nat) : Nat := xs.foldl (fun acc x => acc * 2 ^ w + x) 0

theorem foldl_fields (w : Nat) (xs : List Nat) (acc : Nat) :
    xs.foldl (fun acc x => acc * 2 ^ w + x) acc = acc * 2 ^ (w * xs.length) + fieldsValue w xs := by
  induction xs generalizing acc with
  | nil => simp [fieldsValue]
  | cons x xs ih =>
    simp only [List.foldl_cons, fieldsValue, Nat.zero_mul, Nat.zero_add] at ih ⊢
    rw [ih, ih x, List.length_cons, Nat.mul_succ, Nat.pow_add]
    ring

theorem fieldsValue_cons (w x : Nat) (xs : List Nat) :
    fieldsValue w (x :: xs) = x * 2 ^ (w * xs.length) + fieldsValue w xs := by
  have h := foldl_fields w xs x
  simpa [fieldsValue] using h

theorem fieldsValue_concat (w : Nat) (xs : List Nat) (x : Nat) :
    fieldsValue w (xs ++ [x]) = fieldsValue w xs * 2 ^ w + x := by
  simp [fieldsValue, List.foldl_append]

theorem fieldsValue_lt {w : Nat} {xs : List Nat} (h : ∀ x ∈ xs, x < 2 ^ w) :
    fieldsValue w xs < 2 ^ (w * xs.length) := by
  induction xs with
  | nil => simp [fieldsValue]
  | cons x xs ih =>
    have hx : x + 1 ≤ 2 ^ w := h x List.mem_cons_self
    have hrest := ih fun y hy => h y (List.mem_cons_of_mem x hy)
    rw [fieldsValue_cons, List.length_cons, Nat.mul_succ, Nat.pow_add]
    calc x * 2 ^ (w * xs.length) + fieldsValue w xs
        < (x + 1) * 2 ^ (w * xs.length) := by rw [Nat.succ_mul]; omega
      _ ≤ 2 ^ w * 2 ^ (w * xs.length) := Nat.mul_le_mul_right _ hx
      _ = 2 ^ (w * xs.length) * 2 ^ w := Nat.mul_comm _ _

/-- Fields below `2 ^ w` are determined by their value and their number. -/
theorem fieldsValue_inj {w : Nat} {xs ys : List Nat} (hlen : xs.length = ys.length)
    (hxs : ∀ x ∈ xs, x < 2 ^ w) (hys : ∀ y ∈ ys, y < 2 ^ w)
    (h : fieldsValue w xs = fieldsValue w ys) : xs = ys := by
  induction xs generalizing ys with
  | nil => exact (List.length_eq_zero_iff.mp hlen.symm).symm
  | cons x xs ih =>
    obtain ⟨y, ys, rfl⟩ := List.exists_cons_of_length_eq_add_one hlen.symm
    have hl : xs.length = ys.length := by simpa using hlen
    have hxr := fieldsValue_lt fun a ha => hxs a (List.mem_cons_of_mem x ha)
    have hyr := fieldsValue_lt fun a ha => hys a (List.mem_cons_of_mem y ha)
    have hP : 0 < 2 ^ (w * xs.length) := Nat.two_pow_pos _
    rw [fieldsValue_cons, fieldsValue_cons, ← hl] at h
    rw [← hl] at hyr
    -- the first field is the quotient, the rest the remainder
    have hq := congrArg (· / 2 ^ (w * xs.length)) h
    have hr := congrArg (· % 2 ^ (w * xs.length)) h
    simp only [Nat.add_comm (_ * 2 ^ _), Nat.add_mul_div_right _ _ hP, Nat.div_eq_of_lt hxr,
      Nat.div_eq_of_lt hyr, Nat.zero_add, Nat.add_mul_mod_self_right, Nat.mod_eq_of_lt hxr,
      Nat.mod_eq_of_lt hyr] at hq hr
    rw [hq, ih hl (fun a ha => hxs a (List.mem_cons_of_mem x ha))
      (fun a ha => hys a (List.mem_cons_of_mem y ha)) hr]

/-- The `w` bits of a `total`-bit number that start `i` bits below its top. -/
def bitField (x total i w : Nat) : Nat := x / 2 ^ (total - (i + w)) % 2 ^ w

theorem bitField_lt (x total i w : Nat) : bitField x total i w < 2 ^ w := Nat.mod_lt _ (Nat.two_pow_pos w)

/-- The first `n` fields of `w` bits of a number, put together again, are its
top `w * n` bits. -/
theorem fieldsValue_bitFields {w total x : Nat} (hx : x < 2 ^ total) :
    ∀ n, w * n ≤ total →
      fieldsValue w ((List.range n).map fun j => bitField x total (w * j) w) =
        x / 2 ^ (total - w * n) := by
  intro n
  induction n with
  | zero =>
    intro _
    simp [fieldsValue, Nat.div_eq_of_lt hx]
  | succ n ih =>
    intro hn
    have hsplit : total - w * n = total - (w * n + w) + w := by
      rw [Nat.mul_succ] at hn
      omega
    rw [List.range_succ, List.map_append, List.map_singleton, fieldsValue_concat,
      ih (by rw [Nat.mul_succ] at hn; omega), bitField, hsplit, Nat.pow_add,
      ← Nat.div_div_eq_div_mul, Nat.mul_succ, Nat.div_add_mod']

/-- The fields `xs` of `w` bits written into `n` bytes, padded with zero bits. -/
def packFields (w n : Nat) (xs : List Nat) : Bytes :=
  beBytes n (fieldsValue w xs * 2 ^ (8 * n - w * xs.length))

end ByteCodec
