import Globe.Key.Shamir39
import Globe.Lib.CyclicField

/-!
# The field of the shamir39 tables

The words of shamir39 are the elements of GF(2^11) = GF(2)[x]/(x^11 + x^2 + 1):
eleven bits, added by XOR.  `nextElement 2048 5` multiplies by x, and
`build_tables` writes its powers of 1 into `exp_table` and their exponents into
`log_table`.  Here the words are `XorVec 11`, `nextElement` is the additive map
`xtime`, and since the powers of x meet every nonzero word, `CyclicField` makes
the words the field `GF`, with `toGF` reading a word as an element.

What the code computes through the tables is then arithmetic in `GF`:
`horner` evaluates a polynomial at a share's index, and `lagrange`, in log
space, evaluates at 0 the polynomial that interpolates the shares, so it gives
back the constant coefficient of any polynomial of degree below the number of
shares (`lagrange_eq_constant`).
-/

namespace Globe

open CyclicField Function Polynomial UB

/-! ## Multiplication by x -/

theorem testBit_ten {x : Nat} (hx : x < 2048) : x.testBit 10 = decide (1024 ≤ x) := by
  rw [Nat.testBit_eq_decide_div_mod_eq]
  congr 1
  apply propext
  rw [show (2 : Nat) ^ 10 = 1024 from rfl]
  omega

/-- `nextElement` on a word: the shifted word, reduced by x^11 + x^2 + 1 when bit 10 is set. -/
theorem nextElement_eq {x : Nat} (hx : x < 2048) :
    nextElement 2048 5 x = (x <<< 1 &&& 2047) ^^^ (if x.testBit 10 then 5 else 0) := by
  have hshift : x <<< 1 = 2 * x := by rw [Nat.shiftLeft_eq, Nat.pow_one, Nat.mul_comm]
  unfold nextElement
  dsimp only
  rw [testBit_ten hx]
  by_cases hbit : 1024 ≤ x
  · rw [if_pos (by omega), decide_eq_true hbit, if_pos rfl, Nat.and_xor_distrib_right]
    rfl
  · have hlt : x <<< 1 < 2 ^ 11 := by rw [hshift]; omega
    rw [if_neg (by omega), decide_eq_false hbit, if_neg Bool.false_ne_true, Nat.xor_zero,
      show (2047 : Nat) = 2 ^ 11 - 1 from rfl, Nat.and_two_pow_sub_one_of_lt_two_pow hlt]

/-- Multiplying by x distributes over the addition of words. -/
theorem nextElement_xor {a b : Nat} (ha : a < 2048) (hb : b < 2048) :
    nextElement 2048 5 (a ^^^ b) = nextElement 2048 5 a ^^^ nextElement 2048 5 b := by
  rw [nextElement_eq (Nat.xor_lt_two_pow (n := 11) ha hb), nextElement_eq ha, nextElement_eq hb,
    Nat.shiftLeft_xor_distrib, Nat.and_xor_distrib_right, Nat.testBit_xor, XorVec.ite_xor]
  ac_rfl

theorem nextElement_ne_zero {x : Nat} (hx : x < 2048) (hx0 : x ≠ 0) : nextElement 2048 5 x ≠ 0 := by
  rw [nextElement_eq hx, testBit_ten hx]
  by_cases hbit : 1024 ≤ x
  · -- the reduction sets bit 0, which the shift leaves clear
    rw [if_pos (decide_eq_true hbit)]
    intro hzero
    have hbit0 : (x <<< 1 &&& 2047 ^^^ 5).testBit 0 = true := by
      rw [Nat.testBit_xor, Nat.testBit_and, Nat.testBit_shiftLeft]
      rfl
    rw [hzero, Nat.zero_testBit] at hbit0
    exact Bool.false_ne_true hbit0
  · rw [decide_eq_false hbit, if_neg Bool.false_ne_true, Nat.xor_zero,
      show (2047 : Nat) = 2 ^ 11 - 1 from rfl,
      Nat.and_two_pow_sub_one_of_lt_two_pow (by rw [Nat.shiftLeft_eq]; omega), Nat.shiftLeft_eq]
    omega

/-- Multiplication by x, the map whose powers `build_tables` writes. -/
def xtime : XorVec 11 →+ XorVec 11 where
  toFun a := ⟨nextElement 2048 5 a.val, nextElement_lt a.lt⟩
  map_zero' := XorVec.ext (by decide)
  map_add' a b := XorVec.ext (nextElement_xor a.lt b.lt)

/-- The word 1, where `build_tables` starts. -/
def unitWord : XorVec 11 := ⟨1, by decide⟩

theorem val_iterate_xtime (i : Nat) : (xtime^[i] unitWord).val = genPow i := by
  induction i with
  | zero => rfl
  | succ i ih =>
    rw [iterate_succ_apply', genPow_succ, ← ih]
    rfl

/-! ## The powers of x meet every nonzero word -/

set_option maxRecDepth 20000 in
theorem genPow_period : genPow 2047 = 1 := by decide +kernel

theorem genPow_ne_zero (i : Nat) : genPow i ≠ 0 := by
  induction i with
  | zero => decide
  | succ i ih =>
    rw [genPow_succ]
    exact nextElement_ne_zero (genPow_lt i) ih

/-- x has order 2047 = 23 * 89: the proper divisors are no periods. -/
theorem minimalPeriod_genPow : minimalPeriod (nextElement 2048 5) 1 = 2047 := by
  have hper : IsPeriodicPt (nextElement 2048 5) 2047 1 := genPow_period
  have hfix : genPow (minimalPeriod (nextElement 2048 5) 1) = 1 := iterate_minimalPeriod
  have hpos := hper.minimalPeriod_pos (by decide)
  obtain ⟨d₁, d₂, h₁, h₂, hd⟩ := Nat.dvd_mul.mp (show _ ∣ 23 * 89 from hper.minimalPeriod_dvd)
  have hne : ∀ d ∈ [1, 23, 89], genPow d ≠ 1 := by decide +kernel
  rw [← hd] at hfix ⊢
  rcases (Nat.dvd_prime (by norm_num)).mp h₁ with rfl | rfl <;>
    rcases (Nat.dvd_prime (by norm_num)).mp h₂ with rfl | rfl
  · exact absurd hfix (hne 1 (by simp))
  · exact absurd hfix (hne 89 (by simp))
  · exact absurd hfix (hne 23 (by simp))
  · rfl

theorem exists_genPow {x : Nat} (hx0 : x ≠ 0) (hx : x < 2048) : ∃ i < 2047, genPow i = x := by
  have hinj : Set.InjOn genPow (Finset.range 2047 : Set Nat) := by
    intro i hi j hj hij
    have hI := @iterate_injOn_Iio_minimalPeriod _ (nextElement 2048 5) 1
    rw [minimalPeriod_genPow] at hI
    exact hI (Finset.mem_range.mp hi) (Finset.mem_range.mp hj) hij
  -- the 2047 powers below the period are the 2047 nonzero words
  have hsub : (Finset.range 2047).image genPow ⊆ (Finset.range 2048).erase 0 := by
    intro y hy
    obtain ⟨i, -, rfl⟩ := Finset.mem_image.mp hy
    exact Finset.mem_erase.mpr ⟨genPow_ne_zero i, Finset.mem_range.mpr (genPow_lt i)⟩
  have hcard : ((Finset.range 2048).erase 0).card ≤ ((Finset.range 2047).image genPow).card := by
    rw [Finset.card_image_of_injOn hinj, Finset.card_erase_of_mem (by simp), Finset.card_range,
      Finset.card_range]
  have hmem : x ∈ (Finset.range 2047).image genPow := by
    rw [Finset.eq_of_subset_of_card_le hsub hcard]
    exact Finset.mem_erase.mpr ⟨hx0, Finset.mem_range.mpr hx⟩
  obtain ⟨i, hi, rfl⟩ := Finset.mem_image.mp hmem
  exact ⟨i, Finset.mem_range.mp hi, rfl⟩

theorem generates_unitWord : Generates xtime unitWord where
  period := ⟨2047, by decide, XorVec.ext (by rw [val_iterate_xtime]; exact genPow_period)⟩
  ne_zero := fun h => absurd (congrArg XorVec.val h) (by decide)
  orbit := by
    intro x hx
    have hx0 : x.val ≠ 0 := fun h => hx (XorVec.ext h)
    obtain ⟨i, -, hi⟩ := exists_genPow hx0 x.lt
    exact ⟨i, XorVec.ext (by rw [val_iterate_xtime, hi])⟩

/-! ## The field -/

/-- GF(2^11) as the tables compute it. -/
abbrev GF : Type := Carrier generates_unitWord

/-- A word as an element of `GF`; the code keeps words below 2048. -/
def toGF (x : Nat) : GF := Carrier.of generates_unitWord ⟨x % 2048, Nat.mod_lt x (by decide)⟩

theorem toGF_of_lt {x : Nat} (hx : x < 2048) : toGF x = Carrier.of generates_unitWord ⟨x, hx⟩ := by
  simp only [toGF, Nat.mod_eq_of_lt hx]

@[simp] theorem toGF_zero : toGF 0 = 0 := rfl

theorem toGF_xor {a b : Nat} (ha : a < 2048) (hb : b < 2048) :
    toGF (a ^^^ b) = toGF a + toGF b := by
  have hsum : (⟨(a ^^^ b) % 2048, Nat.mod_lt _ (by decide)⟩ : XorVec 11) =
      ⟨a % 2048, Nat.mod_lt _ (by decide)⟩ + ⟨b % 2048, Nat.mod_lt _ (by decide)⟩ := by
    apply XorVec.ext
    show (a ^^^ b) % 2048 = a % 2048 ^^^ b % 2048
    rw [Nat.mod_eq_of_lt ha, Nat.mod_eq_of_lt hb,
      Nat.mod_eq_of_lt (Nat.xor_lt_two_pow (n := 11) ha hb)]
  exact congrArg (Carrier.of generates_unitWord) hsum

theorem toGF_inj {a b : Nat} (ha : a < 2048) (hb : b < 2048) (hab : toGF a = toGF b) : a = b := by
  rw [toGF_of_lt ha, toGF_of_lt hb] at hab
  exact congrArg XorVec.val (Carrier.of_injective hab)

/-- The element x of `GF`, which generates its units. -/
noncomputable def x : GF := Carrier.gen generates_unitWord

theorem toGF_genPow (i : Nat) : toGF (genPow i) = x ^ i := by
  rw [toGF_of_lt (genPow_lt i), x, ← Carrier.of_iterate_eq_gen_pow]
  congr 1
  exact XorVec.ext (val_iterate_xtime i).symm

theorem x_ne_zero : x ≠ 0 := Carrier.gen_ne_zero

theorem x_pow_period : x ^ 2047 = 1 := by
  rw [← toGF_genPow, genPow_period, toGF_of_lt (by decide)]
  rfl

/-! ## The tables -/

theorem getD_exp_table {j : Nat} (hj : j < 2048) : exp_table.getD j 0 = genPow j := by
  rw [List.getD_eq_getElem?_getD, tablesInv_build.exp_pow j hj]
  rfl

/-- The log of a nonzero word: the table gives an exponent of x that yields it. -/
theorem genPow_log_table {a : Nat} (ha0 : a ≠ 0) (ha : a < 2048) :
    genPow (log_table.getD a 0) = a ∧ log_table.getD a 0 < 2048 := by
  obtain ⟨j, hj, rfl⟩ := exists_genPow ha0 ha
  obtain ⟨l, hl, hli, hpow⟩ := tablesInv_build.log_pow j (by omega)
  rw [List.getD_eq_getElem?_getD, hl]
  exact ⟨hpow, hli⟩

theorem toGF_log_table {a : Nat} (ha0 : a ≠ 0) (ha : a < 2048) :
    x ^ log_table.getD a 0 = toGF a := by
  rw [← toGF_genPow, (genPow_log_table ha0 ha).1]

/-- A product through the tables, as `horner` forms it. -/
theorem toGF_exp_log_add {a b : Nat} (ha0 : a ≠ 0) (ha : a < 2048) (hb0 : b ≠ 0) (hb : b < 2048) :
    toGF (exp_table.getD ((log_table.getD a 0 + log_table.getD b 0) % max_bits_value) 0) =
      toGF a * toGF b := by
  have hmod : (log_table.getD a 0 + log_table.getD b 0) % max_bits_value < 2048 :=
    Nat.lt_of_lt_of_le (Nat.mod_lt _ (by decide)) (by decide)
  rw [getD_exp_table hmod, toGF_genPow, show max_bits_value = 2047 from rfl,
    ← pow_eq_pow_mod _ x_pow_period, pow_add, toGF_log_table ha0 ha, toGF_log_table hb0 hb]

/-! ## Evaluation -/

theorem hornerValue_cons (a c : Nat) (coeffs : List Nat) :
    hornerValue a (c :: coeffs) = if hornerValue a coeffs = 0 then c
      else exp_table.getD ((log_table.getD a 0 + log_table.getD (hornerValue a coeffs) 0) % max_bits_value) 0 ^^^ c :=
  rfl

/-- The polynomial with the coefficients `coeffs`, lowest first. -/
noncomputable def polyOf (coeffs : List Nat) : GF[X] :=
  coeffs.foldr (fun c p => C (toGF c) + X * p) 0

theorem hornerValue_lt {x : Nat} (hx : x < 2048) {coeffs : List Nat} (hc : ∀ c ∈ coeffs, c < 2048) :
    hornerValue x coeffs < 2048 :=
  (horner_eq hx hc).2

/-- `horner` evaluates the polynomial of its coefficients at a nonzero word. -/
theorem toGF_hornerValue {a : Nat} (ha0 : a ≠ 0) (ha : a < 2048) :
    ∀ {coeffs : List Nat}, (∀ c ∈ coeffs, c < 2048) →
      toGF (hornerValue a coeffs) = (polyOf coeffs).eval (toGF a)
  | [], _ => by rw [polyOf, List.foldr_nil, eval_zero]; rfl
  | c :: coeffs, hc => by
    have hcs : ∀ c' ∈ coeffs, c' < 2048 := fun c' hm => hc c' (List.mem_cons_of_mem c hm)
    have hfx := hornerValue_lt ha hcs
    have ih := toGF_hornerValue ha0 ha hcs
    have hcoeff : c < 2048 := hc c List.mem_cons_self
    rw [hornerValue_cons, show polyOf (c :: coeffs) = C (toGF c) + X * polyOf coeffs from rfl, eval_add, eval_C, eval_mul, eval_X, ← ih]
    split
    · next hzero => rw [hzero, toGF_zero, mul_zero, add_zero]
    · next hne => rw [toGF_xor (by simpa using getD_table_lt tablesInv_build.exp_lt _) hcoeff,
        toGF_exp_log_add ha0 ha hne hfx, add_comm]

/-! ## Interpolation in log space -/

/-- The factor that share `k` contributes to the weight at 0 of the share at
`xi`: x_k / (x_i + x_k), which is (0 - x_k) / (x_i - x_k) in characteristic 2. -/
noncomputable def weightFactor (xi k : Nat) : GF := toGF (k + 1) * (toGF (xi ^^^ (k + 1)))⁻¹

/-- The weight at 0 of share `k` among the shares `ks`. -/
noncomputable def weightAt0 (ks : List Nat) (k : Nat) : GF :=
  ((ks.filter (· ≠ k)).map (weightFactor (k + 1))).prod

theorem x_zpow_emod (m : ℤ) : x ^ m = x ^ (m % 2047) := by
  conv_lhs => rw [← Int.emod_add_mul_ediv m 2047]
  rw [zpow_add₀ x_ne_zero, zpow_mul, zpow_ofNat, x_pow_period, one_zpow, mul_one]

theorem tmod_max_bits_value {a : ℤ} (ha : 0 ≤ a) :
    0 ≤ a.tmod max_bits_value ∧ a.tmod max_bits_value ≤ 2047 := by
  have hlt := Int.tmod_lt_of_pos a (show (0 : ℤ) < max_bits_value by decide)
  exact ⟨Int.tmod_nonneg _ ha, by have : (max_bits_value : ℤ) = 2047 := rfl; omega⟩

/-- One step of the inner loop of `lagrange`, in the field: the new log is that
of the old weight times the factor of `a`, with `b` the sum of `xi` and `a`. -/
theorem x_zpow_lagrangeStep {product : ℤ} (hp : 0 ≤ product) {a b : Nat} (ha0 : a ≠ 0) (ha : a < 2048)
    (hb0 : b ≠ 0) (hb : b < 2048) :
    x ^ ((product + (log_table.getD a 0 : ℤ) - (log_table.getD b 0 : ℤ) + (max_bits_value : ℤ)).tmod
        (max_bits_value : ℤ)) = x ^ product * (toGF a * (toGF b)⁻¹) := by
  have hlb := (genPow_log_table hb0 hb).2
  have hmax : (max_bits_value : ℤ) = 2047 := rfl
  rw [hmax, Int.tmod_eq_emod_of_nonneg (by omega), ← x_zpow_emod, zpow_add₀ x_ne_zero,
    zpow_sub₀ x_ne_zero, zpow_add₀ x_ne_zero, zpow_natCast, zpow_natCast, zpow_ofNat, x_pow_period,
    toGF_log_table ha0 ha, toGF_log_table hb0 hb, mul_one, div_eq_mul_inv, mul_assoc]

/-- The inner loop of `lagrange` multiplies the weight by the factor of every
share but the one at position `i`. -/
theorem lagrangeProduct_eq {i xi : Nat} (hxi : xi < 2048) :
    ∀ (ks : List Nat) (j : Nat) (product : ℤ), 0 ≤ product → product ≤ 2047 →
      (∀ k ∈ ks, k + 1 < 2048) → (∀ j' k, ks[j']? = some k → (j + j' = i ↔ k = xi - 1)) →
      ∃ p, lagrangeProduct i xi ks j product = .ok p ∧ 0 ≤ p ∧ p ≤ 2047 ∧
        x ^ p = x ^ product * ((ks.filter (· ≠ xi - 1)).map (weightFactor xi)).prod
  | [], _, product, h0, h1, _, _ => ⟨product, rfl, h0, h1, by rw [List.filter_nil, List.map_nil,
      List.prod_nil, mul_one]⟩
  | k :: ks, j, product, h0, h1, hlt, hpos => by
    have hrest : ∀ j' k', ks[j']? = some k' → (j + 1 + j' = i ↔ k' = xi - 1) := fun j' k' hk' => by
      rw [show j + 1 + j' = j + (j' + 1) by omega]
      exact hpos (j' + 1) k' hk'
    have hks : ∀ k' ∈ ks, k' + 1 < 2048 := fun k' hk' => hlt k' (List.mem_cons_of_mem k hk')
    have hk := hlt k List.mem_cons_self
    have hself := hpos 0 k rfl
    rw [Nat.add_zero] at hself
    by_cases hij : i = j
    · -- the share itself: skipped, and its factor is left out
      obtain ⟨p, hrun, hp0, hp1, hpow⟩ := lagrangeProduct_eq hxi ks (j + 1) product h0 h1 hks hrest
      refine ⟨p, by rw [lagrangeProduct, if_pos hij]; exact hrun, hp0, hp1, ?_⟩
      rw [List.filter_cons_of_neg (by simpa using hself.mp hij.symm)]
      exact hpow
    · have hne : k ≠ xi - 1 := fun h => hij (hself.mpr h).symm
      have hxor0 : xi ^^^ (k + 1) ≠ 0 := fun h => hne (by rw [Nat.eq_of_xor_eq_zero h]; rfl)
      have hxor := Nat.xor_lt_two_pow (n := 11) hxi hk
      have hstep := x_zpow_lagrangeStep h0 (Nat.add_one_ne_zero k) hk hxor0 hxor
      have hnew := (genPow_log_table hxor0 hxor).2
      -- the sum stays nonnegative, so `%` of C++ is the Euclidean one
      have hsum : 0 ≤ product + (log_table.getD (k + 1) 0 : ℤ) -
          (log_table.getD (xi ^^^ (k + 1)) 0 : ℤ) + (max_bits_value : ℤ) := by
        have : (max_bits_value : ℤ) = 2047 := rfl
        omega
      obtain ⟨hnew0, hnew1⟩ := tmod_max_bits_value hsum
      obtain ⟨p, hrun, hp0, hp1, hpow⟩ := lagrangeProduct_eq hxi ks (j + 1) _ hnew0 hnew1 hks hrest
      refine ⟨p, ?_, hp0, hp1, ?_⟩
      · rw [lagrangeProduct, if_neg hij]
        dsimp only
        rw [Nat.zero_xor, index_table length_log_table hk, ok_bind,
          index_table length_log_table hxor, ok_bind]
        exact hrun
      · rw [hpow, hstep, List.filter_cons_of_pos (by simpa using hne), List.map_cons, List.prod_cons,
          mul_assoc]
        rfl

theorem indexInt_exp_table {j : Nat} (hj : j < 2048) : indexInt exp_table j = .ok (genPow j) := by
  obtain ⟨hlen, hget⟩ := List.getElem?_eq_some_iff.mp (tablesInv_build.exp_pow j hj)
  rw [indexInt_of_lt hlen, hget]

/-- The outer loop of `lagrange` adds each share's word times the share's weight at 0;
`ks` are the keys of all the shares and `i` the position of the first one left. -/
theorem lagrangeSum_eq (w : Nat) {ks : List Nat} (hks : ks.Nodup) (hlt : ∀ k ∈ ks, k + 1 < 2048) :
    ∀ (shares : List (Nat × List Nat)) (i sum : Nat), shares.map (·.1) = ks.drop i → sum < 2048 →
      (∀ s ∈ shares, ∃ y < 2048, s.2[w]? = some y) →
      ∃ r, lagrangeSum w ks shares i sum = .ok r ∧ r < 2048 ∧
        toGF r = toGF sum + (shares.map fun s => toGF (s.2.getD w 0) * weightAt0 ks s.1).sum
  | [], _, sum, _, hsum, _ => ⟨sum, rfl, hsum, by rw [List.map_nil, List.sum_nil, add_zero]⟩
  | (k, v) :: shares, i, sum, hkeys, hsum, hy => by
    obtain ⟨y, hy2048, hyv⟩ := hy (k, v) List.mem_cons_self
    have hys : ∀ s ∈ shares, ∃ y < 2048, s.2[w]? = some y := fun s hs => hy s (List.mem_cons_of_mem _ hs)
    -- the share at position `i` has key `k`
    have hki : ks[i]? = some k := by rw [← List.head?_drop, ← hkeys]; rfl
    have hnext : shares.map (·.1) = ks.drop (i + 1) := by rw [← List.tail_drop, ← hkeys]; rfl
    have hindex : index v w = .ok y := by
      obtain ⟨hwv, hvw⟩ := List.getElem?_eq_some_iff.mp hyv
      rw [index_of_lt hwv, hvw]
    have hgetD : v.getD w 0 = y := by rw [List.getD_eq_getElem?_getD, hyv]; rfl
    rw [List.map_cons, List.sum_cons]
    dsimp only
    rw [hgetD]
    by_cases hy0 : y = 0
    · -- a zero word adds nothing, and has no log
      obtain ⟨r, hrun, hr, hval⟩ := lagrangeSum_eq w hks hlt shares (i + 1) sum hnext hsum hys
      refine ⟨r, ?_, hr, ?_⟩
      · rw [lagrangeSum, hindex, ok_bind, if_pos hy0]
        exact hrun
      · rw [hval, hy0, toGF_zero, zero_mul, zero_add]
    · have hk := hlt k (List.mem_of_getElem? hki)
      -- the keys are distinct, so the share is skipped at its own position only
      have hpos : ∀ j' k', ks[j']? = some k' → (0 + j' = i ↔ k' = k + 1 - 1) := by
        intro j' k' hk'
        rw [Nat.zero_add, Nat.add_sub_cancel]
        constructor
        · rintro rfl
          rw [hki] at hk'
          exact (Option.some.inj hk').symm
        · rintro rfl
          exact (List.getElem?_inj (List.getElem?_eq_some_iff.mp hk').1 hks).mp (hk'.trans hki.symm)
      obtain ⟨hlog, hlog2048⟩ := genPow_log_table hy0 hy2048
      obtain ⟨p, hrun, hp0, hp1, hpow⟩ :=
        lagrangeProduct_eq hk ks 0 (log_table.getD y 0) (by omega) (by omega) hlt hpos
      have hpnat : p = (p.toNat : ℤ) := (Int.toNat_of_nonneg hp0).symm
      have hsum' : sum ^^^ genPow p.toNat < 2048 := Nat.xor_lt_two_pow (n := 11) hsum (genPow_lt _)
      obtain ⟨r, hrun', hr, hval⟩ := lagrangeSum_eq w hks hlt shares (i + 1) _ hnext hsum' hys
      refine ⟨r, ?_, hr, ?_⟩
      · rw [lagrangeSum, hindex, ok_bind, if_neg hy0, index_table length_log_table hy2048, ok_bind, hrun, ok_bind, hpnat,
          indexInt_exp_table (by omega), ok_bind]
        exact hrun'
      · rw [hval, toGF_xor hsum (genPow_lt _), toGF_genPow, ← zpow_natCast, ← hpnat, hpow,
          zpow_natCast, toGF_log_table hy0 hy2048, Nat.add_sub_cancel, add_assoc]
        rfl

theorem toGF_lagrange {w : Nat} {shares : List (Nat × List Nat)} (hks : (shares.map (·.1)).Nodup)
    (hlt : ∀ k ∈ shares.map (·.1), k + 1 < 2048) (hy : ∀ s ∈ shares, ∃ y < 2048, s.2[w]? = some y) :
    ∃ r, lagrange w shares = .ok r ∧ r < 2048 ∧
      toGF r = (shares.map fun s => toGF (s.2.getD w 0) * weightAt0 (shares.map (·.1)) s.1).sum := by
  obtain ⟨r, hrun, hr, hval⟩ :=
    lagrangeSum_eq w hks hlt shares 0 0 (List.drop_zero).symm (by decide) hy
  exact ⟨r, hrun, hr, by rw [hval, toGF_zero, zero_add]⟩

/-! ## The value at 0 of the interpolating polynomial -/

/-- The point of share `k`: its index plus one. -/
def node (k : Nat) : GF := toGF (k + 1)

theorem gf_neg (a : GF) : -a = a := Carrier.neg_eq_self XorVec.add_self a

theorem eval_zero_basisDivisor {k j : Nat} (hk : k + 1 < 2048) (hj : j + 1 < 2048) :
    (Lagrange.basisDivisor (node k) (node j)).eval 0 = weightFactor (k + 1) j := by
  rw [Lagrange.basisDivisor, eval_mul, eval_C, eval_sub, eval_X, eval_C, zero_sub, gf_neg,
    sub_eq_add_neg, gf_neg, weightFactor, toGF_xor hk hj, node, node, mul_comm]

/-- The weight `lagrange` computes is Lagrange's basis polynomial at 0. -/
theorem eval_zero_basis {ks : List Nat} (hks : ks.Nodup) (hlt : ∀ k ∈ ks, k + 1 < 2048) {k : Nat}
    (hk : k ∈ ks) : (Lagrange.basis ks.toFinset node k).eval 0 = weightAt0 ks k := by
  have hset : (ks.filter (· ≠ k)).toFinset = ks.toFinset.erase k := by
    rw [List.toFinset_filter, ← Finset.filter_ne']
    simp
  rw [Lagrange.basis, eval_prod, weightAt0, ← List.prod_toFinset _ (hks.filter _), hset]
  exact Finset.prod_congr rfl fun j hj =>
    eval_zero_basisDivisor (hlt k hk) (hlt j (List.mem_toFinset.mp (Finset.mem_of_mem_erase hj)))

theorem degree_polyOf_lt : ∀ coeffs : List Nat, (polyOf coeffs).degree < coeffs.length
  | [] => by rw [polyOf, List.foldr_nil, degree_zero]; exact WithBot.bot_lt_coe 0
  | c :: coeffs => by
    rw [degree_lt_iff_coeff_zero]
    intro m hm
    obtain ⟨m, rfl⟩ : ∃ m', m = m' + 1 := ⟨m - 1, by rw [List.length_cons] at hm; omega⟩
    have ih := (degree_lt_iff_coeff_zero _ _).mp (degree_polyOf_lt coeffs) m
      (by rw [List.length_cons] at hm; omega)
    rw [show polyOf (c :: coeffs) = C (toGF c) + X * polyOf coeffs from rfl, coeff_add, coeff_C,
      if_neg (Nat.add_one_ne_zero m), coeff_X_mul, ih, zero_add]

theorem eval_zero_polyOf : ∀ coeffs : List Nat, (polyOf coeffs).eval 0 = toGF (coeffs.headD 0)
  | [] => by rw [polyOf, List.foldr_nil, eval_zero]; rfl
  | c :: coeffs => by
    rw [show polyOf (c :: coeffs) = C (toGF c) + X * polyOf coeffs from rfl, eval_add, eval_C, eval_mul,
      eval_X, zero_mul, add_zero]
    rfl

/-- `lagrange` gives back the constant coefficient of any polynomial of degree
below the number of shares whose words at `w` are its values at the shares'
indices plus one: shares with distinct indices below 2047. -/
theorem lagrange_eq_constant {w : Nat} {shares : List (Nat × List Nat)} (hks : (shares.map (·.1)).Nodup)
    (hlt : ∀ k ∈ shares.map (·.1), k + 1 < 2048) {coeffs : List Nat} (hc : ∀ c ∈ coeffs, c < 2048)
    (hlen : coeffs.length ≤ shares.length)
    (hval : ∀ s ∈ shares, s.2[w]? = some (hornerValue (s.1 + 1) coeffs)) :
    lagrange w shares = .ok (coeffs.headD 0) := by
  have hslt : ∀ s ∈ shares, s.1 + 1 < 2048 := fun s hs => hlt s.1 (List.mem_map_of_mem hs)
  obtain ⟨r, hrun, hr, hsum⟩ :=
    toGF_lagrange hks hlt fun s hs => ⟨_, hornerValue_lt (hslt s hs) hc, hval s hs⟩
  have hhead : coeffs.headD 0 < 2048 := by
    cases coeffs with
    | nil => decide
    | cons c cs => exact hc c List.mem_cons_self
  rw [hrun, toGF_inj hr hhead ?_]
  set ks := shares.map (·.1)
  set P := polyOf coeffs
  -- each share's word is the polynomial at the share's point
  have hshare : (shares.map fun s => toGF (s.2.getD w 0) * weightAt0 ks s.1) =
      ks.map fun k => P.eval (node k) * weightAt0 ks k := by
    rw [List.map_map]
    refine List.map_congr_left fun s hs => ?_
    rw [Function.comp_apply, List.getD_eq_getElem?_getD, hval s hs, Option.getD_some,
      toGF_hornerValue (Nat.add_one_ne_zero _) (hslt s hs) hc]
    rfl
  have hinj : Set.InjOn node ks.toFinset := fun a ha b hb hab => by
    have := toGF_inj (hlt a (List.mem_toFinset.mp ha)) (hlt b (List.mem_toFinset.mp hb)) hab
    omega
  have hdeg : P.degree < ks.toFinset.card := by
    rw [List.toFinset_card_of_nodup hks, List.length_map]
    exact lt_of_lt_of_le (degree_polyOf_lt coeffs) (by exact_mod_cast hlen)
  calc toGF r = (ks.map fun k => P.eval (node k) * weightAt0 ks k).sum := by rw [hsum, hshare]
    _ = ∑ k ∈ ks.toFinset, P.eval (node k) * (Lagrange.basis ks.toFinset node k).eval 0 := by
      rw [← List.sum_toFinset _ hks]
      exact Finset.sum_congr rfl fun k hk => by rw [eval_zero_basis hks hlt (List.mem_toFinset.mp hk)]
    _ = (Lagrange.interpolate ks.toFinset node fun k => P.eval (node k)).eval 0 := by
      rw [Lagrange.interpolate_apply, eval_finsetSum]
      simp only [eval_mul, eval_C]
    _ = P.eval 0 := by rw [← Lagrange.eq_interpolate hinj hdeg]
    _ = toGF (coeffs.headD 0) := eval_zero_polyOf coeffs

end Globe
