import Globe.Lib.LinearFold
import Globe.Lib.CyclicField
import Globe.Lib.Positional
import Globe.Key.Mnemonic

/-!
# Bech32

`Encode` and `Decode` of `bech32.cpp`: a string is a human-readable part, the
separator '1', and data characters from a 32-letter set, the last six of which
are a checksum.  The checksum is `PolyMod`, the remainder of the values read
as a polynomial over GF(32) modulo the code's generator, computed by a linear
feedback register on 30 bits; Bech32 and Bech32m differ only in the constant
the remainder must equal.

`PolyMod`'s step is additive in the register and the input together
(`polyModStep_xor`), so the register, read as vectors of bits under exclusive
or, is a `LinearFold.Additive` fold, and the library's facts about such folds
give the results:
* `Decode_Encode`: decoding an encoding gives back its encoding, its
  human-readable part and its data;
* `Encode_Decode`: every string `Decode` accepts is the encoding of what it
  returns, in lower case;
* `Decode_set_ne`: changing one data character of an accepted string to one
  of another value is always detected, since `PolyMod_set_ne` says that
  changing one input changes the remainder.

`Decode_ne_error`: `Decode` never reads outside `CHARSET_REV`.
-/

namespace Globe

namespace bech32

open ByteCodec UB LinearFold

inductive Encoding where
  | INVALID
  | BECH32
  | BECH32M
  deriving DecidableEq, Repr

/-- How the bech32 routines stop other than by returning: a failed assert, or
a read past the end of a table. -/
inductive Bech32Abort where
  | assertFailed
  | undefined (u : Undefined)
  deriving DecidableEq, Repr

/-- `CHARSET`, with the NUL that ends the C string. -/
def CHARSET : Bytes := cstr "qpzry9x8gf2tvdw0s3jn54khce6mua7l" ++ [0]

/-- `CHARSET_REV`: the value of each ASCII character, or -1; eight entries a line. -/
def CHARSET_REV : List Int := [
  (-1 : Int), (-1 : Int), (-1 : Int), (-1 : Int), (-1 : Int), (-1 : Int), (-1 : Int), (-1 : Int),
  (-1 : Int), (-1 : Int), (-1 : Int), (-1 : Int), (-1 : Int), (-1 : Int), (-1 : Int), (-1 : Int),
  (-1 : Int), (-1 : Int), (-1 : Int), (-1 : Int), (-1 : Int), (-1 : Int), (-1 : Int), (-1 : Int),
  (-1 : Int), (-1 : Int), (-1 : Int), (-1 : Int), (-1 : Int), (-1 : Int), (-1 : Int), (-1 : Int),
  (-1 : Int), (-1 : Int), (-1 : Int), (-1 : Int), (-1 : Int), (-1 : Int), (-1 : Int), (-1 : Int),
  (-1 : Int), (-1 : Int), (-1 : Int), (-1 : Int), (-1 : Int), (-1 : Int), (-1 : Int), (-1 : Int),
  15, (-1 : Int), 10, 17, 21, 20, 26, 30,
  7, 5, (-1 : Int), (-1 : Int), (-1 : Int), (-1 : Int), (-1 : Int), (-1 : Int),
  (-1 : Int), 29, (-1 : Int), 24, 13, 25, 9, 8,
  23, (-1 : Int), 18, 22, 31, 27, 19, (-1 : Int),
  1, 0, 3, 16, 11, 28, 12, 14,
  6, 4, 2, (-1 : Int), (-1 : Int), (-1 : Int), (-1 : Int), (-1 : Int),
  (-1 : Int), 29, (-1 : Int), 24, 13, 25, 9, 8,
  23, (-1 : Int), 18, 22, 31, 27, 19, (-1 : Int),
  1, 0, 3, 16, 11, 28, 12, 14,
  6, 4, 2, (-1 : Int), (-1 : Int), (-1 : Int), (-1 : Int), (-1 : Int)]

/-- `EncodingConstant`, which asserts that the encoding is BECH32 or BECH32M. -/
def EncodingConstant : Encoding → Except Bech32Abort Nat
  | .BECH32 => .ok 1
  | .BECH32M => .ok 0x2bc830a3
  | .INVALID => .error .assertFailed

/-- One step of `PolyMod`: the remainder `c` becomes that of `c(x) * x + v_i`. -/
def polyModStep (c : Nat) (v_i : UInt8) : Nat :=
  let c0 := (c >>> 25) % 256
  let c := ((c &&& 0x1ffffff) <<< 5) ^^^ v_i.toNat
  let c := if c0 &&& 1 ≠ 0 then c ^^^ 0x3b6a57b2 else c
  let c := if c0 &&& 2 ≠ 0 then c ^^^ 0x26508e6d else c
  let c := if c0 &&& 4 ≠ 0 then c ^^^ 0x1ea119fa else c
  let c := if c0 &&& 8 ≠ 0 then c ^^^ 0x3d4233dd else c
  if c0 &&& 16 ≠ 0 then c ^^^ 0x2a1462b3 else c

def PolyMod (v : List UInt8) : Nat := v.foldl polyModStep 1

def LowerCase (c : UInt8) : UInt8 := if 65 ≤ c ∧ c ≤ 90 then c - 65 + 97 else c

/-- The loop of `CheckCharacters`: the positions of characters outside
33..126, and of letters whose case differs from an earlier letter's. -/
def checkCharactersLoop : Bytes → Nat → Bool → Bool → List Nat → List Nat
  | [], _, _, _, errors => errors
  | c :: str, i, lower, upper, errors =>
    if 97 ≤ c ∧ c ≤ 122 then
      if upper then checkCharactersLoop str (i + 1) lower upper (errors ++ [i])
      else checkCharactersLoop str (i + 1) true upper errors
    else if 65 ≤ c ∧ c ≤ 90 then
      if lower then checkCharactersLoop str (i + 1) lower upper (errors ++ [i])
      else checkCharactersLoop str (i + 1) lower true errors
    else if c < 33 ∨ 126 < c then checkCharactersLoop str (i + 1) lower upper (errors ++ [i])
    else checkCharactersLoop str (i + 1) lower upper errors

/-- `CheckCharacters`: whether no error is found, and the errors. -/
def CheckCharacters (str : Bytes) (errors : List Nat) : Bool × List Nat :=
  let errors := checkCharactersLoop str 0 false false errors
  (errors.isEmpty, errors)

/-- `ExpandHRP`: the high bits of each character, a zero, then the low five bits. -/
def ExpandHRP (hrp : Bytes) : List UInt8 :=
  hrp.map (fun c : UInt8 => c >>> 5) ++ [0] ++ hrp.map (fun c : UInt8 => c &&& 0x1f)

def VerifyChecksum (hrp : Bytes) (values : List UInt8) : Except Bech32Abort Encoding := do
  let check := PolyMod (ExpandHRP hrp ++ values)
  if check = (← EncodingConstant .BECH32) then return .BECH32
  if check = (← EncodingConstant .BECH32M) then return .BECH32M
  return .INVALID

def CreateChecksum (encoding : Encoding) (hrp : Bytes) (values : List UInt8) :
    Except Bech32Abort (List UInt8) := do
  let enc := ExpandHRP hrp ++ values ++ List.replicate 6 0
  let mod := PolyMod enc ^^^ (← EncodingConstant encoding)
  return (List.range 6).map fun i => UInt8.ofNat ((mod >>> (5 * (5 - i))) &&& 31)

def Encode (encoding : Encoding) (hrp : Bytes) (values : List UInt8) : Except Bech32Abort Bytes := do
  -- the assert that the human-readable part has no upper-case letter
  if hrp.any (fun c => 65 ≤ c ∧ c ≤ 90) then throw .assertFailed
  let checksum ← CreateChecksum encoding hrp values
  let combined := values ++ checksum
  let chars ← combined.mapM fun c => (index CHARSET c.toNat).mapError .undefined
  return hrp ++ [49] ++ chars

/-- `str.rfind(c)`: the last position of `c`, if any. -/
def rfind (str : Bytes) (c : UInt8) : Option Nat :=
  (str.reverse.findIdx? (· == c)).map fun j => str.length - 1 - j

/-- The values of the data characters, or `none` at the first character that
has none (`return {}`). -/
def dataValues : Bytes → Except Bech32Abort (Option (List UInt8))
  | [] => .ok (some [])
  | c :: str => do
    let rev ← (index CHARSET_REV c.toNat).mapError .undefined
    if rev = -1 then return none
    match ← dataValues str with
    | none => return none
    | some values => return some (UInt8.ofNat rev.toNat :: values)

structure DecodeResult where
  encoding : Encoding
  hrp : Bytes
  data : List UInt8
  deriving DecidableEq, Repr

/-- `DecodeResult()`, what a failed decoding returns. -/
def DecodeResult.invalid : DecodeResult := ⟨.INVALID, [], []⟩

def Decode (str : Bytes) : Except Bech32Abort DecodeResult := do
  if !(CheckCharacters str []).1 then return .invalid
  match rfind str 49 with
  | none => return .invalid
  | some pos =>
    if 140 < str.length ∨ pos = 0 ∨ str.length < pos + 7 ∨ 83 < pos then return .invalid
    match ← dataValues (str.drop (pos + 1)) with
    | none => return .invalid
    | some values =>
      let hrp := (str.take pos).map LowerCase
      let result ← VerifyChecksum hrp values
      if result = .INVALID then return .invalid
      return ⟨result, hrp, values.take (values.length - 6)⟩

/-! ## The register

`polyModStep` keeps the remainder in 30 bits: five coefficients of five bits.
The top coefficient `c0` leaves, the rest move up one place with the input
below them, and each set bit of `c0` adds its multiple of the generator's tail. -/

/-- What the reduction adds for the top coefficient `c0`: a multiple of the
generator's tail for each of its five bits. -/
def genAdd (c0 : Nat) : Nat :=
  (if c0.testBit 0 then 0x3b6a57b2 else 0) ^^^ (if c0.testBit 1 then 0x26508e6d else 0) ^^^
    (if c0.testBit 2 then 0x1ea119fa else 0) ^^^ (if c0.testBit 3 then 0x3d4233dd else 0) ^^^
    (if c0.testBit 4 then 0x2a1462b3 else 0)

/-- `c0 & p` with `p` a power of two tests one bit. -/
theorem and_pow_ne_zero (x j p : Nat) (hp : p = 2 ^ j) : x &&& p ≠ 0 ↔ x.testBit j = true := by
  rw [hp, and_two_pow_eq, Nat.testBit_eq_decide_div_mod_eq]
  have := Nat.two_pow_pos j
  rcases Nat.mod_two_eq_zero_or_one (x / 2 ^ j) with h | h <;> simp [h]

theorem ite_xor_right (p : Prop) [Decidable p] (a k : Nat) :
    (if p then a ^^^ k else a) = a ^^^ (if p then k else 0) := by
  split <;> simp

/-- The step as a sum: the shifted remainder, the input, and the reduction. -/
theorem polyModStep_eq (c : Nat) (v : UInt8) :
    polyModStep c v = ((c &&& 0x1ffffff) <<< 5) ^^^ v.toNat ^^^ genAdd ((c >>> 25) % 256) := by
  simp only [polyModStep, genAdd, ite_xor_right, and_pow_ne_zero _ 0 1 rfl, and_pow_ne_zero _ 1 2 rfl,
    and_pow_ne_zero _ 2 4 rfl, and_pow_ne_zero _ 3 8 rfl, and_pow_ne_zero _ 4 16 rfl]
  ac_rfl

theorem genAdd_xor (a b : Nat) : genAdd (a ^^^ b) = genAdd a ^^^ genAdd b := by
  simp only [genAdd, Nat.testBit_xor, XorVec.ite_xor]
  ac_rfl

theorem genAdd_lt (c0 : Nat) : genAdd c0 < 2 ^ 30 := by
  have hbit : ∀ (p : Bool) (k : Nat), k < 2 ^ 30 → (if p then k else 0) < 2 ^ 30 := by
    intro p k hk
    split <;> omega
  unfold genAdd
  repeat' apply Nat.xor_lt_two_pow
  all_goals exact hbit _ _ (by norm_num)

/-- The remainder stays in 30 bits. -/
theorem polyModStep_lt (c : Nat) (v : UInt8) : polyModStep c v < 2 ^ 30 := by
  have hlow : c &&& 0x1ffffff < 2 ^ 25 := lt_of_le_of_lt Nat.and_le_right (by norm_num)
  have hshift : (c &&& 0x1ffffff) <<< 5 < 2 ^ 30 := by
    rw [Nat.shiftLeft_eq]
    omega
  have hv : v.toNat < 2 ^ 30 := lt_of_lt_of_le v.toNat_lt (by norm_num)
  rw [polyModStep_eq]
  exact Nat.xor_lt_two_pow (Nat.xor_lt_two_pow hshift hv) (genAdd_lt _)

/-- The step is additive in the remainder and the input together. -/
theorem polyModStep_xor (a b : Nat) (x y : UInt8) :
    polyModStep (a ^^^ b) (x ^^^ y) = polyModStep a x ^^^ polyModStep b y := by
  have htop : ((a ^^^ b) >>> 25) % 256 = (a >>> 25) % 256 ^^^ (b >>> 25) % 256 := by
    rw [Nat.shiftRight_xor_distrib, show (256 : Nat) = 2 ^ 8 from rfl, Nat.xor_mod_two_pow]
  simp only [polyModStep_eq, htop, genAdd_xor, Nat.and_xor_distrib_right, Nat.shiftLeft_xor_distrib,
    UInt8.toNat_xor]
  ac_rfl

theorem shift_xor_eq_add {c v : Nat} (hv : v < 2 ^ 5) : (c <<< 5) ^^^ v = 32 * c + v := by
  apply Nat.eq_of_testBit_eq
  intro i
  rw [Nat.testBit_xor, show 32 * c = 2 ^ 5 * c from rfl, Nat.testBit_two_pow_mul_add c hv,
    Nat.testBit_shiftLeft]
  by_cases hi : i < 5
  · simp [hi, show ¬ 5 ≤ i by omega]
  · have hvi : v.testBit i = false :=
      Nat.testBit_lt_two_pow (lt_of_lt_of_le hv (Nat.pow_le_pow_right (by norm_num) (by omega)))
    simp [hi, hvi, show 5 ≤ i by omega]

/-- Below the top coefficient the register is a number in base 32: the step
appends the input as its lowest digit. -/
theorem polyModStep_small {c v : Nat} (hc : c < 2 ^ 25) (hv : v < 32) :
    polyModStep c (UInt8.ofNat v) = 32 * c + v := by
  have htop : (c >>> 25) % 256 = 0 := by
    rw [Nat.shiftRight_eq_div_pow, Nat.div_eq_of_lt hc]
  have hlow : c &&& 0x1ffffff = c := Nat.and_two_pow_sub_one_of_lt_two_pow (n := 25) hc
  have hv' : (UInt8.ofNat v).toNat = v := by
    rw [UInt8.toNat_ofNat']
    omega
  rw [polyModStep_eq, htop, hlow, hv', shift_xor_eq_add (by omega)]
  simp [genAdd]

theorem genAdd_mod_32 : ∀ t < 32, genAdd t % 32 = 0 → t = 0 := by decide

/-- On a zero input only the zero register steps to zero: the reduction of a
nonzero top coefficient always reaches the lowest five bits. -/
theorem polyModStep_zero_right {c : Nat} (hc : c < 2 ^ 30) (h : polyModStep c 0 = 0) : c = 0 := by
  have ht : (c >>> 25) % 256 < 32 := by
    rw [Nat.shiftRight_eq_div_pow]
    omega
  have hlow : genAdd ((c >>> 25) % 256) % 32 = 0 := by
    have h32 := congrArg (· % 2 ^ 5) h
    simp only [polyModStep_eq, Nat.xor_mod_two_pow, Nat.shiftLeft_eq, Nat.mul_mod_left] at h32
    simpa using h32
  have htop : c / 2 ^ 25 = 0 := by
    have := genAdd_mod_32 _ ht hlow
    rw [Nat.shiftRight_eq_div_pow] at this
    omega
  rw [show (0 : UInt8) = UInt8.ofNat 0 from rfl, polyModStep_small (by omega) (by norm_num)] at h
  omega

theorem polyModStep_zero_left (v : UInt8) : polyModStep 0 v = v.toNat := by
  simp [polyModStep_eq, genAdd]

/-! ## The register as a linear map

Read as vectors of bits under exclusive or, `polyModStep` is additive in the
register and the input together, which is what `LinearFold` needs. -/

/-- An input as a vector of eight bits. -/
def toVec (v : UInt8) : XorVec 8 := ⟨v.toNat, UInt8.toNat_lt v⟩

/-- `polyModStep` on vectors of bits: 30 for the register, 8 for the input. -/
def polyModVec (c : XorVec 30) (v : XorVec 8) : XorVec 30 :=
  ⟨polyModStep c.val (UInt8.ofNat v.val), polyModStep_lt _ _⟩

theorem additive_polyModVec : Additive polyModVec := by
  intro s t x y
  apply XorVec.ext
  simp only [polyModVec, XorVec.val_add, UInt8.ofNat_xor, polyModStep_xor]

@[simp] theorem toVec_zero : toVec 0 = 0 := rfl

theorem toVec_injective : Function.Injective toVec := by
  intro a b h
  exact UInt8.toNat.inj (congrArg XorVec.val h)

theorem foldl_polyModVec (vs : List UInt8) (c : XorVec 30) :
    ((vs.map toVec).foldl polyModVec c).val = vs.foldl polyModStep c.val := by
  induction vs generalizing c with
  | nil => rfl
  | cons v vs ih =>
    rw [List.map_cons, List.foldl_cons, ih, List.foldl_cons]
    simp only [polyModVec, toVec, UInt8.ofNat_toNat]

theorem polyModVec_ker (c : XorVec 30) (h : polyModVec c 0 = 0) : c = 0 :=
  XorVec.ext (polyModStep_zero_right c.lt (congrArg XorVec.val h))

theorem polyModVec_zero_left (x : XorVec 8) (h : polyModVec 0 x = 0) : x = 0 := by
  apply XorVec.ext
  have hval := congrArg XorVec.val h
  simp only [polyModVec, XorVec.val_zero, polyModStep_zero_left, UInt8.toNat_ofNat'] at hval
  have := x.lt
  simp only [XorVec.val_zero]
  omega

theorem PolyMod_eq_val (vs : List UInt8) :
    PolyMod vs = ((vs.map toVec).foldl polyModVec ⟨1, by norm_num⟩).val := by
  rw [foldl_polyModVec]
  rfl

theorem PolyMod_lt (vs : List UInt8) : PolyMod vs < 2 ^ 30 := by
  rw [PolyMod_eq_val]
  exact XorVec.lt _

/-- The remainder of a list with a tail is that of the list with zeros in the
tail's place, plus the tail's own remainder from 0. -/
theorem PolyMod_append (p cs : List UInt8) :
    PolyMod (p ++ cs) = PolyMod (p ++ List.replicate cs.length 0) ^^^ cs.foldl polyModStep 0 := by
  rw [PolyMod_eq_val, PolyMod_eq_val, List.map_append, foldl_append_eq additive_polyModVec,
    List.map_append, List.map_replicate, toVec_zero, List.length_map, XorVec.val_add,
    foldl_polyModVec]
  rfl

/-- Changing one input changes the remainder. -/
theorem PolyMod_set_ne {vs : List UInt8} {k : Nat} (hk : k < vs.length) {y : UInt8}
    (hy : y ≠ vs[k]) : PolyMod (vs.set k y) ≠ PolyMod vs := by
  rw [PolyMod_eq_val, PolyMod_eq_val, List.map_set]
  intro h
  refine foldl_set_ne additive_polyModVec polyModVec_ker polyModVec_zero_left (vs.map toVec) _
    (by simpa using hk) ?_ (XorVec.ext h)
  rw [List.getElem_map]
  exact fun h' => hy (toVec_injective h')

/-! ## The checksum -/

/-- The six five-bit groups of `mod`, highest first, as `CreateChecksum` writes them. -/
def checksumGroups (mod : Nat) : List UInt8 :=
  (List.range 6).map fun i => UInt8.ofNat ((mod >>> (5 * (5 - i))) &&& 31)

theorem CreateChecksum_eq (encoding : Encoding) (hrp : Bytes) (values : List UInt8) :
    CreateChecksum encoding hrp values = (EncodingConstant encoding).map fun K =>
      checksumGroups (PolyMod (ExpandHRP hrp ++ values ++ List.replicate 6 0) ^^^ K) := by
  cases encoding <;> rfl

theorem EncodingConstant_lt {encoding : Encoding} {K : Nat} (hK : EncodingConstant encoding = .ok K) :
    K < 2 ^ 30 := by
  cases encoding <;> simp only [EncodingConstant, Except.ok.injEq, reduceCtorEq] at hK <;> omega

theorem shiftRight_and_31 (m k : Nat) : (m >>> k) &&& 31 = m / 2 ^ k % 32 := by
  rw [Nat.shiftRight_eq_div_pow, show 31 = 2 ^ 5 - 1 from rfl, Nat.and_two_pow_sub_one_eq_mod]

theorem checksumGroups_eq (m : Nat) : checksumGroups m =
    [m / 2 ^ 25 % 32, m / 2 ^ 20 % 32, m / 2 ^ 15 % 32, m / 2 ^ 10 % 32, m / 2 ^ 5 % 32, m % 32].map
      UInt8.ofNat := by
  simp [checksumGroups, List.range_succ, shiftRight_and_31]

theorem checksumGroups_lt (m : Nat) : ∀ v ∈ checksumGroups m, v.toNat < 32 := by
  simp only [checksumGroups_eq, List.map_cons, List.map_nil, List.mem_cons, List.not_mem_nil,
    or_false, forall_eq_or_imp, forall_eq, UInt8.toNat_ofNat']
  omega

theorem length_checksumGroups (m : Nat) : (checksumGroups m).length = 6 := by
  simp [checksumGroups]

/-- Read from the zero register, the six groups of a 30-bit number give it back. -/
theorem foldl_checksumGroups {m : Nat} (hm : m < 2 ^ 30) :
    (checksumGroups m).foldl polyModStep 0 = m := by
  rw [checksumGroups_eq]
  simp only [List.map_cons, List.map_nil, List.foldl_cons, List.foldl_nil]
  simp (disch := omega) only [polyModStep_small]
  omega

theorem exists_ofNat_lt {v : UInt8} (hv : v.toNat < 32) : ∃ n < 32, v = UInt8.ofNat n :=
  ⟨v.toNat, hv, UInt8.ofNat_toNat.symm⟩

/-- Six five-bit inputs read from the zero register are its six groups. -/
theorem checksumGroups_foldl {cs : List UInt8} (hlen : cs.length = 6) (hv : ∀ v ∈ cs, v.toNat < 32) :
    checksumGroups (cs.foldl polyModStep 0) = cs := by
  rcases cs with _ | ⟨a, _ | ⟨b, _ | ⟨c, _ | ⟨d, _ | ⟨e, _ | ⟨f, _ | ⟨g, cs⟩⟩⟩⟩⟩⟩⟩ <;>
    simp at hlen
  simp only [List.mem_cons, List.not_mem_nil, or_false, forall_eq_or_imp, forall_eq] at hv
  obtain ⟨a, ha, rfl⟩ := exists_ofNat_lt hv.1
  obtain ⟨b, hb, rfl⟩ := exists_ofNat_lt hv.2.1
  obtain ⟨c, hc, rfl⟩ := exists_ofNat_lt hv.2.2.1
  obtain ⟨d, hd, rfl⟩ := exists_ofNat_lt hv.2.2.2.1
  obtain ⟨e, he, rfl⟩ := exists_ofNat_lt hv.2.2.2.2.1
  obtain ⟨f, hf, rfl⟩ := exists_ofNat_lt hv.2.2.2.2.2
  simp only [List.foldl_cons, List.foldl_nil]
  simp (disch := omega) only [polyModStep_small]
  rw [checksumGroups_eq]
  simp only [List.map_cons, List.map_nil, List.cons.injEq, and_true]
  refine ⟨?_, ?_, ?_, ?_, ?_, ?_⟩ <;> congr 1 <;> omega

/-- The checksum `CreateChecksum` appends brings the remainder to the constant. -/
theorem PolyMod_checksumGroups {K : Nat} (hK : K < 2 ^ 30) (p : List UInt8) :
    PolyMod (p ++ checksumGroups (PolyMod (p ++ List.replicate 6 0) ^^^ K)) = K := by
  have hm : PolyMod (p ++ List.replicate 6 0) ^^^ K < 2 ^ 30 := Nat.xor_lt_two_pow (PolyMod_lt _) hK
  rw [PolyMod_append, length_checksumGroups, foldl_checksumGroups hm, Nat.xor_xor_cancel_left]

/-- Six values that bring the remainder to the constant are the checksum. -/
theorem checksumGroups_of_PolyMod {p cs : List UInt8} {K : Nat} (h : PolyMod (p ++ cs) = K)
    (hlen : cs.length = 6) (hv : ∀ v ∈ cs, v.toNat < 32) :
    checksumGroups (PolyMod (p ++ List.replicate 6 0) ^^^ K) = cs := by
  rw [← h, PolyMod_append p cs, hlen, Nat.xor_xor_cancel_left, checksumGroups_foldl hlen hv]

/-! ## Characters -/

theorem CHARSET_eq : CHARSET = [
    113, 112, 122, 114, 121, 57, 120, 56, 103, 102, 50, 116, 118, 100, 119, 48,
    115, 51, 106, 110, 53, 52, 107, 104, 99, 101, 54, 109, 117, 97, 55, 108, 0] := by
  decide +kernel

/-- A character `CHARSET_REV` gives a value. -/
def isDataChar (c : UInt8) : Bool := c.toNat < 128 && CHARSET_REV.getD c.toNat (-1) != -1

/-- The value `CHARSET_REV` gives a character. -/
def charValue (c : UInt8) : UInt8 := UInt8.ofNat (CHARSET_REV.getD c.toNat 0).toNat

/-- The characters of the set are printable, not upper case and not '1', and
each has its position as its value. -/
theorem CHARSET_char : ∀ v < 32, 33 ≤ CHARSET.getD v 0 ∧ CHARSET.getD v 0 ≤ 126 ∧
    (CHARSET.getD v 0 < 65 ∨ 90 < CHARSET.getD v 0) ∧ CHARSET.getD v 0 ≠ 49 ∧
    isDataChar (CHARSET.getD v 0) = true ∧ charValue (CHARSET.getD v 0) = UInt8.ofNat v := by
  rw [CHARSET_eq]
  decide

/-- A data character's value is below 32, and the character of the set for it
is the data character in lower case; '1' is not a data character. -/
theorem charValue_spec : ∀ n < 256, isDataChar (UInt8.ofNat n) = true →
    (charValue (UInt8.ofNat n)).toNat < 32 ∧
      CHARSET.getD (charValue (UInt8.ofNat n)).toNat 0 = LowerCase (UInt8.ofNat n) ∧ n ≠ 49 := by
  rw [CHARSET_eq]
  decide +kernel

theorem charValue_of_isDataChar {c : UInt8} (hc : isDataChar c = true) :
    (charValue c).toNat < 32 ∧ CHARSET.getD (charValue c).toNat 0 = LowerCase c ∧ c ≠ 49 := by
  obtain ⟨n, hn, rfl⟩ : ∃ n < 256, c = UInt8.ofNat n := ⟨c.toNat, UInt8.toNat_lt c, UInt8.ofNat_toNat.symm⟩
  obtain ⟨h32, hchar, h49⟩ := charValue_spec n hn hc
  refine ⟨h32, hchar, fun h => h49 ?_⟩
  have := congrArg UInt8.toNat h
  rw [UInt8.toNat_ofNat'] at this
  simpa [Nat.mod_eq_of_lt hn] using this

set_option maxRecDepth 10000 in
theorem LowerCase_not_upper : ∀ n < 256,
    LowerCase (UInt8.ofNat n) < 65 ∨ 90 < LowerCase (UInt8.ofNat n) := by
  decide

theorem LowerCase_of_not_upper {c : UInt8} (h : c < 65 ∨ 90 < c) : LowerCase c = c := by
  have : ¬(65 ≤ c ∧ c ≤ 90) := by
    simp only [UInt8.le_iff_toNat_le, UInt8.lt_iff_toNat_lt] at h ⊢
    omega
  simp [LowerCase, this]

theorem printable_of_between {c lo hi : UInt8} (h : lo ≤ c ∧ c ≤ hi) (hlo : 33 ≤ lo) (hhi : hi ≤ 126) :
    33 ≤ c ∧ c ≤ 126 := by
  simp only [UInt8.le_iff_toNat_le] at *
  omega

/-- `CheckCharacters` finds no error only in a string of printable characters. -/
theorem checkCharactersLoop_eq_nil : ∀ {str : Bytes} {i : Nat} {lower upper : Bool} {errors : List Nat},
    checkCharactersLoop str i lower upper errors = [] → errors = [] ∧ ∀ c ∈ str, 33 ≤ c ∧ c ≤ 126
  | [], _, _, _, _, h => ⟨h, by simp⟩
  | c :: str, i, lower, upper, errors, h => by
    simp only [checkCharactersLoop] at h
    -- the branches that record an error leave a nonempty list behind
    split_ifs at h with hl hu hU hlo hp
    · exact absurd (checkCharactersLoop_eq_nil h).1 (by simp)
    · obtain ⟨he, hall⟩ := checkCharactersLoop_eq_nil h
      exact ⟨he, List.forall_mem_cons.mpr ⟨printable_of_between hl (by decide) (by decide), hall⟩⟩
    · exact absurd (checkCharactersLoop_eq_nil h).1 (by simp)
    · obtain ⟨he, hall⟩ := checkCharactersLoop_eq_nil h
      exact ⟨he, List.forall_mem_cons.mpr ⟨printable_of_between hU (by decide) (by decide), hall⟩⟩
    · exact absurd (checkCharactersLoop_eq_nil h).1 (by simp)
    · obtain ⟨he, hall⟩ := checkCharactersLoop_eq_nil h
      refine ⟨he, List.forall_mem_cons.mpr ⟨?_, hall⟩⟩
      simp only [UInt8.le_iff_toNat_le, UInt8.lt_iff_toNat_lt] at hp ⊢
      omega

/-- A string of printable characters with no upper-case letter passes. -/
theorem checkCharactersLoop_of_lower : ∀ {str : Bytes} (i : Nat) (lower : Bool) (errors : List Nat),
    (∀ c ∈ str, 33 ≤ c ∧ c ≤ 126 ∧ (c < 65 ∨ 90 < c)) →
      checkCharactersLoop str i lower false errors = errors
  | [], _, _, _, _ => rfl
  | c :: str, i, lower, errors, h => by
    obtain ⟨⟨h33, h126, hcase⟩, hrest⟩ := List.forall_mem_cons.mp h
    have hU : ¬(65 ≤ c ∧ c ≤ 90) := by
      simp only [UInt8.le_iff_toNat_le, UInt8.lt_iff_toNat_lt] at hcase ⊢
      omega
    have hp : ¬(c < 33 ∨ 126 < c) := by
      simp only [UInt8.le_iff_toNat_le, UInt8.lt_iff_toNat_lt] at h33 h126 ⊢
      omega
    simp only [checkCharactersLoop, hU, hp, if_false, Bool.false_eq_true]
    split_ifs <;> exact checkCharactersLoop_of_lower _ _ _ hrest

theorem rfind_append {a b : Bytes} {c : UInt8} (hb : c ∉ b) : rfind (a ++ c :: b) c = some a.length := by
  have hnone : b.reverse.findIdx? (· == c) = none :=
    List.findIdx?_eq_none_iff.mpr (fun x hx => by
      have : x ≠ c := fun hxc => hb (hxc ▸ List.mem_reverse.mp hx)
      simpa using this)
  simp only [rfind, List.reverse_append, List.reverse_cons, List.append_assoc, List.singleton_append,
    List.findIdx?_append, hnone, List.findIdx?_cons, beq_self_eq_true, if_true]
  simp

/-- The last '1' splits the string: nothing after it is a '1'. -/
theorem rfind_eq_some {s : Bytes} {c : UInt8} {pos : Nat} (h : rfind s c = some pos) :
    ∃ a b, s = a ++ c :: b ∧ a.length = pos ∧ c ∉ b := by
  simp only [rfind, Option.map_eq_some_iff] at h
  obtain ⟨j, hj, rfl⟩ := h
  obtain ⟨hjlt, hjc, hbefore⟩ := List.findIdx?_eq_some_iff_getElem.mp hj
  refine ⟨(s.reverse.drop (j + 1)).reverse, (s.reverse.take j).reverse, ?_, ?_, ?_⟩
  · have hc : s.reverse[j] = c := by simpa using hjc
    have hr : s.reverse = s.reverse.take j ++ c :: s.reverse.drop (j + 1) := by
      rw [← hc, List.getElem_cons_drop, List.take_append_drop]
    calc s = s.reverse.reverse := (List.reverse_reverse s).symm
      _ = (s.reverse.take j ++ c :: s.reverse.drop (j + 1)).reverse := by rw [← hr]
      _ = _ := by simp
  · simp
    omega
  · intro hmem
    obtain ⟨k, hk, hkc⟩ := List.mem_iff_getElem.mp (List.mem_reverse.mp hmem)
    rw [List.getElem_take] at hkc
    simp only [List.length_take] at hk
    exact hbefore k (by omega) (by simpa using hkc)

theorem length_CHARSET_REV : CHARSET_REV.length = 128 := by
  simp [CHARSET_REV]

theorem index_CHARSET_REV {c : UInt8} (hc : c.toNat < 128) :
    index CHARSET_REV c.toNat = .ok (CHARSET_REV.getD c.toNat (-1)) := by
  rw [index_of_lt (by rw [length_CHARSET_REV]; exact hc), List.getD_eq_getElem]

/-- On characters below 128 the data loop never reads outside `CHARSET_REV`:
it gives the values when every character is a data character, and `none`
otherwise. -/
theorem dataValues_eq : ∀ {l : Bytes}, (∀ c ∈ l, c.toNat < 128) →
    dataValues l = .ok (if l.all isDataChar then some (l.map charValue) else none)
  | [], _ => rfl
  | c :: l, h => by
    obtain ⟨hc, hl⟩ := List.forall_mem_cons.mp h
    have hlt : c.toNat < CHARSET_REV.length := by
      rw [length_CHARSET_REV]
      exact hc
    have hval : charValue c = UInt8.ofNat (CHARSET_REV.getD c.toNat (-1)).toNat := by
      simp only [charValue, List.getD_eq_getElem _ _ hlt]
    simp only [dataValues, index_CHARSET_REV hc, Except.mapError, ok_bind, dataValues_eq hl,
      List.all_cons, List.map_cons]
    by_cases hr : CHARSET_REV.getD c.toNat (-1) = -1
    · have hdc : isDataChar c = false := by
        simp only [isDataChar, hr, bne_self_eq_false, Bool.and_false]
      rw [if_pos hr, hdc, Bool.false_and, if_neg Bool.false_ne_true]
      rfl
    · have hdc : isDataChar c = true := by simpa [isDataChar, hc] using hr
      rw [if_neg hr, hdc, Bool.true_and, hval]
      by_cases hall : l.all isDataChar = true
      · rw [if_pos hall, if_pos hall]
        rfl
      · rw [if_neg hall, if_neg hall]
        rfl

/-- The character loop of `Encode` on values below 32. -/
theorem mapM_index_CHARSET : ∀ {l : List UInt8}, (∀ v ∈ l, v.toNat < 32) →
    l.mapM (fun c => (index CHARSET c.toNat).mapError Bech32Abort.undefined) =
      .ok (l.map fun v => CHARSET.getD v.toNat 0)
  | [], _ => rfl
  | v :: l, h => by
    obtain ⟨hv, hl⟩ := List.forall_mem_cons.mp h
    have hlen : v.toNat < CHARSET.length := by
      rw [CHARSET_eq]
      simp only [List.length_cons, List.length_nil]
      omega
    simp only [List.mapM_cons, index_of_lt hlen, mapM_index_CHARSET hl, List.map_cons,
      List.getD_eq_getElem _ _ hlen]
    rfl

/-! ## Encoding and decoding -/

/-- The encoding a remainder stands for, as `VerifyChecksum` decides it. -/
def checksumEncoding (check : Nat) : Encoding :=
  if check = 1 then .BECH32 else if check = 0x2bc830a3 then .BECH32M else .INVALID

theorem VerifyChecksum_eq (hrp : Bytes) (values : List UInt8) :
    VerifyChecksum hrp values = .ok (checksumEncoding (PolyMod (ExpandHRP hrp ++ values))) := by
  simp only [VerifyChecksum, checksumEncoding, EncodingConstant, ok_bind]
  split_ifs <;> rfl

/-- A remainder stands for an encoding exactly when it is that encoding's constant. -/
theorem checksumEncoding_eq_iff {check : Nat} {encoding : Encoding} (henc : encoding ≠ .INVALID) :
    checksumEncoding check = encoding ↔ EncodingConstant encoding = .ok check := by
  unfold checksumEncoding
  cases encoding with
  | INVALID => exact absurd rfl henc
  | BECH32 =>
    split_ifs with h1 h2
    · simp [EncodingConstant, h1]
    · simp [EncodingConstant, h2]
    · simp only [EncodingConstant, Except.ok.injEq, false_iff]
      omega
  | BECH32M =>
    split_ifs with h1 h2
    · simp [EncodingConstant, h1]
    · simp [EncodingConstant, h2]
    · simp only [EncodingConstant, Except.ok.injEq, false_iff]
      omega

/-- `Encode` with a valid encoding, a human-readable part without upper-case
letters, and values below 32. -/
theorem Encode_eq {encoding : Encoding} {K : Nat} (hK : EncodingConstant encoding = .ok K)
    {hrp : Bytes} (hhrp : ∀ c ∈ hrp, c < 65 ∨ 90 < c) {values : List UInt8}
    (hv : ∀ v ∈ values, v.toNat < 32) :
    Encode encoding hrp values = .ok (hrp ++ 49 :: (values ++
      checksumGroups (PolyMod (ExpandHRP hrp ++ values ++ List.replicate 6 0) ^^^ K)).map
        fun v => CHARSET.getD v.toNat 0) := by
  have hany : hrp.any (fun c => 65 ≤ c ∧ c ≤ 90) = false := by
    simp only [List.any_eq_false, decide_eq_true_eq, not_and]
    intro c hc h65
    have := hhrp c hc
    simp only [UInt8.le_iff_toNat_le, UInt8.lt_iff_toNat_lt] at this h65 ⊢
    omega
  have hall : ∀ v ∈ values ++ checksumGroups (PolyMod (ExpandHRP hrp ++ values ++ List.replicate 6 0) ^^^ K),
      v.toNat < 32 := by
    intro v hv'
    rcases List.mem_append.mp hv' with h | h
    · exact hv v h
    · exact checksumGroups_lt _ v h
  simp only [Encode, hany, if_neg Bool.false_ne_true, CreateChecksum_eq, hK, Except.map, ok_bind,
    mapM_index_CHARSET hall]
  rw [List.append_assoc, List.singleton_append]
  rfl

/-- What `Decode` returns for `a ++ '1' ++ b` when the string passes
`CheckCharacters` and `b` has no '1'. -/
def decodeSplit (a b : Bytes) : DecodeResult :=
  let hrp := a.map LowerCase
  let values := b.map charValue
  let result := checksumEncoding (PolyMod (ExpandHRP hrp ++ values))
  if 0 < a.length ∧ a.length ≤ 83 ∧ 6 ≤ b.length ∧ a.length + b.length < 140 ∧ b.all isDataChar ∧
      result ≠ .INVALID then
    ⟨result, hrp, values.take (values.length - 6)⟩
  else .invalid

theorem Decode_split {a b : Bytes} (hc : (CheckCharacters (a ++ 49 :: b) []).1 = true)
    (hb : (49 : UInt8) ∉ b) : Decode (a ++ 49 :: b) = .ok (decodeSplit a b) := by
  -- the characters passed, so the data loop stays inside `CHARSET_REV`
  have h128 : ∀ c ∈ b, c.toNat < 128 := by
    intro c hcb
    have hprint := (checkCharactersLoop_eq_nil (by simpa [CheckCharacters] using hc)).2 c (by simp [hcb])
    simp only [UInt8.le_iff_toNat_le] at hprint
    simp at hprint
    omega
  have hdrop : (a ++ 49 :: b).drop (a.length + 1) = b := by simp
  have htake : (a ++ 49 :: b).take a.length = a := by simp
  simp only [Decode, hc, Bool.not_true, rfind_append hb, if_neg Bool.false_ne_true, hdrop, htake,
    dataValues_eq h128, List.length_append, List.length_cons, decodeSplit]
  by_cases hg : 0 < a.length ∧ a.length ≤ 83 ∧ 6 ≤ b.length ∧ a.length + b.length < 140
  · rw [if_neg (by omega)]
    by_cases hall : b.all isDataChar = true
    · simp only [hall, if_true, VerifyChecksum_eq, List.length_map, ok_bind]
      generalize checksumEncoding (PolyMod (ExpandHRP (a.map LowerCase) ++ b.map charValue)) = result
      by_cases hres : result = .INVALID
      · rw [if_pos hres, if_neg (by tauto)]
        rfl
      · rw [if_neg hres, if_pos ⟨hg.1, hg.2.1, hg.2.2.1, hg.2.2.2, trivial, hres⟩]
        rfl
    · simp [hall]
      rfl
  · rw [if_pos (by omega), if_neg (by tauto)]
    rfl

theorem Decode_of_checkCharacters {str : Bytes} (hc : (CheckCharacters str []).1 = false) :
    Decode str = .ok .invalid := by
  simp [Decode, hc]
  rfl

/-- A decoding that does not fail split its string at the last '1', and is the
split's decoding. -/
theorem Decode_eq_ok_valid {str : Bytes} {r : DecodeResult} (h : Decode str = .ok r)
    (hr : r.encoding ≠ .INVALID) :
    ∃ a b, str = a ++ 49 :: b ∧ (49 : UInt8) ∉ b ∧ (CheckCharacters str []).1 = true ∧
      r = decodeSplit a b := by
  by_cases hc : (CheckCharacters str []).1 = true
  · cases hpos : rfind str 49 with
    | none =>
      simp only [Decode, hc, hpos, Bool.not_true, if_neg Bool.false_ne_true] at h
      cases h
      exact absurd rfl hr
    | some pos =>
      obtain ⟨a, b, rfl, -, hb⟩ := rfind_eq_some hpos
      rw [Decode_split hc hb] at h
      exact ⟨a, b, rfl, hb, hc, (Except.ok.inj h).symm⟩
  · rw [Decode_of_checkCharacters (by simpa using hc)] at h
    cases h
    exact absurd rfl hr

/-- The decoding of a split that does not fail. -/
theorem decodeSplit_valid {a b : Bytes} (h : (decodeSplit a b).encoding ≠ .INVALID) :
    (0 < a.length ∧ a.length ≤ 83 ∧ 6 ≤ b.length ∧ a.length + b.length < 140 ∧ b.all isDataChar) ∧
      decodeSplit a b = ⟨checksumEncoding (PolyMod (ExpandHRP (a.map LowerCase) ++ b.map charValue)),
        a.map LowerCase, (b.map charValue).take (b.length - 6)⟩ := by
  dsimp only [decodeSplit] at h ⊢
  split_ifs at h ⊢ with hcond
  · exact ⟨⟨hcond.1, hcond.2.1, hcond.2.2.1, hcond.2.2.2.1, hcond.2.2.2.2.1⟩, by simp⟩
  · exact absurd rfl h

/-- `Decode` never reads outside `CHARSET_REV`: `CheckCharacters` refuses every
character above 126 before the table is read. -/
theorem Decode_ne_error (str : Bytes) : ∃ r, Decode str = .ok r := by
  by_cases hc : (CheckCharacters str []).1 = true
  · cases hpos : rfind str 49 with
    | none =>
      refine ⟨.invalid, ?_⟩
      simp only [Decode, hc, hpos, Bool.not_true, if_neg Bool.false_ne_true]
      rfl
    | some pos =>
      obtain ⟨a, b, rfl, -, hb⟩ := rfind_eq_some hpos
      exact ⟨_, Decode_split hc hb⟩
  · exact ⟨_, Decode_of_checkCharacters (by simpa using hc)⟩

/-- Decoding what `Encode` writes gives back the encoding, the human-readable
part and the values, when the part has 1 to 83 printable characters and no
upper-case letter, the values are below 32, and the string has at most 140
characters. -/
theorem Decode_Encode {encoding : Encoding} (henc : encoding ≠ .INVALID) {hrp : Bytes}
    (hhrp : ∀ c ∈ hrp, 33 ≤ c ∧ c ≤ 126 ∧ (c < 65 ∨ 90 < c)) (hne : hrp ≠ [])
    (h83 : hrp.length ≤ 83) {values : List UInt8} (hv : ∀ v ∈ values, v.toNat < 32)
    (hsize : hrp.length + values.length + 7 ≤ 140) :
    (Encode encoding hrp values >>= Decode) = .ok ⟨encoding, hrp, values⟩ := by
  obtain ⟨K, hK⟩ : ∃ K, EncodingConstant encoding = .ok K := by
    cases encoding with
    | INVALID => exact absurd rfl henc
    | BECH32 => exact ⟨_, rfl⟩
    | BECH32M => exact ⟨_, rfl⟩
  obtain ⟨cs, hcs⟩ : ∃ cs, checksumGroups (PolyMod (ExpandHRP hrp ++ values ++ List.replicate 6 0) ^^^ K) = cs :=
    ⟨_, rfl⟩
  have hall : ∀ v ∈ values ++ cs, v.toNat < 32 := by
    intro v hv'
    rcases List.mem_append.mp hv' with h | h
    · exact hv v h
    · exact checksumGroups_lt _ v (hcs ▸ h)
  rw [Encode_eq hK (fun c hc => (hhrp c hc).2.2) hv, hcs, ok_bind]
  -- the data characters come from the set
  have hchar : ∀ x ∈ (values ++ cs).map (fun v => CHARSET.getD v.toNat 0),
      (33 ≤ x ∧ x ≤ 126 ∧ (x < 65 ∨ 90 < x)) ∧ x ≠ 49 := by
    intro x hx
    obtain ⟨v, hv', rfl⟩ := List.mem_map.mp hx
    obtain ⟨h1, h2, h3, h4, -⟩ := CHARSET_char v.toNat (hall v hv')
    exact ⟨⟨h1, h2, h3⟩, h4⟩
  have hc : (CheckCharacters (hrp ++ 49 :: (values ++ cs).map fun v => CHARSET.getD v.toNat 0) []).1 = true := by
    simp only [CheckCharacters]
    rw [checkCharactersLoop_of_lower]
    · rfl
    · intro x hx
      rcases List.mem_append.mp hx with h | h
      · exact hhrp x h
      · rcases List.mem_cons.mp h with rfl | h
        · decide
        · exact (hchar x h).1
  rw [Decode_split hc (fun h => (hchar _ h).2 rfl)]
  have hhrp' : hrp.map LowerCase = hrp := by
    conv_rhs => rw [← List.map_id hrp]
    exact List.map_congr_left fun c hc => LowerCase_of_not_upper (hhrp c hc).2.2
  have hvals : ((values ++ cs).map fun v => CHARSET.getD v.toNat 0).map charValue = values ++ cs := by
    rw [List.map_map]
    conv_rhs => rw [← List.map_id (values ++ cs)]
    refine List.map_congr_left fun v hv' => ?_
    simp only [Function.comp_apply, (CHARSET_char v.toNat (hall v hv')).2.2.2.2.2, UInt8.ofNat_toNat, id]
  have hcheck : PolyMod (ExpandHRP hrp ++ (values ++ cs)) = K := by
    rw [← List.append_assoc, ← hcs]
    exact PolyMod_checksumGroups (EncodingConstant_lt hK) _
  have hlen : cs.length = 6 := hcs ▸ length_checksumGroups _
  dsimp only [decodeSplit]
  rw [hhrp', hvals, hcheck, (checksumEncoding_eq_iff henc).mpr hK, if_pos]
  · simp [hlen]
  · refine ⟨List.length_pos_iff.mpr hne, h83, by simp [hlen], by simp [hlen]; omega, ?_, henc⟩
    simp only [List.all_eq_true]
    intro x hx
    obtain ⟨v, hv', rfl⟩ := List.mem_map.mp hx
    exact (CHARSET_char v.toNat (hall v hv')).2.2.2.2.1

theorem Decode_Encode_a :
    (Encode .BECH32 [97] [0, 31] >>= Decode) = .ok ⟨.BECH32, [97], [0, 31]⟩ :=
  Decode_Encode (by decide) (by simp) (by decide) (by decide) (by simp) (by decide)

/-- Every string `Decode` accepts is, in lower case, what `Encode` writes for
the decoded encoding, human-readable part and values. -/
theorem Encode_Decode {str : Bytes} {r : DecodeResult} (h : Decode str = .ok r)
    (hr : r.encoding ≠ .INVALID) : Encode r.encoding r.hrp r.data = .ok (str.map LowerCase) := by
  obtain ⟨a, b, rfl, hb, -, rfl⟩ := Decode_eq_ok_valid h hr
  obtain ⟨⟨-, -, h6, -, hall⟩, heq⟩ := decodeSplit_valid hr
  rw [heq] at hr ⊢
  have hK := (checksumEncoding_eq_iff hr).mp rfl
  have hdata : ∀ c ∈ b, isDataChar c = true := by simpa using hall
  have hv : ∀ v ∈ b.map charValue, v.toNat < 32 := by
    intro v hv'
    obtain ⟨c, hc, rfl⟩ := List.mem_map.mp hv'
    exact (charValue_of_isDataChar (hdata c hc)).1
  have hupper : ∀ c ∈ a.map LowerCase, c < 65 ∨ 90 < c := by
    intro c hc
    obtain ⟨x, -, rfl⟩ := List.mem_map.mp hc
    have := LowerCase_not_upper x.toNat (UInt8.toNat_lt x)
    rwa [UInt8.ofNat_toNat] at this
  -- the last six values are the checksum `CreateChecksum` computes for the others
  have hsplit := List.take_append_drop (b.length - 6) (b.map charValue)
  have hlast : checksumGroups (PolyMod (ExpandHRP (a.map LowerCase) ++ (b.map charValue).take (b.length - 6) ++
      List.replicate 6 0) ^^^ PolyMod (ExpandHRP (a.map LowerCase) ++ b.map charValue)) =
      (b.map charValue).drop (b.length - 6) := by
    apply checksumGroups_of_PolyMod
    · rw [List.append_assoc, hsplit]
    · simp only [List.length_drop, List.length_map]
      omega
    · exact fun v hv' => hv v (List.mem_of_mem_drop hv')
  rw [Encode_eq hK hupper (fun v hv' => hv v (List.mem_of_mem_take hv')), hlast, hsplit,
    List.map_map, List.map_append, List.map_cons]
  -- each data character of the set comes back as itself in lower case
  have hlower : b.map ((fun v => CHARSET.getD v.toNat 0) ∘ charValue) = b.map LowerCase :=
    List.map_congr_left fun c hc => (charValue_of_isDataChar (hdata c hc)).2.1
  rw [hlower]
  rfl

theorem Encode_Decode_a :
    Encode .BECH32 [97] [] = .ok ([97, 49, 50, 117, 101, 108, 53, 108].map LowerCase) :=
  Encode_Decode (r := ⟨.BECH32, [97], []⟩) (by rfl) (by decide)

theorem checksumEncoding_ne {check check' : Nat} (h : checksumEncoding check ≠ .INVALID)
    (hne : check' ≠ check) : checksumEncoding check' ≠ checksumEncoding check := by
  intro heq
  have h' := (checksumEncoding_eq_iff h).mp heq
  have h := (checksumEncoding_eq_iff h).mp rfl
  rw [h] at h'
  exact hne (Except.ok.inj h').symm

/-- Changing one data character of a string `Decode` accepts into a data
character of another value is always detected: the changed string does not
decode with the same encoding. -/
theorem Decode_set_ne {str : Bytes} {r : DecodeResult} (h : Decode str = .ok r)
    (hr : r.encoding ≠ .INVALID) {j : Nat} (hj : r.hrp.length < j) (hjlen : j < str.length)
    {c : UInt8} (hc : isDataChar c = true) (hne : charValue c ≠ charValue str[j]) :
    ∃ r', Decode (str.set j c) = .ok r' ∧ r'.encoding ≠ r.encoding := by
  obtain ⟨a, b, rfl, hb, -, rfl⟩ := Decode_eq_ok_valid h hr
  obtain ⟨-, heq⟩ := decodeSplit_valid hr
  rw [heq] at hr hj ⊢
  simp only [List.length_map] at hj
  -- the changed character is the `k`-th of the data part
  obtain ⟨k, rfl⟩ : ∃ k, j = a.length + 1 + k := ⟨j - (a.length + 1), by omega⟩
  have hk : k < b.length := by
    simp only [List.length_append, List.length_cons] at hjlen
    omega
  have hset : (a ++ 49 :: b).set (a.length + 1 + k) c = a ++ 49 :: b.set k c := by
    rw [List.set_append_right _ _ (by omega), show a.length + 1 + k - a.length = k + 1 by omega]
    rfl
  have hget : (a ++ 49 :: b)[a.length + 1 + k] = b[k] := by
    rw [List.getElem_append_right (by omega)]
    simp [show a.length + 1 + k - a.length = k + 1 by omega]
  rw [hget] at hne
  rw [hset]
  have hb' : (49 : UInt8) ∉ b.set k c := fun hmem => by
    rcases List.mem_or_eq_of_mem_set hmem with h' | h'
    · exact hb h'
    · exact (charValue_of_isDataChar hc).2.2 h'.symm
  by_cases hcc : (CheckCharacters (a ++ 49 :: b.set k c) []).1 = true
  · refine ⟨_, Decode_split hcc hb', ?_⟩
    -- the remainder changes, so the encoding it stands for does
    have hP : PolyMod (ExpandHRP (a.map LowerCase) ++ (b.set k c).map charValue) ≠
        PolyMod (ExpandHRP (a.map LowerCase) ++ b.map charValue) := by
      rw [List.map_set, ← Nat.add_sub_cancel_left (n := (ExpandHRP (a.map LowerCase)).length) (m := k),
        ← List.set_append_right _ _ (by omega)]
      apply PolyMod_set_ne (by simp; omega)
      rw [List.getElem_append_right (by simp)]
      simpa using hne
    dsimp only [decodeSplit]
    split_ifs
    · exact checksumEncoding_ne hr hP
    · exact Ne.symm hr
  · exact ⟨_, Decode_of_checkCharacters (by simpa using hcc), Ne.symm hr⟩

theorem Decode_set_ne_a :
    ∃ r', Decode ([97, 49, 50, 117, 101, 108, 53, 108].set 2 113) = .ok r' ∧ r'.encoding ≠ .BECH32 :=
  Decode_set_ne (r := ⟨.BECH32, [97], []⟩) (by rfl) (by decide) (by decide) (by decide) (by rfl)
    (by decide)

end bech32

end Globe
