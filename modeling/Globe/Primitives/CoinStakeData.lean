import Globe.Primitives.Transaction

/-!
# Coinstake data fields

The data output of a coinstake carries, after a 4-byte height, a sequence of
fields that `CreateCoinStake` appends: a vote or a message difficulty, each a
type byte and four bytes, and a treasury carry-forward or a message fee, each a
type byte and a `part::PutVarInt`.  `ExtractCoinStakeInt64` and
`ExtractCoinStakeUint32` (`primitives/transaction.cpp`) scan the fields for the
first of a requested type.

Both loops advance `ofs` past each field and stop at the end of the vector or
at an unknown type byte.  The varints are read by `part::GetVarInt`, which at
an offset equal to the size returns success and leaves `nv` and `nb` as they
were: a type byte in the last position is then read as a field whose value is
whatever the previous varint left.  `extractCoinStakeInt64_trailing_type` is
such a vector.
-/

namespace Globe

open ByteCodec UB

/-- The loop of `ExtractCoinStakeInt64` at offset `ofs`, with the `nv` and `nb`
the previous varint left. -/
def extractCoinStakeInt64From (vData : Bytes) (get_type : UInt8) (nv : UInt64) (nb : Nat)
    (ofs : Nat) : Defined (Option UInt64) :=
  if h : ofs < vData.length then
    let current_type := vData[ofs]
    if current_type = DO_VOTE ∨ current_type = DO_SMSG_DIFFICULTY then
      -- the four bytes are skipped without a length check
      extractCoinStakeInt64From vData get_type nv nb (ofs + 5)
    else if current_type = DO_TREASURY_FUND_CFWD ∨ current_type = DO_SMSG_FEE then
      match part.GetVarInt vData (ofs + 1) nv nb with
      | .error e => .error e
      | .ok (rv, nv, nb) =>
        if rv ≠ 0 then .ok none
        else if get_type = current_type then .ok (some nv)
        else extractCoinStakeInt64From vData get_type nv nb (ofs + 1 + nb)
    else .ok none
  else .ok none
termination_by vData.length - ofs

/-- `ExtractCoinStakeInt64(vData, get_type, out)`: the value it stores in
`out` when it returns true, or `none`. -/
def ExtractCoinStakeInt64 (vData : Bytes) (get_type : UInt8) : Defined (Option Int64) :=
  if vData.length < 5 then .ok none
  else (extractCoinStakeInt64From vData get_type 0 0 4).map (Option.map UInt64.toInt64)

/-- The loop of `ExtractCoinStakeUint32`, which checks that a four-byte field
is complete before it reads or skips it. -/
def extractCoinStakeUint32From (vData : Bytes) (get_type : UInt8) (nv : UInt64) (nb : Nat)
    (ofs : Nat) : Defined (Option UInt32) :=
  if h : ofs < vData.length then
    let current_type := vData[ofs]
    if current_type = DO_VOTE ∨ current_type = DO_SMSG_DIFFICULTY then
      if vData.length < ofs + 5 then .ok none
      else if get_type = current_type then
        -- `memcpy(&out, &vData[ofs + 1], 4)` and `le32toh`
        (fun bs => some (UInt32.ofNat (leValue bs))) <$> window vData (ofs + 1) 4
      else extractCoinStakeUint32From vData get_type nv nb (ofs + 5)
    else if current_type = DO_TREASURY_FUND_CFWD ∨ current_type = DO_SMSG_FEE then
      match part.GetVarInt vData (ofs + 1) nv nb with
      | .error e => .error e
      | .ok (rv, nv, nb) =>
        if rv ≠ 0 then .ok none
        else extractCoinStakeUint32From vData get_type nv nb (ofs + 1 + nb)
    else .ok none
  else .ok none
termination_by vData.length - ofs

/-- `ExtractCoinStakeUint32(vData, get_type, out)`. -/
def ExtractCoinStakeUint32 (vData : Bytes) (get_type : UInt8) : Defined (Option UInt32) :=
  if vData.length < 5 then .ok none
  else extractCoinStakeUint32From vData get_type 0 0 4

/-! ## Reads stay inside the vector -/

/-- `GetVarInt` at an offset no larger than the size reads nothing outside the
vector. -/
theorem getVarInt_ne_outOfBounds {v : Bytes} {ofs : Nat} (h : ofs ≤ v.length) (i : UInt64)
    (nB : Nat) : part.GetVarInt v ofs i nB ≠ .error .outOfBounds := by
  have hloop : ∀ (last : UInt8) (i : UInt64) (nB : Nat) (rest : Bytes),
      part.getVarIntLoop last i nB rest ≠ .error .outOfBounds := by
    intro last i nB rest
    induction rest generalizing last i nB with
    | nil =>
      simp only [part.getVarIntLoop]
      split <;> simp
    | cons b rest ih =>
      simp only [part.getVarIntLoop]
      split
      · simp
      · split
        · simp
        · exact ih _ _ _
  unfold part.GetVarInt
  rw [if_neg (by omega)]
  split
  · simp
  · exact hloop _ _ _ _

/-- `ExtractCoinStakeInt64` never reads outside `vData`. -/
theorem extractCoinStakeInt64From_ne_outOfBounds (vData : Bytes) (get_type : UInt8)
    (nv : UInt64) (nb ofs : Nat) :
    extractCoinStakeInt64From vData get_type nv nb ofs ≠ .error .outOfBounds := by
  fun_induction extractCoinStakeInt64From vData get_type nv nb ofs with
  | case1 => assumption
  | case2 nv nb ofs hlt _ _ _ e hv =>
    -- the varint starts at most at the end of the vector
    have hread := getVarInt_ne_outOfBounds (Nat.succ_le_of_lt hlt) nv nb
    rw [hv] at hread
    rintro ⟨⟩
    exact hread rfl
  | case5 => assumption
  | case3 | case4 | case6 | case7 => simp

/-- `ExtractCoinStakeUint32` never reads outside `vData`. -/
theorem extractCoinStakeUint32From_ne_outOfBounds (vData : Bytes) (get_type : UInt8)
    (nv : UInt64) (nb ofs : Nat) :
    extractCoinStakeUint32From vData get_type nv nb ofs ≠ .error .outOfBounds := by
  fun_induction extractCoinStakeUint32From vData get_type nv nb ofs with
  | case2 nv nb ofs _ _ _ hlen _ =>
    -- the size check makes the four bytes after the type byte a window of the vector
    rw [window_of_le (by omega)]
    simp
  | case4 nv nb ofs hlt _ _ _ e hv =>
    have hread := getVarInt_ne_outOfBounds (Nat.succ_le_of_lt hlt) nv nb
    rw [hv] at hread
    rintro ⟨⟩
    exact hread rfl
  | case3 | case6 => assumption
  | case1 | case5 | case7 | case8 => simp

/-! ## A type byte at the end of the vector -/

/-- After a fee field, a carry-forward type byte in the last position: no
carry-forward value follows it, yet the parser reports one, equal to the fee
that the previous varint left in `nv`.  With the type byte alone after the
height it reports 0. -/
theorem extractCoinStakeInt64_trailing_type :
    ExtractCoinStakeInt64 [0, 0, 0, 0, DO_SMSG_FEE, 5, DO_TREASURY_FUND_CFWD]
      DO_TREASURY_FUND_CFWD = .ok (some 5) ∧
    ExtractCoinStakeInt64 [0, 0, 0, 0, DO_TREASURY_FUND_CFWD] DO_TREASURY_FUND_CFWD =
      .ok (some 0) := by
  refine ⟨by decide +kernel, by decide +kernel⟩

end Globe
