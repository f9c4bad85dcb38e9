import Globe.Lib.Undefined
import Globe.Lib.Tokens
import Mathlib.Data.Nat.Digits.Defs
import Mathlib.Data.List.Chain
import Mathlib.Data.List.TakeWhile

/-!
# Key paths as text

`PathToString` (`key/extkey.cpp`) prints a derivation path as `m/a/b'/...`:
each element in decimal, with bit 31 cleared and a hardened marker after it.
`ExtractExtKeyPath` parses such text back.  It copies the text after the `m/`
into a 512-byte buffer, rejects a leading, trailing or doubled `/`, splits the
buffer with `strtok_r`, reads each token's base from a `0b` or `0x` prefix,
strips a trailing marker, checks the digits and converts them with
`strtou32max`, then sets bit 31 for a marked token.

A `std::string` is a list of characters; the buffer is read as a C string,
up to its first NUL.  `memcpy` past the end of the text or of the buffer is
undefined, which the model returns as `UB.Undefined.outOfBounds`: the length
after the `m` is a `size_t`, so the one-character path `m` makes it wrap.

The round trip `extractExtKeyPath_pathToString` goes element by element: the
printed digits have no `/` and no NUL, so the slash check passes and `strtok_r`
returns exactly the printed elements, each of which `strtou32max` reads back
without reaching its overflow cutoff.
-/

namespace Globe

open UB

/-! ## Characters -/

/-- `ToLower` of an ASCII character. -/
def toLowerAscii (c : Char) : Char :=
  if 'A' ≤ c ∧ c ≤ 'Z' then Char.ofNat (c.toNat + 32) else c

/-- `IsSpace`: space, form feed, newline, carriage return, tab, vertical tab. -/
def IsSpace (c : Char) : Bool :=
  c = ' ' || c = '\x0c' || c = '\n' || c = '\r' || c = '\t' || c = '\x0b'

/-- `validDigit(c, base)` for the three bases `ExtractExtKeyPath` uses. -/
def validDigit (c : Char) (base : Nat) : Bool :=
  if base = 2 then c = '0' || c = '1'
  else if base = 10 then '0' ≤ c && c ≤ '9'
  else if base = 16 then ('0' ≤ c && c ≤ '9') || ('a' ≤ c && c ≤ 'f') || ('A' ≤ c && c ≤ 'F')
  else false

/-! ## `strtou32max` -/

/-- What `strtou32max` leaves in `errno`. -/
inductive Errno where
  | none
  | ERANGE
  | EINVAL
  deriving DecidableEq, Repr

/-- The value `strtou32max` gives a letter or a digit. -/
def strtouDigit (c : Char) : Option Nat :=
  if '0' ≤ c ∧ c ≤ '9' then some (c.toNat - '0'.toNat)
  else if 'A' ≤ c ∧ c ≤ 'Z' then some (c.toNat - 'A'.toNat + 10)
  else if 'a' ≤ c ∧ c ≤ 'z' then some (c.toNat - 'a'.toNat + 10)
  else none

/-- The conversion loop of `strtou32max`: `any` becomes 1 with the first digit
and -1 once the value would pass `0xffffffff`. -/
def strtouLoop (base : Nat) : List Char → Nat → Int → Nat × Int
  | [], acc, any => (acc, any)
  | c :: s, acc, any =>
    match strtouDigit c with
    | none => (acc, any)
    | some d =>
      if base ≤ d then (acc, any)
      else if any < 0 ∨ 0xffffffff / base < acc ∨ (acc = 0xffffffff / base ∧ 0xffffffff % base < d) then
        strtouLoop base s acc (-1)
      else strtouLoop base s (acc * base + d) 1

/-- The sign `strtou32max` reads after the white space. -/
def strtouSign : List Char → Bool × List Char
  | '-' :: r => (true, r)
  | '+' :: r => (false, r)
  | r => (false, r)

/-- In base 0 or 16, a `0x` prefix followed by a hexadecimal digit is skipped
and selects base 16. -/
def strtouHexPrefix (base : Nat) : List Char → Nat × List Char
  | '0' :: x :: h :: r =>
    if (base = 0 ∨ base = 16) ∧ (x = 'x' ∨ x = 'X') ∧ validDigit h 16 then (16, h :: r)
    else (base, '0' :: x :: h :: r)
  | s => (base, s)

/-- The conversion and the result `strtou32max` returns once the base is known. -/
def strtouConvert (neg : Bool) (base : Nat) (s : List Char) : UInt32 × Errno :=
  if base < 2 ∨ 36 < base then (0, .EINVAL)
  else
    let r := strtouLoop base s 0 0
    if r.2 < 0 then (0xffffffff, .ERANGE)
    else if r.2 = 0 then (UInt32.ofNat r.1, .EINVAL)
    else if neg then (0 - UInt32.ofNat r.1, .none)
    else (UInt32.ofNat r.1, .none)

/-- `strtou32max(nptr, base)`: leading white space, a sign, a `0x` prefix in
base 0 or 16, then digits; the value and what it sets `errno` to.  Base 0
reads a leading `0` as octal. -/
def strtou32max (nptr : List Char) (base : Nat) : UInt32 × Errno :=
  let signed := strtouSign (nptr.dropWhile IsSpace)
  let prefixed := strtouHexPrefix base signed.2
  let base := if prefixed.1 = 0 then (if prefixed.2.head? = some '0' then 8 else 10) else prefixed.1
  strtouConvert signed.1 base prefixed.2

/-! ## Printing -/

/-- `strprintf("%u", n)`. -/
def formatDecimal (n : Nat) : List Char :=
  if n = 0 then ['0'] else (Nat.digits 10 n).reverse.map (fun d => Char.ofNat (48 + d))

/-- `AppendPathLink(s, n, cH)`. -/
def AppendPathLink (s : List Char) (n : UInt32) (cH : Char) : List Char :=
  let fHardened := n >>> 31 = 1
  let n := if fHardened then n &&& ~~~((1 : UInt32) <<< 31) else n
  s ++ ['/'] ++ formatDecimal n.toNat ++ (if fHardened then [cH] else [])

/-- `PathToString(vPath, sPath, cH, nStart)` for a path of `uint32_t`. -/
def PathToString (vPath : List UInt32) (cH : Char) (nStart : Nat) : List Char :=
  (vPath.drop nStart).foldl (fun s n => AppendPathLink s n cH) ['m']

/-! ## Parsing -/

/-- The per-character loop over a token: the characters to convert and whether
the last one was a hardened marker, or `none` for a character that is not a
digit of the base. -/
def scanPathDigits (nBase : Nat) : List Char → Option (List Char × Bool)
  | [] => some ([], false)
  | [c] =>
    if toLowerAscii c = 'h' ∨ c = '\'' then some ([], true)
    else if validDigit c nBase then some ([c], false) else none
  | c :: s =>
    if validDigit c nBase then (scanPathDigits nBase s).map (fun r => (c :: r.1, r.2))
    else none

/-- The base a token's prefix selects: `0b` binary, `0x` hexadecimal, otherwise
decimal. -/
def pathTokenBase : List Char → Nat
  | '0' :: c :: _ => if c = 'b' ∨ c = 'B' then 2 else if c = 'x' ∨ c = 'X' then 16 else 10
  | _ => 10

/-- One token of the path: the child number, or the code `ExtractExtKeyPath`
returns for it. -/
def extractPathChild (p : List Char) : Except Int UInt32 :=
  let nBase := pathTokenBase p
  let p := if nBase ≠ 10 then p.drop 2 else p
  match scanPathDigits nBase p with
  | none => .error 4
  | some (ps, fHarden) =>
    let (nChild, errno) := strtou32max ps nBase
    if errno ≠ .none then .error 5
    else if fHarden then
      if nChild >>> 31 = 0 then .ok (nChild ||| ((1 : UInt32) <<< 31)) else .error 8
    else .ok nChild

/-- The token loop: the code and the path built so far. -/
def extractPathTokens : List (List Char) → List UInt32 → Int × List UInt32
  | [], vPath => if vPath.length < 1 then (3, vPath) else (0, vPath)
  | p :: ps, vPath =>
    match extractPathChild p with
    | .error code => (code, vPath)
    | .ok nChild => extractPathTokens ps (vPath ++ [nChild])

/-- The slash check of `ExtractExtKeyPath` over the `nLen` copied characters:
a `/` at the start, at the end or before another `/`. -/
def hasBadSlash (data : List Char) : Bool :=
  (List.range data.length).any fun k =>
    data[k]? = some '/' && (k = 0 || k = data.length - 1 || data[k + 1]? = some '/')

/-- `strtok_r(data, "/", ...)` until it returns null, over the C string in
`data`: the maximal runs of characters other than `/` before the first NUL. -/
def strtokSlash (data : List Char) : List (List Char) :=
  ((data.takeWhile (· ≠ '\x00')).splitOn '/').filter (· ≠ [])

/-- `ExtractExtKeyPath(sPath, vPath)`: the code it returns and `vPath`. -/
def ExtractExtKeyPath (sPath : List Char) : Defined (Int × List UInt32) :=
  if 512 - 2 < sPath.length then .ok (2, [])
  else if sPath.length < 1 then .ok (3, [])
  else
    -- `nLen` is a `size_t`: it wraps when the path is the single character `m`
    let (nStart, nLen) : Nat × UInt64 :=
      if toLowerAscii (sPath.headD ' ') = 'm' then (2, sPath.length.toUInt64 - 2)
      else (0, sPath.length.toUInt64)
    if nLen < 1 then .ok (3, [])
    -- `memcpy(data, sPath.data() + nStart, nLen)` and `data[nLen] = '\0'`
    else if sPath.length < nStart + nLen.toNat ∨ 512 ≤ nLen.toNat then .error .outOfBounds
    else
      let data := (sPath.drop nStart).take nLen.toNat
      if hasBadSlash data then .ok (7, [])
      else .ok (extractPathTokens (strtokSlash data) [])


/-! ## Decimal digits -/

/-- The characters `'0'` to `'9'`. -/
def IsDecimalChar (c : Char) : Prop := 48 ≤ c.toNat ∧ c.toNat ≤ 57

theorem validDigit_ten_iff (c : Char) : validDigit c 10 = true ↔ IsDecimalChar c := by
  simp only [validDigit, IsDecimalChar, Char.le_def, UInt32.le_iff_toNat_le]
  simp

theorem strtouDigit_of_decimal {c : Char} (h : IsDecimalChar c) :
    strtouDigit c = some (c.toNat - 48) := by
  have h0 : '0' ≤ c := by rw [Char.le_def, UInt32.le_iff_toNat_le]; exact h.1
  have h9 : c ≤ '9' := by rw [Char.le_def, UInt32.le_iff_toNat_le]; exact h.2
  simp [strtouDigit, h0, h9]

/-- The value of decimal digits appended to `acc`. -/
def decimalValue (ds : List Char) (acc : Nat) : Nat :=
  ds.foldl (fun a c => a * 10 + (c.toNat - 48)) acc

theorem le_decimalValue (ds : List Char) (acc : Nat) : acc ≤ decimalValue ds acc := by
  induction ds generalizing acc with
  | nil => exact Nat.le_refl acc
  | cons c ds ih =>
    calc acc ≤ acc * 10 + (c.toNat - 48) := by omega
      _ ≤ decimalValue ds (acc * 10 + (c.toNat - 48)) := ih _

theorem strtouLoop_decimal (ds : List Char) (hds : ∀ c ∈ ds, IsDecimalChar c) (acc : Nat)
    (any : Int) (hany : 0 ≤ any) (hfit : decimalValue ds acc < 2 ^ 32) :
    strtouLoop 10 ds acc any = (decimalValue ds acc, if ds = [] then any else 1) := by
  induction ds generalizing acc any with
  | nil => rfl
  | cons c ds ih =>
    have hc := hds c (by simp)
    have hd : c.toNat - 48 < 10 := by have := hc.2; omega
    have hnext := le_decimalValue ds (acc * 10 + (c.toNat - 48))
    have hstep : decimalValue (c :: ds) acc = decimalValue ds (acc * 10 + (c.toNat - 48)) := rfl
    rw [hstep] at hfit ⊢
    -- the product stays below `2 ^ 32`, so the overflow test fails
    have hno : ¬ (any < 0 ∨ 0xffffffff / 10 < acc ∨
        (acc = 0xffffffff / 10 ∧ 0xffffffff % 10 < c.toNat - 48)) := by omega
    simp only [strtouLoop, strtouDigit_of_decimal hc, if_neg (show ¬ 10 ≤ c.toNat - 48 by omega),
      if_neg hno]
    rw [ih (fun x hx => hds x (by simp [hx])) _ 1 (by omega) hfit]
    simp

/-- The character of a decimal digit. -/
theorem toNat_digitChar {d : Nat} (h : d < 10) : (Char.ofNat (48 + d)).toNat = 48 + d := by
  have hvalid : (48 + d).isValidChar := Or.inl (by omega)
  rw [Char.ofNat, dif_pos hvalid]
  simp [Char.ofNatAux, Char.toNat]
  omega

theorem decimalValue_append (xs ys : List Char) (acc : Nat) :
    decimalValue (xs ++ ys) acc = decimalValue ys (decimalValue xs acc) := by
  simp [decimalValue, List.foldl_append]

/-- Digits printed most significant first read back as their value. -/
theorem decimalValue_digits (L : List Nat) (hL : ∀ d ∈ L, d < 10) :
    decimalValue (L.reverse.map (fun d => Char.ofNat (48 + d))) 0 = Nat.ofDigits 10 L := by
  induction L with
  | nil => rfl
  | cons d L ih =>
    have hd : d < 10 := hL d (by simp)
    rw [List.reverse_cons, List.map_append, decimalValue_append,
      ih (fun x hx => hL x (by simp [hx])), Nat.ofDigits_cons]
    simp only [List.map_cons, List.map_nil, decimalValue, List.foldl_cons, List.foldl_nil,
      toNat_digitChar hd]
    omega

theorem formatDecimal_decimal (n : Nat) : ∀ c ∈ formatDecimal n, IsDecimalChar c := by
  intro c hc
  unfold formatDecimal at hc
  split at hc
  · simp at hc
    subst hc
    exact ⟨by decide, by decide⟩
  · simp only [List.mem_map, List.mem_reverse] at hc
    obtain ⟨d, hd, rfl⟩ := hc
    have hlt : d < 10 := Nat.digits_lt_base (by norm_num) hd
    unfold IsDecimalChar
    rw [toNat_digitChar hlt]
    omega

theorem decimalValue_formatDecimal (n : Nat) : decimalValue (formatDecimal n) 0 = n := by
  unfold formatDecimal
  split
  · next h => subst h; rfl
  · rw [decimalValue_digits _ (fun d hd => Nat.digits_lt_base (by norm_num) hd),
      Nat.ofDigits_digits]

theorem formatDecimal_ne_nil (n : Nat) : formatDecimal n ≠ [] := by
  unfold formatDecimal
  split
  · simp
  · next h => simpa using Nat.digits_ne_nil_iff_ne_zero.mpr h

theorem IsDecimalChar.ne {c : Char} (h : IsDecimalChar c) (x : Char) (hx : x.toNat < 48 ∨ 57 < x.toNat) :
    c ≠ x := by
  rintro rfl
  unfold IsDecimalChar at h
  omega

theorem strtou32max_decimal {ds : List Char} (hds : ∀ c ∈ ds, IsDecimalChar c) (hne : ds ≠ [])
    (hfit : decimalValue ds 0 < 2 ^ 32) :
    strtou32max ds 10 = (UInt32.ofNat (decimalValue ds 0), .none) := by
  obtain ⟨c, rest, rfl⟩ := List.exists_cons_of_ne_nil hne
  have hc := hds c (by simp)
  have hspace : IsSpace c = false := by
    simp [IsSpace, hc.ne ' ' (by decide), hc.ne '\x0c' (by decide),
      hc.ne '\n' (by decide), hc.ne '\r' (by decide), hc.ne '\t' (by decide),
      hc.ne '\x0b' (by decide)]
  have hloop := strtouLoop_decimal (c :: rest) hds 0 0 (le_refl 0) hfit
  have hsign : strtouSign (c :: rest) = (false, c :: rest) := by
    unfold strtouSign
    split
    · next r h => exact absurd (List.cons.inj h).1 (hc.ne '-' (by decide))
    · next r h => exact absurd (List.cons.inj h).1 (hc.ne '+' (by decide))
    · rfl
  have hprefix : strtouHexPrefix 10 (c :: rest) = (10, c :: rest) := by
    unfold strtouHexPrefix
    split
    · next x h r heq => rw [if_neg (by omega), heq]
    · rfl
  simp only [strtou32max, List.dropWhile_cons, hspace, Bool.false_eq_true, if_false, hsign,
    hprefix]
  rw [if_neg (show (10 : Nat) ≠ 0 by decide)]
  simp only [strtouConvert]
  rw [hloop]
  simp

/-! ## Bit 31 -/

theorem toNat_clearBit31 (n : UInt32) : (n &&& ~~~((1 : UInt32) <<< 31)).toNat = n.toNat % 2 ^ 31 := by
  have hm : ~~~((1 : UInt32) <<< 31) = 0x7fffffff := by decide
  rw [hm, UInt32.toNat_and]
  exact Nat.and_two_pow_sub_one_eq_mod n.toNat 31

theorem toNat_shiftRight31 (n : UInt32) : (n >>> 31).toNat = n.toNat / 2 ^ 31 := by
  rw [UInt32.toNat_shiftRight, Nat.shiftRight_eq_div_pow]
  rfl

theorem toNat_setBit31 {m : UInt32} (h : m.toNat < 2 ^ 31) :
    (m ||| ((1 : UInt32) <<< 31)).toNat = m.toNat + 2 ^ 31 := by
  have h1 : ((1 : UInt32) <<< 31).toNat = 1 <<< 31 := by decide
  rw [UInt32.toNat_or, h1, Nat.or_comm, ← Nat.shiftLeft_add_eq_or_of_lt h, Nat.one_shiftLeft]
  omega

/-! ## One element -/

/-- The text `AppendPathLink` writes after the `/`. -/
def pathLinkText (cH : Char) (n : UInt32) : List Char :=
  if n >>> 31 = 1 then formatDecimal (n &&& ~~~((1 : UInt32) <<< 31)).toNat ++ [cH]
  else formatDecimal n.toNat

theorem appendPathLink_eq (s : List Char) (n : UInt32) (cH : Char) :
    AppendPathLink s n cH = s ++ '/' :: pathLinkText cH n := by
  by_cases h : n >>> 31 = 1
  · simp only [AppendPathLink, pathLinkText, h, if_true, List.append_assoc, List.cons_append,
      List.nil_append]
  · simp only [AppendPathLink, pathLinkText, h, if_false, List.append_assoc, List.cons_append,
      List.append_nil, List.nil_append]

/-- The hardened markers `PathToString` is called with. -/
def IsHardenedMarker (cH : Char) : Prop := cH = 'h' ∨ cH = 'H' ∨ cH = '\''

theorem toLowerAscii_of_decimal {c : Char} (h : IsDecimalChar c) : toLowerAscii c = c := by
  have hA : ¬ ('A' ≤ c ∧ c ≤ 'Z') := by
    rw [Char.le_def, UInt32.le_iff_toNat_le]
    unfold IsDecimalChar at h
    intro hle
    have : (65 : Nat) ≤ c.toNat := hle.1
    omega
  simp [toLowerAscii, hA]

theorem IsHardenedMarker.scans {cH : Char} (h : IsHardenedMarker cH) :
    toLowerAscii cH = 'h' ∨ cH = '\'' := by
  rcases h with rfl | rfl | rfl <;> decide

theorem scanPathDigits_cons_cons (nBase : Nat) (c d : Char) (s : List Char) :
    scanPathDigits nBase (c :: d :: s) =
      if validDigit c nBase then (scanPathDigits nBase (d :: s)).map (fun r => (c :: r.1, r.2))
      else none := rfl

theorem scanPathDigits_decimal (ds : List Char) (hds : ∀ c ∈ ds, IsDecimalChar c)
    (hne : ds ≠ []) : scanPathDigits 10 ds = some (ds, false) := by
  induction ds with
  | nil => exact absurd rfl hne
  | cons c ds ih =>
    have hc := hds c (by simp)
    have hvalid : validDigit c 10 = true := (validDigit_ten_iff c).mpr hc
    cases ds with
    | nil =>
      -- a last digit is not a marker
      have hmark : ¬ (toLowerAscii c = 'h' ∨ c = '\'') := by
        rw [toLowerAscii_of_decimal hc]
        exact fun hm => hm.elim (hc.ne 'h' (by decide)) (hc.ne '\'' (by decide))
      simp [scanPathDigits, hmark, hvalid]
    | cons d ds =>
      rw [scanPathDigits_cons_cons, if_pos hvalid,
        ih (fun x hx => hds x (by simp_all)) (by simp)]
      rfl

theorem scanPathDigits_marked (ds : List Char) (hds : ∀ c ∈ ds, IsDecimalChar c) {cH : Char}
    (hcH : IsHardenedMarker cH) : scanPathDigits 10 (ds ++ [cH]) = some (ds, true) := by
  induction ds with
  | nil => simp [scanPathDigits, hcH.scans]
  | cons c ds ih =>
    have hvalid : validDigit c 10 = true := (validDigit_ten_iff c).mpr (hds c (by simp))
    obtain ⟨d, s, hds'⟩ : ∃ d s, ds ++ [cH] = d :: s := List.exists_cons_of_ne_nil (by simp)
    rw [List.cons_append, hds', scanPathDigits_cons_cons, if_pos hvalid, ← hds',
      ih (fun x hx => hds x (by simp [hx]))]
    rfl

theorem mem_pathLinkText {cH c : Char} {n : UInt32} (hc : c ∈ pathLinkText cH n) :
    IsDecimalChar c ∨ c = cH := by
  unfold pathLinkText at hc
  split at hc
  · rcases List.mem_append.mp hc with h | h
    · exact Or.inl (formatDecimal_decimal _ c h)
    · exact Or.inr (List.mem_singleton.mp h)
  · exact Or.inl (formatDecimal_decimal _ c hc)

theorem pathLinkText_ne_nil (cH : Char) (n : UInt32) : pathLinkText cH n ≠ [] := by
  unfold pathLinkText
  split
  · simp
  · exact formatDecimal_ne_nil _

/-- A token whose second character is a digit or a marker is decimal. -/
theorem pathTokenBase_pathLinkText {cH : Char} (hcH : IsHardenedMarker cH) (n : UInt32) :
    pathTokenBase (pathLinkText cH n) = 10 := by
  have hsecond : ∀ c r, pathLinkText cH n = '0' :: c :: r →
      ¬ (c = 'b' ∨ c = 'B') ∧ ¬ (c = 'x' ∨ c = 'X') := by
    intro c r heq
    have hmem : c ∈ pathLinkText cH n := by rw [heq]; simp
    rcases mem_pathLinkText hmem with hd | rfl
    · exact ⟨fun h => h.elim (hd.ne 'b' (by decide)) (hd.ne 'B' (by decide)),
        fun h => h.elim (hd.ne 'x' (by decide)) (hd.ne 'X' (by decide))⟩
    · rcases hcH with rfl | rfl | rfl <;> decide
  unfold pathTokenBase
  split
  · next c r heq =>
    obtain ⟨hb, hx⟩ := hsecond c r heq
    rw [if_neg hb, if_neg hx]
  · rfl

/-- Each printed element reads back as the element. -/
theorem extractPathChild_pathLinkText {cH : Char} (hcH : IsHardenedMarker cH) (n : UInt32) :
    extractPathChild (pathLinkText cH n) = .ok n := by
  unfold extractPathChild
  simp only [pathTokenBase_pathLinkText hcH n, ne_eq, not_true_eq_false, if_false]
  by_cases h : n >>> 31 = 1
  · -- hardened: the digits of the low 31 bits, then the marker
    have hn := congrArg UInt32.toNat h
    rw [toNat_shiftRight31] at hn
    simp only [UInt32.toNat_one] at hn
    set m := n &&& ~~~((1 : UInt32) <<< 31) with hm
    have hlow : m.toNat < 2 ^ 31 := by rw [hm, toNat_clearBit31]; omega
    have htext : pathLinkText cH n = formatDecimal m.toNat ++ [cH] := by
      simp only [pathLinkText, h, if_true, hm]
    have hstr : strtou32max (formatDecimal m.toNat) 10 = (m, .none) := by
      rw [strtou32max_decimal (formatDecimal_decimal _) (formatDecimal_ne_nil _)
        (by rw [decimalValue_formatDecimal]; omega), decimalValue_formatDecimal, UInt32.ofNat_toNat]
    have htop : m >>> 31 = 0 := by
      apply UInt32.toNat_inj.mp
      rw [toNat_shiftRight31]
      simp only [UInt32.toNat_zero]
      omega
    have hset : m ||| ((1 : UInt32) <<< 31) = n := by
      apply UInt32.toNat_inj.mp
      rw [toNat_setBit31 hlow, hm, toNat_clearBit31]
      omega
    rw [htext, scanPathDigits_marked _ (formatDecimal_decimal _) hcH]
    simp only [hstr, not_true_eq_false, if_false, if_true, htop, hset]
  · -- not hardened: the digits of the whole value
    have htext : pathLinkText cH n = formatDecimal n.toNat := by
      simp only [pathLinkText, h, if_false]
    have hstr : strtou32max (formatDecimal n.toNat) 10 = (n, .none) := by
      rw [strtou32max_decimal (formatDecimal_decimal _) (formatDecimal_ne_nil _)
        (by rw [decimalValue_formatDecimal]; exact n.toNat_lt), decimalValue_formatDecimal,
        UInt32.ofNat_toNat]
    rw [htext, scanPathDigits_decimal _ (formatDecimal_decimal _) (formatDecimal_ne_nil _)]
    simp only [hstr, not_true_eq_false, if_false, Bool.false_eq_true]

/-! ## The whole path -/

theorem foldl_appendPathLink (cH : Char) (v : List UInt32) (s : List Char) :
    v.foldl (fun s n => AppendPathLink s n cH) s =
      s ++ v.flatMap (fun n => '/' :: pathLinkText cH n) := by
  induction v generalizing s with
  | nil => simp
  | cons n v ih =>
    rw [List.foldl_cons, ih, appendPathLink_eq]
    simp

theorem flatMap_slash {f : UInt32 → List Char} (v : List UInt32) (hv : v ≠ []) :
    v.flatMap (fun n => '/' :: f n) = '/' :: ['/'].intercalate (v.map f) := by
  induction v with
  | nil => exact absurd rfl hv
  | cons n v ih =>
    cases v with
    | nil => simp
    | cons m v =>
      rw [List.flatMap_cons, ih (by simp)]
      simp only [List.map_cons, List.intercalate_cons_cons]
      simp

/-- A non-empty path prints as `m/` and its elements joined by `/`. -/
theorem pathToString_eq {v : List UInt32} (hv : v ≠ []) (cH : Char) :
    PathToString v cH 0 = 'm' :: '/' :: ['/'].intercalate (v.map (pathLinkText cH)) := by
  rw [PathToString, List.drop_zero, foldl_appendPathLink, flatMap_slash v hv]
  rfl

/-- Between an opening and a closing `/`, a text with no two slashes next to
each other passes the slash check. -/
theorem hasBadSlash_eq_false {data : List Char}
    (hchain : ('/' :: data ++ ['/']).IsChain (fun a b => ¬(a = '/' ∧ b = '/'))) :
    hasBadSlash data = false := by
  rw [List.isChain_iff_getElem] at hchain
  have hpair : ∀ i, ('/' :: data ++ ['/'])[i]? = some '/' →
      ('/' :: data ++ ['/'])[i + 1]? ≠ some '/' := by
    intro i hi hi1
    obtain ⟨hlt, hv⟩ := List.getElem?_eq_some_iff.mp hi1
    rw [List.getElem?_eq_getElem (by omega)] at hi
    exact hchain i hlt ⟨Option.some.inj hi, hv⟩
  rw [hasBadSlash, List.any_eq_false]
  intro k hk hbad
  rw [List.mem_range] at hk
  simp only [Bool.and_eq_true, decide_eq_true_eq, Bool.or_eq_true] at hbad
  obtain ⟨hslash, hpos⟩ := hbad
  -- position k of the text is position k + 1 once the opening slash is added
  have hk1 : ('/' :: data ++ ['/'])[k + 1]? = some '/' := by
    rw [List.getElem?_append_left (by simp; omega), List.getElem?_cons_succ, hslash]
  rcases hpos with (h0 | hlast) | hnext
  · -- a leading slash follows the opening one
    rw [h0] at hk1
    exact hpair 0 rfl hk1
  · -- a trailing slash precedes the closing one
    refine hpair (k + 1) hk1 ?_
    rw [List.getElem?_append_right (by simp; omega)]
    simp [show k + 1 + 1 - (data.length + 1) = 0 by omega]
  · -- two slashes in a row
    refine hpair (k + 1) hk1 ?_
    have hlt : k + 1 < data.length := (List.getElem?_eq_some_iff.mp hnext).1
    rw [List.getElem?_append_left (by simp; omega), List.getElem?_cons_succ, hnext]

/-- `strtok_r` over slash-joined tokens with no slash and no NUL gives the
tokens back. -/
theorem strtokSlash_intercalate {ts : List (List Char)}
    (hts : ∀ t ∈ ts, t ≠ [] ∧ '/' ∉ t ∧ '\x00' ∉ t) (hne : ts ≠ []) :
    strtokSlash (['/'].intercalate ts) = ts :=
  CString.strtok_intercalate (by decide) hts hne

/-- The printed elements are tokens with no slash and no NUL. -/
theorem pathLinkText_token {cH : Char} (hcH : IsHardenedMarker cH) (n : UInt32) :
    pathLinkText cH n ≠ [] ∧ '/' ∉ pathLinkText cH n ∧ '\x00' ∉ pathLinkText cH n := by
  have hmarker : cH ≠ '/' ∧ cH ≠ '\x00' := by
    rcases hcH with rfl | rfl | rfl <;> decide
  refine ⟨pathLinkText_ne_nil cH n, fun h => ?_, fun h => ?_⟩
  · rcases mem_pathLinkText h with hd | hd
    · exact hd.ne '/' (by decide) rfl
    · exact hmarker.1 hd.symm
  · rcases mem_pathLinkText h with hd | hd
    · exact hd.ne '\x00' (by decide) rfl
    · exact hmarker.2 hd.symm

/-- The token loop over printed elements reads each element back. -/
theorem extractPathTokens_map {cH : Char} (hcH : IsHardenedMarker cH) (v acc : List UInt32) :
    extractPathTokens (v.map (pathLinkText cH)) acc =
      if (acc ++ v).length < 1 then (3, acc ++ v) else (0, acc ++ v) := by
  induction v generalizing acc with
  | nil => simp [extractPathTokens]
  | cons n v ih =>
    rw [List.map_cons, extractPathTokens, extractPathChild_pathLinkText hcH]
    simp only [ih, List.append_assoc, List.cons_append, List.nil_append]

/-- A non-empty path printed with a hardened marker, short enough for the
buffer, parses back to itself. -/
theorem extractExtKeyPath_pathToString {v : List UInt32} (hv : v ≠ []) {cH : Char}
    (hcH : IsHardenedMarker cH) (hlen : (PathToString v cH 0).length ≤ 510) :
    ExtractExtKeyPath (PathToString v cH 0) = .ok (0, v) := by
  have htoks : ∀ t ∈ v.map (pathLinkText cH), t ≠ [] ∧ '/' ∉ t ∧ '\x00' ∉ t := by
    intro t ht
    obtain ⟨n, -, rfl⟩ := List.mem_map.mp ht
    exact pathLinkText_token hcH n
  have hmap : v.map (pathLinkText cH) ≠ [] := by simpa using hv
  rw [pathToString_eq hv] at hlen ⊢
  set data := ['/'].intercalate (v.map (pathLinkText cH)) with hdata
  simp only [List.length_cons] at hlen
  -- the length after the prefix does not wrap
  have hn : ((data.length + 1 + 1).toUInt64 - 2).toNat = data.length := by
    rw [UInt64.toNat_sub_of_le _ _ (by simp [UInt64.le_iff_toNat_le]; omega)]
    simp only [UInt64.toNat_ofNat', UInt64.reduceToNat]
    omega
  have hm : toLowerAscii 'm' = 'm' := by decide
  unfold ExtractExtKeyPath
  rw [if_neg (by simp; omega), if_neg (by simp)]
  simp only [List.headD_cons, hm, if_true, List.length_cons]
  have hne : data ≠ [] := fun h => hmap (by
    rw [← strtokSlash_intercalate htoks hmap, ← hdata, h]
    rfl)
  have hpos : 0 < data.length := List.length_pos_iff.mpr hne
  rw [if_neg (by rw [UInt64.lt_iff_toNat_lt, hn]; simp; omega), hn, if_neg (by omega)]
  have hdrop : ('m' :: '/' :: data).drop 2 = data := rfl
  rw [hdrop, List.take_length]
  -- the printed path has no misplaced slash and splits into the printed elements
  have hslash : hasBadSlash data = false :=
    hasBadSlash_eq_false (CString.isChain_sep_intercalate (fun t ht => ⟨(htoks t ht).1, (htoks t ht).2.1⟩) hmap)
  rw [hslash, hdata, strtokSlash_intercalate htoks hmap, extractPathTokens_map hcH]
  simp [hv]
theorem extractExtKeyPath_pathToString_hardened :
    ExtractExtKeyPath (PathToString [1, 0x80000002] 'h' 0) = .ok (0, [1, 0x80000002]) :=
  extractExtKeyPath_pathToString (by simp) (Or.inl rfl) (by decide +kernel)

/-! ## The one-character path `m` -/

/-- For `m` and `M` the length after the prefix is `1 - 2`, which wraps to
`2 ^ 64 - 1`, passes the `nLen < 1` check, and the copy reads past the text. -/
theorem extractExtKeyPath_m_wraps :
    ExtractExtKeyPath ['m'] = .error .outOfBounds ∧
    ExtractExtKeyPath ['M'] = .error .outOfBounds := by
  refine ⟨by decide, by decide⟩

end Globe
