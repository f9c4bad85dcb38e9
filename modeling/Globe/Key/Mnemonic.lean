import Globe.Key.ExtKeyPath
import Globe.Lib.BigEndian
import Globe.Lib.Tokens

/-!
# Mnemonics

`key/mnemonic.cpp` turns entropy into words of a BIP-39 list and back.
`Encode` appends the first `len / 4` bits of the entropy's SHA-256 to it and
cuts the bits into 11-bit word indices, each read from two or three bytes;
`Decode` looks each word up, ORs the 11-bit indices back into a zeroed byte
buffer, and (unless told to ignore it) splits off the checksum bits and
compares them with the hash of the rest.  `AddChecksum` decodes an incomplete
mnemonic with the checksum ignored, encodes the result, and decodes that.

A word list is the compiled-in text of `key/wordlists`: the words, each
followed by a newline.  `GetWord` and `GetWordOffset` scan that text byte by
byte.  Texts are byte strings (`std::string`, UTF-8).  What the file takes
from outside is a parameter: the word lists, unilib's NFKD normalisation and
SHA-256 (`MnemonicEnv`).  Reads of `vIn` in `Encode` and the two `memcpy`s of
`Decode` go through `UB.index` and `UB.window`; undefined behaviour is an
error of its own kind.
-/

namespace Globe

open ByteCodec UB CString

/-! ## Texts and errors -/

/-- The bytes of a string literal. -/
def cstr (s : String) : Bytes := s.toUTF8.toList

/-- U+3000, the ideographic space, in UTF-8. -/
def ideographicSpace : Bytes := [0xE3, 0x80, 0x80]

/-- What a mnemonic function returns instead of 0: its code with the text it
leaves in `sError`, or undefined behaviour. -/
inductive MnemonicError where
  | rv (code : Int) (sError : Bytes)
  | undefined (u : Undefined)

/-- A read that may be undefined, inside a mnemonic function. -/
def defined {α : Type} (x : Defined α) : Except MnemonicError α :=
  x.mapError .undefined

@[simp] theorem defined_ok {α : Type} (a : α) : defined (.ok a : Defined α) = .ok a := rfl

def isSpaceByte (c : UInt8) : Bool := IsSpace (Char.ofNat c.toNat)

theorem isSpaceByte_eq_false {c : UInt8} (h : 32 < c.toNat) : isSpaceByte c = false := by
  have hk : (Char.ofNat c.toNat).toNat = c.toNat := by
    have := c.toNat_lt
    unfold Char.ofNat
    rw [dif_pos (Or.inl (by omega))]
    rfl
  simp only [isSpaceByte, IsSpace, Bool.or_eq_false_iff, decide_eq_false_iff_not]
  -- each white-space character has a code below 33
  refine ⟨⟨⟨⟨⟨?_, ?_⟩, ?_⟩, ?_⟩, ?_⟩, ?_⟩ <;> intro heq <;> rw [heq] at hk <;> simp at hk <;> omega

/-- `part::TrimWhitespace`. -/
def TrimWhitespace (s : Bytes) : Bytes :=
  ((s.dropWhile isSpaceByte).reverse.dropWhile isSpaceByte).reverse

/-- `ReplaceStrInPlace(subject, search, replace)` for a one-byte `search`: the
search restarts after each replacement, so every occurrence is replaced. -/
def ReplaceStrInPlace (subject : Bytes) (search : UInt8) (replace : Bytes) : Bytes :=
  subject.flatMap fun c => if c = search then replace else [c]

/-- `strstr(sWordList.c_str(), "  ") != nullptr`. -/
def hasDoubleSpace (s : Bytes) : Bool := decide ([32, 32] <:+: s.takeWhile (· ≠ 0))

/-! ## Word lists -/

/-- A byte of a word: neither NUL nor white space. -/
def IsWordByte (c : UInt8) : Prop := c ≠ 0 ∧ isSpaceByte c = false

instance (c : UInt8) : Decidable (IsWordByte c) := inferInstanceAs (Decidable (_ ∧ _))

/-- The text of a word list as `mnLanguages[n]` holds it: every word followed by
a newline; `mnLanguageLens[n]` is its length. -/
def wordListText (words : List Bytes) : Bytes := (words.map (· ++ [10])).flatten

/-- A BIP-39 word list of `key/wordlists`: 2048 distinct words, none empty and
none with a NUL or white-space byte. -/
structure WordList where
  words : List Bytes
  length_words : words.length = 2048
  nodup : words.Nodup
  ne_nil : ∀ w ∈ words, w ≠ []
  wordBytes : ∀ w ∈ words, ∀ c ∈ w, IsWordByte c

namespace WordList

def text (L : WordList) : Bytes := wordListText L.words

/-- The offset of a word in the list. -/
def index (L : WordList) (w : Bytes) : Nat := L.words.idxOf w

end WordList

def WLL_JAPANESE : Int := 3
def WLL_CHINESE_S : Int := 5
def WLL_CHINESE_T : Int := 6
def WLL_MAX : Int := 10

/-- What the mnemonic code takes from outside the file: the compiled-in word
lists by language (`mnLanguages`, `nullptr` as `none`), unilib's NFKD as
`NormaliseUnicode` applies it to UTF-8 text, and SHA-256. -/
structure MnemonicEnv where
  mnLanguages : Int → Option WordList
  NormaliseUnicode : Bytes → Bytes
  CSHA256 : Bytes → Blob 32

variable (env : MnemonicEnv)

/-- The list of language `nLanguage`, after the check
`nLanguage < 1 || nLanguage >= WLL_MAX || !mnLanguages[nLanguage]`. -/
def languageList (nLanguage : Int) : Option WordList :=
  if nLanguage < 1 ∨ WLL_MAX ≤ nLanguage then none else env.mnLanguages nLanguage

/-- `NormaliseInput`. -/
def NormaliseInput (s : Bytes) : Bytes := env.NormaliseUnicode (TrimWhitespace s)

/-! ## Scanning a word list -/

/-- The first loop of `GetWord`: move past `o` newlines; `none` (return 1)
when the text ends first. -/
def skipWords : Nat → Bytes → Option Bytes
  | 0, pt => some pt
  | _ + 1, [] => none
  | o + 1, c :: pt => if pt = [] then none else skipWords (if c = 10 then o else o + 1) pt

/-- The second loop of `GetWord`: copy up to the next newline. -/
def copyWord : Bytes → Option Bytes
  | [] => none
  | c :: pt => if c = 10 then some [] else (copyWord pt).map (c :: ·)

/-- `GetWord(o, pwl, max, sWord)`: word `o` of the text, or `none` for 1. -/
def GetWord (o : Nat) (pwl : Bytes) : Option Bytes := (skipWords o pwl).bind copyWord

/-- The loop of `GetWordOffset`: `i` counts the newlines passed, `c` the
bytes of the current word, and `f` whether they still agree with `p`. -/
def getWordOffsetLoop (p : Bytes) : Bytes → Nat → Nat → Bool → Option Nat
  | [], _, _, _ => none
  | x :: pt, i, c, f =>
    if x = 10 then
      if f ∧ c = p.length then some i else getWordOffsetLoop p pt (i + 1) 0 true
    else
      let f := if c ≥ p.length then false else if f ∧ p[c]? ≠ some x then false else f
      getWordOffsetLoop p pt i (c + 1) f

/-- `GetWordOffset(p, pwl, max, o)`: the offset of word `p`, or `none` for 1. -/
def GetWordOffset (p pwl : Bytes) : Option Nat := getWordOffsetLoop p pwl 0 0 true

/-- The token loop of `GetWordOffsets`. -/
def getWordOffsetsLoop (pwl : Bytes) : List Bytes → Except MnemonicError (List Nat)
  | [] => .ok []
  | p :: ps =>
    match GetWordOffset p pwl with
    | none => .error (.rv 3 (cstr "Unknown word: " ++ p))
    | some ofs => (ofs :: ·) <$> getWordOffsetsLoop pwl ps

def GetWordOffsets (nLanguage : Int) (sWordList : Bytes) : Except MnemonicError (List Nat) :=
  match languageList env nLanguage with
  | none => .error (.rv 1 (cstr "Unknown language"))
  | some L =>
    if sWordList.length ≥ 4096 then .error (.rv 1 (cstr "Word string is too long."))
    else getWordOffsetsLoop L.text (strtok 0 32 sWordList)

/-- The token loop of `DetectLanguage` for one list: hits and misses, stopping
after the token looked up when `maxTries` is 0. -/
def detectLanguageLoop (pwl : Bytes) : Nat → List Bytes → Nat → Nat → Nat × Nat
  | _, [], nHit, nMiss => (nHit, nMiss)
  | maxTries, p :: ps, nHit, nMiss =>
    let nHit' := if (GetWordOffset p pwl).isSome then nHit + 1 else nHit
    let nMiss' := if (GetWordOffset p pwl).isSome then nMiss else nMiss + 1
    match maxTries with
    | 0 => (nHit', nMiss')
    | maxTries + 1 => detectLanguageLoop pwl maxTries ps nHit' nMiss'

/-- The language loop of `DetectLanguage`. -/
def detectLanguageFrom (tokens : List Bytes) : List Int → Int
  | [] => 0
  | l :: ls =>
    match env.mnLanguages l with
    | none => detectLanguageFrom tokens ls
    | some L =>
      -- the Chinese dialects share many words: they must match the whole phrase
      let chinese := l = WLL_CHINESE_S ∨ l = WLL_CHINESE_T
      let hits := detectLanguageLoop L.text (if chinese then 24 else 8) tokens 0 0
      if chinese ∧ hits.2 > 0 then detectLanguageFrom tokens ls
      else if hits.1 > hits.2 ∧ hits.2 < 2 then l
      else detectLanguageFrom tokens ls

def DetectLanguage (sWordList : Bytes) : Int :=
  if sWordList.length ≥ 2048 then -1
  else detectLanguageFrom env (strtok 0 32 sWordList) ((List.range 9).map fun k => (k + 1 : Int))

/-! ## Encode -/

/-- `vTmp` of `Encode`: the first `ncb` bytes of the hash, zero-padded to 32. -/
def checksumBytes (hash : Blob 32) (nCsSize : Nat) : Bytes :=
  let ncb := nCsSize / 8 + (if nCsSize % 8 ≠ 0 then 1 else 0)
  hash.bytes.take ncb ++ List.replicate (32 - ncb) 0

/-- One pass of the loop of `Encode`: the 11 bits of `vIn` from bit `i` on,
from two bytes or, when they straddle two byte boundaries, three. -/
def encodeWord (vIn : Bytes) (i : Nat) : Defined Nat := do
  let s := i / 8
  let r := i % 8
  let b1 ← index vIn s
  let b2 ← index vIn (s + 1)
  let o := ((b1.toNat <<< r) &&& 0xFF) <<< (11 - 8)
  if r > 5 then
    let b3 ← index vIn (s + 2)
    pure ((o ||| (b2.toNat <<< (r - 5)) ||| (b3.toNat >>> (8 - (r - 5)))) &&& 0x7FF)
  else
    pure ((o ||| (b2.toNat >>> ((8 - (11 - 8)) - r))) &&& 0x7FF)

/-- The loop of `Encode` over `i < nBits`, 11 bits at a time. -/
def encodeWords (vIn : Bytes) (nBits i : Nat) : Defined (List Nat) :=
  if i < nBits then do
    let o ← encodeWord vIn i
    let vWord ← encodeWords vIn nBits (i + 11)
    pure (o :: vWord)
  else pure []
termination_by nBits - i

/-- The word loop of `Encode`: each word of the list, or error 3. -/
def getWords (nLanguage : Int) (pwl : Bytes) : List Nat → Except MnemonicError (List Bytes)
  | [] => .ok []
  | o :: os =>
    match GetWord o pwl with
    | none => .error (.rv 3 (cstr s!"Word extract failed {o}, language {nLanguage}."))
    | some sWord => (sWord :: ·) <$> getWords nLanguage pwl os

/-- `sWordList` as `Encode` appends the words: a space first unless it is still empty. -/
def joinWords (words : List Bytes) : Bytes :=
  words.foldl (fun sWordList sWord => (if sWordList = [] then [] else sWordList ++ [32]) ++ sWord) []

def Encode (nLanguage : Int) (vEntropy : Bytes) : Except MnemonicError Bytes := do
  let some L := languageList env nLanguage | throw (.rv 1 (cstr "Unknown language."))
  -- the checksum is the first `nCsSize` bits of the SHA-256 of the entropy
  let hash := env.CSHA256 vEntropy
  let nCsSize := vEntropy.length / 4
  if nCsSize < 1 ∨ nCsSize > 256 then throw (.rv 2 (cstr "Entropy bytes out of range."))
  let vIn := vEntropy ++ checksumBytes hash nCsSize
  let nBits := vEntropy.length * 8 + nCsSize
  let vWord ← defined (encodeWords vIn nBits 0)
  let words ← getWords nLanguage L.text vWord
  let sWordList := joinWords words
  if nLanguage = WLL_JAPANESE then return ReplaceStrInPlace sWordList 32 ideographicSpace
  return sWordList

/-! ## Decode -/

/-- One pass of the loop of `Decode`: OR the 11 bits of `o` into `vEntropy`
(of length `el`) from bit `i` on. -/
def packWord (el : Nat) (vEntropy : Bytes) (i o : Nat) : Bytes :=
  let s := i / 8
  let r := i % 8
  let vEntropy := vEntropy.modify s (· ||| UInt8.ofNat ((o >>> (r + 3)) &&& 0x7FF))
  if s + 1 < el then
    if r > 5 then
      let vEntropy := vEntropy.modify (s + 1) (· ||| UInt8.ofNat ((o >>> (r - 5)) % 256 &&& 0x7FF))
      if s + 2 < el then
        vEntropy.modify (s + 2) (· ||| UInt8.ofNat ((o <<< (8 - (r - 5))) % 256 &&& 0x7FF))
      else vEntropy
    else vEntropy.modify (s + 1) (· ||| UInt8.ofNat ((o <<< (5 - r)) % 256 &&& 0x7FF))
  else vEntropy

/-- The loop of `Decode` over the word offsets, the `k`-th at bit `i = 11 k`. -/
def packWords (el : Nat) (vEntropy : Bytes) (i : Nat) : List Nat → Bytes
  | [] => vEntropy
  | o :: os => packWords el (packWord el vEntropy i o) (i + 11) os

/-- The checksum check of `Decode` over the packed bits: the entropy without
its checksum bytes, or error 5. -/
def checkChecksum (nBits : Nat) (vEntropy : Bytes) : Except MnemonicError Bytes := do
  let nLenChecksum := nBits / 32
  let nLenEntropy := nBits - nLenChecksum
  let nBytesEntropy := nLenEntropy / 8
  let nBytesChecksum := nLenChecksum / 8 + (if nLenChecksum % 8 = 0 then 0 else 1)
  let vCS ← defined (window vEntropy nBytesEntropy nBytesChecksum)
  let vEntropy := vEntropy.take nBytesEntropy
  let hash := env.CSHA256 vEntropy
  let vCSTest ← defined (window hash.bytes 0 nBytesChecksum)
  let r := nLenChecksum % 8
  let vCSTest :=
    if r > 0 then vCSTest.modify (nBytesChecksum - 1) (· &&& UInt8.ofNat (((1 <<< r) - 1) <<< (8 - r)))
    else vCSTest
  if vCSTest ≠ vCS then throw (.rv 5 (cstr "Checksum mismatch."))
  return vEntropy

/-- `Decode` once the words are looked up. -/
def decodeWordInts (vWordInts : List Nat) (fIgnoreChecksum : Bool) : Except MnemonicError Bytes := do
  if !fIgnoreChecksum ∧ vWordInts.length % 3 ≠ 0 then
    throw (.rv 4 (cstr "No. of words must be divisible by 3"))
  let nBits := vWordInts.length * 11
  let nBytes := nBits / 8 + (if nBits % 8 = 0 then 0 else 1)
  let vEntropy := packWords nBytes (List.replicate nBytes 0) 0 vWordInts
  if fIgnoreChecksum then return vEntropy
  checkChecksum env nBits vEntropy

/-- `Decode(nLanguage, sWordListIn, vEntropy, sError, fIgnoreChecksum)`: the
language (detected when it is -1) and the entropy. -/
def Decode (nLanguage : Int) (sWordListIn : Bytes) (fIgnoreChecksum : Bool) :
    Except MnemonicError (Int × Bytes) := do
  let sWordList := NormaliseInput env sWordListIn
  let nLanguage := if nLanguage = -1 then DetectLanguage env sWordList else nLanguage
  if (languageList env nLanguage).isNone then throw (.rv 1 (cstr "Unknown language"))
  if sWordList.length ≥ 2048 then throw (.rv 2 (cstr "Word List too long."))
  if hasDoubleSpace sWordList then throw (.rv 4 (cstr "Multiple spaces between words"))
  let vWordInts ← GetWordOffsets env nLanguage sWordList
  let vEntropy ← decodeWordInts env vWordInts fIgnoreChecksum
  return (nLanguage, vEntropy)

def AddChecksum (nLanguage : Int) (sWordListIn : Bytes) : Except MnemonicError Bytes := do
  let sWordList := NormaliseInput env sWordListIn
  let nLanguage := if nLanguage = -1 then DetectLanguage env sWordList else nLanguage
  let (nLanguage, vEntropy) ← Decode env nLanguage sWordList true
  let sWordListOut ← Encode env nLanguage vEntropy
  let _ ← Decode env nLanguage sWordListOut false
  return sWordListOut

/-! ## The scans over a word list -/

theorem wordListText_cons (w : Bytes) (ws : List Bytes) :
    wordListText (w :: ws) = w ++ 10 :: wordListText ws := by
  simp [wordListText]

theorem skipWords_word (o : Nat) {w : Bytes} (hw : 10 ∉ w) (rest : Bytes) :
    skipWords (o + 1) (w ++ 10 :: rest) = if rest = [] then none else skipWords o rest := by
  induction w with
  | nil => simp [skipWords]
  | cons c w ih =>
    have hc : c ≠ 10 := fun h => hw (h ▸ List.mem_cons_self)
    simp only [List.cons_append, skipWords, hc, if_false, List.append_eq_nil_iff, reduceCtorEq,
      and_false]
    exact ih fun h => hw (List.mem_cons_of_mem c h)

theorem copyWord_word {w : Bytes} (hw : 10 ∉ w) (rest : Bytes) :
    copyWord (w ++ 10 :: rest) = some w := by
  induction w with
  | nil => simp [copyWord]
  | cons c w ih =>
    have hc : c ≠ 10 := fun h => hw (h ▸ List.mem_cons_self)
    simp [copyWord, hc, ih fun h => hw (List.mem_cons_of_mem c h)]

/-- `GetWord` finds word `o` of the text, and fails past the last one. -/
theorem getWord_wordListText {ws : List Bytes} (hws : ∀ w ∈ ws, 10 ∉ w) (o : Nat) :
    GetWord o (wordListText ws) = ws[o]? := by
  induction ws generalizing o with
  | nil => cases o <;> simp [GetWord, wordListText, skipWords, copyWord]
  | cons w ws ih =>
    have hw := hws w List.mem_cons_self
    cases o with
    | zero => simp [GetWord, skipWords, wordListText_cons, copyWord_word hw]
    | succ o =>
      rw [GetWord, wordListText_cons, skipWords_word o hw]
      by_cases hnil : ws = []
      · subst hnil
        simp [wordListText]
      · have htext : wordListText ws ≠ [] := by
          simpa [wordListText] using List.exists_mem_of_ne_nil ws hnil
        rw [if_neg htext, List.getElem?_cons_succ]
        exact ih (fun u hu => hws u (List.mem_cons_of_mem w hu)) o

/-- Over the bytes of one word, the scan of `GetWordOffset` keeps `f` exactly
while the word is a prefix of what is left of `p`. -/
theorem getWordOffsetLoop_word (p : Bytes) {w : Bytes} (hw : 10 ∉ w) (rest : Bytes) (i c : Nat)
    (f : Bool) :
    getWordOffsetLoop p (w ++ rest) i c f =
      getWordOffsetLoop p rest i (c + w.length) (f && w.isPrefixOf (p.drop c)) := by
  induction w generalizing c f with
  | nil => simp
  | cons x w ih =>
    have hx : x ≠ 10 := fun h => hw (h ▸ List.mem_cons_self)
    rw [List.cons_append, getWordOffsetLoop, if_neg hx, ih (fun h => hw (List.mem_cons_of_mem x h))]
    congr 1
    · simp only [List.length_cons]
      omega
    · by_cases hc : c < p.length
      · rw [List.drop_eq_getElem_cons hc, List.isPrefixOf_cons_cons, List.getElem?_eq_getElem hc]
        by_cases hpx : p[c] = x
        · cases f <;> simp [hpx, Nat.not_le.mpr hc]
        · have hxp : (x == p[c]) = false := by simpa using fun h => hpx h.symm
          cases f <;> simp [hpx, hxp, Nat.not_le.mpr hc]
      · simp [Nat.le_of_not_lt hc, List.drop_eq_nil_of_le (Nat.le_of_not_lt hc)]

theorem getWordOffsetLoop_wordListText (p : Bytes) {ws : List Bytes} (hws : ∀ w ∈ ws, 10 ∉ w)
    (i : Nat) : getWordOffsetLoop p (wordListText ws) i 0 true = (ws.idxOf? p).map (· + i) := by
  induction ws generalizing i with
  | nil => simp [wordListText, getWordOffsetLoop]
  | cons w ws ih =>
    have hw := hws w List.mem_cons_self
    rw [wordListText_cons, getWordOffsetLoop_word p hw, getWordOffsetLoop, if_pos rfl,
      List.idxOf?_cons]
    simp only [Nat.zero_add, Bool.true_and, List.drop_zero]
    by_cases hwp : w = p
    · subst hwp
      simp
    · -- a prefix of `p` as long as `p` is `p`
      have hno : ¬(w.isPrefixOf p = true ∧ w.length = p.length) := fun h =>
        hwp ((List.isPrefixOf_iff_prefix.mp h.1).eq_of_length h.2)
      rw [if_neg hno, ih (fun u hu => hws u (List.mem_cons_of_mem w hu))]
      simp [hwp, Option.map_map, Function.comp_def, Nat.add_assoc, Nat.add_comm 1 i]

theorem getWordOffset_wordListText (p : Bytes) {ws : List Bytes} (hws : ∀ w ∈ ws, 10 ∉ w) :
    GetWordOffset p (wordListText ws) = ws.idxOf? p := by
  simpa [GetWordOffset] using getWordOffsetLoop_wordListText p hws 0

theorem idxOf?_of_mem {w : Bytes} {ws : List Bytes} (hw : w ∈ ws) :
    ws.idxOf? w = some (ws.idxOf w) := by
  induction ws with
  | nil => cases hw
  | cons u ws ih =>
    rw [List.idxOf?_cons, List.idxOf_cons]
    by_cases h : u = w
    · simp [h]
    · have hw' : w ∈ ws := (List.mem_cons.mp hw).resolve_left (Ne.symm h)
      have hb : (u == w) = false := by simpa using h
      simp [hb, ih hw']

namespace WordList

variable (L : WordList)

theorem byte_ne {w : Bytes} (hw : w ∈ L.words) {c : UInt8} (hc : c ∈ w) :
    c ≠ 10 ∧ c ≠ 32 ∧ c ≠ 0 := by
  obtain ⟨h0, hsp⟩ := L.wordBytes w hw c hc
  refine ⟨?_, ?_, h0⟩
  · rintro rfl
    exact absurd hsp (by decide)
  · rintro rfl
    exact absurd hsp (by decide)

theorem newline_not_mem : ∀ w ∈ L.words, 10 ∉ w := fun _ hw hc => (L.byte_ne hw hc).1 rfl

theorem index_lt {w : Bytes} (hw : w ∈ L.words) : L.index w < 2048 := by
  rw [index, ← L.length_words]
  exact List.idxOf_lt_length_iff.mpr hw

theorem getD_index {w : Bytes} (hw : w ∈ L.words) : L.words.getD (L.index w) [] = w := by
  rw [List.getD_eq_getElem?_getD, List.getElem?_eq_getElem (L.length_words ▸ L.index_lt hw),
    Option.getD_some]
  exact List.getElem_idxOf _

theorem getD_mem {o : Nat} (ho : o < 2048) : L.words.getD o [] ∈ L.words := by
  rw [List.getD_eq_getElem?_getD, List.getElem?_eq_getElem (L.length_words ▸ ho), Option.getD_some]
  exact List.getElem_mem _

theorem index_getD {o : Nat} (ho : o < 2048) : L.index (L.words.getD o []) = o := by
  rw [List.getD_eq_getElem?_getD, List.getElem?_eq_getElem (L.length_words ▸ ho), Option.getD_some,
    index]
  exact List.Nodup.idxOf_getElem L.nodup o _

theorem getWord_text {o : Nat} (ho : o < 2048) : GetWord o L.text = some (L.words.getD o []) := by
  rw [text, getWord_wordListText L.newline_not_mem, List.getD_eq_getElem?_getD,
    List.getElem?_eq_getElem (L.length_words ▸ ho), Option.getD_some]

theorem getWordOffset_text {w : Bytes} (hw : w ∈ L.words) :
    GetWordOffset w L.text = some (L.index w) := by
  rw [text, getWordOffset_wordListText w L.newline_not_mem, index, idxOf?_of_mem hw]

end WordList

theorem getWordOffsetsLoop_text (L : WordList) {ps : List Bytes} (hps : ∀ p ∈ ps, p ∈ L.words) :
    getWordOffsetsLoop L.text ps = .ok (ps.map L.index) := by
  induction ps with
  | nil => rfl
  | cons p ps ih =>
    rw [getWordOffsetsLoop, L.getWordOffset_text (hps p List.mem_cons_self),
      ih fun q hq => hps q (List.mem_cons_of_mem p hq)]
    rfl

theorem getWords_text (nLanguage : Int) (L : WordList) {os : List Nat} (hos : ∀ o ∈ os, o < 2048) :
    getWords nLanguage L.text os = .ok (os.map (L.words.getD · [])) := by
  induction os with
  | nil => rfl
  | cons o os ih =>
    rw [getWords, L.getWord_text (hos o List.mem_cons_self),
      ih fun q hq => hos q (List.mem_cons_of_mem o hq)]
    rfl

/-! ## Texts of words -/

theorem intercalate_append_cons (sep a b : Bytes) (ws : List Bytes) :
    sep.intercalate ((a ++ b) :: ws) = a ++ sep.intercalate (b :: ws) := by
  cases ws with
  | nil => simp
  | cons w ws => simp [List.intercalate_cons_cons]

/-- `Encode` puts single spaces between non-empty words. -/
theorem joinWords_eq {ws : List Bytes} (hws : ∀ w ∈ ws, w ≠ []) : joinWords ws = [32].intercalate ws := by
  have hfold : ∀ acc, acc ≠ [] → ∀ ws : List Bytes, (∀ w ∈ ws, w ≠ []) →
      ws.foldl (fun sWordList sWord => (if sWordList = [] then [] else sWordList ++ [32]) ++ sWord) acc =
        [32].intercalate (acc :: ws) := by
    intro acc hacc ws hws
    induction ws generalizing acc with
    | nil => simp
    | cons w ws ih =>
      have hstep : acc ++ [32] ++ w ≠ [] := by simp
      rw [List.foldl_cons, if_neg hacc, ih _ hstep fun u hu => hws u (List.mem_cons_of_mem w hu),
        List.append_assoc, intercalate_append_cons, List.intercalate_cons_cons]
      simp
  cases ws with
  | nil => rfl
  | cons w ws =>
    have hw := hws w List.mem_cons_self
    rw [joinWords, List.foldl_cons, if_pos rfl, List.nil_append]
    exact hfold w hw ws fun u hu => hws u (List.mem_cons_of_mem w hu)

theorem dropWhile_of_head? {p : UInt8 → Bool} {s : Bytes} (h : ∀ c ∈ s.head?, p c = false) :
    s.dropWhile p = s := by
  cases s with
  | nil => rfl
  | cons c s => simp [h c rfl]

/-- Words of a list, joined by any separator, have no white space to trim. -/
theorem trimWhitespace_intercalate (L : WordList) (sep : Bytes) {ws : List Bytes}
    (hws : ∀ w ∈ ws, w ∈ L.words) : TrimWhitespace (sep.intercalate ws) = sep.intercalate ws := by
  have hword : ∀ w ∈ ws, ∀ c ∈ w, isSpaceByte c = false := fun w hw c hc => (L.wordBytes w (hws w hw) c hc).2
  have hne : ∀ w ∈ ws, w ≠ [] := fun w hw => L.ne_nil w (hws w hw)
  have hhead : ∀ c ∈ (sep.intercalate ws).head?, isSpaceByte c = false := by
    intro c hc
    cases ws with
    | nil => simp at hc
    | cons w ws =>
      rw [head?_intercalate_cons sep (hne w List.mem_cons_self)] at hc
      exact hword w List.mem_cons_self c (List.mem_of_mem_head? hc)
  have hlast : ∀ c ∈ (sep.intercalate ws).reverse.head?, isSpaceByte c = false := by
    intro c hc
    rw [List.head?_reverse] at hc
    obtain ⟨w, hw, hcw⟩ := mem_getLast?_intercalate hne hc
    exact hword w hw c hcw
  rw [TrimWhitespace, dropWhile_of_head? hhead, dropWhile_of_head? hlast, List.reverse_reverse]

/-! ## Decode, up to the word offsets -/

/-- NFKD as the word lists meet it: words of `L` joined by spaces are already
normalised, and the ideographic spaces between the words of a Japanese
mnemonic become spaces (U+3000 decomposes to U+0020, and every list of
`key/wordlists` is stored normalised). -/
def MnemonicEnv.NormalisesWords (L : WordList) : Prop :=
  ∀ ws : List Bytes, (∀ w ∈ ws, w ∈ L.words) →
    env.NormaliseUnicode ([32].intercalate ws) = [32].intercalate ws ∧
      env.NormaliseUnicode (ideographicSpace.intercalate ws) = [32].intercalate ws

/-- The text `Encode` writes for the words `ws`. -/
def mnemonicText (nLanguage : Int) (ws : List Bytes) : Bytes :=
  if nLanguage = WLL_JAPANESE then ideographicSpace.intercalate ws else [32].intercalate ws

section DecodeFront

variable {env} {nLanguage : Int} {L : WordList} {ws : List Bytes}

theorem ne_neg_one_of_languageList (hL : languageList env nLanguage = some L) :
    nLanguage ≠ -1 := by
  rintro rfl
  simp [languageList] at hL

theorem normaliseInput_spaced (hnorm : env.NormalisesWords L) (hws : ∀ w ∈ ws, w ∈ L.words) :
    NormaliseInput env ([32].intercalate ws) = [32].intercalate ws := by
  rw [NormaliseInput, trimWhitespace_intercalate L _ hws, (hnorm ws hws).1]

theorem normaliseInput_mnemonicText (hnorm : env.NormalisesWords L) (hws : ∀ w ∈ ws, w ∈ L.words)
    (nLanguage : Int) : NormaliseInput env (mnemonicText nLanguage ws) = [32].intercalate ws := by
  unfold mnemonicText
  split
  · rw [NormaliseInput, trimWhitespace_intercalate L _ hws, (hnorm ws hws).2]
  · exact normaliseInput_spaced hnorm hws

theorem tokens_of_words (hws : ∀ w ∈ ws, w ∈ L.words) :
    ∀ w ∈ ws, w ≠ [] ∧ (32 : UInt8) ∉ w ∧ (0 : UInt8) ∉ w := fun w hw =>
  ⟨L.ne_nil w (hws w hw), fun h => (L.byte_ne (hws w hw) h).2.1 rfl,
    fun h => (L.byte_ne (hws w hw) h).2.2 rfl⟩

theorem hasDoubleSpace_spaced (hws : ∀ w ∈ ws, w ∈ L.words) (hne : ws ≠ []) :
    hasDoubleSpace ([32].intercalate ws) = false := by
  have htoks := tokens_of_words hws
  have hnul : ([32].intercalate ws).takeWhile (· ≠ 0) = [32].intercalate ws := by
    rw [List.takeWhile_eq_self_iff]
    intro c hc
    rcases mem_intercalate_singleton hc with rfl | ⟨w, hw, hcw⟩
    · decide
    · exact decide_eq_true fun h => (htoks w hw).2.2 (h ▸ hcw)
  have hjoined := isChain_sep_intercalate (fun w hw => ⟨(htoks w hw).1, (htoks w hw).2.1⟩) hne
  have hchain := List.IsChain.infix hjoined ⟨[32], [32], rfl⟩
  rw [hasDoubleSpace, hnul, decide_eq_false_iff_not]
  exact not_infix_of_isChain hchain

theorem getWordOffsets_spaced (hL : languageList env nLanguage = some L)
    (hws : ∀ w ∈ ws, w ∈ L.words) (hne : ws ≠ []) (hlen : ([32].intercalate ws).length < 4096) :
    GetWordOffsets env nLanguage ([32].intercalate ws) = .ok (ws.map L.index) := by
  rw [GetWordOffsets, hL]
  simp only [Nat.not_le.mpr hlen, if_false]
  rw [strtok_intercalate (by decide) (tokens_of_words hws) hne, getWordOffsetsLoop_text L hws]

/-- A text that normalises to words of the list joined by single spaces is
decoded from the offsets of those words. -/
theorem decode_spaced (hL : languageList env nLanguage = some L) (hws : ∀ w ∈ ws, w ∈ L.words)
    (hne : ws ≠ []) {t : Bytes} (ht : NormaliseInput env t = [32].intercalate ws)
    (hlen : ([32].intercalate ws).length < 2048) (fIgnoreChecksum : Bool) :
    Decode env nLanguage t fIgnoreChecksum =
      (decodeWordInts env (ws.map L.index) fIgnoreChecksum).map (nLanguage, ·) := by
  have hlang := ne_neg_one_of_languageList hL
  have hoffsets := getWordOffsets_spaced hL hws hne (by omega)
  simp only [Decode, ht, hlang, if_false, hL, Option.isNone_some, Nat.not_le.mpr hlen,
    hasDoubleSpace_spaced hws hne, hoffsets, Bool.false_eq_true]
  change (decodeWordInts env (ws.map L.index) fIgnoreChecksum >>= fun v => pure (nLanguage, v)) = _
  cases decodeWordInts env (ws.map L.index) fIgnoreChecksum <;> rfl

end DecodeFront

end Globe
