import Globe.Key.ExtKeyPath
import Globe.Lib.Bytes
import Mathlib.Data.Nat.Bitwise
import Mathlib.Logic.Function.Basic

/-!
# Extended-key accounts

A `CExtKeyAccount` (`key/extkey.cpp`) keeps the keys it has handed out or seen
on chain in `mapKeys`, and a pool of derived keys not seen yet in
`mapLookAhead`, each with its chain and index (`CEKAKey`).  Each chain of the
account (`CStoredExtKey`) counts in `nGenerated` the next index to hand out.

`SaveKey` moves a key from the pool to `mapKeys` and advances the counter of
its chain: by one when the saved index is the counter, and, when the saved
index is above it, by a rescan from the counter up to the saved index that stops
at the first key the account does not have.  The rescan leaves the counter at
the last index it found, not past it.  `AddLookAhead` derives keys from the
larger of the counter and the last look-ahead index into the pool, skipping the
keys the account already has.  `NewKeyFromAccount` (`wallet/hdwallet.cpp`)
derives the key at the counter, moves the counter past it and saves it.

Key derivation is the parameter `key c n`, the id of the key at index `n` of
chain `c`; `DeriveKey` succeeds for every index below `2 ^ 31`.  The maps are
functions from key ids.
-/

namespace Globe

/-- `CEKAKey`: the chain (`nParent`, an index into `vExtKeys`) and the index of
a key. -/
structure CEKAKey where
  nParent : UInt32
  nKey : UInt32
  deriving DecidableEq, Repr

/-- The fields of `CStoredExtKey` the account code reads. -/
structure CStoredExtKey where
  nGenerated : UInt32
  nLastLookAhead : UInt32
  -- `IsActive()` and `IsReceiveEnabled()`, bits of `nFlags`
  fActive : Bool
  fReceiveOn : Bool
  deriving DecidableEq, Repr

structure CExtKeyAccount (κ : Type) where
  mapKeys : κ → Option CEKAKey
  mapLookAhead : κ → Option CEKAKey
  vExtKeys : List CStoredExtKey

/-- `IsHardened(n)` of `key/keyutil.h`. -/
def IsHardened (n : UInt32) : Bool := n &&& ((1 : UInt32) <<< 31) != 0

/-- `WithoutHardenedBit(n)`. -/
def WithoutHardenedBit (n : UInt32) : UInt32 := n &&& ~~~((1 : UInt32) <<< 31)

theorem isHardened_eq_false_iff (n : UInt32) : IsHardened n = false ↔ n.toNat < 2 ^ 31 := by
  rw [IsHardened, bne_eq_false_iff_eq, ← UInt32.toNat_inj, UInt32.toNat_and,
    show ((1 : UInt32) <<< 31).toNat = 2 ^ 31 from rfl, UInt32.toNat_zero]
  exact ByteCodec.and_two_pow_eq_zero_iff n.toNat_lt

theorem shiftRight31_eq_one_iff (n : UInt32) : n >>> 31 = 1 ↔ 2 ^ 31 ≤ n.toNat := by
  have hlt := n.toNat_lt
  rw [← UInt32.toNat_inj, toNat_shiftRight31, UInt32.toNat_one]
  omega

theorem toNat_add_one_of_lt {g : UInt32} (h : g.toNat < 2 ^ 31) : (g + 1).toNat = g.toNat + 1 := by
  rw [UInt32.toNat_add, UInt32.toNat_one]
  omega

variable {κ : Type}

namespace CExtKeyAccount

/-- `GetChain(nChain)`. -/
def GetChain (a : CExtKeyAccount κ) (nChain : UInt32) : Option CStoredExtKey :=
  a.vExtKeys[nChain.toNat]?

/-- A write through the chain pointer `GetChain` returned. -/
def setChain (a : CExtKeyAccount κ) (nChain : UInt32) (pc : CStoredExtKey) : CExtKeyAccount κ :=
  { a with vExtKeys := a.vExtKeys.set nChain.toNat pc }

/-- The counter of a chain, `none` for an unknown chain. -/
def counter (a : CExtKeyAccount κ) (nChain : UInt32) : Option UInt32 :=
  (a.GetChain nChain).map CStoredExtKey.nGenerated

/-- `pc->nLastLookAhead = n` on the chain `nChain`. -/
def setLastLookAhead (a : CExtKeyAccount κ) (nChain n : UInt32) : CExtKeyAccount κ :=
  match a.GetChain nChain with
  | some pc => a.setChain nChain { pc with nLastLookAhead := n }
  | none => a

@[simp] theorem setChain_mapKeys (a : CExtKeyAccount κ) (c : UInt32) (pc : CStoredExtKey) :
    (a.setChain c pc).mapKeys = a.mapKeys := rfl

@[simp] theorem setChain_mapLookAhead (a : CExtKeyAccount κ) (c : UInt32) (pc : CStoredExtKey) :
    (a.setChain c pc).mapLookAhead = a.mapLookAhead := rfl

theorem getChain_setChain (a : CExtKeyAccount κ) (c c' : UInt32) (pc : CStoredExtKey) :
    (a.setChain c pc).GetChain c' =
      if c = c' then (a.GetChain c).map (fun _ => pc) else a.GetChain c' := by
  simp only [GetChain, setChain, List.getElem?_set]
  by_cases h : c = c'
  · subst h
    by_cases hlt : c.toNat < a.vExtKeys.length
    · simp [hlt]
    · simp [hlt]
  · have h' : c.toNat ≠ c'.toNat := fun he => h (UInt32.toNat_inj.mp he)
    simp [h, h']

theorem counter_setChain (a : CExtKeyAccount κ) (c c' : UInt32) (pc : CStoredExtKey) :
    (a.setChain c pc).counter c' =
      if c = c' then (a.GetChain c).map (fun _ => pc.nGenerated) else a.counter c' := by
  rw [counter, getChain_setChain]
  by_cases h : c = c'
  · simp [h, Function.comp_def]
  · simp [h, counter]

@[simp] theorem setLastLookAhead_mapKeys (a : CExtKeyAccount κ) (c n : UInt32) :
    (a.setLastLookAhead c n).mapKeys = a.mapKeys := by
  unfold setLastLookAhead
  split <;> rfl

@[simp] theorem setLastLookAhead_mapLookAhead (a : CExtKeyAccount κ) (c n : UInt32) :
    (a.setLastLookAhead c n).mapLookAhead = a.mapLookAhead := by
  unfold setLastLookAhead
  split <;> rfl

@[simp] theorem counter_setLastLookAhead (a : CExtKeyAccount κ) (c n c' : UInt32) :
    (a.setLastLookAhead c n).counter c' = a.counter c' := by
  unfold setLastLookAhead
  split
  · next pc hpc =>
    rw [counter_setChain]
    by_cases h : c = c'
    · subst h
      simp [counter, hpc]
    · simp [h]
  · rfl

variable (key : UInt32 → UInt32 → κ)

/-- `CStoredExtKey::DeriveKey(keyOut, nChildIn, nChildOut, false)` on chain `c`:
the key and `nChildOut`.  The derivation itself succeeds, so the first of the
`MAX_DERIVE_TRIES` tries returns. -/
def DeriveKey (c nChildIn : UInt32) : Option (κ × UInt32) :=
  if nChildIn >>> 31 = 1 then none else some (key c nChildIn, nChildIn)

theorem deriveKey_eq_some {c n m : UInt32} {id : κ} (h : DeriveKey key c n = some (id, m)) :
    n.toNat < 2 ^ 31 ∧ id = key c n ∧ m = n := by
  unfold DeriveKey at h
  split at h
  · cases h
  · next hn =>
    cases h
    exact ⟨by rw [shiftRight31_eq_one_iff] at hn; omega, rfl, rfl⟩

/-- The inner loop of `AddLookAhead` with `nMaxTries` tries left: the key it
found, `nChild` and `nChildOut`.  A key in `mapKeys` or already in the pool is
skipped. -/
def lookAheadSearch (a : CExtKeyAccount κ) (c : UInt32) :
    Nat → UInt32 → UInt32 → Option κ × UInt32 × UInt32
  | 0, nChild, nChildOut => (none, nChild, nChildOut)
  | i + 1, nChild, nChildOut =>
    match DeriveKey key c nChild with
    | none => lookAheadSearch a c i (nChildOut + 1) nChildOut
    | some (keyId, nChildOut) =>
      if (a.mapKeys keyId).isSome || (a.mapLookAhead keyId).isSome then
        lookAheadSearch a c i (nChildOut + 1) nChildOut
      else (some keyId, nChildOut + 1, nChildOut)

/-- The key the inner loop returns is neither saved nor in the pool. -/
theorem lookAheadSearch_fresh (a : CExtKeyAccount κ) (c : UInt32) {keyId : κ} :
    ∀ t nChild nChildOut, (lookAheadSearch key a c t nChild nChildOut).1 = some keyId →
      a.mapKeys keyId = none ∧ a.mapLookAhead keyId = none := by
  intro t
  induction t with
  | zero => intro _ _ h; cases h
  | succ t ih =>
    intro nChild nChildOut h
    simp only [lookAheadSearch] at h
    split at h
    · exact ih _ _ h
    · next keyId' m _ =>
      split at h
      · exact ih _ _ h
      · next hfresh =>
        cases h
        simp only [Bool.or_eq_true, Option.isSome_iff_ne_none, ne_eq, not_or, not_not] at hfresh
        exact hfresh

/-- The rescan of `SaveKey`: index `i` with `n` indices left up to the saved
one, and the counter so far.  It stops at the first key that `HaveKey` does not
report as saved.  `HaveKey` also reports the stealth child keys of
`HaveStealthKey`, which this account model does not hold, so here only
`mapKeys` is asked. -/
def rescanGenerated (a : CExtKeyAccount κ) (c : UInt32) : Nat → UInt32 → UInt32 → UInt32
  | 0, _, nGenerated => nGenerated
  | n + 1, i, nGenerated =>
    match DeriveKey key c i with
    | none => nGenerated
    | some (keyId, _) =>
      if (a.mapKeys keyId).isSome then rescanGenerated a c n (i + 1) i else nGenerated

/-- The rescan from index `i` with `n` indices left never leaves the counter
past `bound` when the last index it may reach is `bound`. -/
theorem rescanGenerated_le (a : CExtKeyAccount κ) (c : UInt32) {bound : Nat} (hbound : bound < 2 ^ 31) :
    ∀ n i g, g.toNat ≤ bound → i.toNat + n ≤ bound + 1 →
      (rescanGenerated key a c n i g).toNat ≤ bound := by
  intro n
  induction n with
  | zero => intro i g hg _; exact hg
  | succ n ih =>
    intro i g hg hi
    simp only [rescanGenerated]
    split
    · exact hg
    · split
      · -- the next index does not wrap: it is at most `bound + 1`
        apply ih (i + 1) i (by omega)
        rw [toNat_add_one_of_lt (by omega)]
        omega
      · exact hg

/-- The counter `SaveKey` leaves on the chain of `keyIn` from the counter `g`:
one more when the saved index is `g`, the rescan when it is above. -/
def savedCounter (a : CExtKeyAccount κ) (keyIn : CEKAKey) (g : UInt32) : UInt32 :=
  if keyIn.nKey = g then g + 1
  else if g < keyIn.nKey then
    -- `for (i = pc->nGenerated; i <= keyIn.nKey; ++i)`
    rescanGenerated key a keyIn.nParent (keyIn.nKey.toNat + 1 - g.toNat) g g
  else g

/-- From a counter at or above the saved index, `SaveKey` moves the counter past
the index. -/
theorem savedCounter_of_le (a : CExtKeyAccount κ) {keyIn : CEKAKey} {g : UInt32}
    (hn : keyIn.nKey.toNat < 2 ^ 31) (hle : keyIn.nKey.toNat ≤ g.toNat) :
    g.toNat ≤ (savedCounter key a keyIn g).toNat ∧
      keyIn.nKey.toNat < (savedCounter key a keyIn g).toNat := by
  unfold savedCounter
  by_cases heq : keyIn.nKey = g
  · -- the counter is below `2 ^ 31`, so one more does not wrap
    subst heq
    rw [if_pos rfl, toNat_add_one_of_lt hn]
    omega
  · have hlt : keyIn.nKey.toNat < g.toNat := by
      have hne : keyIn.nKey.toNat ≠ g.toNat := fun h => heq (UInt32.toNat_inj.mp h)
      omega
    have hnot : ¬ g < keyIn.nKey := by
      rw [UInt32.lt_iff_toNat_lt]
      omega
    rw [if_neg heq, if_neg hnot]
    exact ⟨le_refl _, hlt⟩

/-- A key saved above the counter of its chain leaves the counter at most at
the key's index: the rescan stops at the last index it finds, not past it. -/
theorem savedCounter_le_of_lt (a : CExtKeyAccount κ) {keyIn : CEKAKey} {g : UInt32}
    (hn : keyIn.nKey.toNat < 2 ^ 31) (hlt : g.toNat < keyIn.nKey.toNat) :
    (savedCounter key a keyIn g).toNat ≤ keyIn.nKey.toNat := by
  have hne : keyIn.nKey ≠ g := fun h => by rw [h] at hlt; omega
  have hgt : g < keyIn.nKey := by rw [UInt32.lt_iff_toNat_lt]; exact hlt
  rw [savedCounter, if_neg hne, if_pos hgt]
  exact rescanGenerated_le key a _ hn _ _ _ (by omega) (by omega)

variable [DecidableEq κ]

/-- The outer loop of `AddLookAhead` with `k` keys left to add. -/
def addLookAheadLoop (c : UInt32) : Nat → CExtKeyAccount κ → UInt32 → UInt32 → CExtKeyAccount κ
  | 0, a, _, _ => a
  | k + 1, a, nChild, nChildOut =>
    match lookAheadSearch key a c 1000 nChild nChildOut with
    | (none, nChild, nChildOut) => addLookAheadLoop c k a nChild nChildOut
    | (some keyId, nChild, nChildOut) =>
      let a := { a with mapLookAhead := Function.update a.mapLookAhead keyId (some ⟨c, nChildOut⟩) }
      addLookAheadLoop c k (a.setLastLookAhead c nChildOut) nChild nChildOut

/-- `CExtKeyAccount::AddLookAhead(nChain, nKeys)`: the code and the account. -/
def AddLookAhead (a : CExtKeyAccount κ) (nChain nKeys : UInt32) : Int × CExtKeyAccount κ :=
  match a.GetChain nChain with
  | none => (1, a)
  | some pc =>
    let nChild := max pc.nGenerated pc.nLastLookAhead
    (0, addLookAheadLoop key nChain nKeys.toNat a nChild nChild)

theorem addLookAheadLoop_mapKeys (c : UInt32) :
    ∀ k (a : CExtKeyAccount κ) nChild nChildOut,
      (addLookAheadLoop key c k a nChild nChildOut).mapKeys = a.mapKeys := by
  intro k
  induction k with
  | zero => intro a _ _; rfl
  | succ k ih =>
    intro a nChild nChildOut
    simp only [addLookAheadLoop]
    split
    · exact ih _ _ _
    · rw [ih, setLastLookAhead_mapKeys]

theorem addLookAheadLoop_counter (c : UInt32) :
    ∀ k (a : CExtKeyAccount κ) nChild nChildOut,
      (addLookAheadLoop key c k a nChild nChildOut).counter = a.counter := by
  intro k
  induction k with
  | zero => intro a _ _; rfl
  | succ k ih =>
    intro a nChild nChildOut
    simp only [addLookAheadLoop]
    split
    · exact ih _ _ _
    · rw [ih]
      funext c'
      rw [counter_setLastLookAhead]
      rfl

theorem addLookAhead_mapKeys (a : CExtKeyAccount κ) (c nKeys : UInt32) :
    (AddLookAhead key a c nKeys).2.mapKeys = a.mapKeys := by
  unfold AddLookAhead
  split
  · rfl
  · exact addLookAheadLoop_mapKeys key c _ _ _ _

theorem addLookAhead_counter (a : CExtKeyAccount κ) (c nKeys : UInt32) :
    (AddLookAhead key a c nKeys).2.counter = a.counter := by
  unfold AddLookAhead
  split
  · rfl
  · exact addLookAheadLoop_counter key c _ _ _ _

/-- `mapLookAhead.erase(id)` and `mapKeys[id] = keyIn`. -/
def withSavedKey (a : CExtKeyAccount κ) (id : κ) (keyIn : CEKAKey) : CExtKeyAccount κ :=
  { a with
    mapLookAhead := Function.update a.mapLookAhead id none
    mapKeys := Function.update a.mapKeys id (some keyIn) }

@[simp] theorem withSavedKey_getChain (a : CExtKeyAccount κ) (id : κ) (keyIn : CEKAKey) :
    (a.withSavedKey id keyIn).GetChain = a.GetChain := rfl

@[simp] theorem withSavedKey_counter (a : CExtKeyAccount κ) (id : κ) (keyIn : CEKAKey) :
    (a.withSavedKey id keyIn).counter = a.counter := rfl

/-- `CExtKeyAccount::SaveKey(id, keyIn)` with debug logging off: whether it
saved the key, and the account. -/
def SaveKey (a : CExtKeyAccount κ) (id : κ) (keyIn : CEKAKey) : Bool × CExtKeyAccount κ :=
  if (a.mapKeys id).isSome then (false, a)
  else
    let a := a.withSavedKey id keyIn
    match (if IsHardened keyIn.nKey then none else a.GetChain keyIn.nParent) with
    | none => (true, a)
    | some pc =>
      let pc := { pc with nGenerated := savedCounter key a keyIn pc.nGenerated }
      let a := a.setChain keyIn.nParent pc
      if pc.fActive && pc.fReceiveOn then (true, (AddLookAhead key a keyIn.nParent 1).2)
      else (true, a)

theorem saveKey_of_saved {a : CExtKeyAccount κ} {id : κ} (hs : (a.mapKeys id).isSome = true)
    (keyIn : CEKAKey) : SaveKey key a id keyIn = (false, a) := by
  simp [SaveKey, hs]

theorem saveKey_mapKeys (a : CExtKeyAccount κ) (id : κ) (keyIn : CEKAKey) :
    (SaveKey key a id keyIn).2.mapKeys =
      if (a.mapKeys id).isSome then a.mapKeys else Function.update a.mapKeys id (some keyIn) := by
  unfold SaveKey
  split
  · rfl
  · dsimp only
    split
    · rfl
    · split
      · rw [addLookAhead_mapKeys]
        rfl
      · rfl

/-- `SaveKey` moves only the counter of the saved key's chain, and only for a
new key that is not hardened. -/
theorem saveKey_counter (a : CExtKeyAccount κ) (id : κ) (keyIn : CEKAKey) (c : UInt32) :
    (SaveKey key a id keyIn).2.counter c =
      if (a.mapKeys id).isSome = false ∧ IsHardened keyIn.nKey = false ∧ keyIn.nParent = c then
        (a.counter c).map (savedCounter key (a.withSavedKey id keyIn) keyIn)
      else a.counter c := by
  unfold SaveKey
  by_cases hs : (a.mapKeys id).isSome = true
  · simp [hs]
  rw [if_neg hs]
  dsimp only
  by_cases hh : IsHardened keyIn.nKey = true
  · simp only [hh, if_true]
    simp
  rw [if_neg hh]
  cases hpc : a.GetChain keyIn.nParent with
  | none =>
    -- an unknown chain has no counter
    simp only [withSavedKey_getChain, hpc]
    by_cases hc : keyIn.nParent = c
    · subst hc
      simp [counter, hpc]
    · simp [hc]
  | some pc =>
    simp only [withSavedKey_getChain, hpc]
    have hset : ((a.withSavedKey id keyIn).setChain keyIn.nParent
        { pc with nGenerated := savedCounter key (a.withSavedKey id keyIn) keyIn pc.nGenerated }).counter c =
        if keyIn.nParent = c then some (savedCounter key (a.withSavedKey id keyIn) keyIn pc.nGenerated)
        else a.counter c := by
      rw [counter_setChain]
      by_cases hc : keyIn.nParent = c
      · subst hc
        simp [hpc]
      · simp [hc]
    split
    · rw [addLookAhead_counter, hset]
      by_cases hc : keyIn.nParent = c
      · subst hc
        simp [hs, hh, counter, hpc]
      · simp [hc]
    · rw [hset]
      by_cases hc : keyIn.nParent = c
      · subst hc
        simp [hs, hh, counter, hpc]
      · simp [hc]

/-- `CHDWallet::NewKeyFromAccount` for a key that is not hardened on the chain
`nExtKey`, every wallet database write succeeding: the code, the key id and the
account. -/
def NewKeyFromAccount (a : CExtKeyAccount κ) (nExtKey : UInt32) : Int × Option κ × CExtKeyAccount κ :=
  match a.GetChain nExtKey with
  | none => (3, none, a)
  | some sek =>
    -- `DeriveNextKey`, which moves the counter past the derived index
    match DeriveKey key nExtKey sek.nGenerated with
    | none => (4, none, a)
    | some (idKey, nChildOut) =>
      let a := a.setChain nExtKey { sek with nGenerated := WithoutHardenedBit nChildOut + 1 }
      (0, some idKey, (SaveKey key a idKey ⟨nExtKey, nChildOut⟩).2)

end CExtKeyAccount

/-- What happens to an account: a key of chain `c` at index `n` seen on chain
and saved, look-ahead keys added, or a new key handed out. -/
inductive AccountOp where
  | saveKey (c n : UInt32)
  | addLookAhead (c nKeys : UInt32)
  | newKey (c : UInt32)
  deriving DecidableEq, Repr

namespace CExtKeyAccount

variable [DecidableEq κ] (key : UInt32 → UInt32 → κ)

def step (a : CExtKeyAccount κ) : AccountOp → CExtKeyAccount κ
  | .saveKey c n => (SaveKey key a (key c n) ⟨c, n⟩).2
  | .addLookAhead c nKeys => (AddLookAhead key a c nKeys).2
  | .newKey c => (NewKeyFromAccount key a c).2.2

def run (a : CExtKeyAccount κ) (ops : List AccountOp) : CExtKeyAccount κ :=
  ops.foldl (step key) a

end CExtKeyAccount

end Globe
