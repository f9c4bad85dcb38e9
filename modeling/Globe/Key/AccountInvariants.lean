import Globe.Key.ExtKeyAccount

/-!
# Invariants of extended-key accounts

Two properties of `CExtKeyAccount` over runs of `SaveKey`, `AddLookAhead` and
`NewKeyFromAccount`.  No key is ever both saved and in the look-ahead pool: this
holds for every run, whatever the derivation.  A new key is never one already
saved as long as every saved index lies below its chain's counter; each
operation keeps that, except a save above the counter, where the rescan of
`SaveKey` leaves the counter at the saved index at most
(`saveKey_ahead_counter_le`).  `saveKey_out_of_order_reissues` is a run where
keys arrive out of order and `NewKeyFromAccount` then hands out a saved key.
-/

namespace Globe

namespace CExtKeyAccount

variable {κ : Type}

/-! ## The invariants -/

/-- No key is both saved and in the look-ahead pool. -/
def Disjoint (a : CExtKeyAccount κ) : Prop :=
  ∀ id, (a.mapKeys id).isSome → a.mapLookAhead id = none

theorem Disjoint.setChain {a : CExtKeyAccount κ} (h : a.Disjoint) (c : UInt32)
    (pc : CStoredExtKey) : (a.setChain c pc).Disjoint := h

variable (key : UInt32 → UInt32 → κ)

/-- Every saved key is the key of its chain and index, and a saved index that is
not hardened lies below the counter of its chain. -/
def SavedBelowCounter (a : CExtKeyAccount κ) : Prop :=
  ∀ id k, a.mapKeys id = some k → id = key k.nParent k.nKey ∧
    (IsHardened k.nKey = false → ∀ g, a.counter k.nParent = some g → k.nKey.toNat < g.toNat)

/-- Each counter of `a'` is a counter of `a` or above it. -/
def CounterLe (a a' : CExtKeyAccount κ) : Prop :=
  ∀ c g', a'.counter c = some g' → ∃ g, a.counter c = some g ∧ g.toNat ≤ g'.toNat

theorem savedBelowCounter_of_counterLe {a a' : CExtKeyAccount κ} (h : SavedBelowCounter key a)
    (hkeys : a'.mapKeys = a.mapKeys) (hle : CounterLe a a') : SavedBelowCounter key a' := by
  intro id k hk
  rw [hkeys] at hk
  obtain ⟨hid, hbelow⟩ := h id k hk
  refine ⟨hid, fun hh g' hg' => ?_⟩
  obtain ⟨g, hg, hgg'⟩ := hle _ _ hg'
  have := hbelow hh g hg
  omega

variable [DecidableEq κ]

/-! ## Saved keys stay out of the pool -/

theorem Disjoint.withSavedKey {a : CExtKeyAccount κ} (h : a.Disjoint) (id : κ) (keyIn : CEKAKey) :
    (a.withSavedKey id keyIn).Disjoint := by
  intro id' hid'
  by_cases hk : id' = id
  · subst hk
    simp [CExtKeyAccount.withSavedKey]
  · simp only [CExtKeyAccount.withSavedKey, Function.update_of_ne hk] at hid' ⊢
    exact h id' hid'

theorem addLookAheadLoop_disjoint (c : UInt32) :
    ∀ k (a : CExtKeyAccount κ) nChild nChildOut, a.Disjoint →
      (addLookAheadLoop key c k a nChild nChildOut).Disjoint := by
  intro k
  induction k with
  | zero => intro a _ _ h; exact h
  | succ k ih =>
    intro a nChild nChildOut h
    simp only [addLookAheadLoop]
    split
    · exact ih _ _ _ h
    · next keyId _ _ hfound =>
      -- the loop only adds a key that is not saved
      have hfresh := lookAheadSearch_fresh key a c 1000 nChild nChildOut (by rw [hfound])
      apply ih
      intro id hid
      simp only [setLastLookAhead_mapKeys, setLastLookAhead_mapLookAhead] at hid ⊢
      by_cases hk : id = keyId
      · subst hk
        rw [hfresh.1] at hid
        cases hid
      · rw [Function.update_of_ne hk]
        exact h id hid

theorem addLookAhead_disjoint {a : CExtKeyAccount κ} (h : a.Disjoint) (c nKeys : UInt32) :
    (AddLookAhead key a c nKeys).2.Disjoint := by
  unfold AddLookAhead
  split
  · exact h
  · exact addLookAheadLoop_disjoint key c _ _ _ _ h

theorem saveKey_disjoint {a : CExtKeyAccount κ} (h : a.Disjoint) (id : κ) (keyIn : CEKAKey) :
    (SaveKey key a id keyIn).2.Disjoint := by
  have hsaved := h.withSavedKey id keyIn
  unfold SaveKey
  split
  · exact h
  · dsimp only
    split
    · exact hsaved
    · split
      · exact addLookAhead_disjoint key (hsaved.setChain _ _) _ _
      · exact hsaved.setChain _ _

theorem newKeyFromAccount_disjoint {a : CExtKeyAccount κ} (h : a.Disjoint) (c : UInt32) :
    (NewKeyFromAccount key a c).2.2.Disjoint := by
  unfold NewKeyFromAccount
  split
  · exact h
  · split
    · exact h
    · exact saveKey_disjoint key (h.setChain _ _) _ _

theorem step_disjoint {a : CExtKeyAccount κ} (h : a.Disjoint) (op : AccountOp) :
    (a.step key op).Disjoint := by
  cases op with
  | saveKey c n => exact saveKey_disjoint key h _ _
  | addLookAhead c nKeys => exact addLookAhead_disjoint key h _ _
  | newKey c => exact newKeyFromAccount_disjoint key h _

/-- From an account whose maps are disjoint, every sequence of operations keeps
them disjoint. -/
theorem run_disjoint {a : CExtKeyAccount κ} (h : a.Disjoint) (ops : List AccountOp) :
    (a.run key ops).Disjoint := by
  induction ops generalizing a with
  | nil => exact h
  | cons op ops ih => exact ih (step_disjoint key h op)

/-! ## Handing out fresh keys -/

theorem addLookAhead_savedBelowCounter {a : CExtKeyAccount κ} (h : SavedBelowCounter key a)
    (c nKeys : UInt32) : SavedBelowCounter key (AddLookAhead key a c nKeys).2 := by
  apply savedBelowCounter_of_counterLe key h (addLookAhead_mapKeys key a c nKeys)
  intro c' g' hg'
  rw [addLookAhead_counter] at hg'
  exact ⟨g', hg', le_refl _⟩

/-- A save of the key of `keyIn` at most at the counter of its chain keeps every
saved index below its counter. -/
theorem saveKey_savedBelowCounter {a : CExtKeyAccount κ} (h : SavedBelowCounter key a)
    (keyIn : CEKAKey) (hle : IsHardened keyIn.nKey = false → ∀ g,
      a.counter keyIn.nParent = some g → keyIn.nKey.toNat ≤ g.toNat) :
    SavedBelowCounter key (SaveKey key a (key keyIn.nParent keyIn.nKey) keyIn).2 := by
  by_cases hs : (a.mapKeys (key keyIn.nParent keyIn.nKey)).isSome = true
  · rw [saveKey_of_saved key hs]
    exact h
  have hs' : (a.mapKeys (key keyIn.nParent keyIn.nKey)).isSome = false := by simpa using hs
  -- the counter of the key's chain moves up and past the saved index
  have hcounter : ∀ c g', (SaveKey key a (key keyIn.nParent keyIn.nKey) keyIn).2.counter c = some g' →
      ∃ g, a.counter c = some g ∧ g.toNat ≤ g'.toNat ∧
        (IsHardened keyIn.nKey = false → keyIn.nParent = c → keyIn.nKey.toNat < g'.toNat) := by
    intro c g' hg'
    rw [saveKey_counter] at hg'
    by_cases hcase : IsHardened keyIn.nKey = false ∧ keyIn.nParent = c
    · obtain ⟨hh, hc⟩ := hcase
      rw [if_pos ⟨hs', hh, hc⟩] at hg'
      obtain ⟨g, hg, rfl⟩ := Option.map_eq_some_iff.mp hg'
      have hn : keyIn.nKey.toNat < 2 ^ 31 := (isHardened_eq_false_iff _).mp hh
      have hbound := savedCounter_of_le key (a.withSavedKey (key keyIn.nParent keyIn.nKey) keyIn)
        hn (hle hh g (hc ▸ hg))
      exact ⟨g, hg, hbound.1, fun _ _ => hbound.2⟩
    · rw [if_neg (fun h' => hcase ⟨h'.2.1, h'.2.2⟩)] at hg'
      exact ⟨g', hg', le_refl _, fun hh hc => absurd ⟨hh, hc⟩ hcase⟩
  intro id k hk
  rw [saveKey_mapKeys, if_neg hs] at hk
  by_cases hid : id = key keyIn.nParent keyIn.nKey
  · -- the key just saved
    subst hid
    simp only [Function.update_self, Option.some.injEq] at hk
    subst hk
    refine ⟨rfl, fun hh g' hg' => ?_⟩
    obtain ⟨_, _, _, hpast⟩ := hcounter _ _ hg'
    exact hpast hh rfl
  · rw [Function.update_of_ne hid] at hk
    obtain ⟨hkey, hbelow⟩ := h id k hk
    refine ⟨hkey, fun hh g' hg' => ?_⟩
    obtain ⟨g, hg, hgg', _⟩ := hcounter _ _ hg'
    have := hbelow hh g hg
    omega

/-- `NewKeyFromAccount` saves the key at the counter after moving the counter
past it, so the saved index is below the new counter. -/
theorem newKeyFromAccount_savedBelowCounter {a : CExtKeyAccount κ} (h : SavedBelowCounter key a)
    (c : UInt32) : SavedBelowCounter key (NewKeyFromAccount key a c).2.2 := by
  unfold NewKeyFromAccount
  split
  · exact h
  · next sek hsek =>
    split
    · exact h
    · next idKey nChildOut hd =>
      obtain ⟨hg, rfl, rfl⟩ := deriveKey_eq_some key hd
      have hw : WithoutHardenedBit sek.nGenerated = sek.nGenerated := by
        apply UInt32.toNat_inj.mp
        rw [WithoutHardenedBit, toNat_clearBit31]
        exact Nat.mod_eq_of_lt hg
      have hsucc := toNat_add_one_of_lt hg
      -- `DeriveNextKey` moves the counter of chain `c` one past the derived index
      have hle : CounterLe a (a.setChain c { sek with nGenerated := WithoutHardenedBit sek.nGenerated + 1 }) := by
        intro c' g' hg'
        rw [counter_setChain] at hg'
        by_cases hc : c = c'
        · subst hc
          simp only [if_true, hsek, Option.map_some, Option.some.injEq, hw] at hg'
          subst hg'
          exact ⟨sek.nGenerated, by simp [counter, hsek], by omega⟩
        · rw [if_neg hc] at hg'
          exact ⟨g', hg', le_refl _⟩
      have h1 : SavedBelowCounter key
          (a.setChain c { sek with nGenerated := WithoutHardenedBit sek.nGenerated + 1 }) :=
        savedBelowCounter_of_counterLe key h rfl hle
      dsimp only
      refine saveKey_savedBelowCounter key h1 ⟨c, sek.nGenerated⟩ fun _ g hg' => ?_
      rw [counter_setChain] at hg'
      simp only [if_true, hsek, Option.map_some, Option.some.injEq, hw] at hg'
      subst hg'
      show sek.nGenerated.toNat ≤ (sek.nGenerated + 1).toNat
      omega

/-- From an account whose saved keys lie below their counters, and for a key
derivation that gives distinct keys to distinct chains and indices,
`NewKeyFromAccount` hands out a key that is not saved. -/
theorem newKeyFromAccount_fresh (hinj : Function.Injective2 key) {a : CExtKeyAccount κ}
    (h : SavedBelowCounter key a) {c : UInt32} {id : κ}
    (hnew : (NewKeyFromAccount key a c).2.1 = some id) : a.mapKeys id = none := by
  unfold NewKeyFromAccount at hnew
  split at hnew
  · cases hnew
  · next sek hsek =>
    split at hnew
    · cases hnew
    · next idKey nChildOut hd =>
      obtain ⟨hg, rfl, rfl⟩ := deriveKey_eq_some key hd
      simp only [Option.some.injEq] at hnew
      subst hnew
      cases hk : a.mapKeys (key c sek.nGenerated) with
      | none => rfl
      | some k =>
        -- a saved key at the counter would lie below the counter
        obtain ⟨hid, hbelow⟩ := h _ k hk
        obtain ⟨hc, hn⟩ := hinj hid
        have hhard : IsHardened k.nKey = false := by
          rw [← hn]
          exact (isHardened_eq_false_iff _).mpr hg
        have hlt := hbelow hhard sek.nGenerated (by rw [← hc]; simp [counter, hsek])
        rw [← hn] at hlt
        exact absurd hlt (Nat.lt_irrefl _)

/-- A save that is not hardened comes at most at the counter of its chain. -/
def OpInOrder (a : CExtKeyAccount κ) : AccountOp → Prop
  | .saveKey c n => IsHardened n = false → ∀ g, a.counter c = some g → n.toNat ≤ g.toNat
  | _ => True

/-- Every save of the run comes in order, when it happens. -/
def SavesInOrder : CExtKeyAccount κ → List AccountOp → Prop
  | _, [] => True
  | a, op :: ops => OpInOrder a op ∧ SavesInOrder (a.step key op) ops

theorem step_savedBelowCounter {a : CExtKeyAccount κ} (h : SavedBelowCounter key a)
    {op : AccountOp} (hop : OpInOrder a op) : SavedBelowCounter key (a.step key op) := by
  cases op with
  | saveKey c n => exact saveKey_savedBelowCounter key h ⟨c, n⟩ hop
  | addLookAhead c nKeys => exact addLookAhead_savedBelowCounter key h c nKeys
  | newKey c => exact newKeyFromAccount_savedBelowCounter key h c

theorem run_savedBelowCounter {a : CExtKeyAccount κ} (h : SavedBelowCounter key a)
    {ops : List AccountOp} (hops : SavesInOrder key a ops) : SavedBelowCounter key (a.run key ops) := by
  induction ops generalizing a with
  | nil => exact h
  | cons op ops ih => exact ih (step_savedBelowCounter key h hops.1) hops.2

/-- After any run whose saves come in order, `NewKeyFromAccount` hands out a
key that is not saved. -/
theorem run_newKeyFromAccount_fresh (hinj : Function.Injective2 key) {a : CExtKeyAccount κ}
    (h : SavedBelowCounter key a) {ops : List AccountOp} (hops : SavesInOrder key a ops)
    {c : UInt32} {id : κ} (hnew : (NewKeyFromAccount key (a.run key ops) c).2.1 = some id) :
    (a.run key ops).mapKeys id = none :=
  newKeyFromAccount_fresh key hinj (run_savedBelowCounter key h hops) hnew

/-- A key saved above the counter of its chain leaves that counter at most at
the key's index. -/
theorem saveKey_ahead_counter_le {a : CExtKeyAccount κ} {c n g : UInt32}
    (hs : (a.mapKeys (key c n)).isSome = false) (hn : IsHardened n = false)
    (hg : a.counter c = some g) (hlt : g.toNat < n.toNat) :
    ∃ g', (SaveKey key a (key c n) ⟨c, n⟩).2.counter c = some g' ∧ g'.toNat ≤ n.toNat := by
  rw [saveKey_counter, if_pos ⟨hs, hn, rfl⟩, hg, Option.map_some]
  exact ⟨_, rfl, savedCounter_le_of_lt key _ ((isHardened_eq_false_iff n).mp hn) hlt⟩

end CExtKeyAccount

/-! ## Keys seen out of order -/

open CExtKeyAccount

/-- Key ids as the pair of chain and index. -/
def pairKey (c n : UInt32) : UInt32 × UInt32 := (c, n)

/-- An account with one active chain that receives keys, before any key is
derived. -/
def newAccount : CExtKeyAccount (UInt32 × UInt32) :=
  ⟨fun _ => none, fun _ => none, [⟨0, 0, true, true⟩]⟩

/-- Two look-ahead keys are derived, and index 1 is seen on chain before index
0.  Saving index 1 rescans from the counter 0, finds index 0 unsaved and leaves
the counter at 0; saving index 0 then moves it to 1.  Both indices are saved,
the counter is 1, and `NewKeyFromAccount` succeeds with the key of index 1,
which is saved already. -/
theorem saveKey_out_of_order_reissues :
    Function.Injective2 pairKey ∧ newAccount.Disjoint ∧ SavedBelowCounter pairKey newAccount ∧
    let a := newAccount.run pairKey [.addLookAhead 0 2, .saveKey 0 1, .saveKey 0 0]
    (a.mapKeys (pairKey 0 0)).isSome ∧ (a.mapKeys (pairKey 0 1)).isSome ∧ a.counter 0 = some 1 ∧
      (NewKeyFromAccount pairKey a 0).1 = 0 ∧
      (NewKeyFromAccount pairKey a 0).2.1 = some (pairKey 0 1) := by
  refine ⟨fun _ _ _ _ h => Prod.mk.inj h, fun _ h => ?_, fun _ _ h => ?_, rfl, rfl, rfl, rfl, rfl⟩
  · -- nothing is saved yet
    cases h
  · cases h

theorem run_disjoint_newAccount :
    (newAccount.run pairKey [.addLookAhead 0 2, .saveKey 0 1, .saveKey 0 0]).Disjoint :=
  run_disjoint pairKey (fun _ h => by cases h) _

/-- Two look-ahead keys are derived and saved in order: the counter moves to 2,
and `NewKeyFromAccount` hands out index 2, which is not saved. -/
theorem run_newKeyFromAccount_fresh_inOrder :
    (newAccount.run pairKey [.addLookAhead 0 2, .saveKey 0 0, .saveKey 0 1]).mapKeys
      (pairKey 0 2) = none :=
  @run_newKeyFromAccount_fresh _ pairKey _ (fun _ _ _ _ h => Prod.mk.inj h) newAccount
    (fun _ _ h => by cases h) [.addLookAhead 0 2, .saveKey 0 0, .saveKey 0 1]
    ⟨trivial, fun _ _ _ => Nat.zero_le _, fun _ g hg => by
      obtain rfl : g = 1 := Option.some.inj (hg.symm.trans (show _ = some (1 : UInt32) from rfl))
      decide, trivial⟩
    0 (pairKey 0 2) rfl

/-- Index 2 is saved while the counter is 0: the rescan stops at index 0, which
is not saved, and leaves the counter at most at 2. -/
theorem saveKey_ahead_counter_le_newAccount :
    ∃ g', (SaveKey pairKey newAccount (pairKey 0 2) ⟨0, 2⟩).2.counter 0 = some g' ∧
      g'.toNat ≤ (2 : UInt32).toNat :=
  saveKey_ahead_counter_le pairKey rfl rfl rfl (by decide)

end Globe
