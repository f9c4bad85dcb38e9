import Mathlib

/-!
# Undefined behaviour

C++ leaves some operations undefined: reading an element outside its
container, shifting an integer by its width or more, and a signed result that
does not fit its type.  A model of code that
can reach such an operation returns `Defined α`, which is `Except` over the
kind of undefined behaviour reached, so that a theorem can say the code never
reaches one, or exhibit an input on which it does.

`index` and `window` are the two reads: one element, and `len` consecutive
elements starting at an offset (what a `memcpy` or a cast of `&v[k]` to a
fixed-size object reads).
-/

namespace UB

/-- The undefined operations the modelled code can reach. -/
inductive Undefined where
  /-- An element read outside its container. -/
  | outOfBounds
  /-- A shift by the width of the shifted type or more. -/
  | shiftTooWide
  /-- A signed result outside its type, or a shift of a signed value that
  does not fit. -/
  | signedOverflow
  deriving DecidableEq, Repr

/-- A computation that may reach undefined behaviour. -/
abbrev Defined (α : Type) := Except Undefined α

/-- `a * b` in `int64_t`. -/
def mulInt64 (a b : Int) : Defined Int :=
  if -2 ^ 63 ≤ a * b ∧ a * b < 2 ^ 63 then .ok (a * b) else .error .signedOverflow

/-- A signed 64-bit result: `x` when it fits. -/
def int64Result (x : Int) : Defined Int :=
  if -2 ^ 63 ≤ x ∧ x < 2 ^ 63 then .ok x else .error .signedOverflow

/-- `a + b` in `int64_t`. -/
def addInt64 (a b : Int) : Defined Int := int64Result (a + b)

/-- `a - b` in `int64_t`. -/
def subInt64 (a b : Int) : Defined Int := int64Result (a - b)

/-- A signed 32-bit result: `x` when it fits an `int`. -/
def int32Result (x : Int) : Defined Int :=
  if -2 ^ 31 ≤ x ∧ x < 2 ^ 31 then .ok x else .error .signedOverflow

/-- `a + b` in `int`. -/
def addInt32 (a b : Int) : Defined Int := int32Result (a + b)

/-- `a << s` in `int` (C++17): undefined when `s` is 32 or more, when `a` is
negative, or when `a * 2 ^ s` does not fit 32 unsigned bits; otherwise that
value converted to `int`. -/
def shlInt32 (a : Int) (s : Nat) : Defined Int :=
  if 32 ≤ s then .error .shiftTooWide
  else if a < 0 ∨ 2 ^ 32 ≤ a * 2 ^ s then .error .signedOverflow
  else .ok (if a * 2 ^ s < 2 ^ 31 then a * 2 ^ s else a * 2 ^ s - 2 ^ 32)

variable {α : Type}

/-- `v[i]`. -/
def index (v : List α) (i : Nat) : Defined α :=
  match v[i]? with
  | some a => .ok a
  | none => .error .outOfBounds

/-- `v[i]` with an `int` index, undefined when it is negative. -/
def indexInt (v : List α) (i : Int) : Defined α :=
  if i < 0 then .error .outOfBounds else index v i.toNat

/-- The `len` elements of `v` from offset `ofs` on, read as one object. -/
def window (v : List α) (ofs len : Nat) : Defined (List α) :=
  if ofs + len ≤ v.length then .ok ((v.drop ofs).take len) else .error .outOfBounds

/-- A step that succeeded passes its value on. -/
@[simp] theorem ok_bind {ε β : Type} (a : α) (f : α → Except ε β) : (Except.ok a >>= f) = f a := rfl

/-- A chain of steps that succeeded began with a step that succeeded. -/
theorem bind_eq_ok {ε β : Type} {x : Except ε α} {f : α → Except ε β} {b : β}
    (h : (x >>= f) = .ok b) : ∃ a, x = .ok a ∧ f a = .ok b := by
  cases x with
  | error e => cases h
  | ok a => exact ⟨a, rfl, h⟩

/-- Mapping the error of a computation changes none of its results. -/
@[simp] theorem mapError_eq_ok {ε ε' β : Type} {x : Except ε β} {f : ε → ε'} {b : β} :
    x.mapError f = .ok b ↔ x = .ok b := by
  cases x <;> simp [Except.mapError]

theorem index_of_lt {v : List α} {i : Nat} (h : i < v.length) : index v i = .ok v[i] := by
  simp [index, List.getElem?_eq_getElem h]

theorem indexInt_of_lt {v : List α} {i : Nat} (h : i < v.length) : indexInt v i = .ok v[i] := by
  rw [indexInt, if_neg (by omega), Int.toNat_natCast, index_of_lt h]

theorem index_of_le {v : List α} {i : Nat} (h : v.length ≤ i) : index v i = .error .outOfBounds := by
  simp [index, List.getElem?_eq_none h]

theorem window_of_le {v : List α} {ofs len : Nat} (h : ofs + len ≤ v.length) :
    window v ofs len = .ok ((v.drop ofs).take len) := by
  simp [window, h]

theorem window_of_lt {v : List α} {ofs len : Nat} (h : v.length < ofs + len) :
    window v ofs len = .error .outOfBounds := by
  simp [window, Nat.not_le.mpr h]

/-! ## Reads from a concatenation -/

theorem index_append_left {a : List α} (b : List α) {i : Nat} (h : i < a.length) :
    index (a ++ b) i = index a i := by
  simp [index, List.getElem?_append_left h]

theorem index_append_right {a : List α} (b : List α) {i : Nat} (h : a.length ≤ i) :
    index (a ++ b) i = index b (i - a.length) := by
  simp only [index, List.getElem?_append_right h]

theorem window_append_left {a : List α} (b : List α) {ofs len : Nat} (h : ofs + len ≤ a.length) :
    window (a ++ b) ofs len = window a ofs len := by
  have hab : ofs + len ≤ (a ++ b).length := by simp; omega
  rw [window_of_le hab, window_of_le h, List.drop_append_of_le_length (by omega),
    List.take_append_of_le_length (by simp; omega)]

theorem window_append_right {a : List α} (b : List α) {ofs : Nat} (h : a.length ≤ ofs) (len : Nat) :
    window (a ++ b) ofs len = window b (ofs - a.length) len := by
  unfold window
  simp only [List.length_append, List.drop_append]
  by_cases hlen : ofs - a.length + len ≤ b.length
  · rw [if_pos (by omega), if_pos hlen, List.drop_eq_nil_of_le (by omega), List.nil_append]
  · rw [if_neg (by omega), if_neg hlen]

/-- An object written after `a` is read back at `a`'s length. -/
theorem window_middle (a x b : List α) {len : Nat} (h : x.length = len) :
    window (a ++ x ++ b) a.length len = .ok x := by
  rw [List.append_assoc, window_append_right _ (Nat.le_refl _), Nat.sub_self,
    window_of_le (by simp; omega), List.drop_zero, ← h, List.take_left]

/-- A loop whose every step is defined returns the values. -/
theorem mapM_eq_ok {ε β : Type} {f : α → Except ε β} {g : α → β} :
    ∀ {l : List α}, (∀ a ∈ l, f a = .ok (g a)) → l.mapM f = .ok (l.map g)
  | [], _ => rfl
  | a :: l, h => by
    rw [List.mapM_cons, h a List.mem_cons_self, mapM_eq_ok fun b hb => h b (List.mem_cons_of_mem a hb)]
    rfl

/-! ## Signed sums and products -/

theorem mulInt64_of_fits {a b : Int} (hlo : -2 ^ 63 ≤ a * b) (hhi : a * b < 2 ^ 63) :
    mulInt64 a b = .ok (a * b) :=
  if_pos ⟨hlo, hhi⟩

theorem mulInt64_of_le {a b : Int} (h : 2 ^ 63 ≤ a * b) : mulInt64 a b = .error .signedOverflow :=
  if_neg fun hfit => absurd hfit.2 (Int.not_lt.mpr h)

theorem eq_of_mulInt64_eq_ok {a b r : Int} (h : mulInt64 a b = .ok r) : r = a * b := by
  unfold mulInt64 at h
  split at h
  · exact (Except.ok.inj h).symm
  · cases h

/-- A signed result that is defined is the exact one. -/
theorem eq_of_int64Result_eq_ok {x r : Int} (h : int64Result x = .ok r) : r = x := by
  unfold int64Result at h
  split at h
  · exact (Except.ok.inj h).symm
  · cases h

theorem addInt32_of_fits {a b : Int} (hlo : -2 ^ 31 ≤ a + b) (hhi : a + b < 2 ^ 31) :
    addInt32 a b = .ok (a + b) :=
  if_pos ⟨hlo, hhi⟩

theorem shlInt32_of_lt {a : Int} {s : Nat} (hs : s < 32) (ha : 0 ≤ a) (hfit : a * 2 ^ s < 2 ^ 31) :
    shlInt32 a s = .ok (a * 2 ^ s) := by
  have hfit' : ¬(a < 0 ∨ 2 ^ 32 ≤ a * 2 ^ s) := by omega
  rw [shlInt32, if_neg (by omega), if_neg hfit', if_pos hfit]

theorem mulInt64_bind_of_error {β : Type} (a b : Int) {f : Int → Defined β}
    (h : ∀ r, f r = .error .signedOverflow) : (mulInt64 a b >>= f) = .error .signedOverflow := by
  unfold mulInt64
  split
  · exact h _
  · rfl

end UB
