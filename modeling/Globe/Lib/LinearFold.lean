import Mathlib

/-!
# Folds of additive steps

A checksum kept by a linear feedback register (a CRC, or the remainder of a
BCH code) is a fold `xs.foldl f s` whose step is additive in the state and the
input together, `f (s + t) (x + y) = f s x + f t y`, over groups such as the
vectors of bits under exclusive or.  A state then splits off the fold, which
runs on over zeros (`foldl_add_zeros`).  Two consequences carry the proofs
about such checksums: the
contribution of a block of inputs is its fold from the zero state, added to
the fold over zeros in its place (`foldl_append_eq`); and when the step on a
zero input is injective and an input reaches the state injectively, changing
one input changes the result (`foldl_set_ne`), so the register detects every
single substitution.
-/

namespace LinearFold

open List

variable {S X : Type} [AddCommGroup S] [AddCommGroup X]

/-- `f` is additive in the state and the input together. -/
def Additive (f : S → X → S) : Prop := ∀ s t x y, f (s + t) (x + y) = f s x + f t y

variable {f : S → X → S} (hf : Additive f)
include hf

/-- A state is split off the fold, leaving it to run over zeros. -/
theorem foldl_add_zeros : ∀ (xs : List X) (s t : S),
    xs.foldl f (s + t) = xs.foldl f s + (replicate xs.length (0 : X)).foldl f t
  | [], _, _ => rfl
  | x :: xs, s, t => by
    have hstep : f (s + t) x = f s x + f t 0 := by simpa using hf s t x 0
    rw [foldl_cons, hstep, foldl_add_zeros xs, length_cons, replicate_succ]
    rfl

/-- A block of inputs adds its fold from zero to the fold over zeros in its place. -/
theorem foldl_append_eq (xs ys : List X) (s : S) :
    (xs ++ ys).foldl f s = (xs ++ replicate ys.length (0 : X)).foldl f s + ys.foldl f 0 := by
  rw [foldl_append, foldl_append]
  have h := foldl_add_zeros hf ys 0 (xs.foldl f s)
  rw [zero_add] at h
  rw [h, add_comm]

variable (hker : ∀ s, f s 0 = 0 → s = 0)
include hker

omit hf in
/-- A nonzero state stays nonzero over zeros when the zero-input step is injective. -/
theorem foldl_zeros_ne_zero : ∀ (n : ℕ) {t : S}, t ≠ 0 → (replicate n (0 : X)).foldl f t ≠ 0
  | 0, _, ht => ht
  | n + 1, t, ht => by
    rw [replicate_succ, foldl_cons]
    exact foldl_zeros_ne_zero n (fun h => ht (hker t h))

/-- Changing one input changes the fold, when an input reaches the state
injectively and the zero-input step is injective. -/
theorem foldl_set_ne (hin : ∀ x, f 0 x = 0 → x = 0) :
    ∀ (xs : List X) (s : S) {i : ℕ} {y : X} (hi : i < xs.length),
      y ≠ xs[i] → (xs.set i y).foldl f s ≠ xs.foldl f s
  | x :: xs, s, 0, y, _, hy => by
    -- the new input is the old one plus a difference that enters from the zero state
    have hstep : f s y = f s x + f 0 (y - x) := by simpa using hf s 0 x (y - x)
    have hdiff : f 0 (y - x) ≠ 0 := fun h => hy (sub_eq_zero.mp (hin _ h))
    rw [set_cons_zero, foldl_cons, foldl_cons, hstep, foldl_add_zeros hf]
    intro h
    exact foldl_zeros_ne_zero hker _ hdiff (add_eq_left.mp h)
  | x :: xs, s, i + 1, y, hi, hy => by
    rw [set_cons_succ, foldl_cons, foldl_cons]
    exact foldl_set_ne hin xs (f s x) (by simpa using hi) hy

end LinearFold
