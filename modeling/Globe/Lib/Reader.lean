import Globe.Lib.Bytes

/-!
# Byte readers

A reader consumes a prefix of a byte string and returns a value together with
what is left of the string, or fails with a message.  Decoders are written as
`do` blocks in this monad, which is `StateT` over `Except`, and their round
trips are stated with `ReadsBack`: a reader reads back a writer when, for every
admissible value and whatever bytes follow, it returns that value and leaves
exactly the bytes that follow.

The lemmas are the composition rules the round-trip proofs use: one step of a
`bind` whose first reader succeeds, a fixed-length read, a single byte, and a
counted repetition.  Nothing here is specific to any wire format.
-/

namespace ByteCodec

/-- A reader over byte strings whose failures carry a message. -/
abbrev Reader (α : Type) := StateT Bytes (Except String) α

namespace Reader

variable {α β : Type}

/-- Fail with `msg`, consuming nothing. -/
def fail (msg : String) : Reader α := fun _ => .error msg

/-- One byte; `eof` is the message when the input is exhausted. -/
def byte (eof : String) : Reader UInt8 := fun s =>
  match s with
  | [] => .error eof
  | b :: rest => .ok (b, rest)

/-- The next `n` bytes, or the message `eof` when fewer remain. -/
def take (eof : String) (n : Nat) : Reader Bytes := fun s =>
  if n ≤ s.length then .ok (s.take n, s.drop n) else .error eof

/-- The next `n` bytes as a `Blob n`. -/
def blob (eof : String) (n : Nat) : Reader (Blob n) := fun s =>
  if h : n ≤ s.length then .ok (⟨s.take n, by simp [h]⟩, s.drop n) else .error eof

/-- `n` values read one after the other. -/
def count (r : Reader α) : Nat → Reader (List α)
  | 0 => pure []
  | n + 1 => do
    let a ← r
    let as ← count r n
    pure (a :: as)

/-! ## Running a reader -/

theorem run_pure (a : α) (s : Bytes) : (pure a : Reader α).run s = .ok (a, s) := rfl

theorem run_fail (msg : String) (s : Bytes) : (fail msg : Reader α).run s = .error msg := rfl

/-- A `bind` whose first reader succeeds continues from where that reader
stopped.  Every round-trip proof is a chain of these steps. -/
theorem run_bind_ok {x : Reader α} {f : α → Reader β} {s s' : Bytes} {a : α}
    (h : x.run s = .ok (a, s')) : (x >>= f).run s = (f a).run s' := by
  rw [StateT.run_bind, h]
  rfl

/-- A `bind` whose first reader fails fails with the same message. -/
theorem run_bind_error {x : Reader α} {f : α → Reader β} {s : Bytes} {msg : String}
    (h : x.run s = .error msg) : (x >>= f).run s = .error msg := by
  rw [StateT.run_bind, h]
  rfl

theorem run_byte_cons (eof : String) (b : UInt8) (rest : Bytes) :
    (byte eof).run (b :: rest) = .ok (b, rest) := rfl

theorem run_byte_nil (eof : String) : (byte eof).run [] = .error eof := rfl

theorem run_take_append (eof : String) {u : Bytes} (rest : Bytes) :
    (take eof u.length).run (u ++ rest) = .ok (u, rest) := by
  show (if u.length ≤ (u ++ rest).length then _ else _) = _
  rw [if_pos (by simp)]
  simp

theorem run_take_of_lt (eof : String) {n : Nat} {s : Bytes} (h : s.length < n) :
    (take eof n).run s = .error eof := by
  show (if n ≤ s.length then _ else _) = _
  rw [if_neg (by omega)]

end Reader

/-! ## Reading back what was written -/

/-- `r` reads back `w` on the values satisfying `P`: from the encoding of such
a value followed by any bytes, it returns the value and leaves those bytes. -/
def ReadsBack {α : Type} (w : α → Bytes) (r : Reader α) (P : α → Prop) : Prop :=
  ∀ a rest, P a → r.run (w a ++ rest) = .ok (a, rest)

namespace ReadsBack

variable {α β : Type}

theorem byte (eof : String) : ReadsBack (fun b => [b]) (Reader.byte eof) (fun _ => True) :=
  fun _ _ _ => rfl

theorem take (eof : String) (n : Nat) :
    ReadsBack id (Reader.take eof n) (fun u => u.length = n) := by
  intro u rest hu
  subst hu
  exact Reader.run_take_append eof rest

theorem blob (eof : String) (n : Nat) :
    ReadsBack (fun b : Blob n => b.bytes) (Reader.blob eof n) (fun _ => True) := by
  rintro ⟨u, hu⟩ rest -
  subst hu
  show (if h : u.length ≤ (u ++ rest).length then _ else _) = _
  rw [dif_pos (by simp)]
  simp

/-- Reading back is kept by weakening the admissible values. -/
theorem mono {w : α → Bytes} {r : Reader α} {P Q : α → Prop} (h : ReadsBack w r P)
    (hQ : ∀ a, Q a → P a) : ReadsBack w r Q :=
  fun a rest ha => h a rest (hQ a ha)

/-- A reader followed by a pure function reads back a writer that goes
through the inverse of that function. -/
theorem map {w : α → Bytes} {r : Reader α} {P : α → Prop} (h : ReadsBack w r P)
    (f : α → β) (g : β → α) (hfg : ∀ b, f (g b) = b) :
    ReadsBack (fun b => w (g b)) (f <$> r) (fun b => P (g b)) := by
  intro b rest hb
  have hr := h (g b) rest hb
  show (r >>= fun a => pure (f a)).run _ = _
  rw [Reader.run_bind_ok hr, hfg b]
  rfl

/-- `count n r` reads back the concatenated encodings of a list of `n`
admissible values. -/
theorem count {w : α → Bytes} {r : Reader α} {P : α → Prop} (h : ReadsBack w r P) (n : Nat) :
    ReadsBack (fun as => as.flatMap w) (Reader.count r n)
      (fun as => as.length = n ∧ ∀ a ∈ as, P a) := by
  induction n with
  | zero =>
    rintro as rest ⟨hlen, -⟩
    rw [List.length_eq_zero_iff.mp hlen]
    rfl
  | succ n ih =>
    rintro as rest ⟨hlen, hP⟩
    obtain ⟨a, as', rfl⟩ : ∃ a as', as = a :: as' := List.exists_cons_of_length_eq_add_one hlen
    have hrest := ih as' rest ⟨by simpa using hlen, fun x hx => hP x (by simp [hx])⟩
    show (Reader.count r (n + 1)).run ((a :: as').flatMap w ++ rest) = _
    rw [List.flatMap_cons, List.append_assoc]
    show (r >>= fun a => Reader.count r n >>= fun as => pure (a :: as)).run _ = _
    rw [Reader.run_bind_ok (h a _ (hP a (by simp))), Reader.run_bind_ok hrest]
    rfl

/-- A list preceded by its length reads back through a reader of the length
followed by `count`. -/
theorem prefixed {wl : Nat → Bytes} {rl : Reader Nat} {Pl : Nat → Prop}
    {w : α → Bytes} {r : Reader α} {P : α → Prop}
    (hl : ReadsBack wl rl Pl) (h : ReadsBack w r P) :
    ReadsBack (fun as => wl as.length ++ as.flatMap w) (rl >>= Reader.count r)
      (fun as => Pl as.length ∧ ∀ a ∈ as, P a) := by
  rintro as rest ⟨hlen, hP⟩
  rw [List.append_assoc, Reader.run_bind_ok (hl as.length _ hlen)]
  exact count h as.length as rest ⟨rfl, hP⟩

end ReadsBack

end ByteCodec
