import Mathlib

/-!
# Tokens of a C string

`strtok_r` with one delimiter, called until it returns null, cuts the C
string in its buffer (the text up to the first NUL) at every delimiter and
returns the non-empty pieces.  Texts built by joining non-empty tokens with
the delimiter are cut back into those tokens (`strtok_intercalate`), and such
a text has no two delimiters next to each other (`isChain_sep_intercalate`),
which is what a check for a doubled delimiter looks for.
-/

namespace CString

variable {α : Type}

theorem mem_intercalate_singleton {sep x : α} {ts : List (List α)}
    (hx : x ∈ [sep].intercalate ts) : x = sep ∨ ∃ t ∈ ts, x ∈ t := by
  induction ts with
  | nil => simp at hx
  | cons t ts ih =>
    cases ts with
    | nil => exact Or.inr ⟨t, by simp, by simpa using hx⟩
    | cons t' ts =>
      rw [List.intercalate_cons_cons] at hx
      simp only [List.mem_append, List.mem_singleton] at hx
      rcases hx with (hx | hx) | hx
      · exact Or.inr ⟨t, by simp, hx⟩
      · exact Or.inl hx
      · rcases ih hx with h | ⟨u, hu, hxu⟩
        · exact Or.inl h
        · exact Or.inr ⟨u, List.mem_cons_of_mem t hu, hxu⟩

section Strtok

variable [DecidableEq α]

/-- `strtok_r(s, sep, ...)` until it returns null, over the C string in `s`. -/
def strtok (nul sep : α) (s : List α) : List (List α) :=
  ((s.takeWhile (· ≠ nul)).splitOn sep).filter (· ≠ [])

/-- Tokens with no delimiter and no NUL, joined by the delimiter, are cut
back into themselves. -/
theorem strtok_intercalate {nul sep : α} (hsep : sep ≠ nul) {ts : List (List α)}
    (hts : ∀ t ∈ ts, t ≠ [] ∧ sep ∉ t ∧ nul ∉ t) (hne : ts ≠ []) :
    strtok nul sep ([sep].intercalate ts) = ts := by
  have hnul : ([sep].intercalate ts).takeWhile (· ≠ nul) = [sep].intercalate ts := by
    rw [List.takeWhile_eq_self_iff]
    intro x hx
    rcases mem_intercalate_singleton hx with h | ⟨t, ht, hxt⟩
    · simp [h, hsep]
    · exact decide_eq_true fun h => (hts t ht).2.2 (h ▸ hxt)
  rw [strtok, hnul, List.splitOn_intercalate _ (fun t ht => (hts t ht).2.1) hne]
  exact List.filter_eq_self.mpr fun t ht => by simpa using (hts t ht).1

/-- A leading delimiter gives no token. -/
theorem strtok_cons_sep {nul sep : α} (hsep : sep ≠ nul) (s : List α) :
    strtok nul sep (sep :: s) = strtok nul sep s := by
  rw [strtok, strtok, List.takeWhile_cons_of_pos (by simpa using hsep), List.splitOn,
    List.splitOnP_cons_eq_if_modifyHead, if_pos (by simp), List.filter_cons_of_neg (by simp)]
  rfl

end Strtok

/-! ## Doubled delimiters -/

/-- A delimiter, a token and a text that starts a chain: the token has no delimiter. -/
theorem isChain_sep_token_append {sep : α} {t rest : List α} (ht : t ≠ [] ∧ sep ∉ t)
    (hrest : rest.IsChain (fun a b => ¬(a = sep ∧ b = sep))) :
    (sep :: t ++ rest).IsChain (fun a b => ¬(a = sep ∧ b = sep)) := by
  obtain ⟨c, t', rfl⟩ := List.exists_cons_of_ne_nil ht.1
  have hnot : ∀ x ∈ c :: t', x ≠ sep := fun x hx hx' => ht.2 (hx' ▸ hx)
  have htok : (c :: t').IsChain (fun a b => ¬(a = sep ∧ b = sep)) :=
    List.Pairwise.isChain (List.pairwise_of_forall_mem_list fun a ha _ _ h => hnot a ha h.1)
  refine List.isChain_append.mpr ⟨?_, hrest, ?_⟩
  · exact List.IsChain.cons htok (fun y hy h => hnot y (by simp_all) h.2)
  · intro x hx _ _ h
    rw [List.getLast?_cons_cons] at hx
    exact hnot x (List.mem_of_mem_getLast? hx) h.1

/-- Tokens joined by the delimiter, between two more delimiters, have no two
delimiters next to each other. -/
theorem isChain_sep_intercalate {sep : α} {ts : List (List α)}
    (hts : ∀ t ∈ ts, t ≠ [] ∧ sep ∉ t) (hne : ts ≠ []) :
    (sep :: [sep].intercalate ts ++ [sep]).IsChain (fun a b => ¬(a = sep ∧ b = sep)) := by
  induction ts with
  | nil => exact absurd rfl hne
  | cons t ts ih =>
    have ht := hts t List.mem_cons_self
    cases ts with
    | nil =>
      have hend : ([sep] : List α).IsChain (fun a b => ¬(a = sep ∧ b = sep)) := .singleton _
      simpa using isChain_sep_token_append ht hend
    | cons t' ts =>
      have hrest := ih (fun u hu => hts u (List.mem_cons_of_mem t hu)) (by simp)
      rw [List.intercalate_cons_cons]
      simpa using isChain_sep_token_append ht hrest

/-- A text with no two delimiters next to each other does not contain a doubled one. -/
theorem not_infix_of_isChain {sep : α} {l : List α}
    (hl : l.IsChain (fun a b => ¬(a = sep ∧ b = sep))) : ¬[sep, sep] <:+: l := by
  intro h
  have h2 := List.IsChain.infix hl h
  simp at h2

/-! ## Joined texts -/

theorem head?_intercalate_cons (sep : List α) {w : List α} (hw : w ≠ []) (ws : List (List α)) :
    (sep.intercalate (w :: ws)).head? = w.head? := by
  obtain ⟨c, t, rfl⟩ := List.exists_cons_of_ne_nil hw
  cases ws with
  | nil => simp
  | cons w' ws => rw [List.intercalate_cons_cons]; rfl

theorem intercalate_cons_ne_nil (sep : List α) {w : List α} (hw : w ≠ []) (ws : List (List α)) :
    sep.intercalate (w :: ws) ≠ [] := by
  intro h
  have hhead := head?_intercalate_cons sep hw ws
  rw [h, List.head?_nil, eq_comm, List.head?_eq_none_iff] at hhead
  exact hw hhead

theorem mem_getLast?_intercalate {sep : List α} {ws : List (List α)} (hws : ∀ w ∈ ws, w ≠ [])
    {c : α} (hc : c ∈ (sep.intercalate ws).getLast?) : ∃ w ∈ ws, c ∈ w := by
  induction ws with
  | nil => simp at hc
  | cons w ws ih =>
    cases ws with
    | nil => exact ⟨w, by simp, List.mem_of_mem_getLast? (by simpa using hc)⟩
    | cons w' ws =>
      -- the last element comes from the joined rest, which is not empty
      have hne := intercalate_cons_ne_nil sep (hws w' (by simp)) ws
      obtain ⟨d, hd⟩ := Option.isSome_iff_exists.mp (List.getLast?_isSome.mpr hne)
      rw [List.intercalate_cons_cons, List.getLast?_append, hd, Option.some_or] at hc
      have hrest : c ∈ (sep.intercalate (w' :: ws)).getLast? := by rw [hd]; exact hc
      obtain ⟨u, hu, hcu⟩ := ih (fun u hu => hws u (List.mem_cons_of_mem w hu)) hrest
      exact ⟨u, List.mem_cons_of_mem w hu, hcu⟩

theorem length_intercalate_le (sep : α) {b : Nat} {ws : List (List α)}
    (hb : ∀ w ∈ ws, w.length ≤ b) : ([sep].intercalate ws).length ≤ (b + 1) * ws.length := by
  induction ws with
  | nil => simp
  | cons w ws ih =>
    have hw := hb w List.mem_cons_self
    have ih := ih fun u hu => hb u (List.mem_cons_of_mem w hu)
    cases ws with
    | nil => simp; omega
    | cons w' ws =>
      rw [List.intercalate_cons_cons]
      simp only [List.length_append, List.length_cons, List.length_nil] at ih ⊢
      rw [Nat.mul_succ (b + 1) (ws.length + 1)]
      omega

theorem le_length_intercalate (sep : α) {b : Nat} {ws : List (List α)}
    (hb : ∀ w ∈ ws, b ≤ w.length) : (b + 1) * ws.length ≤ ([sep].intercalate ws).length + 1 := by
  induction ws with
  | nil => simp
  | cons w ws ih =>
    have hw := hb w List.mem_cons_self
    have ih := ih fun u hu => hb u (List.mem_cons_of_mem w hu)
    cases ws with
    | nil => simp; omega
    | cons w' ws =>
      rw [List.intercalate_cons_cons]
      simp only [List.length_append, List.length_cons, List.length_nil] at ih ⊢
      rw [Nat.mul_succ (b + 1) (ws.length + 1)]
      omega

theorem flatMap_intercalate {β : Type} (sep : List α) (g : α → List β) (ws : List (List α)) :
    (sep.intercalate ws).flatMap g = (sep.flatMap g).intercalate (ws.map (·.flatMap g)) := by
  induction ws with
  | nil => simp
  | cons w ws ih =>
    cases ws with
    | nil => simp
    | cons w' ws =>
      rw [List.intercalate_cons_cons, List.map_cons, List.map_cons, List.intercalate_cons_cons,
        List.flatMap_append, List.flatMap_append, ih, List.map_cons]

theorem length_intercalate_mono {sep₁ sep₂ : List α} (h : sep₁.length ≤ sep₂.length)
    (ws : List (List α)) : (sep₁.intercalate ws).length ≤ (sep₂.intercalate ws).length := by
  induction ws with
  | nil => simp
  | cons w ws ih =>
    cases ws with
    | nil => simp
    | cons w' ws =>
      rw [List.intercalate_cons_cons, List.intercalate_cons_cons]
      simp only [List.length_append] at ih ⊢
      omega

end CString
