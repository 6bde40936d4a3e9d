import StyleValue.Text.Quoted

/-! # Quoted texts can be told apart

Each character is written between quotes as itself, as a backslash and a letter, or as a backslash,
a letter and digits whose number the letter decides. So no two characters are written alike, none is
written as the beginning of another, and a quoted text determines the text. -/

namespace StyleValue.Text

@[simp] theorem hexDigits_length (width n : Nat) : (hexDigits width n).length = width := by
  induction width generalizing n with
  | zero => rfl
  | succ width ih => rw [hexDigits, List.length_append, ih, List.length_singleton]

theorem digitChar_inj {m n : Nat} (hm : m < 16) (hn : n < 16)
    (h : Nat.digitChar m = Nat.digitChar n) : m = n := by
  have hall : ∀ a b : Fin 16, Nat.digitChar a = Nat.digitChar b → a = b := by decide
  exact congrArg Fin.val (hall ⟨m, hm⟩ ⟨n, hn⟩ h)

theorem hexDigits_inj {width m n : Nat} (hm : m < 16 ^ width) (hn : n < 16 ^ width)
    (h : hexDigits width m = hexDigits width n) : m = n := by
  induction width generalizing m n with
  | zero => omega
  | succ width ih =>
    obtain ⟨hhigh, hlow⟩ := List.append_inj' h rfl
    rw [Nat.pow_succ'] at hm hn
    have hdiv : m / 16 = n / 16 :=
      ih (Nat.div_lt_of_lt_mul hm) (Nat.div_lt_of_lt_mul hn) hhigh
    have hmod : m % 16 = n % 16 :=
      digitChar_inj (by omega) (by omega) (List.singleton_inj.mp hlow)
    omega

/-- The letters behind a backslash that stand for a character, with the quote that is escaped. -/
def letters (quote : Char) : List (Char × Char) :=
  [(quote, quote), ('\\', '\\'), ('n', '\n'), ('r', '\r'), ('t', '\t')]

/-- The letters behind a backslash that announce digits, with their number. -/
def widths : List (Char × Nat) := [('x', 2), ('u', 4), ('U', 8)]

inductive Escape (quote c : Char) : Text → Prop where
  | plain : c ≠ '\\' → Escape quote c [c]
  | letter {letter} : (letter, c) ∈ letters quote → Escape quote c ['\\', letter]
  | code {letter width} : (letter, width) ∈ widths → c.toNat < 16 ^ width →
      Escape quote c ('\\' :: letter :: hexDigits width c.toNat)

theorem escape_escapeCode (quote c : Char) : Escape quote c (escapeCode c) := by
  unfold escapeCode
  split
  · next h => exact .code (show ('x', 2) ∈ widths by decide) h
  · split
    · next h => exact .code (show ('u', 4) ∈ widths by decide) h
    · exact .code (show ('U', 8) ∈ widths by decide) c.val.toNat_lt

theorem escape_escapeChar (quote c : Char) : Escape quote c (escapeChar quote c) := by
  unfold escapeChar
  split
  · next h => rcases h with rfl | rfl <;> exact .letter (by simp [letters])
  · next h =>
    split
    · next h => exact h ▸ .letter (by simp [letters])
    · split
      · next h => exact h ▸ .letter (by simp [letters])
      · split
        · next h => exact h ▸ .letter (by simp [letters])
        · split
          · exact .plain fun hc => h (.inr hc)
          · exact escape_escapeCode quote c

theorem Escape.ne_nil {quote c : Char} {s : Text} (h : Escape quote c s) : s ≠ [] := by
  cases h <;> exact List.cons_ne_nil _ _

variable {quote c d : Char} {x y s t : Text}

/-- A text that begins with a written character begins with no other one. -/
theorem Escape.unique (hq : quote = '\'' ∨ quote = '"') (hx : Escape quote c x)
    (hy : Escape quote d y) (h : x ++ s = y ++ t) : c = d ∧ s = t := by
  -- Both tables have distinct letters, and no letter stands in both.
  have hletters : ∀ one ∈ letters quote, ∀ other ∈ letters quote, one.1 = other.1 →
      one = other := by
    rcases hq with rfl | rfl <;> decide
  have hwidths : ∀ one ∈ widths, ∀ other ∈ widths, one.1 = other.1 → one = other := by decide
  have hapart : ∀ one ∈ letters quote, ∀ other ∈ widths, one.1 ≠ other.1 := by
    rcases hq with rfl | rfl <;> decide
  cases hx with
  | plain hc =>
    cases hy with
    | plain _ => exact List.cons_eq_cons.mp h
    | letter _ | code _ _ => exact (hc (List.cons_eq_cons.mp h).1).elim
  | letter hl =>
    cases hy with
    | plain hd => exact (hd (List.cons_eq_cons.mp h).1.symm).elim
    | letter hm =>
      obtain ⟨hletter, hrest⟩ := List.cons_eq_cons.mp (List.cons_eq_cons.mp h).2
      exact ⟨congrArg Prod.snd (hletters _ hl _ hm hletter), hrest⟩
    | code hm _ =>
      obtain ⟨hletter, -⟩ := List.cons_eq_cons.mp (List.cons_eq_cons.mp h).2
      exact (hapart _ hl _ hm hletter).elim
  | code hl hc =>
    cases hy with
    | plain hd => exact (hd (List.cons_eq_cons.mp h).1.symm).elim
    | letter hm =>
      obtain ⟨hletter, -⟩ := List.cons_eq_cons.mp (List.cons_eq_cons.mp h).2
      exact (hapart _ hm _ hl hletter.symm).elim
    | code hm hd =>
      obtain ⟨hletter, hrest⟩ := List.cons_eq_cons.mp (List.cons_eq_cons.mp h).2
      cases hwidths _ hl _ hm hletter
      obtain ⟨hdigits, htail⟩ := List.append_inj hrest (by simp only [hexDigits_length])
      exact ⟨Char.toNat_inj.mp (hexDigits_inj hc hd hdigits), htail⟩

theorem flatMap_escapeChar_inj (hq : quote = '\'' ∨ quote = '"')
    (h : s.flatMap (escapeChar quote) = t.flatMap (escapeChar quote)) : s = t := by
  induction s generalizing t with
  | nil =>
    cases t with
    | nil => rfl
    | cons d t =>
      exact ((escape_escapeChar quote d).ne_nil (List.append_eq_nil_iff.mp h.symm).1).elim
  | cons c s ih =>
    cases t with
    | nil => exact ((escape_escapeChar quote c).ne_nil (List.append_eq_nil_iff.mp h).1).elim
    | cons d t =>
      obtain ⟨rfl, hrest⟩ := (escape_escapeChar quote c).unique hq (escape_escapeChar quote d) h
      rw [ih hrest]

theorem enclosingQuote_cases (s : Text) : s.enclosingQuote = '\'' ∨ s.enclosingQuote = '"' := by
  unfold enclosingQuote
  split
  · exact .inr rfl
  · exact .inl rfl

theorem quoted_inj : s.quoted = t.quoted ↔ s = t := by
  refine ⟨fun h => ?_, congrArg quoted⟩
  obtain ⟨hquote, hrest⟩ := List.cons_eq_cons.mp h
  rw [← hquote] at hrest
  exact flatMap_escapeChar_inj s.enclosingQuote_cases (List.append_cancel_right hrest)

end StyleValue.Text
