import StyleValue.Proofs.Taking

/-! # Texts that no token begins

The rules fail exactly at a keyword without a group after it. They find nothing exactly where
the first character begins no lexeme, or begins one that the text does not complete. So no lexeme
begins with a blank or a paren, and only the operator begins with a slash. -/

namespace StyleValue

/-- A keyword stands at the beginning of `s` with `rest` after it, which begins with no group. -/
structure Ungrouped (s keyword rest : Text) : Prop where
  mem : keyword ∈ keywords.map Prod.fst
  text_eq : s = keyword ++ rest
  no_group : ∀ group, Group.Balanced group → ¬ group <+: rest

theorem Ungrouped.ne_nil {s keyword rest : Text} (h : Ungrouped s keyword rest) : s ≠ [] := by
  obtain ⟨hm, rfl, -⟩ := h
  have hall : ∀ k ∈ keywords.map Prod.fst, k ≠ [] := by decide
  simp [hall keyword hm]

/-- Why no lexeme begins with `c` before the text `s`. -/
structure Unreadable (c : Char) (s : Text) : Prop where
  not_slash : c ≠ '/'
  not_comma : c ≠ ','
  not_ident : isIdentChar c = false
  reason : ((c = '\'' ∨ c = '"') ∧ c ∉ s) ∨
    ((c = '+' ∨ c = '.') ∧ s.begins Char.isDigit = false) ∨
    (c ≠ '\'' ∧ c ≠ '"' ∧ c ≠ '+' ∧ c ≠ '.')

namespace Rule

theorem first_keyword_error {keyword : Text} {kind : FunctionKind} {s : Text} {e : Malformed}
    (hm : (keyword, kind) ∈ keywords) (h : Recognizer.nested keyword kind s = .error e) :
    first trialOrder s = .error e := by
  obtain ⟨t, rfl, -⟩ := Recognizer.nested_eq_error_iff.mp h
  obtain ⟨rule, hrule, hnested, hbefore⟩ := exists_of_keyword hm
  exact (first_eq_iff (by simp)).mpr ⟨rule, hrule, hnested ▸ h, hbefore t⟩

theorem keyword_of_error {rule : Rule} {s : Text} {e : Malformed}
    (h : rule.recognize s = .error e) :
    ∃ k ∈ keywords, Recognizer.nested k.1 k.2 s = .error e := by
  match rule, h with
  | .gradient, h => exact ⟨("linear-gradient".toList, .gradient), by decide, h⟩
  | .calc, h => exact ⟨("calc".toList, .calc), by decide, h⟩
  | .variable, h => exact ⟨("var".toList, .variable), by decide, h⟩
  | .number, h =>
    rcases (Recognizer.first_pair_eq_iff (by simp)).mp h with h | ⟨-, h⟩
    · exact (Recognizer.ofReader_ne_error h).elim
    · exact (Recognizer.ofReader_ne_error h).elim
  | .string, h =>
    rcases (Recognizer.first_pair_eq_iff (by simp)).mp h with h | ⟨-, h⟩
    · exact (Recognizer.ofReader_ne_error h).elim
    · exact (Recognizer.ofReader_ne_error h).elim
  | .operator, h | .comma, h | .ident, h | .fraction, h | .integer, h | .single, h | .double, h
  | .color, h | .url, h => exact (Recognizer.ofReader_ne_error h).elim

theorem first_eq_error_iff {s : Text} {e : Malformed} :
    first trialOrder s = .error e ↔
      ∃ keyword rest, Ungrouped s keyword rest ∧ e = ⟨Group.faultOf rest, keyword.length⟩ := by
  constructor
  · intro h
    obtain ⟨rule, -, hr, -⟩ := (first_eq_iff (by simp)).mp h
    obtain ⟨k, hk, hn⟩ := keyword_of_error hr
    obtain ⟨t, rfl, hg, rfl⟩ := Recognizer.nested_eq_error_iff.mp hn
    exact ⟨k.1, t, ⟨List.mem_map_of_mem hk, rfl, hg⟩, rfl⟩
  · intro h
    obtain ⟨keyword, rest, ⟨hk, rfl, hg⟩, rfl⟩ := h
    obtain ⟨k, hmem, rfl⟩ := List.mem_map.mp hk
    exact first_keyword_error hmem (Recognizer.nested_eq_error_iff.mpr ⟨rest, rfl, hg, rfl⟩)

theorem mark_pass_iff {c d : Char} {body : Body} {s : Text} :
    Recognizer.ofReader (Reader.mark d body) (c :: s) = .ok none ↔ c ≠ d := by
  rw [Recognizer.ofReader_eq_none_iff, Reader.mark]
  by_cases h : c = d
  · simp [h]
  · simp [h]

theorem string_pass_iff {c quote : Char} {s : Text} :
    Recognizer.ofReader (Reader.string quote) (c :: s) = .ok none ↔ (c = quote → quote ∉ s) := by
  rw [Recognizer.ofReader_eq_none_iff, Option.eq_none_iff_forall_ne_some]
  constructor
  · rintro h rfl hmem
    obtain ⟨value, rest, rfl, hv⟩ := List.eq_append_cons_of_mem hmem
    exact h _ (Reader.string_eq_some_iff.mpr ⟨value, rfl, hv, rfl⟩)
  · rintro h ⟨b, rest⟩ hr
    obtain ⟨value, -, -, he⟩ := Reader.string_eq_some_iff.mp hr
    obtain ⟨rfl, rfl⟩ := List.cons.inj he
    exact h rfl (by simp)

theorem ident_pass_iff {c : Char} {s : Text} :
    Rule.ident.recognize (c :: s) = .ok none ↔ isIdentChar c = false := by
  rw [recognize, Recognizer.ofReader_eq_none_iff, Reader.ident]
  by_cases h : isIdentChar c
  · simp [h]
  · simp [h]

theorem call_pass_of_not_ident {rule : Rule} {c : Char} {s : Text} (h : isIdentChar c = false)
    (hm : rule ∈ [Rule.color, .gradient, .calc, .url, .variable]) :
    rule.recognize (c :: s) = .ok none := by
  apply recognize_pass
  have hstarts : ∀ r ∈ [Rule.color, .gradient, .calc, .url, .variable],
      r.starts c = true → isIdentChar c = true := by
    simp only [List.forall_mem_cons, List.not_mem_nil, false_implies, implies_true, and_true,
      starts, decide_eq_true_eq]
    refine ⟨?_, ?_, ?_, ?_, ?_⟩
    all_goals
      intro heq
      subst heq
      decide
  have hn : ¬ rule.starts c = true := fun hs => by
    rw [hstarts rule hm hs] at h
    cases h
  simpa using hn

theorem number_pass_iff {c : Char} {s : Text} (h : isIdentChar c = false) :
    Rule.number.recognize (c :: s) = .ok none ↔
      ((c = '+' ∨ c = '.') → s.begins Char.isDigit = false) := by
  have hdigit : c.isDigit = false := by
    by_contra hd
    rw [isIdentChar_of_isDigit (by simpa using hd)] at h
    cases h
  have hminus : c ≠ '-' := by
    intro heq
    subst heq
    exact absurd h (by decide)
  rw [number_eq_none_iff, Numeral.reads_cons_iff]
  simp [hdigit, hminus]

theorem unreadable_of_pass {c : Char} {s : Text} (h : first trialOrder (c :: s) = .ok none) :
    Unreadable c s := by
  have hall := first_eq_none_iff.mp h
  have hident := ident_pass_iff.mp (hall .ident (by decide))
  have hnumber := (number_pass_iff hident).mp (hall .number (by decide))
  have hstring := Recognizer.first_pair_eq_none_iff.mp (hall .string (by decide))
  rw [string_pass_iff, string_pass_iff] at hstring
  refine ⟨mark_pass_iff.mp (hall .operator (by decide)),
    mark_pass_iff.mp (hall .comma (by decide)), hident, ?_⟩
  by_cases hquote : c = '\'' ∨ c = '"'
  · rcases hquote with rfl | rfl
    · exact Or.inl ⟨Or.inl rfl, hstring.1 rfl⟩
    · exact Or.inl ⟨Or.inr rfl, hstring.2 rfl⟩
  by_cases hsign : c = '+' ∨ c = '.'
  · exact Or.inr (Or.inl ⟨hsign, hnumber hsign⟩)
  · exact Or.inr (Or.inr ⟨fun h => hquote (Or.inl h), fun h => hquote (Or.inr h),
      fun h => hsign (Or.inl h), fun h => hsign (Or.inr h)⟩)

theorem pass_of_unreadable {c : Char} {s : Text} (h : Unreadable c s) :
    first trialOrder (c :: s) = .ok none := by
  obtain ⟨hslash, hcomma, hident, hreason⟩ := h
  have hsign : (c = '+' ∨ c = '.') → s.begins Char.isDigit = false := by
    intro hs
    rcases hreason with ⟨hq, -⟩ | ⟨-, hd⟩ | ⟨-, -, hp, hd⟩
    · rcases hs with rfl | rfl
      · exact absurd hq (by decide)
      · exact absurd hq (by decide)
    · exact hd
    · exact (hs.elim hp hd).elim
  have hquote : (c = '\'' ∨ c = '"') → c ∉ s := by
    intro hq
    rcases hreason with ⟨-, hc⟩ | ⟨hs, -⟩ | ⟨hn, hn', -, -⟩
    · exact hc
    · rcases hq with rfl | rfl
      · exact absurd hs (by decide)
      · exact absurd hs (by decide)
    · exact (hq.elim hn hn').elim
  refine first_eq_none_iff.mpr fun rule hm => ?_
  match rule, hm with
  | .operator, _ => exact mark_pass_iff.mpr hslash
  | .comma, _ => exact mark_pass_iff.mpr hcomma
  | .ident, _ => exact ident_pass_iff.mpr hident
  | .number, _ => exact (number_pass_iff hident).mpr hsign
  | .string, _ =>
    exact Recognizer.first_pair_eq_none_iff.mpr
      ⟨string_pass_iff.mpr fun h => h ▸ hquote (Or.inl h),
        string_pass_iff.mpr fun h => h ▸ hquote (Or.inr h)⟩
  | .color, _ => exact call_pass_of_not_ident hident (by decide)
  | .gradient, _ => exact call_pass_of_not_ident hident (by decide)
  | .calc, _ => exact call_pass_of_not_ident hident (by decide)
  | .url, _ => exact call_pass_of_not_ident hident (by decide)
  | .variable, _ => exact call_pass_of_not_ident hident (by decide)
  | .fraction, hm | .integer, hm | .single, hm | .double, hm => exact absurd hm (by decide)

theorem first_pass_iff {c : Char} {s : Text} :
    first trialOrder (c :: s) = .ok none ↔ Unreadable c s :=
  ⟨unreadable_of_pass, pass_of_unreadable⟩

end Rule

theorem unreadable_of_invisible {p : Char → Bool} (hp : Text.Invisible p) {c : Char} (h : p c)
    (s : Text) : Unreadable c s := by
  have hident : isIdentChar c = false := by
    by_contra hi
    rw [hp.of_isIdentChar (by simpa using hi)] at h
    cases h
  have hmark : ∀ d ∈ ['/', ',', '\'', '"', '+', '.'], c ≠ d := by
    have hcodes : ∀ d ∈ ['/', ',', '\'', '"', '+', '.'], 0x21 ≤ d.toNat ∧ d.toNat < 0x7f :=
      Text.forall_mem_of_all rfl
    rintro d hd rfl
    rw [hp c (hcodes c hd).1 (hcodes c hd).2] at h
    cases h
  exact ⟨hmark _ (by decide), hmark _ (by decide), hident,
    Or.inr (Or.inr ⟨hmark _ (by decide), hmark _ (by decide), hmark _ (by decide),
      hmark _ (by decide)⟩)⟩

theorem unreadable_paren (s : Text) : Unreadable '(' s :=
  ⟨by decide, by decide, by decide, Or.inr (Or.inr (by decide))⟩

theorem follows_nil (b : Body) : Follows b [] := by
  cases b with
  | ident name => exact ⟨rfl, fun _ h => nomatch h.1⟩
  | number => rfl
  | operator | comma | string | function => trivial

theorem Lexeme.stands {b : Body} (h : Lexeme b) : Stands b b.text [] :=
  ⟨h, (List.append_nil _).symm, follows_nil b⟩

theorem Lexeme.exists_cons {b : Body} (h : Lexeme b) :
    ∃ c s, b.text = c :: s ∧ ¬ Unreadable c s := by
  have hf := first_of_stands h.stands
  cases ht : b.text with
  | nil =>
    rw [ht] at hf
    cases hf
  | cons c s =>
    refine ⟨c, s, rfl, fun hu => ?_⟩
    rw [ht, Rule.pass_of_unreadable hu] at hf
    cases hf

theorem Lexeme.begins_invisible {b : Body} (h : Lexeme b) {p : Char → Bool}
    (hp : Text.Invisible p) : b.text.begins p = false := by
  obtain ⟨c, s, ht, hu⟩ := h.exists_cons
  rw [ht, Text.begins_cons]
  by_contra hc
  exact hu (unreadable_of_invisible hp (by simpa using hc) s)

theorem Lexeme.begins_blank {b : Body} (h : Lexeme b) : b.text.begins Text.isBlank = false :=
  h.begins_invisible Text.invisible_isBlank

theorem Lexeme.head_ne_paren {b : Body} (h : Lexeme b) : b.text.head? ≠ some '(' := by
  obtain ⟨c, s, ht, hu⟩ := h.exists_cons
  rw [ht]
  intro hc
  cases hc
  exact hu (unreadable_paren s)

theorem Lexeme.text_ne_nil {b : Body} (h : Lexeme b) : b.text ≠ [] := by
  obtain ⟨c, s, ht, -⟩ := h.exists_cons
  rw [ht]
  exact List.cons_ne_nil c s

theorem Stands.unique {b b' : Body} {s rest rest' : Text} (h : Stands b s rest)
    (h' : Stands b' s rest') : b = b' ∧ rest = rest' := by
  have hf := first_of_stands h
  rw [first_of_stands h'] at hf
  have hb : b' = b := by
    have hbody := congrArg (fun m => m.token.body) (Option.some.inj (Except.ok.inj hf))
    simpa using hbody
  subst hb
  exact ⟨rfl, List.append_cancel_left (h.text_eq.symm.trans h'.text_eq)⟩

theorem Lexeme.operator_of_slash {b : Body} (h : Lexeme b) (hs : b.text.head? = some '/') :
    b = .operator ['/'] := by
  obtain ⟨c, s, ht, -⟩ := h.exists_cons
  rw [ht] at hs
  cases hs
  have hslash : Stands (.operator ['/']) b.text s := ⟨.operator, ht, trivial⟩
  exact (h.stands.unique hslash).1

end StyleValue
