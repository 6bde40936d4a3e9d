import StyleValue.Proofs.Reading

/-! # Lexemes

What each kind of token may look like, and what may stand after it. Every rule passes on the texts
that begin with none of its first characters, so most rules before the one that matters pass on the
first character alone. -/

namespace StyleValue

/-- The calls that take a whole group, by their keywords. -/
def keywords : List (Text × FunctionKind) :=
  [("linear-gradient".toList, .gradient), ("calc".toList, .calc), ("var".toList, .variable)]

/-- The calls that run to the first closing paren, by their names. -/
def callNames : List (Text × FunctionKind) :=
  [("rgb".toList, .color), ("rgba".toList, .color), ("url".toList, .url)]

/-- Everything a unit may be after the digits of a numeral. -/
def IsUnit (unit : Text) : Prop :=
  (∀ c ∈ unit, isUnitChar c) ∧ unit.begins Char.isDigit = false

/-- An identifier is not confused with a number or with a call that takes a group. -/
structure IsName (name : Text) : Prop where
  nonempty : name ≠ []
  chars : ∀ c ∈ name, isIdentChar c
  not_digit : name.begins Char.isDigit = false
  not_minus : Numeral.beginsWith '-' name = false
  not_keyword : ∀ k ∈ keywords, ¬ k.1 <+: name

inductive Lexeme : Body → Prop where
  | operator : Lexeme (.operator ['/'])
  | comma : Lexeme (.comma [','])
  | string {quote value} : quote = '\'' ∨ quote = '"' → quote ∉ value →
      Lexeme (.string [quote] value)
  | call {name kind arguments} : (name, kind) ∈ callNames → ')' ∉ arguments →
      Lexeme (.function kind (name ++ '(' :: arguments ++ [')']))
  | group {keyword kind group} : (keyword, kind) ∈ keywords → Group.Balanced group →
      Lexeme (.function kind (keyword ++ group))
  | fraction {numeral unit} : Numeral.Fraction numeral → IsUnit unit →
      Lexeme (.number (.fraction (Binary64.ofDecimal (Decimal.ofNumeral numeral))) unit
        (numeral ++ unit))
  | integer {numeral unit} : Numeral.Whole numeral → IsUnit unit →
      Numeral.beginsWith '.' unit = false →
      Lexeme (.number (.whole (Int32.ofNumeral numeral)) unit (numeral ++ unit))
  | ident {name} : IsName name → Lexeme (.ident name)

/-- The text begins with an argument list that is closed somewhere. -/
def BeginsArguments (s : Text) : Prop := s.head? = some '(' ∧ ')' ∈ s

/-- The text does not go on with the lexeme that stands before it. -/
def Follows : Body → Text → Prop
  | .number .., rest => rest.begins isUnitChar = false
  | .ident name, rest => rest.begins isIdentChar = false ∧
      (name ∈ callNames.map Prod.fst → ¬ BeginsArguments rest)
  | _, _ => True

/-- Only calls that take a group leave the spaces after them. -/
def Body.takesSpaces : Body → Bool
  | .function .gradient _ | .function .calc _ | .function .variable _ => false
  | _ => true

def Body.found (b : Body) (rest : Text) : Match :=
  if b.takesSpaces then Recognizer.spaced b rest else ⟨⟨b.text, b⟩, rest⟩

@[simp] theorem Body.found_body (b : Body) (rest : Text) : (b.found rest).token.body = b := by
  unfold Body.found
  split <;> rfl

def Rule.starts : Rule → Char → Bool
  | .operator, c => c = '/'
  | .comma, c => c = ','
  | .ident, c => isIdentChar c
  | .fraction, c | .integer, c | .number, c => Numeral.starts c
  | .single, c => c = '\''
  | .double, c => c = '"'
  | .string, c => c = '\'' || c = '"'
  | .color, c => c = 'r'
  | .url, c => c = 'u'
  | .gradient, c => c = 'l'
  | .calc, c => c = 'c'
  | .variable, c => c = 'v'

namespace Recognizer

theorem ofReader_pass {read : Reader} {s : Text}
    (h : ∀ b rest, read s = some (b, rest) → False) : ofReader read s = .ok none :=
  ofReader_eq_none_iff.mpr (Option.eq_none_iff_forall_ne_some.mpr fun r hr => h r.1 r.2 hr)

theorem first_pair_eq_iff {one other : Recognizer} {s : Text}
    {out : Except Malformed (Option Match)} (hout : out ≠ .ok none) :
    first [one, other] s = out ↔ one s = out ∨ (one s = .ok none ∧ other s = out) := by
  by_cases h : one s = .ok none
  · rw [first_cons_of_pass h]
    by_cases h' : other s = .ok none
    · simp [first, h, h', hout.symm]
    · simp [first_cons_of_not_pass h', h, hout.symm]
  · simp [first_cons_of_not_pass h, h]

theorem first_pair_eq_none_iff {one other : Recognizer} {s : Text} :
    first [one, other] s = .ok none ↔ one s = .ok none ∧ other s = .ok none := by
  simp [first_eq_none_iff]

end Recognizer

namespace Rule

theorem not_begins_of_number {numeral? : Text → Option (Text × Text)} {amount : Text → Amount}
    (hn : ∀ {s numeral rest}, numeral? s = some (numeral, rest) → s.begins Numeral.starts = true)
    {s : Text} (h : s.begins Numeral.starts = false) :
    Recognizer.ofReader (Reader.number numeral? amount) s = .ok none := by
  refine Recognizer.ofReader_pass fun b rest hr => ?_
  obtain ⟨numeral, unit, -, hs, -, -⟩ := Reader.number_eq_some_iff.mp hr
  rw [hn hs] at h
  cases h

theorem fraction_starts {s numeral rest : Text} (h : Numeral.fraction? s = some (numeral, rest)) :
    s.begins Numeral.starts = true := by
  obtain ⟨hf, rfl, -⟩ := Numeral.fraction?_eq_some_iff.mp h
  exact hf.starts rest

theorem whole_starts {s numeral rest : Text} (h : Numeral.whole? s = some (numeral, rest)) :
    s.begins Numeral.starts = true := by
  obtain ⟨hw, rfl, -⟩ := Numeral.whole?_eq_some_iff.mp h
  exact hw.starts rest

theorem string_pass {quote : Char} {s : Text} (h : s.begins (· = quote) = false) :
    Recognizer.ofReader (Reader.string quote) s = .ok none := by
  refine Recognizer.ofReader_pass fun b rest hr => ?_
  obtain ⟨value, -, -, rfl⟩ := Reader.string_eq_some_iff.mp hr
  simp at h

theorem call_pass (name : Text) {kind : FunctionKind} {c : Char} {t s : Text} (hn : name = c :: t)
    (h : s.begins (· = c) = false) : Reader.call name kind s = none := by
  apply Option.eq_none_iff_forall_ne_some.mpr
  rintro ⟨b, rest⟩ hr
  obtain ⟨arguments, -, -, rfl⟩ := Reader.call_eq_some_iff.mp hr
  simp [hn] at h

theorem nested_pass {keyword : Text} {kind : FunctionKind} {c : Char} {t s : Text}
    (hn : keyword = c :: t) (h : s.begins (· = c) = false) :
    Recognizer.nested keyword kind s = .ok none := by
  apply Recognizer.nested_eq_none_iff.mpr
  intro h
  obtain ⟨u, rfl⟩ := h
  simp [hn] at h

theorem recognize_pass {rule : Rule} {s : Text} (h : s.begins rule.starts = false) :
    rule.recognize s = .ok none := by
  match rule, h with
  | .operator, h =>
    refine Recognizer.ofReader_pass fun b rest hr => ?_
    obtain ⟨-, rfl⟩ := Reader.mark_eq_some_iff.mp hr
    simp [starts] at h
  | .comma, h =>
    refine Recognizer.ofReader_pass fun b rest hr => ?_
    obtain ⟨-, rfl⟩ := Reader.mark_eq_some_iff.mp hr
    simp [starts] at h
  | .ident, h =>
    refine Recognizer.ofReader_pass fun b rest hr => ?_
    obtain ⟨name, -, hne, hname, rfl, -⟩ := Reader.ident_eq_some_iff.mp hr
    cases name with
    | nil => exact hne rfl
    | cons c name => simp [starts, hname c List.mem_cons_self] at h
  | .fraction, h => exact not_begins_of_number fraction_starts h
  | .integer, h => exact not_begins_of_number whole_starts h
  | .number, h =>
    exact Recognizer.first_pair_eq_none_iff.mpr
      ⟨not_begins_of_number fraction_starts h, not_begins_of_number whole_starts h⟩
  | .single, h => exact string_pass h
  | .double, h => exact string_pass h
  | .string, h =>
    exact Recognizer.first_pair_eq_none_iff.mpr
      ⟨string_pass (Text.begins_imp (by simp +contextual [starts]) h),
        string_pass (Text.begins_imp (by simp +contextual [starts]) h)⟩
  | .color, h =>
    apply Recognizer.ofReader_eq_none_iff.mpr
    simp only [Reader.color, call_pass "rgb".toList rfl h, call_pass "rgba".toList rfl h,
      Option.none_or]
  | .url, h => exact Recognizer.ofReader_eq_none_iff.mpr (call_pass "url".toList rfl h)
  | .gradient, h => exact nested_pass rfl h
  | .calc, h => exact nested_pass rfl h
  | .variable, h => exact nested_pass rfl h

theorem first_of_rule {rule : Rule} {s : Text} {m : Match} (hm : rule ∈ trialOrder)
    (hr : rule.recognize s = .ok (some m))
    (hb : ∀ r ∈ before trialOrder rule, r.recognize s = .ok none) :
    first trialOrder s = .ok (some m) :=
  (first_eq_iff (by simp)).mpr ⟨rule, hm, hr, hb⟩

theorem before_pass {rule : Rule} {c : Char}
    (h : ∀ r ∈ before trialOrder rule, r.starts c = false) (s : Text) :
    ∀ r ∈ before trialOrder rule, r.recognize (c :: s) = .ok none :=
  fun r hr => recognize_pass (h r hr)

/-- Each keyword has a rule of its own, and no rule before it takes a text that begins with the
keyword. -/
theorem exists_of_keyword {keyword : Text} {kind : FunctionKind}
    (hm : (keyword, kind) ∈ keywords) : ∃ rule ∈ trialOrder,
      rule.recognize = Recognizer.nested keyword kind ∧
      ∀ s, ∀ r ∈ before trialOrder rule, r.recognize (keyword ++ s) = .ok none := by
  simp only [keywords, List.mem_cons, Prod.mk.injEq, List.not_mem_nil, or_false] at hm
  rcases hm with ⟨rfl, rfl⟩ | ⟨rfl, rfl⟩ | ⟨rfl, rfl⟩
  · exact ⟨.gradient, by decide, rfl, fun s => before_pass (by decide) _⟩
  · exact ⟨.calc, by decide, rfl, fun s => before_pass (by decide) _⟩
  · exact ⟨.variable, by decide, rfl, fun s => before_pass (by decide) _⟩

end Rule

/-- A lexeme stands at the beginning of a text, and `rest` after it. -/
structure Stands (b : Body) (s rest : Text) : Prop where
  lexeme : Lexeme b
  text_eq : s = b.text ++ rest
  follows : Follows b rest

theorem takesSpaces_call {name value : Text} {kind : FunctionKind} (h : (name, kind) ∈ callNames) :
    (Body.function kind value).takesSpaces = true := by
  have hall : ∀ k ∈ callNames, (Body.function k.2 value).takesSpaces = true := by
    simp [callNames, Body.takesSpaces]
  exact hall _ h

theorem takesSpaces_group {keyword value : Text} {kind : FunctionKind}
    (h : (keyword, kind) ∈ keywords) : (Body.function kind value).takesSpaces = false := by
  have hall : ∀ k ∈ keywords, (Body.function k.2 value).takesSpaces = false := by
    simp [keywords, Body.takesSpaces]
  exact hall _ h

theorem callNames_chars : ∀ k ∈ callNames, ∀ c ∈ k.1, isIdentChar c := by
  have hall : ∀ k ∈ callNames, k.1.all isIdentChar = true := by decide
  exact fun k hk => List.all_eq_true.mp (hall k hk)

theorem keywords_chars : ∀ k ∈ keywords, ∀ c ∈ k.1, isIdentChar c := by
  have hall : ∀ k ∈ keywords, k.1.all isIdentChar = true := by decide
  exact fun k hk => List.all_eq_true.mp (hall k hk)

end StyleValue
