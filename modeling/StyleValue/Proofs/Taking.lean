import StyleValue.Proofs.Lexeme

/-! # Where lexemes are taken

At the beginning of a text the rules take a token exactly where a lexeme stands that the rest of
the text does not go on with, and they take it with its body. -/

namespace StyleValue

theorem call_pass_of_follows {name rest callName : Text} {kind : FunctionKind}
    (hname : ∀ c ∈ name, isIdentChar c) (hf : Follows (.ident name) rest)
    (hm : (callName, kind) ∈ callNames) : Reader.call callName kind (name ++ rest) = none := by
  apply Option.eq_none_iff_forall_ne_some.mpr
  rintro ⟨b, u⟩ hr
  obtain ⟨arguments, -, -, he⟩ := Reader.call_eq_some_iff.mp hr
  obtain ⟨rfl, rfl⟩ := Text.run_unique hname (callNames_chars _ hm) hf.1 rfl he
  exact hf.2 (List.mem_map.mpr ⟨_, hm, rfl⟩) ⟨rfl, by simp⟩

theorem keyword_pass_of_name {name rest keyword : Text} {kind : FunctionKind} (hname : IsName name)
    (hrest : rest.begins isIdentChar = false) (hm : (keyword, kind) ∈ keywords) :
    Recognizer.nested keyword kind (name ++ rest) = .ok none := by
  apply Recognizer.nested_eq_none_iff.mpr
  intro h
  obtain ⟨t, he⟩ := h
  have ht := congrArg (List.takeWhile isIdentChar) he
  rw [Text.takeWhile_run hname.chars hrest,
    List.takeWhile_append_of_pos (keywords_chars _ hm)] at ht
  exact hname.not_keyword _ hm ⟨_, ht⟩

theorem number_eq_none_iff {s : Text} :
    Rule.number.recognize s = .ok none ↔
      Numeral.fraction? s = none ∧ Numeral.whole? s = none := by
  simp only [Rule.recognize, Recognizer.first_pair_eq_none_iff, Recognizer.ofReader_eq_none_iff,
    Reader.fraction, Reader.integer, Reader.number, Option.map_eq_none_iff]

theorem number_pass_of_name {name rest : Text} (hname : IsName name)
    (hrest : rest.begins isIdentChar = false) :
    Rule.number.recognize (name ++ rest) = .ok none := by
  obtain ⟨hne, hchars, hdigit, hminus, -⟩ := hname
  cases name with
  | nil => exact (hne rfl).elim
  | cons c name =>
    have hc := hchars c List.mem_cons_self
    refine number_eq_none_iff.mpr (Numeral.reads_cons_iff.mpr ⟨hdigit, ?_⟩)
    intro h
    rcases h with rfl | rfl | rfl
    · exact absurd hc (by decide)
    · cases name with
      | nil => exact Text.begins_imp (fun _ => isIdentChar_of_isDigit) hrest
      | cons d name => simpa [Numeral.beginsWith] using hminus
    · exact absurd hc (by decide)

theorem ident_before_pass {name rest : Text} (hname : IsName name)
    (hf : Follows (.ident name) rest) :
    ∀ r ∈ Rule.before Rule.trialOrder .ident, r.recognize (name ++ rest) = .ok none := by
  have hcall := fun {callName : Text} {kind : FunctionKind} (hm : (callName, kind) ∈ callNames) =>
    call_pass_of_follows hname.chars hf hm
  have hkey := fun {keyword : Text} {kind : FunctionKind} (hm : (keyword, kind) ∈ keywords) =>
    keyword_pass_of_name hname hf.1 hm
  have hop : Rule.operator.recognize (name ++ rest) = .ok none := by
    apply Rule.recognize_pass
    rw [Text.begins_append hname.nonempty]
    cases hn : name with
    | nil => rfl
    | cons c t =>
      have hc : isIdentChar c := hname.chars c (hn ▸ List.mem_cons_self)
      have hne : c ≠ '/' := by
        intro heq
        subst heq
        exact absurd hc (by decide)
      simpa [Rule.starts] using hne
  have hrgb : Reader.call "rgb".toList .color (name ++ rest) = none := hcall (by decide)
  have hrgba : Reader.call "rgba".toList .color (name ++ rest) = none := hcall (by decide)
  have hcolor : Rule.color.recognize (name ++ rest) = .ok none :=
    Recognizer.ofReader_eq_none_iff.mpr (by simp only [Reader.color, hrgb, hrgba, Option.none_or])
  have hurl : Rule.url.recognize (name ++ rest) = .ok none :=
    Recognizer.ofReader_eq_none_iff.mpr (hcall (by decide))
  change ∀ r ∈ [Rule.operator, .number, .color, .gradient, .calc, .url, .variable], _
  simp only [List.forall_mem_cons, List.not_mem_nil, false_implies, implies_true, and_true]
  exact ⟨hop, number_pass_of_name hname hf.1, hcolor, hkey (by decide), hkey (by decide), hurl,
    hkey (by decide)⟩

theorem string_taken {quote : Char} {value : Text} (hq : quote = '\'' ∨ quote = '"')
    (hv : quote ∉ value) (rest : Text) :
    Rule.first Rule.trialOrder ((Body.string [quote] value).text ++ rest) =
      .ok (some ((Body.string [quote] value).found rest)) := by
  have hread : Recognizer.ofReader (Reader.string quote)
      ((Body.string [quote] value).text ++ rest) =
      .ok (some ((Body.string [quote] value).found rest)) :=
    Recognizer.ofReader_eq_some_iff.mpr
      ⟨_, _, Reader.string_eq_some_iff.mpr ⟨value, rfl, hv, by simp [Body.text]⟩, rfl⟩
  rcases hq with rfl | rfl
  · exact Rule.first_of_rule (by decide : Rule.string ∈ _)
      ((Recognizer.first_pair_eq_iff (by simp)).mpr (Or.inl hread)) (Rule.before_pass (by decide) _)
  · have hsingle : Recognizer.ofReader (Reader.string '\'')
        ((Body.string ['"'] value).text ++ rest) = .ok none := Rule.string_pass rfl
    exact Rule.first_of_rule (by decide : Rule.string ∈ _)
      ((Recognizer.first_pair_eq_iff (by simp)).mpr (Or.inr ⟨hsingle, hread⟩))
      (Rule.before_pass (by decide) _)

theorem call_taken {name arguments : Text} {kind : FunctionKind}
    (hm : (name, kind) ∈ callNames) (ha : ')' ∉ arguments) (rest : Text) :
    Rule.first Rule.trialOrder ((name ++ '(' :: arguments ++ [')']) ++ rest) =
      .ok (some ((Body.function kind (name ++ '(' :: arguments ++ [')'])).found rest)) := by
  rw [Body.found, takesSpaces_call hm, if_pos rfl]
  have hcall : Reader.call name kind ((name ++ '(' :: arguments ++ [')']) ++ rest) =
      some (.function kind (name ++ '(' :: arguments ++ [')']), rest) :=
    Reader.call_eq_some_iff.mpr ⟨arguments, rfl, ha, by simp⟩
  simp only [callNames, List.mem_cons, Prod.mk.injEq, List.not_mem_nil, or_false] at hm
  rcases hm with ⟨rfl, rfl⟩ | ⟨rfl, rfl⟩ | ⟨rfl, rfl⟩
  · have hread := Reader.color_eq_some_iff.mpr ⟨_, by decide, hcall⟩
    exact Rule.first_of_rule (by decide : Rule.color ∈ _)
      (Recognizer.ofReader_eq_some_iff.mpr ⟨_, _, hread, rfl⟩) (Rule.before_pass (by decide) _)
  · have hread := Reader.color_eq_some_iff.mpr ⟨_, by decide, hcall⟩
    exact Rule.first_of_rule (by decide : Rule.color ∈ _)
      (Recognizer.ofReader_eq_some_iff.mpr ⟨_, _, hread, rfl⟩) (Rule.before_pass (by decide) _)
  · exact Rule.first_of_rule (by decide : Rule.url ∈ _)
      (Recognizer.ofReader_eq_some_iff.mpr ⟨_, _, hcall, rfl⟩) (Rule.before_pass (by decide) _)

theorem group_taken {keyword group : Text} {kind : FunctionKind}
    (hm : (keyword, kind) ∈ keywords) (hg : Group.Balanced group) (rest : Text) :
    Rule.first Rule.trialOrder ((keyword ++ group) ++ rest) =
      .ok (some ((Body.function kind (keyword ++ group)).found rest)) := by
  rw [Body.found, takesSpaces_group hm, if_neg (by decide)]
  have hread : Recognizer.nested keyword kind ((keyword ++ group) ++ rest) =
      .ok (some ⟨⟨keyword ++ group, .function kind (keyword ++ group)⟩, rest⟩) :=
    Recognizer.nested_eq_some_iff.mpr ⟨group, rest, hg, rfl, rfl⟩
  obtain ⟨rule, hrule, hnested, hbefore⟩ := Rule.exists_of_keyword hm
  apply Rule.first_of_rule hrule (hnested ▸ hread)
  rw [List.append_assoc]
  exact hbefore _

theorem unit_not_digit {unit rest : Text} (hu : IsUnit unit)
    (hrest : rest.begins isUnitChar = false) : (unit ++ rest).begins Char.isDigit = false := by
  cases unit with
  | nil => exact Text.begins_imp (fun _ => isUnitChar_of_isDigit) hrest
  | cons c unit => exact hu.2

/-- A point at the very end of a unit is no fraction, whatever follows the unit. -/
theorem beginsWith_unit {unit rest : Text} (hrest : rest.begins isUnitChar = false) :
    Numeral.beginsWith '.' (unit ++ rest) = Numeral.beginsWith '.' unit := by
  have hdigit : rest.begins Char.isDigit = false :=
    Text.begins_imp (fun _ => isUnitChar_of_isDigit) hrest
  cases unit with
  | nil =>
    cases rest with
    | nil => rfl
    | cons c rest =>
      have hc : c ≠ '.' := by
        intro heq
        subst heq
        exact absurd (show isUnitChar '.' = false from hrest) (by decide)
      simp [Numeral.beginsWith, hc]
  | cons c unit =>
    cases unit with
    | nil => simp [Numeral.beginsWith, hdigit]
    | cons d unit => rfl

theorem operator_pass_of_number {s : Text} (h : s.begins Numeral.starts = true) :
    ∀ r ∈ Rule.before Rule.trialOrder .number, r.recognize s = .ok none := by
  cases s with
  | nil => cases h
  | cons c s =>
    have hc : c ≠ '/' := by
      intro heq
      subst heq
      exact absurd (show Numeral.starts '/' = true from h) (by decide)
    refine Rule.before_pass ?_ s
    change ∀ r ∈ [Rule.operator], _
    simpa [Rule.starts] using hc

theorem fraction_taken {numeral unit rest : Text} (hn : Numeral.Fraction numeral)
    (hu : IsUnit unit) (hrest : rest.begins isUnitChar = false) :
    Reader.fraction ((numeral ++ unit) ++ rest) =
      some (.number (.fraction (Binary64.ofDecimal (Decimal.ofNumeral numeral))) unit
        (numeral ++ unit), rest) :=
  Reader.number_eq_some_iff.mpr ⟨numeral, unit, rfl, Numeral.fraction?_eq_some_iff.mpr
    ⟨hn, List.append_assoc _ _ _, unit_not_digit hu hrest⟩, hu.1, hrest⟩

theorem integer_taken {numeral unit rest : Text} (hn : Numeral.Whole numeral)
    (hu : IsUnit unit) (hrest : rest.begins isUnitChar = false) :
    Reader.integer ((numeral ++ unit) ++ rest) =
      some (.number (.whole (Int32.ofNumeral numeral)) unit (numeral ++ unit), rest) :=
  Reader.number_eq_some_iff.mpr ⟨numeral, unit, rfl, Numeral.whole?_eq_some_iff.mpr
    ⟨hn, List.append_assoc _ _ _, unit_not_digit hu hrest⟩, hu.1, hrest⟩

theorem first_of_stands {b : Body} {s rest : Text} (h : Stands b s rest) :
    Rule.first Rule.trialOrder s = .ok (some (b.found rest)) := by
  obtain ⟨hl, rfl, hf⟩ := h
  cases hl with
  | operator =>
    exact Rule.first_of_rule (by decide : Rule.operator ∈ _) (Recognizer.ofReader_eq_some_iff.mpr
      ⟨_, _, Reader.mark_eq_some_iff.mpr ⟨rfl, rfl⟩, rfl⟩) (Rule.before_pass (by decide) rest)
  | comma =>
    exact Rule.first_of_rule (by decide : Rule.comma ∈ _) (Recognizer.ofReader_eq_some_iff.mpr
      ⟨_, _, Reader.mark_eq_some_iff.mpr ⟨rfl, rfl⟩, rfl⟩) (Rule.before_pass (by decide) rest)
  | string hq hv => exact string_taken hq hv rest
  | call hm ha => exact call_taken hm ha rest
  | group hm hg => exact group_taken hm hg rest
  | @fraction numeral unit hn hu =>
    have hread := Recognizer.ofReader_eq_some_iff.mpr
      ⟨_, _, fraction_taken hn hu hf, rfl⟩
    refine Rule.first_of_rule (by decide : Rule.number ∈ _)
      ((Recognizer.first_pair_eq_iff (by simp)).mpr (Or.inl hread)) (operator_pass_of_number ?_)
    rw [Body.text, List.append_assoc]
    exact hn.starts _
  | @integer numeral unit hn hu hp =>
    have hread := Recognizer.ofReader_eq_some_iff.mpr
      ⟨_, _, integer_taken hn hu hf, rfl⟩
    have hnone : Recognizer.ofReader Reader.fraction ((numeral ++ unit) ++ rest) = .ok none := by
      rw [Recognizer.ofReader_eq_none_iff, Reader.fraction, Reader.number,
        Option.map_eq_none_iff, List.append_assoc,
        Numeral.fraction?_whole_eq_none_iff hn (unit_not_digit hu hf), beginsWith_unit hf, hp]
    refine Rule.first_of_rule (by decide : Rule.number ∈ _)
      ((Recognizer.first_pair_eq_iff (by simp)).mpr (Or.inr ⟨hnone, hread⟩))
      (operator_pass_of_number ?_)
    rw [Body.text, List.append_assoc]
    exact hn.starts _
  | ident hn =>
    exact Rule.first_of_rule (by decide : Rule.ident ∈ _) (Recognizer.ofReader_eq_some_iff.mpr
      ⟨_, _, Reader.ident_eq_some_iff.mpr ⟨_, rfl, hn.nonempty, hn.chars, rfl, hf.1⟩, rfl⟩)
      (ident_before_pass hn hf)

theorem stands_of_string {quote : Char} {s : Text} {m : Match} (hq : quote = '\'' ∨ quote = '"')
    (h : Recognizer.ofReader (Reader.string quote) s = .ok (some m)) :
    ∃ b rest, Stands b s rest ∧ m = b.found rest := by
  obtain ⟨b, rest, hr, rfl⟩ := Recognizer.ofReader_eq_some_iff.mp h
  obtain ⟨value, rfl, hv, rfl⟩ := Reader.string_eq_some_iff.mp hr
  exact ⟨_, rest, ⟨.string hq hv, by simp [Body.text], trivial⟩, rfl⟩

theorem stands_of_call {name s rest : Text} {kind : FunctionKind} {b : Body}
    (hm : (name, kind) ∈ callNames) (h : Reader.call name kind s = some (b, rest)) :
    Stands b s rest ∧ Recognizer.spaced b rest = b.found rest := by
  obtain ⟨arguments, rfl, ha, rfl⟩ := Reader.call_eq_some_iff.mp h
  exact ⟨⟨.call hm ha, by simp [Body.text], trivial⟩,
    by rw [Body.found, takesSpaces_call hm, if_pos rfl]⟩

theorem stands_of_group {keyword s : Text} {kind : FunctionKind} {m : Match}
    (hm : (keyword, kind) ∈ keywords)
    (h : Recognizer.nested keyword kind s = .ok (some m)) :
    ∃ b rest, Stands b s rest ∧ m = b.found rest := by
  obtain ⟨group, rest, hg, rfl, rfl⟩ := Recognizer.nested_eq_some_iff.mp h
  refine ⟨_, rest, ⟨.group hm hg, rfl, trivial⟩, ?_⟩
  rw [Body.found, takesSpaces_group hm, if_neg (by decide)]
  rfl

theorem isUnit_of_rest {unit rest : Text} (hu : ∀ c ∈ unit, isUnitChar c)
    (h : (unit ++ rest).begins Char.isDigit = false) : IsUnit unit := by
  refine ⟨hu, ?_⟩
  cases unit with
  | nil => rfl
  | cons c unit => exact h

theorem stands_of_number {s : Text} {m : Match} (h : Rule.number.recognize s = .ok (some m)) :
    ∃ b rest, Stands b s rest ∧ m = b.found rest := by
  rcases (Recognizer.first_pair_eq_iff (by simp)).mp h with h | ⟨hnone, h⟩
  · obtain ⟨b, rest, hr, rfl⟩ := Recognizer.ofReader_eq_some_iff.mp h
    obtain ⟨numeral, unit, rfl, hf, hu, hrest⟩ := Reader.number_eq_some_iff.mp hr
    obtain ⟨hn, rfl, hd⟩ := Numeral.fraction?_eq_some_iff.mp hf
    exact ⟨_, rest, ⟨.fraction hn (isUnit_of_rest hu hd), (List.append_assoc _ _ _).symm, hrest⟩,
      rfl⟩
  · obtain ⟨b, rest, hr, rfl⟩ := Recognizer.ofReader_eq_some_iff.mp h
    obtain ⟨numeral, unit, rfl, hf, hu, hrest⟩ := Reader.number_eq_some_iff.mp hr
    obtain ⟨hn, rfl, hd⟩ := Numeral.whole?_eq_some_iff.mp hf
    rw [Recognizer.ofReader_eq_none_iff, Reader.fraction, Reader.number, Option.map_eq_none_iff,
      Numeral.fraction?_whole_eq_none_iff hn hd, beginsWith_unit hrest] at hnone
    exact ⟨_, rest, ⟨.integer hn (isUnit_of_rest hu hd) hnone, (List.append_assoc _ _ _).symm,
      hrest⟩, rfl⟩

theorem isName_of_pass {name rest : Text} (hne : name ≠ []) (hname : ∀ c ∈ name, isIdentChar c)
    (hnumber : Rule.number.recognize (name ++ rest) = .ok none)
    (hkey : ∀ k ∈ keywords, Recognizer.nested k.1 k.2 (name ++ rest) = .ok none) : IsName name := by
  cases name with
  | nil => exact (hne rfl).elim
  | cons c name =>
    obtain ⟨hd, hs⟩ := Numeral.reads_cons_iff.mp (number_eq_none_iff.mp hnumber)
    refine ⟨hne, hname, hd, ?_, ?_⟩
    · cases name with
      | nil => simp [Numeral.beginsWith]
      | cons d name =>
        by_contra hm
        simp only [Numeral.beginsWith, Bool.not_eq_false, Bool.and_eq_true, decide_eq_true_eq] at hm
        have hdigit : d.isDigit = false := hs (Or.inr (Or.inl hm.1))
        simp [hdigit] at hm
    · rintro k hk ⟨t, ht⟩
      refine Recognizer.nested_eq_none_iff.mp (hkey k hk) ⟨t ++ rest, ?_⟩
      rw [← List.append_assoc, ht]

theorem follows_of_pass {name rest : Text} (hrest : rest.begins isIdentChar = false)
    (hcall : ∀ k ∈ callNames, Reader.call k.1 k.2 (name ++ rest) = none) :
    Follows (.ident name) rest := by
  refine ⟨hrest, ?_⟩
  intro hm h
  obtain ⟨hopen, hclose⟩ := h
  obtain ⟨k, hk, rfl⟩ := List.mem_map.mp hm
  cases rest with
  | nil => cases hopen
  | cons c rest =>
    cases hopen
    obtain ⟨arguments, t, rfl, ha⟩ := List.eq_append_cons_of_mem
      ((List.mem_cons.mp hclose).resolve_left (by decide))
    have hr : Reader.call k.1 k.2 (k.1 ++ '(' :: (arguments ++ ')' :: t)) =
        some (.function k.2 (k.1 ++ '(' :: arguments ++ [')']), t) :=
      Reader.call_eq_some_iff.mpr ⟨arguments, rfl, ha, rfl⟩
    rw [hcall k hk] at hr
    cases hr

theorem stands_of_ident {s : Text} {m : Match} (h : Rule.ident.recognize s = .ok (some m))
    (hb : ∀ r ∈ Rule.before Rule.trialOrder .ident, r.recognize s = .ok none) :
    ∃ b rest, Stands b s rest ∧ m = b.found rest := by
  obtain ⟨b, rest, hr, rfl⟩ := Recognizer.ofReader_eq_some_iff.mp h
  obtain ⟨name, rfl, hne, hname, rfl, hrest⟩ := Reader.ident_eq_some_iff.mp hr
  change ∀ r ∈ [Rule.operator, .number, .color, .gradient, .calc, .url, .variable], _ at hb
  simp only [List.forall_mem_cons, List.not_mem_nil, false_implies, implies_true, and_true] at hb
  obtain ⟨-, hnumber, hcolor, hgradient, hcalc, hurl, hvariable⟩ := hb
  have hcolor := Option.or_eq_none_iff.mp (Recognizer.ofReader_eq_none_iff.mp hcolor)
  have hcalls : ∀ k ∈ callNames, Reader.call k.1 k.2 (name ++ rest) = none := by
    simp only [callNames, List.forall_mem_cons, List.not_mem_nil, false_implies, implies_true,
      and_true]
    exact ⟨hcolor.1, hcolor.2, Recognizer.ofReader_eq_none_iff.mp hurl⟩
  have hkeys : ∀ k ∈ keywords, Recognizer.nested k.1 k.2 (name ++ rest) = .ok none := by
    simp only [keywords, List.forall_mem_cons, List.not_mem_nil, false_implies, implies_true,
      and_true]
    exact ⟨hgradient, hcalc, hvariable⟩
  exact ⟨_, rest, ⟨.ident (isName_of_pass hne hname hnumber hkeys), rfl,
    follows_of_pass hrest hcalls⟩, rfl⟩

/-- Whatever the rules take is a lexeme that stands there. -/
theorem stands_of_first {s : Text} {m : Match}
    (h : Rule.first Rule.trialOrder s = .ok (some m)) :
    ∃ b rest, Stands b s rest ∧ m = b.found rest := by
  obtain ⟨rule, hm, hr, hb⟩ := (Rule.first_eq_iff (by simp)).mp h
  match rule, hm, hr, hb with
  | .operator, _, hr, _ =>
    obtain ⟨b, rest, hread, rfl⟩ := Recognizer.ofReader_eq_some_iff.mp hr
    obtain ⟨rfl, rfl⟩ := Reader.mark_eq_some_iff.mp hread
    exact ⟨_, rest, ⟨.operator, rfl, trivial⟩, rfl⟩
  | .comma, _, hr, _ =>
    obtain ⟨b, rest, hread, rfl⟩ := Recognizer.ofReader_eq_some_iff.mp hr
    obtain ⟨rfl, rfl⟩ := Reader.mark_eq_some_iff.mp hread
    exact ⟨_, rest, ⟨.comma, rfl, trivial⟩, rfl⟩
  | .ident, _, hr, hb => exact stands_of_ident hr hb
  | .number, _, hr, _ => exact stands_of_number hr
  | .string, _, hr, _ =>
    rcases (Recognizer.first_pair_eq_iff (by simp)).mp hr with hr | ⟨-, hr⟩
    · exact stands_of_string (Or.inl rfl) hr
    · exact stands_of_string (Or.inr rfl) hr
  | .color, _, hr, _ =>
    obtain ⟨b, rest, hread, rfl⟩ := Recognizer.ofReader_eq_some_iff.mp hr
    obtain ⟨name, hn, hcall⟩ := Reader.color_eq_some_iff.mp hread
    have hall : ∀ n ∈ ["rgb".toList, "rgba".toList], (n, FunctionKind.color) ∈ callNames := by
      decide
    exact ⟨b, rest, stands_of_call (hall name hn) hcall⟩
  | .url, _, hr, _ =>
    obtain ⟨b, rest, hread, rfl⟩ := Recognizer.ofReader_eq_some_iff.mp hr
    exact ⟨b, rest, stands_of_call (by decide) hread⟩
  | .gradient, _, hr, _ => exact stands_of_group (by decide) hr
  | .calc, _, hr, _ => exact stands_of_group (by decide) hr
  | .variable, _, hr, _ => exact stands_of_group (by decide) hr
  | .fraction, hm, _, _ | .integer, hm, _, _ | .single, hm, _, _ | .double, hm, _, _ =>
    exact absurd hm (by decide)

theorem first_eq_some_iff {s : Text} {m : Match} :
    Rule.first Rule.trialOrder s = .ok (some m) ↔
      ∃ b rest, Stands b s rest ∧ m = b.found rest := by
  constructor
  · exact stands_of_first
  · intro h
    obtain ⟨b, rest, h, rfl⟩ := h
    exact first_of_stands h

end StyleValue
