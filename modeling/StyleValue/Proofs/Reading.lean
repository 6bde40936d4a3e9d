import StyleValue.Proofs.Balance
import StyleValue.Proofs.Numeral
import StyleValue.Rule

/-! # What each reader takes

For every reader and recognizer the exact texts on which it takes a token, passes or fails. A
recognizer that does not pass is recognized by the first character of the text, and in a list of
rules the first that does not pass decides. -/

namespace StyleValue
namespace Reader

theorem mark_eq_some_iff {c : Char} {body b : Body} {s rest : Text} :
    mark c body s = some (b, rest) ↔ b = body ∧ s = c :: rest := by
  cases s with
  | nil => simp [mark]
  | cons d s =>
    simp only [mark, List.cons.injEq]
    split
    · next hd => simp [hd, eq_comm]
    · next hd => simp [hd]

theorem ident_eq_some_iff {b : Body} {s rest : Text} :
    ident s = some (b, rest) ↔ ∃ name, b = .ident name ∧ name ≠ [] ∧
      (∀ c ∈ name, isIdentChar c) ∧ s = name ++ rest ∧ rest.begins isIdentChar = false := by
  simp only [ident]
  constructor
  · intro h
    split at h
    · cases h
    · next hn =>
      cases h
      exact ⟨_, rfl, hn, Text.mem_takeWhile, List.takeWhile_append_dropWhile.symm,
        Text.begins_dropWhile _ _⟩
  · intro h
    obtain ⟨name, rfl, hn, hname, rfl, hrest⟩ := h
    rw [Text.takeWhile_run hname hrest, Text.dropWhile_run hname hrest, if_neg hn]

theorem number_eq_some_iff {numeral? : Text → Option (Text × Text)} {amount : Text → Amount}
    {b : Body} {s rest : Text} :
    number numeral? amount s = some (b, rest) ↔ ∃ numeral unit,
      b = .number (amount numeral) unit (numeral ++ unit) ∧
      numeral? s = some (numeral, unit ++ rest) ∧
      (∀ c ∈ unit, isUnitChar c) ∧ rest.begins isUnitChar = false := by
  simp only [number, Option.map_eq_some_iff]
  constructor
  · intro h
    obtain ⟨⟨numeral, after⟩, hn, he⟩ := h
    cases he
    exact ⟨numeral, after.takeWhile isUnitChar, rfl,
      by rw [hn, List.takeWhile_append_dropWhile], Text.mem_takeWhile, Text.begins_dropWhile _ _⟩
  · intro h
    obtain ⟨numeral, unit, rfl, hn, hunit, hrest⟩ := h
    refine ⟨(numeral, unit ++ rest), hn, ?_⟩
    simp only [Text.takeWhile_run hunit hrest, Text.dropWhile_run hunit hrest]

theorem takeWhile_ne_cons {c : Char} {run : Text} (h : c ∉ run) (rest : Text) :
    (run ++ c :: rest).takeWhile (· ≠ c) = run ∧
      (run ++ c :: rest).dropWhile (· ≠ c) = c :: rest := by
  have hrun : ∀ d ∈ run, decide (d ≠ c) = true := by
    intro d hd
    have : d ≠ c := by
      intro heq
      subst heq
      exact h hd
    simpa using this
  have hrest : Text.begins (fun d => decide (d ≠ c)) (c :: rest) = false := by simp
  exact ⟨Text.takeWhile_run hrun hrest, Text.dropWhile_run hrun hrest⟩

theorem not_mem_takeWhile_ne (c : Char) (s : Text) : c ∉ s.takeWhile (· ≠ c) := by
  intro h
  simpa using Text.mem_takeWhile c h

theorem string_eq_some_iff {quote : Char} {b : Body} {s rest : Text} :
    string quote s = some (b, rest) ↔ ∃ value, b = .string [quote] value ∧ quote ∉ value ∧
      s = quote :: (value ++ quote :: rest) := by
  constructor
  · intro h
    cases s with
    | nil => cases h
    | cons c s =>
      simp only [string] at h
      split at h
      · next hc =>
        split at h
        · cases h
        · next hq =>
          cases h
          exact ⟨_, rfl, not_mem_takeWhile_ne quote s, by rw [hc, ← Text.dropWhile_ne_cons hq]⟩
      · cases h
  · intro h
    obtain ⟨value, rfl, hv, rfl⟩ := h
    obtain ⟨ht, hd⟩ := takeWhile_ne_cons hv rest
    simp only [string, if_true, ht, hd]

theorem call_eq_some_iff {name : Text} {kind : FunctionKind} {b : Body} {s rest : Text} :
    call name kind s = some (b, rest) ↔ ∃ arguments,
      b = .function kind (name ++ '(' :: arguments ++ [')']) ∧ ')' ∉ arguments ∧
      s = name ++ '(' :: (arguments ++ ')' :: rest) := by
  constructor
  · intro h
    unfold call at h
    split at h
    · cases h
    · next arguments ha =>
      split at h
      · cases h
      · next hc =>
        cases h
        refine ⟨_, rfl, not_mem_takeWhile_ne ')' arguments, ?_⟩
        rw [← Text.dropWhile_ne_cons hc, Text.after?_eq_some_iff.mp ha, List.append_assoc]
        rfl
  · intro h
    obtain ⟨arguments, rfl, ha, rfl⟩ := h
    obtain ⟨ht, hd⟩ := takeWhile_ne_cons ha rest
    have hs : Text.after? (name ++ '(' :: (arguments ++ ')' :: rest)) (name ++ ['(']) =
        some (arguments ++ ')' :: rest) := Text.after?_eq_some_iff.mpr (by simp)
    simp only [call, hs, ht, hd]

/-- Both names of a color begin alike, but only one of them is followed by a paren. -/
theorem color_eq_some_iff {b : Body} {s rest : Text} :
    color s = some (b, rest) ↔ ∃ name ∈ ["rgb".toList, "rgba".toList],
      call name .color s = some (b, rest) := by
  simp only [List.mem_cons, List.not_mem_nil, or_false, exists_eq_or_imp, exists_eq_left]
  constructor
  · intro h
    rcases Option.or_eq_some_iff.mp h with h | ⟨_, h⟩
    · exact Or.inl h
    · exact Or.inr h
  · intro h
    rcases h with h | h
    · simp only [color, h, Option.some_or]
    · obtain ⟨arguments, -, -, rfl⟩ := call_eq_some_iff.mp h
      have hn : call "rgb".toList .color
          ("rgba".toList ++ '(' :: (arguments ++ ')' :: rest)) = none := rfl
      simp only [color, hn, Option.none_or, h]

end Reader

namespace Recognizer

theorem ofReader_eq_some_iff {read : Reader} {s : Text} {m : Match} :
    ofReader read s = .ok (some m) ↔ ∃ b rest, read s = some (b, rest) ∧ m = spaced b rest := by
  simp only [ofReader, Except.ok.injEq, Option.map_eq_some_iff, Prod.exists]
  exact exists_congr fun _ => exists_congr fun _ => and_congr_right fun _ => eq_comm

theorem ofReader_eq_none_iff {read : Reader} {s : Text} :
    ofReader read s = .ok none ↔ read s = none := by
  simp [ofReader]

theorem ofReader_ne_error {read : Reader} {s : Text} {e : Malformed} :
    ofReader read s ≠ .error e := by
  simp [ofReader]

theorem nested_eq_some_iff {keyword : Text} {kind : FunctionKind} {s : Text} {m : Match} :
    nested keyword kind s = .ok (some m) ↔ ∃ group rest, Group.Balanced group ∧
      s = keyword ++ group ++ rest ∧
      m = ⟨⟨keyword ++ group, .function kind (keyword ++ group)⟩, rest⟩ := by
  constructor
  · intro h
    unfold nested at h
    split at h
    · cases h
    · next arguments ha =>
      split at h
      · next group rest hg =>
        cases h
        obtain ⟨hb, he⟩ := Group.read_eq_ok_iff.mp hg
        exact ⟨group, rest, hb, by rw [Text.after?_eq_some_iff.mp ha, he, List.append_assoc], rfl⟩
      · cases h
  · intro h
    obtain ⟨group, rest, hb, rfl, rfl⟩ := h
    have ha : Text.after? (keyword ++ group ++ rest) keyword = some (group ++ rest) :=
      Text.after?_eq_some_iff.mpr (List.append_assoc _ _ _)
    have hg : Group.read (group ++ rest) = .ok (group, rest) :=
      Group.read_eq_ok_iff.mpr ⟨hb, rfl⟩
    simp only [nested, ha, hg]

theorem nested_eq_none_iff {keyword : Text} {kind : FunctionKind} {s : Text} :
    nested keyword kind s = .ok none ↔ ¬ keyword <+: s := by
  unfold nested
  split
  · next ha =>
    apply iff_of_true rfl
    intro h
    obtain ⟨t, rfl⟩ := h
    rw [Text.after?_eq_some_iff.mpr rfl] at ha
    cases ha
  · next arguments ha =>
    refine iff_of_false ?_ (not_not.mpr ⟨arguments, (Text.after?_eq_some_iff.mp ha).symm⟩)
    split <;> simp

theorem nested_eq_error_iff {keyword : Text} {kind : FunctionKind} {s : Text} {e : Malformed} :
    nested keyword kind s = .error e ↔ ∃ t, s = keyword ++ t ∧
      (∀ group, Group.Balanced group → ¬ group <+: t) ∧
      e = ⟨Group.faultOf t, keyword.length⟩ := by
  constructor
  · intro h
    unfold nested at h
    split at h
    · cases h
    · next arguments ha =>
      split at h
      · cases h
      · next fault hg =>
        cases h
        obtain ⟨hn, rfl⟩ := Group.read_eq_error_iff.mp hg
        exact ⟨arguments, Text.after?_eq_some_iff.mp ha, hn, rfl⟩
  · intro h
    obtain ⟨t, rfl, hn, rfl⟩ := h
    have ha : Text.after? (keyword ++ t) keyword = some t := Text.after?_eq_some_iff.mpr rfl
    have hg : Group.read t = .error (Group.faultOf t) := Group.read_eq_error_iff.mpr ⟨hn, rfl⟩
    simp only [nested, ha, hg]

theorem first_cons_of_pass {recognize : Recognizer} {s : Text} (h : recognize s = .ok none)
    (others : List Recognizer) : first (recognize :: others) s = first others s := by
  simp only [first, h]

theorem first_cons_of_not_pass {recognize : Recognizer} {s : Text} (h : recognize s ≠ .ok none)
    (others : List Recognizer) : first (recognize :: others) s = recognize s := by
  rw [first]
  split
  · next hn => exact (h hn).elim
  · rfl

theorem first_eq_none_iff {recognizers : List Recognizer} {s : Text} :
    first recognizers s = .ok none ↔ ∀ recognize ∈ recognizers, recognize s = .ok none := by
  induction recognizers with
  | nil => simp [first]
  | cons recognize others ih =>
    by_cases h : recognize s = .ok none
    · simp [first_cons_of_pass h, ih, h]
    · simp [first_cons_of_not_pass h, h]

end Recognizer

namespace Rule

def before (rules : List Rule) (rule : Rule) : List Rule := rules.takeWhile (· ≠ rule)

theorem first_eq_none_iff {rules : List Rule} {s : Text} :
    first rules s = .ok none ↔ ∀ rule ∈ rules, rule.recognize s = .ok none := by
  simp [first, Recognizer.first_eq_none_iff]

/-- An outcome other than passing comes from one rule, and the rules before it pass. -/
theorem first_eq_iff {rules : List Rule} {s : Text} {out : Except Malformed (Option Match)}
    (hout : out ≠ .ok none) :
    first rules s = out ↔ ∃ rule ∈ rules, rule.recognize s = out ∧
      ∀ r ∈ before rules rule, r.recognize s = .ok none := by
  induction rules with
  | nil => simpa [first, Recognizer.first] using hout.symm
  | cons head others ih =>
    simp only [first, List.map_cons] at ih ⊢
    by_cases h : head.recognize s = .ok none
    · rw [Recognizer.first_cons_of_pass h, ih]
      constructor
      · intro h
        obtain ⟨rule, hm, hr, hb⟩ := h
        have hne : head ≠ rule := by
          intro heq
          subst heq
          exact hout (hr.symm.trans h)
        refine ⟨rule, List.mem_cons_of_mem _ hm, hr, ?_⟩
        simpa [before, hne, h] using hb
      · intro h
        obtain ⟨rule, hm, hr, hb⟩ := h
        have hne : head ≠ rule := by
          intro heq
          subst heq
          exact hout (hr.symm.trans h)
        refine ⟨rule, (List.mem_cons.mp hm).resolve_left hne.symm, hr, ?_⟩
        simpa [before, hne, h] using hb
    · rw [Recognizer.first_cons_of_not_pass h]
      constructor
      · intro hr
        exact ⟨head, List.mem_cons_self, hr, by simp [before]⟩
      · intro h
        obtain ⟨rule, _, hr, hb⟩ := h
        by_cases hne : head = rule
        · rw [hne, hr]
        · exact (h (hb head (by simp [before, hne]))).elim

end Rule
end StyleValue
