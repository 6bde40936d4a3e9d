import StyleValue.Position
import StyleValue.Proofs.Refusal

/-! # The trial order

No character begins tokens of two rules, unless identifiers are one of them. So at most one other
rule does not pass on a text, and the order of these rules is free. Identifiers have to come after
the rules whose tokens can begin as they do. -/

namespace StyleValue
namespace Rule

/-- The rules whose tokens can begin as an identifier does. -/
def rivals : List Rule := [.number, .color, .gradient, .calc, .url, .variable]

/-- The rule by which a token can be found that begins with `c` and is no identifier. -/
def ofFirst (c : Char) : Rule :=
  match c with
  | '/' => .operator
  | ',' => .comma
  | '\'' | '"' => .string
  | 'r' => .color
  | 'u' => .url
  | 'l' => .gradient
  | 'c' => .calc
  | 'v' => .variable
  | _ => .number

theorem ofFirst_of_starts {rule : Rule} {c : Char} (hm : rule ∈ trialOrder) (hi : rule ≠ .ident)
    (h : rule.starts c = true) : ofFirst c = rule := by
  match rule, h with
  | .ident, _ => exact absurd rfl hi
  | .fraction, _ | .integer, _ | .single, _ | .double, _ => exact absurd hm (by decide)
  | .number, h =>
    unfold ofFirst
    split
    case h_10 => rfl
    -- None of the characters of the other rules begins a number.
    all_goals exact absurd h (by decide)
  | .string, h =>
    have hc : c = '\'' ∨ c = '"' := by simpa [starts] using h
    rcases hc with rfl | rfl
    · rfl
    · rfl
  | .operator, h | .comma, h | .color, h | .url, h | .gradient, h | .calc, h | .variable, h =>
    rw [of_decide_eq_true h]
    rfl

theorem ofFirst_mem_rivals {c : Char} (h : isIdentChar c = true) : ofFirst c ∈ rivals := by
  unfold ofFirst
  revert h
  split
  case h_10 => exact fun _ => by decide
  all_goals decide

theorem starts_of_not_pass {rule : Rule} {c : Char} {s : Text}
    (h : rule.recognize (c :: s) ≠ .ok none) : rule.starts c = true := by
  by_contra hs
  exact h (recognize_pass (by simpa using hs))

theorem recognize_nil (rule : Rule) : rule.recognize [] = .ok none :=
  recognize_pass rfl

/-- At most one rule other than that of identifiers does not pass on a text. -/
theorem pass_of_other {r r' : Rule} {s : Text} (hr : r ∈ trialOrder) (hi : r ≠ .ident)
    (hr' : r' ∈ trialOrder) (hi' : r' ≠ .ident) (hne : r ≠ r') (h : r.recognize s ≠ .ok none) :
    r'.recognize s = .ok none := by
  cases s with
  | nil => exact recognize_nil r'
  | cons c s =>
    by_contra h'
    apply hne
    rw [← ofFirst_of_starts hr hi (starts_of_not_pass h),
      ofFirst_of_starts hr' hi' (starts_of_not_pass h')]

theorem mem_trialOrder_of_rival : ∀ rule ∈ rivals, rule ∈ trialOrder ∧ rule ≠ .ident := by
  decide

theorem mem_rivals {rule : Rule} {s : Text} (hr : rule ∈ trialOrder) (hi : rule ≠ .ident)
    (h : rule.recognize s ≠ .ok none) (h' : Rule.ident.recognize s ≠ .ok none) :
    rule ∈ rivals := by
  cases s with
  | nil => exact absurd (recognize_nil rule) h
  | cons c s =>
    have hc : isIdentChar c = true := starts_of_not_pass h'
    rw [← ofFirst_of_starts hr hi (starts_of_not_pass h)]
    exact ofFirst_mem_rivals hc

section before

variable {rules : List Rule} {r r' : Rule}

theorem mem_of_before (h : r ∈ before rules r') : r ∈ rules ∧ r ≠ r' :=
  ⟨(List.takeWhile_prefix _).subset h, by simpa using List.mem_takeWhile_imp h⟩

theorem before_cons (head : Rule) (rules : List Rule) (r : Rule) :
    before (head :: rules) r = if head = r then [] else head :: before rules r := by
  by_cases h : head = r <;> simp [before, h]

theorem not_before_of_before (h : r ∈ before rules r') : r' ∉ before rules r := by
  induction rules with
  | nil => cases h
  | cons head rules ih =>
    intro h'
    rw [before_cons] at h h'
    split at h
    · cases h
    · next hne' =>
      split at h'
      · cases h'
      · next hne =>
        have hm := (List.mem_cons.mp h).resolve_left (Ne.symm hne)
        exact ih hm ((List.mem_cons.mp h').resolve_left (Ne.symm hne'))

theorem before_of_not_before (hr : r ∈ rules) (hne : r ≠ r') (h : r ∉ before rules r') :
    r' ∈ before rules r := by
  induction rules with
  | nil => cases hr
  | cons head rules ih =>
    rw [before_cons] at h ⊢
    by_cases hhead : head = r'
    · subst hhead
      rw [if_neg (Ne.symm hne)]
      exact List.mem_cons_self
    · rw [if_neg hhead, List.mem_cons, not_or] at h
      rw [if_neg (Ne.symm h.1)]
      exact List.mem_cons_of_mem _ (ih ((List.mem_cons.mp hr).resolve_left h.1) h.2)

end before

variable {rules : List Rule} {s : Text}

theorem first_eq_iff_of_rivals (hp : rules.Perm trialOrder)
    (ho : ∀ rule ∈ rivals, rule ∈ before rules .ident)
    {out : Except Malformed (Option Match)} (hout : out ≠ .ok none) :
    first rules s = out ↔ (∃ rule ∈ trialOrder, rule ≠ .ident ∧ rule.recognize s = out) ∨
      (Rule.ident.recognize s = out ∧ ∀ rule ∈ rivals, rule.recognize s = .ok none) := by
  rw [first_eq_iff hout]
  constructor
  · intro h
    obtain ⟨rule, hm, hr, hb⟩ := h
    by_cases hi : rule = .ident
    · subst hi
      exact Or.inr ⟨hr, fun r hrival => hb r (ho r hrival)⟩
    · exact Or.inl ⟨rule, hp.subset hm, hi, hr⟩
  · intro h
    rcases h with ⟨rule, hm, hi, hr⟩ | ⟨hr, hrivals⟩
    · refine ⟨rule, hp.symm.subset hm, hr, ?_⟩
      intro r hb
      obtain ⟨hmem, hne⟩ := mem_of_before hb
      have hnot : rule.recognize s ≠ .ok none := hr ▸ hout
      by_cases hident : r = .ident
      · -- Identifiers before the rule would have to come after it if they did not pass.
        subst hident
        by_contra hpass
        exact not_before_of_before hb (ho rule (mem_rivals hm hi hnot hpass))
      · exact pass_of_other hm hi (hp.subset hmem) hident (Ne.symm hne) hnot
    · refine ⟨.ident, hp.symm.subset (by decide), hr, ?_⟩
      intro r hb
      obtain ⟨hmem, hne⟩ := mem_of_before hb
      by_contra hpass
      exact hpass (hrivals r (mem_rivals (hp.subset hmem) hne hpass (hr ▸ hout)))

theorem first_eq_of_rivals (hp : rules.Perm trialOrder)
    (ho : ∀ rule ∈ rivals, rule ∈ before rules .ident) (s : Text) :
    first rules s = first trialOrder s := by
  by_cases h : first trialOrder s = .ok none
  · rw [h, first_eq_none_iff]
    exact fun rule hm => first_eq_none_iff.mp h rule (hp.subset hm)
  · rw [first_eq_iff_of_rivals hp ho h,
      ← first_eq_iff_of_rivals (List.Perm.refl trialOrder) (by decide) h]

theorem first_eq_ident {rival : Rule} (hp : rules.Perm trialOrder) (hrival : rival ∈ rivals)
    (hb : .ident ∈ before rules rival) (h : rival.recognize s ≠ .ok none)
    (hident : Rule.ident.recognize s ≠ .ok none) : first rules s = Rule.ident.recognize s := by
  obtain ⟨hm, hi⟩ := mem_trialOrder_of_rival rival hrival
  refine (first_eq_iff hident).mpr ⟨.ident, (mem_of_before hb).1, rfl, ?_⟩
  intro r hr
  obtain ⟨hmem, hne⟩ := mem_of_before hr
  refine pass_of_other hm hi (hp.subset hmem) hne ?_ h
  rintro rfl
  exact not_before_of_before hb hr

theorem exists_contested {rival : Rule} (h : rival ∈ rivals) :
    ∃ s, rival.recognize s ≠ .ok none ∧ Rule.ident.recognize s ≠ .ok none ∧
      Rule.ident.recognize.at s 0 ≠ (first trialOrder).at s 0 := by
  simp only [rivals, List.mem_cons, List.not_mem_nil, or_false] at h
  rcases h with rfl | rfl | rfl | rfl | rfl | rfl
  · exact ⟨"1".toList, by decide, by decide, by decide⟩
  · exact ⟨"rgb()".toList, by decide, by decide, by decide⟩
  · exact ⟨"linear-gradient()".toList, by decide, by decide, by decide⟩
  · exact ⟨"calc()".toList, by decide, by decide, by decide⟩
  · exact ⟨"url()".toList, by decide, by decide, by decide⟩
  · exact ⟨"var()".toList, by decide, by decide, by decide⟩

end Rule

/-- The rules can be tried in any order in which identifiers come after every number and every
call. In any other order some text is read differently. -/
theorem Rule.trial_order_iff {rules : List Rule} (hp : rules.Perm trialOrder) :
    (∀ source position, (first rules).at source position = (first trialOrder).at source position) ↔
      ∀ rule ∈ [Rule.number, .color, .gradient, .calc, .url, .variable],
        rule ∈ before rules .ident := by
  constructor
  · intro h rule hrival
    by_contra hb
    obtain ⟨hm, hi⟩ := mem_trialOrder_of_rival rule hrival
    obtain ⟨s, hrule, hident, hne⟩ := exists_contested hrival
    apply hne
    rw [← h s 0]
    exact Recognizer.at_congr
      (first_eq_ident hp hrival (before_of_not_before (hp.symm.subset hm) hi hb) hrule hident).symm
  · intro ho source position
    exact Recognizer.at_congr (first_eq_of_rivals hp ho _)

theorem Rule.trial_order_iff_ident_last :
    ([.comma, .string, .variable, .url, .calc, .gradient, .color, .number, .operator, .ident] :
      List Rule).Perm trialOrder ∧
    ∀ source position,
      (first [.comma, .string, .variable, .url, .calc, .gradient, .color, .number, .operator,
        .ident]).at source position = (first trialOrder).at source position :=
  ⟨by decide, (trial_order_iff (by decide)).mpr (by decide)⟩

end StyleValue
