import StyleValue.Proofs.Counting

/-! # Calls of any keyword

A keyword alone decides that a call has to stand at a place. The group behind it then decides the
outcome: the call is taken with it, or its failure is the failure of the call. What is taken is the
source up to the end of the group, and by itself it is taken again. -/

namespace StyleValue

theorem Group.Balanced.two_le_length {group : Text} (h : Balanced group) : 2 ≤ group.length := by
  obtain ⟨inner, -, rfl⟩ := h
  simp

namespace Recognizer

variable {keyword source group : Text} {kind : FunctionKind} {position : Nat} {found : Found}

/-- The source goes on with the keyword at a position that is not beyond its end. -/
def KeywordAt (keyword source : Text) (position : Nat) : Prop :=
  position ≤ source.length ∧ keyword <+: source.drop position

def callFound (keyword : Text) (kind : FunctionKind) (position : Nat) (group : Text) : Found :=
  ⟨⟨keyword ++ group, .function kind (keyword ++ group)⟩,
    position + keyword.length + group.length⟩

theorem KeywordAt.drop_eq (h : KeywordAt keyword source position) :
    source.drop position = keyword ++ source.drop (position + keyword.length) := by
  obtain ⟨-, arguments, hs⟩ := h
  rw [← List.drop_drop, ← hs, List.drop_left]

theorem nested_at_of_not_keyword (h : ¬ KeywordAt keyword source position) :
    (nested keyword kind).at source position = .ok none := by
  by_cases hle : position ≤ source.length
  · have hpass : nested keyword kind (source.drop position) = .ok none :=
      nested_eq_none_iff.mpr fun hk => h ⟨hle, hk⟩
    rw [Recognizer.at, if_pos hle, hpass]
    rfl
  · rw [Recognizer.at, if_neg hle]

theorem nested_at_of_keyword (h : KeywordAt keyword source position) :
    (nested keyword kind).at source position =
      (Group.at source (position + keyword.length)).map
        fun group => some (callFound keyword kind position group) := by
  have hafter := Text.after?_eq_some_iff.mpr h.drop_eq
  simp only [Recognizer.at, if_pos h.1, nested, hafter, Group.at]
  cases Group.read (source.drop (position + keyword.length)) with
  | error fault => rfl
  | ok split => simp [Except.map, callFound, Nat.add_assoc]

theorem nested_at_eq_none_iff :
    (nested keyword kind).at source position = .ok none ↔ ¬ KeywordAt keyword source position := by
  refine ⟨fun hnone h => ?_, nested_at_of_not_keyword⟩
  rw [nested_at_of_keyword h, map_eq_ok_iff] at hnone
  obtain ⟨group, -, hg⟩ := hnone
  cases hg

theorem nested_at_eq_some_iff :
    (nested keyword kind).at source position = .ok (some found) ↔
      KeywordAt keyword source position ∧ ∃ group,
        Group.at source (position + keyword.length) = .ok group ∧
        found = callFound keyword kind position group := by
  by_cases h : KeywordAt keyword source position
  · rw [nested_at_of_keyword h, map_eq_ok_iff]
    simp only [h, true_and, Option.some.injEq, eq_comm]
  · simp [nested_at_of_not_keyword h, h]

theorem nested_at_eq_error_iff {e : Failure} :
    (nested keyword kind).at source position = .error e ↔
      KeywordAt keyword source position ∧
        Group.at source (position + keyword.length) = .error e := by
  by_cases h : KeywordAt keyword source position
  · rw [nested_at_of_keyword h]
    cases Group.at source (position + keyword.length) with
    | error e' => simp [Except.map, h]
    | ok group => simp [Except.map]
  · simp [nested_at_of_not_keyword h, h]

theorem exists_group_of_nested (h : (nested keyword kind).at source position = .ok (some found)) :
    ∃ group rest, Group.Balanced group ∧ source.drop position = keyword ++ group ++ rest ∧
      found = callFound keyword kind position group := by
  obtain ⟨hk, group, hg, rfl⟩ := nested_at_eq_some_iff.mp h
  obtain ⟨rest, hr⟩ := Group.at_eq_ok_iff.mp hg
  obtain ⟨hb, hs⟩ := Group.read_eq_ok_iff.mp hr
  exact ⟨group, rest, hb, by rw [hk.drop_eq, hs, List.append_assoc], rfl⟩

theorem nested_at_zero (hb : Group.Balanced group) :
    (nested keyword kind).at (keyword ++ group) 0 = .ok (some (callFound keyword kind 0 group)) := by
  have hread : Group.at (keyword ++ group) (0 + keyword.length) = .ok group := by
    refine Group.at_eq_ok_iff.mpr ⟨[], Group.read_eq_ok_iff.mpr ⟨hb, ?_⟩⟩
    rw [Nat.zero_add, List.drop_left, List.append_nil]
  exact nested_at_eq_some_iff.mpr ⟨⟨Nat.zero_le _, List.prefix_append _ _⟩, group, hread, rfl⟩

/-- A call is passed over exactly where its keyword does not stand, found exactly where a group
stands behind the keyword, and fails as that group does elsewhere. The call found is the keyword with
the group, which is what the source holds there, and by itself it is found again as a whole. -/
theorem nested_outcome (keyword : Text) (kind : FunctionKind) (source : Text) (position : Nat) :
    ((nested keyword kind).at source position = .ok none ↔
      source.length < position ∨ ¬ keyword <+: source.drop position) ∧
    (∀ found, (nested keyword kind).at source position = .ok (some found) ↔
      KeywordAt keyword source position ∧ ∃ group,
        Group.at source (position + keyword.length) = .ok group ∧
        found = ⟨⟨keyword ++ group, .function kind (keyword ++ group)⟩,
          position + keyword.length + group.length⟩) ∧
    (∀ found, (nested keyword kind).at source position = .ok (some found) →
      found.token.raw = (source.drop position).take (found.stop - position) ∧
      position + 2 ≤ found.stop ∧ found.stop ≤ source.length ∧
      (nested keyword kind).at found.token.text 0 =
        .ok (some ⟨found.token, found.token.text.length⟩)) ∧
    (∀ e, (nested keyword kind).at source position = .error e ↔
      KeywordAt keyword source position ∧
        Group.at source (position + keyword.length) = .error e) ∧
    ∀ e, (nested keyword kind).at source position = .error e →
      ∃ fault : GroupFault,
        e.diagnostic = ⟨.malformed, fault.message, [], position + keyword.length⟩ := by
  refine ⟨?_, fun _ => nested_at_eq_some_iff, fun found h => ?_, fun _ => nested_at_eq_error_iff,
    fun e h => ?_⟩
  · rw [nested_at_eq_none_iff, KeywordAt, not_and_or, Nat.not_le]
  · obtain ⟨group, rest, hb, hs, rfl⟩ := exists_group_of_nested h
    have hlength := congrArg List.length hs
    have htwo := hb.two_le_length
    have hstop : (callFound keyword kind position group).stop - position =
        (keyword ++ group).length := by
      simp [callFound, Nat.add_assoc]
    simp only [List.length_drop, List.length_append] at hlength
    refine ⟨?_, ?_, ?_, ?_⟩
    · rw [hstop, hs, List.take_left]
      rfl
    · change position + 2 ≤ position + keyword.length + group.length
      omega
    · change position + keyword.length + group.length ≤ source.length
      omega
    · have hagain := @nested_at_zero keyword group kind hb
      rwa [callFound, Nat.zero_add, ← List.length_append] at hagain
  · obtain ⟨-, hg⟩ := nested_at_eq_error_iff.mp h
    obtain ⟨fault, -, rfl⟩ := Group.at_eq_error_iff.mp hg
    exact ⟨fault, rfl⟩

/-- An empty keyword stands at the end of a source, but not beyond it. -/
example : (nested [] .calc).at ['a'] 1 = .error (.malformed .notOpened 1) ∧
    (nested [] .calc).at ['a'] 2 = .ok none := ⟨rfl, rfl⟩

end Recognizer
end StyleValue
