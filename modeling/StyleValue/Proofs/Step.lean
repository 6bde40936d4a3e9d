import StyleValue.Parse
import StyleValue.Proofs.NumberText
import StyleValue.Proofs.Refusal

/-! # The outcome of a step

A step stops where only blanks are left. Elsewhere it fails where a keyword stands without a
group after it and where no lexeme can begin, and it takes a token everywhere else. What is said
of a failure is determined by the text after the blanks. -/

namespace StyleValue

theorem map_eq_ok_iff {α β : Type} {x : Except Failure α} {f : α → β} {y : β} :
    x.map f = .ok y ↔ ∃ a, x = .ok a ∧ f a = y := by
  cases x <;> simp [Except.map]

namespace Lexer

/-- Where a step looks for a token, after the blanks. -/
def start (lexer : Lexer) : Nat := lexer.index + (lexer.rest.takeWhile Text.isBlank).length

def unread (lexer : Lexer) : Text := lexer.source.drop lexer.start

theorem dropWhile_rest (lexer : Lexer) : lexer.rest.dropWhile Text.isBlank = lexer.unread := by
  have h : lexer.rest = lexer.rest.takeWhile Text.isBlank ++ lexer.rest.dropWhile Text.isBlank :=
    List.takeWhile_append_dropWhile.symm
  exact (rest_advance h).symm

theorem rest_split (lexer : Lexer) :
    lexer.rest = lexer.rest.takeWhile Text.isBlank ++ lexer.unread := by
  rw [← dropWhile_rest, List.takeWhile_append_dropWhile]

theorem begins_unread (lexer : Lexer) : lexer.unread.begins Text.isBlank = false := by
  rw [← dropWhile_rest]
  exact Text.begins_dropWhile _ _

theorem atEnd_iff {lexer : Lexer} : lexer.atEnd = true ↔ lexer.unread = [] := by
  rw [atEnd, decide_eq_true_iff, runEnd_index, unread, List.drop_eq_nil_iff, start]

theorem value_eq (lexer : Lexer) :
    lexer.value = match Rule.first Rule.trialOrder lexer.unread with
      | .ok (some m) =>
        (.ok (some { m.token with raw := lexer.rest.takeWhile Text.isBlank ++ m.token.raw }),
          ⟨lexer.source, lexer.start + m.token.raw.length⟩)
      | .ok none => (.ok none, ⟨lexer.source, lexer.start⟩)
      | .error e => (.error (e.failureAt lexer.start), ⟨lexer.source, lexer.start⟩) := by
  rw [← dropWhile_rest]
  exact value_eq_first lexer

theorem value_of_token {lexer : Lexer} {m : Match}
    (h : Rule.first Rule.trialOrder lexer.unread = .ok (some m)) :
    lexer.value =
      (.ok (some { m.token with raw := lexer.rest.takeWhile Text.isBlank ++ m.token.raw }),
        ⟨lexer.source, lexer.start + m.token.raw.length⟩) := by
  rw [value_eq, h]

theorem value_of_pass {lexer : Lexer} (h : Rule.first Rule.trialOrder lexer.unread = .ok none) :
    lexer.value = (.ok none, ⟨lexer.source, lexer.start⟩) := by
  rw [value_eq, h]

theorem value_of_error {lexer : Lexer} {e : Malformed}
    (h : Rule.first Rule.trialOrder lexer.unread = .error e) :
    lexer.value = (.error (e.failureAt lexer.start), ⟨lexer.source, lexer.start⟩) := by
  rw [value_eq, h]

theorem next_of_end {lexer : Lexer} (h : lexer.unread = []) :
    lexer.next = (.ok none, ⟨lexer.source, lexer.source.length⟩) := by
  rw [next, if_pos (atEnd_iff.mpr h)]

theorem next_of_unread {lexer : Lexer} (h : lexer.unread ≠ []) :
    lexer.next = match Rule.first Rule.trialOrder lexer.unread with
      | .ok (some m) =>
        (.ok (some { m.token with raw := lexer.rest.takeWhile Text.isBlank ++ m.token.raw }),
          ⟨lexer.source, lexer.start + m.token.raw.length⟩)
      | .ok none =>
        (.error (.unrecognizedAt lexer.source lexer.start), ⟨lexer.source, lexer.start⟩)
      | .error e => (.error (e.failureAt lexer.start), ⟨lexer.source, lexer.start⟩) := by
  rw [next, if_neg (mt atEnd_iff.mp h), value_eq]
  cases Rule.first Rule.trialOrder lexer.unread with
  | error e => rfl
  | ok found =>
    cases found with
    | none => rfl
    | some m => rfl

theorem next_stop_iff {lexer after : Lexer} :
    lexer.next = (.ok none, after) ↔
      lexer.unread = [] ∧ after = ⟨lexer.source, lexer.source.length⟩ := by
  by_cases h : lexer.unread = []
  · simp [next_of_end h, h, eq_comm]
  · rw [next_of_unread h]
    split <;> simp [h]

theorem next_error_iff {lexer after : Lexer} {e : Failure} :
    lexer.next = (.error e, after) ↔ lexer.unread ≠ [] ∧ after = ⟨lexer.source, lexer.start⟩ ∧
      ((∃ m, Rule.first Rule.trialOrder lexer.unread = .error m ∧ e = m.failureAt lexer.start) ∨
        (Rule.first Rule.trialOrder lexer.unread = .ok none ∧
          e = .unrecognizedAt lexer.source lexer.start)) := by
  by_cases h : lexer.unread = []
  · simp [next_of_end h, h]
  · rw [next_of_unread h]
    split <;> next hf => simp [h, hf, eq_comm, and_comm]

theorem next_token_iff {lexer after : Lexer} {token : Token} :
    lexer.next = (.ok (some token), after) ↔
      ∃ m, Rule.first Rule.trialOrder lexer.unread = .ok (some m) ∧
        token = { m.token with raw := lexer.rest.takeWhile Text.isBlank ++ m.token.raw } ∧
        after = ⟨lexer.source, lexer.start + m.token.raw.length⟩ := by
  by_cases h : lexer.unread = []
  · simp [next_of_end h, h, first_nil]
  · rw [next_of_unread h]
    split <;> next hf => simp [hf, eq_comm]

theorem next_of_value {lexer after : Lexer} {token : Token}
    (h : lexer.value = (.ok (some token), after)) : lexer.next = (.ok (some token), after) := by
  rw [value_eq] at h
  split at h
  · next m hm =>
    cases h
    exact next_token_iff.mpr ⟨m, hm, rfl, rfl⟩
  · cases h
  · cases h

theorem next_source {lexer after : Lexer} {out : Except Failure (Option Token)}
    (h : lexer.next = (out, after)) : after.source = lexer.source := by
  match out, h with
  | .ok none, h => rw [(next_stop_iff.mp h).2]
  | .ok (some token), h => rw [(value_token (next_token h).2).2.2]
  | .error e, h => rw [(next_error_iff.mp h).2.1]

theorem process_of_stop {lexer after : Lexer} (h : lexer.next = (.ok none, after)) :
    lexer.process = (.ok [], after) := by
  rw [process]
  split
  · next hn => rw [h] at hn; cases hn; rfl
  · next hn => rw [h] at hn; cases hn
  · next hn => rw [h] at hn; cases hn

theorem process_of_token {lexer after : Lexer} {token : Token}
    (h : lexer.next = (.ok (some token), after)) :
    lexer.process = (after.process.1.map (token :: ·), after.process.2) := by
  rw [process]
  split
  · next hn => rw [h] at hn; cases hn
  · next hn => rw [h] at hn; cases hn; rfl
  · next hn => rw [h] at hn; cases hn

theorem process_of_error {lexer after : Lexer} {e : Failure}
    (h : lexer.next = (.error e, after)) : lexer.process = (.error e, after) := by
  rw [process]
  split
  · next hn => rw [h] at hn; cases hn
  · next hn => rw [h] at hn; cases hn
  · next hn => rw [h] at hn; cases hn; rfl

end Lexer

theorem GroupFault.message_injective : Function.Injective GroupFault.message := by
  intro fault other h
  match fault, other, h with
  | .notOpened, .notOpened, _ | .notClosed, .notClosed, _ => rfl
  | .notOpened, .notClosed, h | .notClosed, .notOpened, h => exact absurd h (by decide)

theorem Failure.diagnostic_injective : Function.Injective Failure.diagnostic := by
  intro e e' h
  cases e with
  | unrecognized snippet position =>
    cases e' with
    | unrecognized snippet' position' =>
      simp only [diagnostic, Diagnostic.mk.injEq] at h
      rw [h.2.2.1, h.2.2.2]
    | malformed => simp [diagnostic] at h
  | malformed fault position =>
    cases e' with
    | unrecognized => simp [diagnostic] at h
    | malformed fault' position' =>
      simp only [diagnostic, Diagnostic.mk.injEq, true_and] at h
      rw [GroupFault.message_injective h.1, h.2]

theorem Lexeme.converts {amount : Amount} {unit string : Text}
    (h : Lexeme (.number amount unit string)) :
    ∃ numeral, string = numeral ++ unit ∧ Converts numeral amount := by
  cases h with
  | fraction hn _ => exact ⟨_, rfl, hn.converts⟩
  | integer hn _ _ => exact ⟨_, rfl, hn.converts⟩

namespace Lexer

theorem unread_eq_nil_iff {lexer : Lexer} :
    lexer.unread = [] ↔ lexer.source.length ≤ lexer.index ∨ lexer.rest.all Text.isBlank := by
  rw [← dropWhile_rest, List.dropWhile_eq_nil_iff, ← List.all_eq_true]
  refine ⟨Or.inr, ?_⟩
  intro h
  rcases h with h | h
  · rw [rest, List.drop_eq_nil_of_le h, List.all_nil]
  · exact h

theorem lexeme_of_next {lexer after : Lexer} {token : Token}
    (h : lexer.next = (.ok (some token), after)) : Lexeme token.body := by
  obtain ⟨m, hm, rfl, -⟩ := next_token_iff.mp h
  obtain ⟨b, rest, hs, rfl⟩ := stands_of_first hm
  simpa using hs.lexeme

theorem malformed_iff {lexer after : Lexer} {e : Failure} :
    lexer.next = (.error e, after) ∧ e.diagnostic.cause = .malformed ↔
      after = ⟨lexer.source, lexer.start⟩ ∧ ∃ keyword rest, Ungrouped lexer.unread keyword rest ∧
        e = .malformed (Group.faultOf rest) (lexer.start + keyword.length) := by
  constructor
  · intro h
    obtain ⟨h, hc⟩ := h
    obtain ⟨-, rfl, ⟨m, hm, rfl⟩ | ⟨-, rfl⟩⟩ := next_error_iff.mp h
    · obtain ⟨keyword, rest, hu, rfl⟩ := Rule.first_eq_error_iff.mp hm
      exact ⟨rfl, keyword, rest, hu, rfl⟩
    · cases hc
  · intro h
    obtain ⟨rfl, keyword, rest, hu, rfl⟩ := h
    exact ⟨next_error_iff.mpr ⟨hu.ne_nil, rfl, Or.inl
      ⟨_, Rule.first_eq_error_iff.mpr ⟨keyword, rest, hu, rfl⟩, rfl⟩⟩, rfl⟩

theorem unrecognized_iff {lexer after : Lexer} {e : Failure} :
    lexer.next = (.error e, after) ∧ e.diagnostic.cause = .unrecognized ↔
      after = ⟨lexer.source, lexer.start⟩ ∧ ∃ c rest, lexer.unread = c :: rest ∧
        Unreadable c rest ∧ e = .unrecognized (lexer.unread.take 10) lexer.start := by
  constructor
  · intro h
    obtain ⟨h, hc⟩ := h
    obtain ⟨hne, rfl, ⟨m, -, rfl⟩ | ⟨hpass, rfl⟩⟩ := next_error_iff.mp h
    · cases hc
    · obtain ⟨c, rest, hu⟩ := List.exists_cons_of_ne_nil hne
      rw [hu] at hpass
      exact ⟨rfl, c, rest, hu, Rule.first_pass_iff.mp hpass, Failure.unrecognizedAt_eq _ _⟩
  · intro h
    obtain ⟨rfl, c, rest, hu, hunreadable, rfl⟩ := h
    have hpass : Rule.first Rule.trialOrder lexer.unread = .ok none := by
      rw [hu]
      exact Rule.first_pass_iff.mpr hunreadable
    have hne : lexer.unread ≠ [] := by simp [hu]
    exact ⟨next_error_iff.mpr
      ⟨hne, rfl, Or.inr ⟨hpass, (Failure.unrecognizedAt_eq _ _).symm⟩⟩, rfl⟩

theorem token_iff {lexer : Lexer} :
    (∃ token after, lexer.next = (.ok (some token), after)) ↔ lexer.unread ≠ [] ∧
      (¬ ∃ keyword rest, Ungrouped lexer.unread keyword rest) ∧
      ¬ ∃ c rest, lexer.unread = c :: rest ∧ Unreadable c rest := by
  constructor
  · intro h
    obtain ⟨token, after, h⟩ := h
    obtain ⟨m, hm, -, -⟩ := next_token_iff.mp h
    refine ⟨?_, ?_, ?_⟩
    · intro hn
      rw [hn, first_nil] at hm
      cases hm
    · intro h
      obtain ⟨keyword, rest, hu⟩ := h
      have he := Rule.first_eq_error_iff.mpr ⟨keyword, rest, hu, rfl⟩
      rw [hm] at he
      cases he
    · intro h
      obtain ⟨c, rest, hu, hunreadable⟩ := h
      rw [hu, Rule.first_pass_iff.mpr hunreadable] at hm
      cases hm
  · intro h
    obtain ⟨hne, hgroup, hread⟩ := h
    match hf : Rule.first Rule.trialOrder lexer.unread with
    | .ok (some m) => exact ⟨_, _, next_token_iff.mpr ⟨m, hf, rfl, rfl⟩⟩
    | .ok none =>
      obtain ⟨c, rest, hu⟩ := List.exists_cons_of_ne_nil hne
      rw [hu] at hf
      exact (hread ⟨c, rest, hu, Rule.first_pass_iff.mp hf⟩).elim
    | .error e =>
      obtain ⟨keyword, rest, hu, -⟩ := Rule.first_eq_error_iff.mp hf
      exact (hgroup ⟨keyword, rest, hu⟩).elim

theorem unread_ne_nil_of_token {lexer after : Lexer} {token : Token}
    (h : lexer.next = (.ok (some token), after)) : lexer.unread ≠ [] :=
  (token_iff.mp ⟨token, after, h⟩).1

theorem malformed_diagnostic_iff {e : Failure} {rest : Text} {position : Nat} :
    e.diagnostic = ⟨.malformed,
        if rest.head? = some '(' then "Failed parsing: No matching paren".toList
        else "expected opening paren".toList, [], position⟩ ↔
      e = .malformed (Group.faultOf rest) position := by
  rw [← Failure.diagnostic_injective.eq_iff, Failure.diagnostic, Group.faultOf]
  split
  · rfl
  · rfl

theorem unrecognized_diagnostic_iff {e : Failure} {snippet : Text} {position : Nat} :
    e.diagnostic = ⟨.unrecognized, "failed to parse near '".toList ++ snippet ++ "...'".toList,
        snippet, position⟩ ↔ e = .unrecognized snippet position :=
  Failure.diagnostic_injective.eq_iff' rfl

/-- A step stops, fails or takes a token as the text after the blanks decides, and every number
it takes is accepted by the conversion of its numeral. -/
theorem next_outcome (lexer : Lexer) :
    (∀ after, lexer.next = (.ok none, after) ↔
      (lexer.source.length ≤ lexer.index ∨ lexer.rest.all Text.isBlank) ∧
        after = ⟨lexer.source, lexer.source.length⟩) ∧
    (∀ e after, lexer.next = (.error e, after) ∧ e.diagnostic.cause = .malformed ↔
      after = ⟨lexer.source, lexer.start⟩ ∧ ∃ keyword rest, Ungrouped lexer.unread keyword rest ∧
        e.diagnostic = ⟨.malformed,
          if rest.head? = some '(' then "Failed parsing: No matching paren".toList
          else "expected opening paren".toList, [], lexer.start + keyword.length⟩) ∧
    (∀ e after, lexer.next = (.error e, after) ∧ e.diagnostic.cause = .unrecognized ↔
      after = ⟨lexer.source, lexer.start⟩ ∧ ∃ c rest, lexer.unread = c :: rest ∧
        Unreadable c rest ∧ lexer.unread.take 10 ≠ [] ∧
        e.diagnostic = ⟨.unrecognized,
          "failed to parse near '".toList ++ lexer.unread.take 10 ++ "...'".toList,
          lexer.unread.take 10, lexer.start⟩) ∧
    ((∃ token after, lexer.next = (.ok (some token), after)) ↔
      ¬ (lexer.source.length ≤ lexer.index ∨ lexer.rest.all Text.isBlank) ∧
      (¬ ∃ keyword rest, Ungrouped lexer.unread keyword rest) ∧
      ¬ ∃ c rest, lexer.unread = c :: rest ∧ Unreadable c rest) ∧
    ∀ token after amount unit string, lexer.next = (.ok (some token), after) →
      token.body = .number amount unit string →
      ∃ numeral, string = numeral ++ unit ∧ Converts numeral amount := by
  simp only [malformed_diagnostic_iff, unrecognized_diagnostic_iff, ← unread_eq_nil_iff]
  refine ⟨fun _ => next_stop_iff, fun _ _ => malformed_iff, fun _ _ => ?_, token_iff, ?_⟩
  · rw [unrecognized_iff]
    refine and_congr_right fun _ => exists_congr fun c => exists_congr fun rest =>
      and_congr_right fun hu => and_congr_right fun _ => ?_
    simp [hu]
  · intro token after amount unit string h hb
    have hl := lexeme_of_next h
    rw [hb] at hl
    exact hl.converts

end Lexer
end StyleValue
