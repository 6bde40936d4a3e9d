import Mathlib.Data.List.Induction
import StyleValue.Proofs.Separation
import StyleValue.Proofs.Trailing

/-! # Sources that are not trimmed

Reading a source as it is and reading what trimming leaves of it are one reading. The blanks at the
beginning go to the first raw text and move the positions. Of the blanks at the end the last token
may take spaces, and a snippet may show some of them. -/

namespace StyleValue

section

variable {α β : Type} {f : α → α} {g : α → β} (f' : β → β)

theorem map_modifyHead (h : ∀ a, g (f a) = f' (g a)) (l : List α) :
    (l.modifyHead f).map g = (l.map g).modifyHead f' := by
  cases l with
  | nil => rfl
  | cons a l => simp only [List.modifyHead_cons, List.map_cons, h]

theorem map_modifyLast (h : ∀ a, g (f a) = f' (g a)) (l : List α) :
    (l.modifyLast f).map g = (l.map g).modifyLast f' := by
  induction l using List.reverseRecOn with
  | nil => rfl
  | append_singleton l a _ =>
    simp only [List.modifyLast_concat, List.map_append, List.map_cons, List.map_nil, h]

theorem modifyLast_id (l : List α) : l.modifyLast id = l := by
  induction l using List.reverseRecOn with
  | nil => rfl
  | append_singleton l a _ => rw [List.modifyLast_concat, id]

end

def framed (lead trail : Text) (tokens : List Token) : List Token :=
  (tokens.modifyLast (Token.padded [] trail)).modifyHead (Token.padded lead [])

theorem map_raw_framed (lead trail : Text) (tokens : List Token) :
    (framed lead trail tokens).map Token.raw =
      ((tokens.map Token.raw).modifyLast (· ++ trail)).modifyHead (lead ++ ·) := by
  rw [framed, map_modifyHead (lead ++ ·) fun t => List.append_nil (lead ++ t.raw),
    map_modifyLast (· ++ trail) fun _ => rfl]

theorem map_entry_framed (lead trail : Text) (tokens : List Token) :
    (framed lead trail tokens).map Token.entry = tokens.map Token.entry := by
  have hentry : ∀ (l r : Text) (t : Token), (t.padded l r).entry = id t.entry := fun _ _ _ => rfl
  rw [framed, map_modifyHead id (hentry lead []), map_modifyLast id (hentry [] trail),
    modifyLast_id, List.modifyHead_id, id]

namespace Lexer

theorem process_lead {lead : Text} (hl : ∀ c ∈ lead, Text.isBlank c) (s : Text) :
    (ofSource (lead ++ s)).process.1 =
      ((ofSource s).process.1.mapError (Failure.shift lead.length)).map
        (List.modifyHead (Token.padded lead [])) := by
  have hbehind := process_behind lead (ofSource s)
  rw [@process_skip (ofSource (lead ++ s)) lead s hl rfl]
  simp only [ofSource, behind, Nat.zero_add, Nat.add_zero] at hbehind ⊢
  rw [hbehind]

end Lexer

/-- A source is what trimming leaves of it, with blanks behind it and others before it. -/
theorem exists_process_before (source : Text) :
    ∃ tail : Text, (∀ c ∈ tail, Text.isBlank c) ∧ (Lexer.ofSource source).process.1 =
      (((Lexer.ofSource (source.trim Text.isBlank)).before tail).process.1.mapError
        (Failure.shift (source.takeWhile Text.isBlank).length)).map
          (List.modifyHead (Token.padded (source.takeWhile Text.isBlank) [])) := by
  obtain ⟨tail, htail, hsource⟩ := Text.exists_margin Text.isBlank source
  have hlead := Lexer.process_lead (@Text.mem_takeWhile Text.isBlank source)
    (source.trim Text.isBlank ++ tail)
  rw [← List.append_assoc, hsource] at hlead
  exact ⟨tail, htail, hlead⟩

theorem process_of_parse {source : Text} {tokens : List Token} (h : parse source = .ok tokens) :
    ∃ spaces, (∀ c ∈ spaces, c = ' ') ∧ (Lexer.ofSource source).process.1 =
      .ok (framed (source.takeWhile Text.isBlank) spaces tokens) := by
  obtain ⟨tail, htail, hsource⟩ := exists_process_before source
  obtain ⟨spaces, hspaces, hp⟩ := @Lexer.process_before (.ofSource (source.trim Text.isBlank)) tail
    tokens (Nat.zero_le _) (Text.trimmed_trim Text.isBlank source).ends htail h
  exact ⟨spaces, hspaces, by rw [hsource, hp]; rfl⟩

theorem process_of_parse_error {source : Text} {e : Failure} (h : parse source = .error e) :
    ∃ e' : Failure, e'.cut (source.trim Text.isBlank).length = e ∧
      (Lexer.ofSource source).process.1 =
        .error (e'.shift (source.takeWhile Text.isBlank).length) := by
  obtain ⟨tail, htail, hsource⟩ := exists_process_before source
  obtain ⟨e', hp, hcut⟩ := Lexer.process_before_error (.ofSource (source.trim Text.isBlank))
    (Nat.zero_le _) (Text.trimmed_trim Text.isBlank source).ends htail h
  exact ⟨e', hcut, by rw [hsource, hp]; rfl⟩

/-- The source and its trimmed text are read alike: to the same tokens, up to the blanks at both
ends, or to the same failure, up to its position and to the blanks in its snippet. -/
theorem process_untrimmed (source : Text) :
    let lead := source.takeWhile Text.isBlank
    let trimmed := source.trim Text.isBlank
    (∃ tokens others spaces, (Lexer.ofSource source).process.1 = .ok tokens ∧
      parse source = .ok others ∧ tokens.map Token.entry = others.map Token.entry ∧
      (∀ c ∈ spaces, c = ' ') ∧ tokens.map Token.raw =
        ((others.map Token.raw).modifyLast (· ++ spaces)).modifyHead (lead ++ ·)) ∨
    ∃ e e' : Failure, (Lexer.ofSource source).process.1 = .error e ∧ parse source = .error e' ∧
      e.diagnostic.cause = e'.diagnostic.cause ∧
      e.diagnostic.position = e'.diagnostic.position + lead.length ∧
      (e.diagnostic.cause = .unrecognized → e'.diagnostic.snippet =
        e.diagnostic.snippet.take (lead.length + trimmed.length - e.diagnostic.position)) ∧
      (e.diagnostic.cause = .malformed → e.diagnostic.message = e'.diagnostic.message ∧
        e.diagnostic.snippet = [] ∧ e'.diagnostic.snippet = []) := by
  intro lead trimmed
  cases h : parse source with
  | ok others =>
    obtain ⟨spaces, hspaces, hp⟩ := process_of_parse h
    exact Or.inl ⟨_, others, spaces, hp, rfl, map_entry_framed _ _ _, hspaces,
      map_raw_framed _ _ _⟩
  | error e' =>
    obtain ⟨e, rfl, hp⟩ := process_of_parse_error h
    refine Or.inr ⟨_, _, hp, rfl, ?_⟩
    cases e with
    | unrecognized snippet position =>
      have hlimit : trimmed.length - position =
          lead.length + trimmed.length - (position + lead.length) := by omega
      refine ⟨rfl, rfl, fun _ => congrArg (snippet.take ·) hlimit, fun hc => ?_⟩
      cases hc
    | malformed fault position =>
      refine ⟨rfl, rfl, fun hc => ?_, fun _ => ⟨rfl, rfl, rfl⟩⟩
      cases hc

end StyleValue
