import StyleValue.Proofs.Grammar

/-! # The blanks around a token

A step that takes a token skips blanks, takes the text of a lexeme that does not go on, and takes
the spaces after it. Only calls with a group leave these spaces to the next step. -/

namespace StyleValue

/-- What the token of a lexeme takes of the text after it. -/
def Body.spaces (b : Body) (rest : Text) : Text :=
  if b.takesSpaces then rest.takeWhile (· = ' ') else []

namespace Body

theorem found_token (b : Body) (rest : Text) :
    (b.found rest).token = ⟨b.text ++ b.spaces rest, b⟩ := by
  unfold found spaces
  split
  · rfl
  · rw [List.append_nil]

theorem eq_space_of_mem {b : Body} {rest : Text} {c : Char} (h : c ∈ b.spaces rest) : c = ' ' := by
  unfold spaces at h
  split at h
  · simpa using Text.mem_takeWhile c h
  · cases h

theorem begins_after_spaces {b : Body} {rest after : Text} (hts : b.takesSpaces = true)
    (hr : rest = b.spaces rest ++ after) : after.begins (· = ' ') = false := by
  rw [spaces, if_pos hts] at hr
  have hsplit := hr.symm.trans (List.takeWhile_append_dropWhile (p := (· = ' '))).symm
  rw [List.append_cancel_left hsplit]
  exact Text.begins_dropWhile _ rest

theorem spaces_append {b : Body} {rest after : Text}
    (h : b.takesSpaces = true → after.begins (· = ' ') = false) :
    b.spaces (b.spaces rest ++ after) = b.spaces rest := by
  unfold spaces
  split
  · next hts => exact Text.takeWhile_run Text.mem_takeWhile (h hts)
  · rfl

theorem spaces_blank (b : Body) (rest : Text) : ∀ c ∈ b.spaces rest, Text.isBlank c :=
  fun _ h => (eq_space_of_mem h).symm ▸ Text.isBlank_space

end Body

namespace Lexer

/-- How a step takes a token. The lexeme stands behind the blanks, with `rest` after it. -/
structure Takes (lexer : Lexer) (token : Token) (rest : Text) (after : Lexer) : Prop where
  stands : Stands token.body lexer.unread rest
  raw_eq : token.raw =
    lexer.rest.takeWhile Text.isBlank ++ token.text ++ token.body.spaces rest
  rest_eq : rest = token.body.spaces rest ++ after.rest
  after_eq : after = ⟨lexer.source, lexer.index + token.raw.length⟩

variable {lexer after : Lexer} {token : Token} {rest : Text}

theorem exists_takes (h : lexer.next = (.ok (some token), after)) :
    ∃ rest, lexer.Takes token rest after := by
  obtain ⟨-, hrest, hafter⟩ := value_token (next_token h).2
  obtain ⟨m, hm, rfl, -⟩ := next_token_iff.mp h
  obtain ⟨b, rest, hs, rfl⟩ := stands_of_first hm
  simp only [b.found_token] at hrest hafter ⊢
  have hsplit := (rest_split lexer).symm.trans hrest
  rw [hs.text_eq] at hsplit
  refine ⟨rest, hs, ?_, by simpa using hsplit, hafter⟩
  rw [List.append_assoc]
  rfl

theorem next_of_lexeme {b : Body} {lead : Text} (hl : ∀ c ∈ lead, Text.isBlank c) (hb : Lexeme b)
    (hf : Follows b rest) (hr : lexer.rest = lead ++ (b.text ++ rest)) :
    lexer.next = (.ok (some ⟨lead ++ b.text ++ b.spaces rest, b⟩),
      ⟨lexer.source, lexer.index + (lead ++ b.text ++ b.spaces rest).length⟩) := by
  have hblank : (b.text ++ rest).begins Text.isBlank = false := by
    rw [Text.begins_append hb.text_ne_nil]
    exact hb.begins_blank
  obtain ⟨hstart, hunread⟩ := start_of_rest hl hblank hr
  refine next_token_iff.mpr ⟨_, first_of_stands ⟨hb, hunread, hf⟩, ?_, ?_⟩
  · rw [b.found_token, hr, Text.takeWhile_run hl hblank, List.append_assoc]
  · rw [b.found_token, hstart]
    simp only [List.length_append, Nat.add_assoc]

theorem Takes.rest_split (h : lexer.Takes token rest after) :
    lexer.rest = token.raw ++ after.rest := by
  calc lexer.rest
      = lexer.rest.takeWhile Text.isBlank ++ lexer.unread := Lexer.rest_split lexer
    _ = lexer.rest.takeWhile Text.isBlank ++
          (token.text ++ (token.body.spaces rest ++ after.rest)) := by
        rw [← h.rest_eq, Token.text, ← h.stands.text_eq]
    _ = token.raw ++ after.rest := by
        rw [h.raw_eq]
        simp only [List.append_assoc]

theorem Takes.trim_raw (h : lexer.Takes token rest after) :
    token.raw.trim Text.isBlank = token.text := by
  have hl := h.stands.lexeme
  rw [h.raw_eq]
  exact Text.trim_run Text.mem_takeWhile ⟨hl.begins_blank, hl.ends_blank⟩
    (token.body.spaces_blank rest)

end Lexer
end StyleValue
