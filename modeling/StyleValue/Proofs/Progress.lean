import StyleValue.Proofs.Ownership

/-! # How many steps reading takes

A step that takes a token moves the index on, and past a character that is not blank. So there are
no more such steps than characters that are not blank, and the one step more that reading makes
stops or fails. -/

namespace StyleValue

def Text.nonblanks (s : Text) : Nat := s.countP fun c => !isBlank c

theorem Text.nonblanks_append (s t : Text) : (s ++ t).nonblanks = s.nonblanks + t.nonblanks :=
  List.countP_append

theorem Text.nonblanks_pos_iff {s : Text} : 0 < s.nonblanks ↔ ∃ c ∈ s, isBlank c = false := by
  simp [nonblanks, List.countP_pos_iff]

theorem Text.nonblanks_trim_le (s : Text) : (s.trim isBlank).nonblanks ≤ s.nonblanks := by
  obtain ⟨tail, -, hsplit⟩ := exists_margin isBlank s
  have hcount := congrArg nonblanks hsplit
  rw [nonblanks_append, nonblanks_append] at hcount
  omega

namespace Lexer

variable {lexer last after : Lexer} {token : Token} {tokens : List Token}

/-- A step moves the index on inside the source, over a character that is not blank. -/
structure Advances (lexer after : Lexer) : Prop where
  source_eq : after.source = lexer.source
  moves : lexer.index < after.index
  inside : after.index ≤ lexer.source.length
  reads : ∃ c ∈ (lexer.source.drop lexer.index).take (after.index - lexer.index),
    Text.isBlank c = false

theorem Takes.exists_nonblank {rest : Text} (h : lexer.Takes token rest after) :
    ∃ c ∈ token.raw, Text.isBlank c = false := by
  have hlex := h.stands.lexeme
  obtain ⟨c, s, hc⟩ := List.exists_cons_of_ne_nil hlex.text_ne_nil
  have hblank := hlex.begins_blank
  rw [hc, Text.begins_cons] at hblank
  refine ⟨c, ?_, hblank⟩
  simp [h.raw_eq, Token.text, hc]

theorem advances_of_next (h : lexer.next = (.ok (some token), after)) : lexer.Advances after := by
  have hv := (next_token h).2
  obtain ⟨hne, hrest, hafter⟩ := value_token hv
  obtain ⟨rest, ht⟩ := exists_takes h
  have hlength := congrArg List.length hrest
  have hpos := List.length_pos_iff.mpr hne
  have hindex : after.index = lexer.index + token.raw.length := congrArg index hafter
  rw [Lexer.rest, List.length_drop, List.length_append] at hlength
  refine ⟨next_source h, by omega, by omega, ?_⟩
  rw [(reads_of_value hv).slice, List.append_nil]
  exact ht.exists_nonblank

theorem nonblanks_of_next (h : lexer.next = (.ok (some token), after)) :
    after.rest.nonblanks < lexer.rest.nonblanks := by
  obtain ⟨rest, ht⟩ := exists_takes h
  have hpos := Text.nonblanks_pos_iff.mpr ht.exists_nonblank
  rw [ht.rest_split, Text.nonblanks_append]
  omega

theorem Steps.nonblanks_le (h : lexer.Steps tokens last) :
    tokens.length + last.rest.nonblanks ≤ lexer.rest.nonblanks := by
  induction h with
  | nil => simp
  | cons hn _ ih =>
    have hstep := nonblanks_of_next hn
    rw [List.length_cons]
    omega

def Ends (lexer : Lexer) : Prop := lexer.next.1 = .ok none ∨ ∃ e, lexer.next.1 = .error e

/-- Steps that take tokens, and a last one that takes none. -/
structure ReadsOut (lexer : Lexer) (tokens : List Token) (last : Lexer) : Prop where
  steps : lexer.Steps tokens last
  ends : last.Ends

theorem exists_readsOut (lexer : Lexer) : ∃ tokens last, lexer.ReadsOut tokens last := by
  match h : lexer.next with
  | (.ok none, after) => exact ⟨[], lexer, .nil, Or.inl (by rw [h])⟩
  | (.error e, after) => exact ⟨[], lexer, .nil, Or.inr ⟨e, by rw [h]⟩⟩
  | (.ok (some token), after) =>
    obtain ⟨tokens, last, hsteps, hends⟩ := exists_readsOut after
    exact ⟨token :: tokens, last, .cons h hsteps, hends⟩
termination_by lexer.rest.nonblanks
decreasing_by exact nonblanks_of_next h

theorem Ends.next_ne_token (h : lexer.Ends) : lexer.next ≠ (.ok (some token), after) := by
  intro hn
  rcases h with hstop | ⟨e, he⟩
  · rw [hn] at hstop
    cases hstop
  · rw [hn] at he
    cases he

theorem Ends.process_eq (h : lexer.Ends) :
    lexer.process = (lexer.next.1.map fun _ => [], lexer.next.2) := by
  match hn : lexer.next with
  | (.ok none, after) => exact process_of_stop hn
  | (.error e, after) => exact process_of_error hn
  | (.ok (some token), after) => exact (h.next_ne_token hn).elim

theorem ReadsOut.process_eq (h : lexer.ReadsOut tokens last) :
    lexer.process = (last.next.1.map fun _ => tokens, last.next.2) := by
  obtain ⟨hsteps, hends⟩ := h
  induction hsteps with
  | nil => exact hends.process_eq
  | cons hn _ ih =>
    rw [process_of_token hn, ih hends]
    cases (next _).1 <;> rfl

/-- Reading to the end in at most `budget` steps, or nothing if more are needed. -/
def processWithin : Nat → Lexer → Option (Except Failure (List Token) × Lexer)
  | 0, _ => none
  | budget + 1, lexer =>
    match lexer.next with
    | (.ok none, after) => some (.ok [], after)
    | (.ok (some token), after) =>
      (processWithin budget after).map fun (outcome, last) => (outcome.map (token :: ·), last)
    | (.error e, after) => some (.error e, after)

theorem Ends.processWithin_succ (h : lexer.Ends) (budget : Nat) :
    processWithin (budget + 1) lexer = some lexer.process := by
  match hn : lexer.next with
  | (.ok none, after) => rw [processWithin, hn, process_of_stop hn]
  | (.error e, after) => rw [processWithin, hn, process_of_error hn]
  | (.ok (some token), after) => exact (h.next_ne_token hn).elim

/-- A budget is enough exactly if it allows one step more than there are tokens. -/
theorem ReadsOut.processWithin_eq (h : lexer.ReadsOut tokens last) (budget : Nat) :
    processWithin budget lexer = if tokens.length < budget then some lexer.process else none := by
  obtain ⟨hsteps, hends⟩ := h
  -- Each step of the run uses up one of the budget, and the last one needs one more.
  induction hsteps generalizing budget with
  | nil =>
    cases budget with
    | zero => rfl
    | succ budget => exact hends.processWithin_succ budget
  | cons hn _ ih =>
    cases budget with
    | zero => rfl
    | succ budget =>
      rw [processWithin, hn, process_of_token hn]
      simp only [ih budget hends, List.length_cons, Nat.add_lt_add_iff_right]
      split <;> rfl

theorem ReadsOut.length_le (h : lexer.ReadsOut tokens last) :
    tokens.length ≤ lexer.rest.nonblanks :=
  (Nat.le_add_right _ _).trans h.steps.nonblanks_le

/-- Reading to the end makes one step more, at most, than there are characters ahead that are not
blank. Every step that takes a token moves on over one of them, and the step after the last token
stops or fails. So a value has no more tokens than characters that are not blank. -/
theorem process_bounded :
    (∀ lexer : Lexer, processWithin (lexer.rest.nonblanks + 1) lexer = some lexer.process ∧
      ∃ tokens last, lexer.ReadsOut tokens last ∧ tokens.length ≤ lexer.rest.nonblanks ∧
        lexer.process = (last.next.1.map fun _ => tokens, last.next.2)) ∧
    (∀ (lexer after : Lexer) (token : Token), lexer.next = (.ok (some token), after) →
      lexer.Advances after) ∧
    ∀ (source : Text) (tokens : List Token), parse source = .ok tokens →
      tokens.length ≤ source.nonblanks := by
  refine ⟨fun lexer => ?_, fun _ _ _ => advances_of_next, fun source tokens h => ?_⟩
  · obtain ⟨tokens, last, h⟩ := exists_readsOut lexer
    have hlength := h.length_le
    refine ⟨?_, tokens, last, h, hlength, h.process_eq⟩
    rw [h.processWithin_eq, if_pos (Nat.lt_add_one_iff.mpr hlength)]
  · obtain ⟨read, last, hread⟩ := exists_readsOut (ofSource (source.trim Text.isBlank))
    rw [parse, hread.process_eq, map_eq_ok_iff] at h
    obtain ⟨_, -, rfl⟩ := h
    exact hread.length_le.trans source.nonblanks_trim_le

/-- Punctuation needs the whole bound. -/
example : (ofSource "/, ,".toList).rest.nonblanks = 3 ∧
    processWithin 3 (ofSource "/, ,".toList) = none := ⟨rfl, rfl⟩

end Lexer
end StyleValue
