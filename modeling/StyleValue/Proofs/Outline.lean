import StyleValue.Proofs.Step

/-! # Outlines

The outline of a lexer is what reading to the end gives without the raw texts. It depends only on
the source and on where the next token is looked for, so blanks can be skipped beforehand, and a
text put before the source shifts the positions of failures and changes nothing else. -/

namespace StyleValue

/-- The failure in a source with `distance` characters more before it. -/
def Failure.shift (distance : Nat) : Failure → Failure
  | .unrecognized snippet position => .unrecognized snippet (position + distance)
  | .malformed fault position => .malformed fault (position + distance)

theorem Failure.shift_diagnostic (e : Failure) (distance : Nat) :
    (e.shift distance).diagnostic =
      { e.diagnostic with position := e.diagnostic.position + distance } := by
  cases e <;> rfl

def Token.padded (lead trail : Text) (t : Token) : Token := { t with raw := lead ++ t.raw ++ trail }

theorem Token.padded_nil (t : Token) : t.padded [] [] = t := by
  simp only [padded, List.nil_append, List.append_nil]

theorem drop_behind (front source : Text) (position : Nat) :
    (front ++ source).drop (front.length + position) = source.drop position := by
  rw [← List.drop_drop, List.drop_left]

namespace Lexer

def outline (lexer : Lexer) : Except Failure (List Body) :=
  lexer.process.1.map (·.map Token.body)

theorem outline_eq_error_iff {lexer : Lexer} {e : Failure} :
    lexer.outline = .error e ↔ lexer.process.1 = .error e := by
  rw [outline]
  cases lexer.process.1 <;> simp [Except.map]

theorem outline_of_end {lexer : Lexer} (h : lexer.unread = []) : lexer.outline = .ok [] := by
  rw [outline, process_of_stop (next_of_end h)]
  rfl

theorem outline_of_token {lexer : Lexer} {m : Match}
    (h : Rule.first Rule.trialOrder lexer.unread = .ok (some m)) :
    lexer.outline = (outline ⟨lexer.source, lexer.start + m.token.raw.length⟩).map
      (m.token.body :: ·) := by
  rw [outline, process_of_token (next_token_iff.mpr ⟨m, h, rfl, rfl⟩), outline]
  cases (process ⟨lexer.source, lexer.start + m.token.raw.length⟩).1 with
  | error e => rfl
  | ok tokens => rfl

theorem outline_of_error {lexer : Lexer} {e : Malformed}
    (h : Rule.first Rule.trialOrder lexer.unread = .error e) :
    lexer.outline = .error (e.failureAt lexer.start) := by
  have hne : lexer.unread ≠ [] := by
    intro hn
    rw [hn, first_nil] at h
    cases h
  rw [outline, process_of_error (next_error_iff.mpr ⟨hne, rfl, Or.inl ⟨e, h, rfl⟩⟩)]
  rfl

theorem outline_of_pass {lexer : Lexer} (hne : lexer.unread ≠ [])
    (h : Rule.first Rule.trialOrder lexer.unread = .ok none) :
    lexer.outline = .error (.unrecognizedAt lexer.source lexer.start) := by
  rw [outline, process_of_error (next_error_iff.mpr ⟨hne, rfl, Or.inr ⟨h, rfl⟩⟩)]
  rfl

theorem next_skip {lexer : Lexer} {blanks rest : Text} (hb : ∀ c ∈ blanks, Text.isBlank c)
    (h : lexer.rest = blanks ++ rest) :
    lexer.next = ((next ⟨lexer.source, lexer.index + blanks.length⟩).1.map
        (Option.map (Token.padded blanks [])),
      (next ⟨lexer.source, lexer.index + blanks.length⟩).2) := by
  generalize hs : (⟨lexer.source, lexer.index + blanks.length⟩ : Lexer) = skipped
  have hrest : skipped.rest = rest := by rw [← hs, rest_advance h]
  have hlead : lexer.rest.takeWhile Text.isBlank =
      blanks ++ skipped.rest.takeWhile Text.isBlank := by
    rw [h, hrest, List.takeWhile_append_of_pos hb]
  have hsource : lexer.source = skipped.source := by rw [← hs]
  have hstart : lexer.start = skipped.start := by
    rw [start, start, hlead, ← hs, List.length_append, Nat.add_assoc]
  have hunread : lexer.unread = skipped.unread := by rw [unread, unread, hsource, hstart]
  by_cases hn : lexer.unread = []
  · rw [next_of_end hn, next_of_end (hunread ▸ hn), hsource]
    rfl
  · rw [next_of_unread hn, next_of_unread (hunread ▸ hn), hunread, hsource, hstart, hlead]
    cases Rule.first Rule.trialOrder skipped.unread with
    | ok found =>
      cases found with
      | none => rfl
      | some m => simp [Except.map, Token.padded]
    | error e => rfl

theorem process_skip {lexer : Lexer} {blanks rest : Text} (hb : ∀ c ∈ blanks, Text.isBlank c)
    (h : lexer.rest = blanks ++ rest) :
    lexer.process = ((process ⟨lexer.source, lexer.index + blanks.length⟩).1.map
        (List.modifyHead (Token.padded blanks [])),
      (process ⟨lexer.source, lexer.index + blanks.length⟩).2) := by
  have hnext := next_skip hb h
  match hn : next ⟨lexer.source, lexer.index + blanks.length⟩ with
  | (.ok none, after) =>
    rw [hn] at hnext
    rw [process_of_stop hn, process_of_stop hnext]
    rfl
  | (.ok (some token), after) =>
    rw [hn] at hnext
    rw [process_of_token hn, process_of_token hnext]
    cases after.process.1 <;> rfl
  | (.error e, after) =>
    rw [hn] at hnext
    rw [process_of_error hn, process_of_error hnext]
    rfl

theorem outline_skip {lexer : Lexer} {blanks rest : Text} (hb : ∀ c ∈ blanks, Text.isBlank c)
    (h : lexer.rest = blanks ++ rest) :
    lexer.outline = outline ⟨lexer.source, lexer.index + blanks.length⟩ := by
  rw [outline, outline, process_skip hb h]
  cases (process ⟨lexer.source, lexer.index + blanks.length⟩).1 with
  | error e => rfl
  | ok tokens => cases tokens <;> rfl

theorem outline_of_stands {lexer : Lexer} {b : Body} {rest : Text}
    (h : Stands b lexer.unread rest) :
    lexer.outline = (outline ⟨lexer.source, lexer.start + b.text.length⟩).map (b :: ·) := by
  have hrest : (⟨lexer.source, lexer.start + b.text.length⟩ : Lexer).rest = rest :=
    @rest_advance ⟨lexer.source, lexer.start⟩ _ _ h.text_eq
  rw [outline_of_token (first_of_stands h), Body.found_body]
  congr 1
  unfold Body.found
  split
  · have hsplit : rest = rest.takeWhile (· = ' ') ++ rest.dropWhile (· = ' ') :=
      List.takeWhile_append_dropWhile.symm
    rw [outline_skip (fun c hc => ?_) (hrest.trans hsplit)]
    · simp only [Recognizer.spaced, List.length_append, Nat.add_assoc]
    · have hspace : c = ' ' := by simpa using Text.mem_takeWhile c hc
      rw [hspace]
      exact Text.isBlank_space
  · rfl

/-- The lexer of a source with a text before it, at the same place. -/
def behind (front : Text) (lexer : Lexer) : Lexer :=
  ⟨front ++ lexer.source, front.length + lexer.index⟩

variable {front : Text} {lexer : Lexer}

theorem rest_behind : (lexer.behind front).rest = lexer.rest :=
  drop_behind front lexer.source lexer.index

theorem start_behind : (lexer.behind front).start = front.length + lexer.start := by
  rw [start, start, rest_behind, behind, Nat.add_assoc]

theorem unread_behind : (lexer.behind front).unread = lexer.unread := by
  rw [unread, start_behind]
  exact drop_behind front lexer.source lexer.start

theorem next_behind (front : Text) (lexer : Lexer) :
    (lexer.behind front).next =
      (lexer.next.1.mapError (Failure.shift front.length), lexer.next.2.behind front) := by
  by_cases hn : lexer.unread = []
  · rw [next_of_end hn, next_of_end (unread_behind.trans hn)]
    simp [behind, Except.mapError]
  · rw [next_of_unread hn, next_of_unread (unread_behind.symm ▸ hn)]
    simp only [unread_behind, start_behind, rest_behind]
    cases Rule.first Rule.trialOrder lexer.unread with
    | ok found =>
      cases found with
      | none =>
        simp [behind, Except.mapError, Failure.unrecognizedAt_eq, Failure.shift, Nat.add_comm]
      | some m => simp [behind, Except.mapError, Nat.add_assoc]
    | error e =>
      simp [behind, Except.mapError, Malformed.failureAt, Failure.shift, Nat.add_comm,
        Nat.add_left_comm]

theorem process_behind (front : Text) (lexer : Lexer) :
    (lexer.behind front).process =
      (lexer.process.1.mapError (Failure.shift front.length), lexer.process.2.behind front) := by
  have hnext := next_behind front lexer
  match h : lexer.next with
  | (.ok none, after) =>
    rw [h] at hnext
    rw [process_of_stop h, process_of_stop hnext]
    rfl
  | (.ok (some token), after) =>
    rw [h] at hnext
    rw [process_of_token h, process_of_token hnext, process_behind front after]
    cases after.process.1 with
    | ok tokens => rfl
    | error e => rfl
  | (.error e, after) =>
    rw [h] at hnext
    rw [process_of_error h, process_of_error hnext]
    rfl
termination_by lexer.source.length - lexer.index
decreasing_by exact next_shortens h

theorem outline_behind (front : Text) (lexer : Lexer) :
    (lexer.behind front).outline = lexer.outline.mapError (Failure.shift front.length) := by
  rw [outline, outline, process_behind]
  cases lexer.process.1 with
  | ok tokens => rfl
  | error e => rfl

end Lexer

/-- Lexemes with blanks among them make up `s`, and none of them goes on into `rest`. -/
inductive Chain : Text → List Body → Text → Prop where
  | nil {blanks rest} : (∀ c ∈ blanks, Text.isBlank c) → Chain blanks [] rest
  | cons {lead b s bodies rest} : (∀ c ∈ lead, Text.isBlank c) → Lexeme b → Follows b (s ++ rest) →
      Chain s bodies rest → Chain (lead ++ b.text ++ s) (b :: bodies) rest

theorem Chain.lead {blanks s rest : Text} {bodies : List Body} (hb : ∀ c ∈ blanks, Text.isBlank c)
    (h : Chain s bodies rest) : Chain (blanks ++ s) bodies rest := by
  cases h with
  | nil hs => exact .nil (List.forall_mem_append.mpr ⟨hb, hs⟩)
  | cons hl hlex hf hs =>
    simpa using Chain.cons (List.forall_mem_append.mpr ⟨hb, hl⟩) hlex hf hs

theorem Chain.append {s t rest : Text} {bodies others : List Body} (h : Chain s bodies (t ++ rest))
    (h' : Chain t others rest) : Chain (s ++ t) (bodies ++ others) rest := by
  generalize hr : t ++ rest = r at h
  induction h with
  | nil hb => exact h'.lead hb
  | cons hl hlex hf _ ih =>
    subst hr
    rw [List.append_assoc]
    exact .cons hl hlex (by rwa [List.append_assoc]) (ih rfl)

namespace Lexer

theorem start_of_rest {lexer : Lexer} {lead next : Text} (hl : ∀ c ∈ lead, Text.isBlank c)
    (hn : next.begins Text.isBlank = false) (hr : lexer.rest = lead ++ next) :
    lexer.start = lexer.index + lead.length ∧ lexer.unread = next := by
  constructor
  · rw [start, hr, Text.takeWhile_run hl hn]
  · rw [← dropWhile_rest, hr, Text.dropWhile_run hl hn]

theorem outline_of_chain {lexer : Lexer} {s rest : Text} {bodies : List Body}
    (h : Chain s bodies rest) (hr : lexer.rest = s ++ rest) :
    lexer.outline = (outline ⟨lexer.source, lexer.index + s.length⟩).map (bodies ++ ·) := by
  induction h generalizing lexer with
  | nil hb =>
    rw [outline_skip hb hr]
    cases outline _ <;> rfl
  | @cons lead b s bodies rest hl hlex hf _ ih =>
    have hbegin : (b.text ++ (s ++ rest)).begins Text.isBlank = false := by
      rw [Text.begins_append hlex.text_ne_nil]
      exact hlex.begins_blank
    obtain ⟨hstart, hunread⟩ := start_of_rest hl hbegin
      (hr.trans (by simp only [List.append_assoc]))
    have hbehind : (⟨lexer.source, lexer.start + b.text.length⟩ : Lexer).rest = s ++ rest :=
      @rest_advance ⟨lexer.source, lexer.start⟩ _ _ hunread
    have hindex : lexer.start + b.text.length + s.length =
        lexer.index + (lead ++ b.text ++ s).length := by
      simp only [hstart, List.length_append, Nat.add_assoc]
    rw [outline_of_stands ⟨hlex, hunread, hf⟩, ih hbehind, ← hindex]
    cases outline _ <;> rfl

theorem outline_of_nil {lexer : Lexer} (h : lexer.rest = []) : lexer.outline = .ok [] :=
  outline_of_end (by rw [← dropWhile_rest, h, List.dropWhile_nil])

theorem outline_ok_cases {lexer : Lexer} {bodies : List Body} (h : lexer.outline = .ok bodies) :
    (lexer.unread = [] ∧ bodies = []) ∨ ∃ b rest others, Stands b lexer.unread rest ∧
      bodies = b :: others ∧ outline ⟨lexer.source, lexer.start + b.text.length⟩ = .ok others := by
  by_cases hn : lexer.unread = []
  · rw [outline_of_end hn] at h
    exact Or.inl ⟨hn, (Except.ok.inj h).symm⟩
  match hf : Rule.first Rule.trialOrder lexer.unread with
  | .ok (some m) =>
    obtain ⟨b, rest, hs, -⟩ := stands_of_first hf
    rw [outline_of_stands hs, map_eq_ok_iff] at h
    obtain ⟨others, ho, he⟩ := h
    exact Or.inr ⟨b, rest, others, hs, he.symm, ho⟩
  | .ok none =>
    rw [outline_of_pass hn hf] at h
    cases h
  | .error e =>
    rw [outline_of_error hf] at h
    cases h

theorem chain_of_outline {lexer : Lexer} {bodies : List Body} (h : lexer.outline = .ok bodies) :
    Chain lexer.rest bodies [] := by
  induction bodies generalizing lexer with
  | nil =>
    rcases outline_ok_cases h with ⟨hu, -⟩ | ⟨b, rest, others, -, hb, -⟩
    · rw [rest_split lexer, hu, List.append_nil]
      exact .nil Text.mem_takeWhile
    · cases hb
  | cons b bodies ih =>
    rcases outline_ok_cases h with ⟨-, hb⟩ | ⟨b', rest, others, hs, hb, ho⟩
    · cases hb
    · cases hb
      have hbehind : (⟨lexer.source, lexer.start + b.text.length⟩ : Lexer).rest = rest :=
        @rest_advance ⟨lexer.source, lexer.start⟩ _ _ hs.text_eq
      have hchain := ih ho
      rw [hbehind] at hchain
      rw [rest_split lexer, hs.text_eq, ← List.append_assoc]
      exact .cons Text.mem_takeWhile hs.lexeme (by simpa using hs.follows) hchain

/-- Reading to the end succeeds exactly on the chains of lexemes, and it takes them. -/
theorem outline_eq_ok_iff {lexer : Lexer} {bodies : List Body} :
    lexer.outline = .ok bodies ↔ Chain lexer.rest bodies [] := by
  refine ⟨chain_of_outline, fun h => ?_⟩
  have hr : lexer.rest = lexer.rest ++ [] := (List.append_nil _).symm
  rw [outline_of_chain h hr, outline_of_nil (rest_advance hr)]
  simp [Except.map]

theorem outline_join {s rest : Text} {bodies : List Body} (h : Chain s bodies rest) :
    (ofSource (s ++ rest)).outline =
      ((ofSource rest).outline.mapError (Failure.shift s.length)).map (bodies ++ ·) := by
  rw [@outline_of_chain (ofSource (s ++ rest)) _ _ _ h rfl, ← outline_behind s (ofSource rest)]
  simp only [ofSource, behind, Nat.zero_add, Nat.add_zero]

end Lexer
end StyleValue
