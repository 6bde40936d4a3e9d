import StyleValue.Proofs.Spacing
import StyleValue.Proofs.Stream

/-! # Who owns the blanks between tokens

The blanks between the texts of two tokens are shared out between their raw texts. The spaces right
behind a text go to its token, unless that is a call with a group, and all other blanks go to the
token after them. A step does so for the token it takes, and every run of calls takes its tokens by
such steps. -/

namespace StyleValue

/-- The raw text of a token is its text between `lead` and `trail`, and `after` stands behind it in
the source. -/
structure Token.Owns (t : Token) (lead trail after : Text) : Prop where
  raw_eq : t.raw = lead ++ t.text ++ trail
  lead_blank : ∀ c ∈ lead, Text.isBlank c
  text_ne_nil : t.text ≠ []
  trimmed : Text.Trimmed Text.isBlank t.text
  trail_eq : trail = t.body.spaces (trail ++ after)

namespace Lexer

def Answer.taken : Answer → List Token
  | .token t => [t]
  | .tokens ts => ts
  | _ => []

def tokensAll (answers : List (Answer × Nat)) : List Token :=
  answers.flatMap fun answer => answer.1.taken

/-- Steps made one after another, each of which takes a token. -/
inductive Steps : Lexer → List Token → Lexer → Prop where
  | nil {lexer} : Steps lexer [] lexer
  | cons {lexer middle last token tokens} : lexer.next = (.ok (some token), middle) →
      Steps middle tokens last → Steps lexer (token :: tokens) last

variable {lexer middle last : Lexer} {tokens : List Token}

theorem Steps.split {front back : List Token} (h : Steps lexer (front ++ back) last) :
    ∃ middle, Steps lexer front middle ∧ Steps middle back last := by
  induction front generalizing lexer with
  | nil => exact ⟨lexer, .nil, h⟩
  | cons token front ih =>
    cases h with
    | cons hn hs =>
      obtain ⟨middle, hfront, hback⟩ := ih hs
      exact ⟨middle, .cons hn hfront, hback⟩

theorem Steps.rest_eq (h : Steps lexer tokens last) :
    lexer.rest = (tokens.map Token.raw).flatten ++ last.rest := by
  induction h with
  | nil => rfl
  | cons hn _ ih =>
    rw [(value_token (next_token hn).2).2.1, ih]
    simp only [List.map_cons, List.flatten_cons, List.append_assoc]

theorem Steps.exists_last (h : Steps lexer tokens last) :
    ∀ previous ∈ tokens.getLast?, ∃ earlier : Lexer,
      earlier.next = (.ok (some previous), last) := by
  induction h with
  | nil =>
    intro previous hp
    cases hp
  | @cons lexer middle last token tokens hn hs ih =>
    intro previous hp
    cases hs with
    | nil =>
      cases hp
      exact ⟨lexer, hn⟩
    | cons hn' hs' =>
      rw [List.getLast?_cons_cons] at hp
      exact ih previous hp

theorem steps_of_prefix (h : tokens <+: lexer.stream.tokens.map Prod.fst) :
    ∃ last, lexer.Steps tokens last := by
  induction tokens generalizing lexer with
  | nil => exact ⟨lexer, .nil⟩
  | cons token tokens ih =>
    match hn : lexer.next with
    | (.ok none, after) =>
      rw [stream_of_stop hn] at h
      cases List.prefix_nil.mp h
    | (.error e, after) =>
      rw [stream_of_error hn] at h
      cases List.prefix_nil.mp h
    | (.ok (some first), after) =>
      rw [stream_of_token hn] at h
      obtain ⟨rfl, htokens⟩ := List.cons_prefix_cons.mp h
      obtain ⟨last, hs⟩ := ih htokens
      exact ⟨last, .cons hn hs⟩

end Lexer

namespace TokenStream

/-- A call takes tokens from the front of a stream. Where it fails it may lose them all. -/
theorem answer_prefix (stream : TokenStream) (pull : Pull) :
    (stream.answer pull).1.taken ++ (stream.after pull).tokens.map Prod.fst <+:
      stream.tokens.map Prod.fst := by
  cases pull with
  | process =>
    rw [answer_process, outcome]
    cases stream.ending with
    | none => simp [Lexer.Answer.ofTokens, Lexer.Answer.taken, after]
    | some e => simp [Lexer.Answer.ofTokens, Lexer.Answer.taken, after]
  | next =>
    obtain ⟨tokens, ending, stop⟩ := stream
    cases tokens with
    | nil => cases ending <;> exact List.prefix_rfl
    | cons token tokens => exact List.prefix_rfl
  | value =>
    obtain ⟨tokens, ending, stop⟩ := stream
    cases tokens with
    | nil =>
      cases ending with
      | none => exact List.prefix_rfl
      | some e => cases e <;> exact List.prefix_rfl
    | cons token tokens => exact List.prefix_rfl

theorem run_prefix (stream : TokenStream) (pulls : List Pull) :
    Lexer.tokensAll (stream.run pulls) <+: stream.tokens.map Prod.fst := by
  induction pulls generalizing stream with
  | nil => exact List.nil_prefix
  | cons pull pulls ih =>
    have hlater := (List.prefix_append_right_inj (stream.answer pull).1.taken).mpr
      (ih (stream.after pull))
    exact hlater.trans (stream.answer_prefix pull)

end TokenStream

namespace Lexer

variable {lexer after : Lexer}

theorem perform_of_nil (h : lexer.rest = []) (pull : Pull) :
    (lexer.perform pull.call).1.taken = [] ∧ (lexer.perform pull.call).2.rest = [] := by
  have hu : lexer.unread = [] := by rw [← dropWhile_rest, h, List.dropWhile_nil]
  have hend : (⟨lexer.source, lexer.source.length⟩ : Lexer).rest = [] := List.drop_length
  cases pull with
  | next =>
    simp only [Pull.call, perform, next_of_end hu]
    exact ⟨rfl, hend⟩
  | value =>
    have hpass : Rule.first Rule.trialOrder lexer.unread = .ok none := by rw [hu, first_nil]
    simp only [Pull.call, perform, value_of_pass hpass]
    exact ⟨rfl, hu⟩
  | process =>
    simp only [Pull.call, perform, process_of_stop (next_of_end hu)]
    exact ⟨rfl, hend⟩

theorem run_of_nil (h : lexer.rest = []) (pulls : List Pull) :
    tokensAll (lexer.run (pulls.map Pull.call)) = [] := by
  induction pulls generalizing lexer with
  | nil => rfl
  | cons pull pulls ih =>
    obtain ⟨htokens, hrest⟩ := perform_of_nil h pull
    have hlater := ih hrest
    simp only [tokensAll, List.map_cons, run, List.flatMap_cons] at hlater ⊢
    rw [htokens, hlater, List.append_nil]

theorem exists_steps (lexer : Lexer) (pulls : List Pull) :
    ∃ last, lexer.Steps (tokensAll (lexer.run (pulls.map Pull.call))) last := by
  by_cases hle : lexer.index ≤ lexer.source.length
  · rw [run_eq hle]
    exact steps_of_prefix (TokenStream.run_prefix lexer.stream pulls)
  · have hnil : lexer.rest = [] := List.drop_eq_nil_of_le (by omega)
    rw [run_of_nil hnil]
    exact ⟨lexer, .nil⟩

theorem Takes.owns {token : Token} {rest : Text} (h : lexer.Takes token rest after) :
    token.Owns (lexer.rest.takeWhile Text.isBlank) (token.body.spaces rest) after.rest where
  raw_eq := h.raw_eq
  lead_blank := Text.mem_takeWhile
  text_ne_nil := h.stands.lexeme.text_ne_nil
  trimmed := ⟨h.stands.lexeme.begins_blank, h.stands.lexeme.ends_blank⟩
  trail_eq := by rw [← h.rest_eq]

theorem takesSpaces_of_space {token : Token} (h : lexer.next = (.ok (some token), after))
    (hspace : Text.begins (· = ' ') (after.rest.takeWhile Text.isBlank) = true) :
    token.body.takesSpaces = false := by
  obtain ⟨rest, ht⟩ := exists_takes h
  by_contra hts
  have hnone := Body.begins_after_spaces (by simpa using hts) ht.rest_eq
  rw [rest_split after] at hnone
  rw [Text.begins_of_append hnone] at hspace
  cases hspace

/-- Where each token of a run stands, and what it owns of the blanks around its text. A token that
is not the first begins with a space only behind a call with a group. -/
theorem run_owns {pulls : List Pull} {front back : List Token} {token : Token}
    (h : tokensAll (lexer.run (pulls.map Pull.call)) = front ++ token :: back) :
    ∃ lead trail after,
      lexer.source.drop lexer.index =
        (front.map Token.raw).flatten ++ (lead ++ token.text ++ trail ++ after) ∧
      token.Owns lead trail after ∧
      ∀ previous ∈ front.getLast?, Text.begins (· = ' ') lead = true →
        previous.body.takesSpaces = false := by
  obtain ⟨last, hsteps⟩ := exists_steps lexer pulls
  rw [h] at hsteps
  obtain ⟨middle, hfront, hback⟩ := hsteps.split
  cases hback with
  | @cons _ after _ _ _ hn _ =>
    obtain ⟨rest, ht⟩ := exists_takes hn
    have howns := ht.owns
    refine ⟨_, _, _, ?_, howns, fun previous hp hspace => ?_⟩
    · rw [← howns.raw_eq, ← ht.rest_split]
      exact hfront.rest_eq
    · obtain ⟨earlier, he⟩ := hfront.exists_last previous hp
      exact takesSpaces_of_space he hspace

theorem run_owns_after_call :
    tokensAll (run ⟨"/ calc(1) a, ".toList, 1⟩ [.next, .value]) =
      [⟨" calc(1)".toList, .function .calc "calc(1)".toList⟩,
       ⟨" a".toList, .ident "a".toList⟩] ∧
    ∃ lead trail after : Text, " calc(1) a, ".toList =
        " calc(1)".toList ++ (lead ++ "a".toList ++ trail ++ after) ∧
      Token.Owns ⟨" a".toList, .ident "a".toList⟩ lead trail after := by
  have hrun : tokensAll (run ⟨"/ calc(1) a, ".toList, 1⟩ ([Pull.next, .value].map Pull.call)) =
      [⟨" calc(1)".toList, .function .calc "calc(1)".toList⟩] ++
        [⟨" a".toList, .ident "a".toList⟩] := rfl
  obtain ⟨lead, trail, after, hrest, howns, _⟩ := run_owns hrun
  exact ⟨hrun, lead, trail, after, hrest, howns⟩

end Lexer

end StyleValue
