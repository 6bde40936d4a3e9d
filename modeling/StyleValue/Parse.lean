import StyleValue.Scanner
import StyleValue.Token.Record

/-!
# Lexers and parsing

A lexer is a source and the index up to which it has been read. A step skips blanks and takes the
next token by the rules in trial order; the blanks go to the raw text of the token. A step that
fails still skips the blanks. Reading all tokens ends because each of them moves the index on.

A value is parsed by taking all tokens of its source without the blanks around it. Positions in
failures count from the first character that is left. What happened is reported as an event.
-/

namespace StyleValue

structure Lexer where
  source : Text
  index : Nat
  deriving DecidableEq, Repr

namespace Lexer

def ofSource (source : Text) : Lexer := ⟨source, 0⟩

def rest (lexer : Lexer) : Text := lexer.source.drop lexer.index

def atEnd (lexer : Lexer) : Bool :=
  lexer.source.length ≤ lexer.source.runEnd Text.isBlank lexer.index

/-- Skips blanks and takes a token, if there is one. Its raw text is what the index moves over. -/
def value (lexer : Lexer) : Except Failure (Option Token) × Lexer :=
  let start := lexer.source.runEnd Text.isBlank lexer.index
  match Rule.scanFirst Rule.trialOrder lexer.source start with
  | .ok (some found) =>
    (.ok (some { found.token with raw := lexer.source.slice lexer.index found.stop }),
      { lexer with index := found.stop })
  | .ok none => (.ok none, { lexer with index := start })
  | .error e => (.error e, { lexer with index := start })

/-- The next token, or none at the end. Elsewhere it is a failure to find no token. -/
def next (lexer : Lexer) : Except Failure (Option Token) × Lexer :=
  if lexer.atEnd then (.ok none, { lexer with index := lexer.source.length })
  else
    match lexer.value with
    | (.ok none, after) => (.error (.unrecognizedAt after.source after.index), after)
    | outcome => outcome

theorem rest_advance {lexer : Lexer} {raw unread : Text} (h : lexer.rest = raw ++ unread) :
    ({ lexer with index := lexer.index + raw.length } : Lexer).rest = unread := by
  simp only [rest] at h ⊢
  rw [← List.drop_drop, h, List.drop_left]

theorem runEnd_index (lexer : Lexer) : lexer.source.runEnd Text.isBlank lexer.index =
    lexer.index + (lexer.rest.takeWhile Text.isBlank).length :=
  Text.runEnd_of_drop rfl

theorem first_nil : Rule.first Rule.trialOrder [] = .ok none := rfl

/-- What a step does depends only on what has not been read. -/
theorem value_eq_first (lexer : Lexer) :
    lexer.value =
      let lead := lexer.rest.takeWhile Text.isBlank
      let start := lexer.index + lead.length
      match Rule.first Rule.trialOrder (lexer.rest.dropWhile Text.isBlank) with
      | .ok (some m) =>
        (.ok (some { m.token with raw := lead ++ m.token.raw }),
          ⟨lexer.source, start + m.token.raw.length⟩)
      | .ok none => (.ok none, ⟨lexer.source, start⟩)
      | .error e => (.error (e.failureAt start), ⟨lexer.source, start⟩) := by
  have hs : lexer.source.drop lexer.index =
      lexer.rest.takeWhile Text.isBlank ++ lexer.rest.dropWhile Text.isBlank :=
    List.takeWhile_append_dropWhile.symm
  simp only [value, Rule.scanFirst_eq, runEnd_index, Recognizer.at_of_nil first_nil,
    Text.drop_of_drop hs]
  cases hf : Rule.first Rule.trialOrder (lexer.rest.dropWhile Text.isBlank) with
  | error e => rfl
  | ok found =>
    cases found with
    | none => rfl
    | some m =>
      have hm := (Rule.first_sound _ _ m hf).1
      rw [hm] at hs
      simp only [Option.map_some, Text.slice_of_drop_append hs]

/-- The raw text of a token that is taken is what is read, and the index moves past it. -/
theorem value_token {lexer after : Lexer} {token : Token}
    (h : lexer.value = (.ok (some token), after)) :
    token.raw ≠ [] ∧ lexer.rest = token.raw ++ after.rest ∧
      after = { lexer with index := lexer.index + token.raw.length } := by
  simp only [value_eq_first] at h
  split at h
  · next m hm =>
    obtain ⟨he, hn⟩ := Rule.first_sound _ _ m hm
    cases h
    have hr : lexer.rest = (lexer.rest.takeWhile Text.isBlank ++ m.token.raw) ++ m.rest := by
      rw [List.append_assoc, ← he, List.takeWhile_append_dropWhile]
    have hi : lexer.index + (lexer.rest.takeWhile Text.isBlank).length + m.token.raw.length =
        lexer.index + (lexer.rest.takeWhile Text.isBlank ++ m.token.raw).length := by
      rw [List.length_append, Nat.add_assoc]
    refine ⟨by simp [hn], ?_, by rw [hi]⟩
    rw [hi, rest_advance hr]
    exact hr
  · cases h
  · cases h

theorem next_token {lexer after : Lexer} {token : Token}
    (h : lexer.next = (.ok (some token), after)) :
    lexer.atEnd = false ∧ lexer.value = (.ok (some token), after) := by
  unfold next at h
  split at h
  · cases h
  · next he =>
    split at h
    · cases h
    · exact ⟨by simpa using he, h⟩

theorem next_shortens {lexer after : Lexer} {token : Token}
    (h : lexer.next = (.ok (some token), after)) :
    after.source.length - after.index < lexer.source.length - lexer.index := by
  obtain ⟨hn, hr, rfl⟩ := value_token (next_token h).2
  have hlen := congrArg List.length hr
  have hpos := List.length_pos_iff.2 hn
  simp only [rest, List.length_append, List.length_drop] at hlen
  simp only
  omega

def process (lexer : Lexer) : Except Failure (List Token) × Lexer :=
  match _h : lexer.next with
  | (.ok none, after) => (.ok [], after)
  | (.ok (some token), after) =>
    let (outcome, last) := after.process
    (outcome.map (token :: ·), last)
  | (.error e, after) => (.error e, after)
termination_by lexer.source.length - lexer.index
decreasing_by exact next_shortens _h

inductive Call where
  | seek (index : Nat)
  | next
  | value
  | process
  deriving DecidableEq, Repr

inductive Answer where
  | moved
  | token (token : Token)
  | stopped
  | nothing
  | tokens (tokens : List Token)
  | failed (failure : Failure)
  deriving DecidableEq, Repr

/-- The answer for a single token, where `absent` is said if there is none. -/
def Answer.ofToken (absent : Answer) : Except Failure (Option Token) → Answer
  | .ok (some t) => .token t
  | .ok none => absent
  | .error e => .failed e

def Answer.ofTokens : Except Failure (List Token) → Answer
  | .ok ts => .tokens ts
  | .error e => .failed e

def perform (lexer : Lexer) : Call → Answer × Lexer
  | .seek index => (.moved, { lexer with index })
  | .next => lexer.next.map (Answer.ofToken .stopped) id
  | .value => lexer.value.map (Answer.ofToken .nothing) id
  | .process => lexer.process.map Answer.ofTokens id

def run (lexer : Lexer) : List Call → List (Answer × Nat)
  | [] => []
  | call :: calls =>
    let (answer, after) := lexer.perform call
    (answer, after.index) :: after.run calls

end Lexer

def parse (source : Text) : Except Failure (List Token) :=
  (Lexer.ofSource (source.trim Text.isBlank)).process.1

inductive Event where
  | parsed (count : Nat) (source : Text)
  | unrecognized (snippet : Text) (position : Nat)
  deriving DecidableEq, Repr

/-- Malformed calls are not reported. -/
def events (source : Text) : List Event :=
  match parse source with
  | .ok tokens => [.parsed tokens.length source]
  | .error (.unrecognized snippet position) => [.unrecognized snippet position]
  | .error (.malformed ..) => []

def Event.message : Event → Text
  | .parsed count source =>
    "parsed ".toList ++ showNat count ++ " tokens from ".toList ++ source.quoted
  | .unrecognized snippet position =>
    "no token matches at ".toList ++ showNat position ++ ": ".toList ++ snippet.quoted

end StyleValue
