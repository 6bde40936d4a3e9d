import StyleValue.Proofs.Outline
import StyleValue.Proofs.Stream

/-! # Reading behind another text

Scanners and lexers go along the whole source by positions. What they find at a place still depends on
the source from there on alone: a text put before the source moves the positions that are found,
reported and left, and changes no token and nothing that is said. -/

namespace StyleValue

def Found.shift (distance : Nat) (found : Found) : Found :=
  { found with stop := found.stop + distance }

def shiftFound (distance : Nat) (outcome : Except Failure (Option Found)) :
    Except Failure (Option Found) :=
  (outcome.mapError (Failure.shift distance)).map (Option.map (Found.shift distance))

/-- Tokens hold no positions, only failures do. -/
def Lexer.Answer.shift (distance : Nat) : Answer → Answer
  | .failed e => .failed (e.shift distance)
  | answer => answer

/-- What can be looked for at a position: the token of a rule, or a call of any keyword. -/
inductive Candidate where
  | rule (rule : Rule)
  | call (keyword : Text) (kind : FunctionKind)

namespace Candidate

def scan : Candidate → Scanner
  | .rule r => r.scan
  | .call keyword kind => .nested keyword kind

def recognize : Candidate → Recognizer
  | .rule r => r.recognize
  | .call keyword kind => .nested keyword kind

theorem scan_eq (candidate : Candidate) : candidate.scan = candidate.recognize.at := by
  cases candidate with
  | rule r => exact r.scan_eq
  | call keyword kind => exact Scanner.nested_eq keyword kind

theorem first_eq (candidates : List Candidate) :
    Scanner.first (candidates.map scan) = (Recognizer.first (candidates.map recognize)).at := by
  rw [← Scanner.first_eq, List.map_map, funext scan_eq]
  rfl

end Candidate

theorem Malformed.failureAt_behind (e : Malformed) (distance start : Nat) :
    e.failureAt (distance + start) = (e.failureAt start).shift distance := by
  simp only [failureAt, Failure.shift, Nat.add_assoc, Nat.add_comm distance]

section position

variable (front source : Text) (position : Nat)

theorem Recognizer.at_behind (recognize : Recognizer) :
    recognize.at (front ++ source) (front.length + position) =
      shiftFound front.length (recognize.at source position) := by
  simp only [Recognizer.at, drop_behind, List.length_append, Nat.add_le_add_iff_left]
  split
  · cases recognize (source.drop position) with
    | error e => simp [shiftFound, Except.map, Except.mapError, Malformed.failureAt_behind]
    | ok found =>
      cases found with
      | none => rfl
      | some m =>
        have hstop : front.length + position + m.token.raw.length =
            position + m.token.raw.length + front.length := by omega
        simp [shiftFound, Except.map, Except.mapError, Found.shift, hstop]
  · rfl

theorem Candidate.scan_behind (candidate : Candidate) :
    candidate.scan (front ++ source) (front.length + position) =
      shiftFound front.length (candidate.scan source position) := by
  rw [candidate.scan_eq]
  exact Recognizer.at_behind front source position _

theorem Candidate.first_behind (candidates : List Candidate) :
    Scanner.first (candidates.map scan) (front ++ source) (front.length + position) =
      shiftFound front.length (Scanner.first (candidates.map scan) source position) := by
  rw [first_eq]
  exact Recognizer.at_behind front source position _

theorem Group.scan_behind :
    Group.scan (front ++ source) (front.length + position) =
      (Group.scan source position).mapError (Failure.shift front.length) := by
  simp only [Group.scan_eq, Group.at, drop_behind]
  cases Group.read (source.drop position) with
  | error fault => simp [Except.mapError, Failure.shift, Nat.add_comm]
  | ok split => rfl

end position

namespace Lexer

variable (front : Text) (lexer : Lexer)

theorem value_behind :
    (lexer.behind front).value =
      (lexer.value.1.mapError (Failure.shift front.length), lexer.value.2.behind front) := by
  rw [value_eq, value_eq]
  simp only [unread_behind, start_behind, rest_behind]
  cases Rule.first Rule.trialOrder lexer.unread with
  | ok found =>
    cases found with
    | none => rfl
    | some m => simp [behind, Except.mapError, Nat.add_assoc]
  | error e => simp [behind, Except.mapError, Malformed.failureAt_behind]

theorem Answer.ofToken_mapError {absent : Answer} {distance : Nat}
    (h : absent.shift distance = absent) (outcome : Except Failure (Option Token)) :
    Answer.ofToken absent (outcome.mapError (Failure.shift distance)) =
      (Answer.ofToken absent outcome).shift distance := by
  cases outcome with
  | error e => rfl
  | ok found =>
    cases found with
    | none => exact h.symm
    | some token => rfl

theorem Answer.ofTokens_mapError (distance : Nat) (outcome : Except Failure (List Token)) :
    Answer.ofTokens (outcome.mapError (Failure.shift distance)) =
      (Answer.ofTokens outcome).shift distance := by
  cases outcome <;> rfl

theorem perform_behind (pull : Pull) :
    (lexer.behind front).perform pull.call =
      ((lexer.perform pull.call).1.shift front.length,
        (lexer.perform pull.call).2.behind front) := by
  cases pull with
  | next =>
    simp only [Pull.call, perform, next_behind, Prod.map, id]
    rw [Answer.ofToken_mapError rfl]
  | value =>
    simp only [Pull.call, perform, value_behind, Prod.map, id]
    rw [Answer.ofToken_mapError rfl]
  | process =>
    simp only [Pull.call, perform, process_behind, Prod.map, id]
    rw [Answer.ofTokens_mapError]

theorem run_behind (pulls : List Pull) :
    (lexer.behind front).run (pulls.map Pull.call) = (lexer.run (pulls.map Pull.call)).map
      (Prod.map (Answer.shift front.length) (· + front.length)) := by
  induction pulls generalizing lexer with
  | nil => rfl
  | cons pull pulls ih =>
    simp only [List.map_cons, run, perform_behind, ih]
    rw [behind, Nat.add_comm front.length]
    rfl

end Lexer

/-- Reading at a place depends only on the text from there on: of every rule and every call, alone or
in a list that is tried in turn, of groups, and of every sequence of calls to a lexer. A text before
the source moves what holds a position by its length, and a failure that is moved says the same. What
is found at a position of the source is what is found in the remaining text alone. -/
theorem reading_behind (front source : Text) (position : Nat) :
    (∀ candidate : Candidate,
      candidate.scan (front ++ source) (front.length + position) =
        shiftFound front.length (candidate.scan source position)) ∧
    (∀ candidates : List Candidate,
      Scanner.first (candidates.map Candidate.scan) (front ++ source) (front.length + position) =
        shiftFound front.length
          (Scanner.first (candidates.map Candidate.scan) source position)) ∧
    Group.scan (front ++ source) (front.length + position) =
      (Group.scan source position).mapError (Failure.shift front.length) ∧
    (∀ pulls : List Pull,
      (⟨front ++ source, front.length + position⟩ : Lexer).run (pulls.map Pull.call) =
        ((⟨source, position⟩ : Lexer).run (pulls.map Pull.call)).map
          (Prod.map (Lexer.Answer.shift front.length) (· + front.length))) ∧
    (∀ e : Failure, (e.shift front.length).diagnostic =
      { e.diagnostic with position := e.diagnostic.position + front.length }) ∧
    (∀ candidate : Candidate,
      candidate.scan source position = candidate.recognize.at source position) ∧
    (∀ candidates : List Candidate,
      Scanner.first (candidates.map Candidate.scan) source position =
        (Recognizer.first (candidates.map Candidate.recognize)).at source position) ∧
    Group.scan source position = Group.at source position := by
  refine ⟨Candidate.scan_behind front source position, Candidate.first_behind front source position,
    Group.scan_behind front source position, Lexer.run_behind front ⟨source, position⟩,
    fun e => e.shift_diagnostic front.length, ?_, ?_, Group.scan_eq source position⟩
  · intro candidate
    rw [candidate.scan_eq]
  · intro candidates
    rw [Candidate.first_eq]

end StyleValue
