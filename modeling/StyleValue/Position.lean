import StyleValue.Recognizer

/-!
# Positions

What is said about a position of a source: the characters and the runs that stand there, the token
found there, and the failure reported there. A diagnostic is what is said of a failure: its cause, a
message, the text near it and its position.
-/

namespace StyleValue

namespace Text

variable {s head next rest keyword : Text} {position : Nat}

/-- The characters from `start` up to `stop`. -/
def slice (s : Text) (start stop : Nat) : Text := (s.drop start).take (stop - start)

/-- No keyword stands beyond the end of a text, not even the empty one. -/
def holdsAt (s keyword : Text) (position : Nat) : Bool :=
  position ≤ s.length && s.slice position (position + keyword.length) == keyword

def skip (s : Text) (p : Char → Bool) (position : Nat) : Nat → Nat
  | 0 => position
  | count + 1 => if s[position]?.any p then s.skip p (position + 1) count else position

/-- Where the characters satisfying `p` end that stand at a position. -/
def runEnd (s : Text) (p : Char → Bool) (position : Nat) : Nat :=
  s.skip p position (s.length - position)

def indexOf? (s : Text) (c : Char) (position : Nat) : Option Nat :=
  let stop := s.runEnd (· ≠ c) position
  if s[stop]? = some c then some stop else none

theorem getElem?_of_drop (h : s.drop position = rest) : s[position]? = rest.head? := by
  rw [← h, List.head?_drop]

theorem drop_of_drop (h : s.drop position = head ++ rest) :
    s.drop (position + head.length) = rest := by
  rw [← List.drop_drop, h, List.drop_left]

theorem drop_succ_of_drop {c : Char} (h : s.drop position = c :: rest) :
    s.drop (position + 1) = rest :=
  @drop_of_drop s [c] rest position h

theorem slice_succ_iff {c : Char} :
    s.slice position (position + 1) = [c] ↔ s[position]? = some c := by
  rw [slice, Nat.add_sub_cancel_left, List.take_one, List.head?_drop]
  cases s[position]? <;> simp

theorem slice_of_drop (h : s.drop position = head ++ rest) :
    s.slice position (position + head.length) = head := by
  rw [slice, h, Nat.add_sub_cancel_left, List.take_left]

theorem slice_of_drop_append (h : s.drop position = head ++ (next ++ rest)) :
    s.slice position (position + head.length + next.length) = head ++ next := by
  rw [Nat.add_assoc, ← List.length_append]
  exact slice_of_drop (h.trans (List.append_assoc ..).symm)

theorem le_length_of_drop (h : s.drop position = head ++ rest) (hn : head ≠ []) :
    position ≤ s.length := by
  have hlen := congrArg List.length h
  have hpos := List.length_pos_iff.mpr hn
  simp only [List.length_drop, List.length_append] at hlen
  omega

theorem skip_of_drop {p : Char → Bool} (h : s.drop position = rest) :
    s.skip p position rest.length = position + (rest.takeWhile p).length := by
  induction rest generalizing position with
  | nil => rfl
  | cons c rest ih =>
    have hc : s[position]? = some c := getElem?_of_drop h
    rw [List.length_cons, skip, hc, Option.any_some, List.takeWhile_cons]
    split
    · rw [ih (drop_succ_of_drop h), List.length_cons, Nat.add_assoc, Nat.add_comm 1]
    · rfl

theorem runEnd_of_drop {p : Char → Bool} (h : s.drop position = rest) :
    s.runEnd p position = position + (rest.takeWhile p).length := by
  rw [runEnd, ← List.length_drop, h, skip_of_drop h]

theorem indexOf?_eq_none {c : Char} (h : s.drop position = rest)
    (hd : rest.dropWhile (· ≠ c) = []) : s.indexOf? c position = none := by
  have hrun : s.drop position = rest.takeWhile (· ≠ c) ++ [] := by
    rw [h, ← hd, List.takeWhile_append_dropWhile]
  rw [indexOf?, runEnd_of_drop h, getElem?_of_drop (drop_of_drop hrun)]
  rfl

theorem indexOf?_eq_some {c d : Char} {after : Text} (h : s.drop position = rest)
    (hd : rest.dropWhile (· ≠ c) = d :: after) :
    s.indexOf? c position = some (position + (rest.takeWhile (· ≠ c)).length) := by
  have hrun := h.trans (dropWhile_ne_cons hd)
  rw [indexOf?, runEnd_of_drop h, getElem?_of_drop (drop_of_drop hrun), List.head?_cons, if_pos rfl]

theorem holdsAt_iff : s.holdsAt keyword position = true ↔
    position ≤ s.length ∧ ∃ rest, s.drop position = keyword ++ rest := by
  simp only [holdsAt, Bool.and_eq_true, decide_eq_true_eq, beq_iff_eq]
  refine and_congr_right fun _ => ⟨fun h => ⟨s.drop (position + keyword.length), ?_⟩, ?_⟩
  · conv => lhs; rw [← List.take_append_drop keyword.length (s.drop position)]
    rw [slice, Nat.add_sub_cancel_left] at h
    rw [h, List.drop_drop]
  · rintro ⟨rest, h⟩
    exact slice_of_drop h

theorem holdsAt_of_after?_eq_none (h : after? (s.drop position) keyword = none) :
    s.holdsAt keyword position = false := by
  rw [← Bool.not_eq_true, holdsAt_iff]
  rintro ⟨-, rest, hs⟩
  rw [after?_eq_some_iff.mpr hs] at h
  cases h

end Text

inductive Failure where
  | unrecognized (snippet : Text) (position : Nat)
  | malformed (fault : GroupFault) (position : Nat)
  deriving DecidableEq, Repr

inductive Cause where
  | unrecognized
  | malformed
  deriving DecidableEq, Repr

structure Diagnostic where
  cause : Cause
  message : Text
  snippet : Text := []
  position : Nat := 0
  deriving DecidableEq, Repr

def GroupFault.message : GroupFault → Text
  | .notOpened => "expected opening paren".toList
  | .notClosed => "Failed parsing: No matching paren".toList

def Malformed.failureAt (e : Malformed) (start : Nat) : Failure :=
  .malformed e.fault (start + e.offset)

namespace Failure

def snippetLength : Nat := 10

/-- No token can be found at a position. The source there is cut to the length of a snippet. -/
def unrecognizedAt (source : Text) (position : Nat) : Failure :=
  .unrecognized (source.slice position (position + snippetLength)) position

theorem unrecognizedAt_eq (source : Text) (position : Nat) :
    unrecognizedAt source position =
      .unrecognized ((source.drop position).take snippetLength) position := by
  rw [unrecognizedAt, Text.slice, Nat.add_sub_cancel_left]

def diagnostic : Failure → Diagnostic
  | .unrecognized snippet position =>
    ⟨.unrecognized, "failed to parse near '".toList ++ snippet ++ "...'".toList, snippet, position⟩
  | .malformed fault position => ⟨.malformed, fault.message, [], position⟩

end Failure

structure Found where
  token : Token
  stop : Nat
  deriving DecidableEq, Repr

/-- Beyond the end of the source every recognizer passes. -/
def Recognizer.at (recognize : Recognizer) (source : Text) (position : Nat) :
    Except Failure (Option Found) :=
  if position ≤ source.length then
    match recognize (source.drop position) with
    | .ok found => .ok (found.map fun m => ⟨m.token, position + m.token.raw.length⟩)
    | .error e => .error (e.failureAt position)
  else .ok none

theorem Recognizer.at_congr {one other : Recognizer} {source : Text} {position : Nat}
    (h : one (source.drop position) = other (source.drop position)) :
    one.at source position = other.at source position := by
  rw [Recognizer.at, Recognizer.at, h]

/-- Where a recognizer passes on the empty text, the end of the source is no special case. -/
theorem Recognizer.at_of_nil {recognize : Recognizer} (h : recognize [] = .ok none)
    (source : Text) (position : Nat) :
    recognize.at source position = match recognize (source.drop position) with
      | .ok found => .ok (found.map fun m => ⟨m.token, position + m.token.raw.length⟩)
      | .error e => .error (e.failureAt position) := by
  rw [Recognizer.at]
  split
  · rfl
  · next hle =>
    rw [List.drop_eq_nil_of_le (Nat.le_of_not_le hle), h]
    rfl

def Group.at (source : Text) (position : Nat) : Except Failure Text :=
  match Group.read (source.drop position) with
  | .ok (group, _) => .ok group
  | .error fault => .error (.malformed fault position)

end StyleValue
