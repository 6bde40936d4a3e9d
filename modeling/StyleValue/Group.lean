import StyleValue.Text.Basic

/-!
# Parenthesized groups

A group begins with an opening paren and ends with the paren that closes it, nested groups
included. Reading a group splits the text: the group and the rest make up the whole.
-/

namespace StyleValue

inductive GroupFault where
  | notOpened
  | notClosed
  deriving DecidableEq, Repr

namespace Group

/-- Reads on inside a group that is itself inside `depth` others, through the end of them all. -/
def close? : Nat → Text → Option (Text × Text)
  | _, [] => none
  | depth, c :: s =>
    if c = '(' then (close? (depth + 1) s).map fun (inner, rest) => (c :: inner, rest)
    else if c = ')' then
      match depth with
      | 0 => some ([c], s)
      | depth + 1 => (close? depth s).map fun (inner, rest) => (c :: inner, rest)
    else (close? depth s).map fun (inner, rest) => (c :: inner, rest)

def read (s : Text) : Except GroupFault (Text × Text) :=
  match s with
  | '(' :: inner =>
    match close? 0 inner with
    | some (group, rest) => .ok ('(' :: group, rest)
    | none => .error .notClosed
  | _ => .error .notOpened

theorem read_of_head_ne {s : Text} (h : s.head? ≠ some '(') : read s = .error .notOpened := by
  unfold read
  split
  · exact absurd rfl h
  · rfl

theorem close?_append {depth : Nat} {s inner rest : Text}
    (h : close? depth s = some (inner, rest)) : s = inner ++ rest := by
  fun_induction close? depth s generalizing inner rest with
  | case1 => simp at h
  | case2 depth s ih =>
    simp only [Option.map_eq_some_iff] at h
    obtain ⟨⟨i, r⟩, hr, he⟩ := h
    cases he
    simp [ih hr]
  | case3 s => cases h; rfl
  | case4 s depth _ ih =>
    simp only [Option.map_eq_some_iff] at h
    obtain ⟨⟨i, r⟩, hr, he⟩ := h
    cases he
    simp [ih hr]
  | case5 depth c s _ hc ih =>
    simp only [Option.map_eq_some_iff] at h
    obtain ⟨⟨i, r⟩, hr, he⟩ := h
    cases he
    simp [ih hr]

theorem read_append {s group rest : Text} (h : read s = .ok (group, rest)) :
    s = group ++ rest ∧ group ≠ [] := by
  unfold read at h
  split at h
  · split at h
    · next hc => cases h; simp [close?_append hc]
    · cases h
  · cases h

end Group
end StyleValue
