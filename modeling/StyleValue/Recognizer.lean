import StyleValue.Token.Basic
import StyleValue.Group

/-!
# Recognizers

A recognizer looks at a text and either passes, finds a token at the beginning, or finds that the
text is malformed. A token found splits the text: its raw text and the rest make up the whole,
and the raw text is not empty.
-/

namespace StyleValue

structure Match where
  token : Token
  rest : Text
  deriving DecidableEq, Repr

/-- A call whose group cannot be read, and where the group should begin in the text. -/
structure Malformed where
  fault : GroupFault
  offset : Nat
  deriving DecidableEq, Repr

abbrev Recognizer := Text → Except Malformed (Option Match)

abbrev Reader := Text → Option (Body × Text)

def Match.Splits (m : Match) (s : Text) : Prop :=
  s = m.token.raw ++ m.rest ∧ m.token.raw ≠ []

def Reader.Sound (read : Reader) : Prop :=
  ∀ s body rest, read s = some (body, rest) → s = body.text ++ rest ∧ body.text ≠ []

namespace Recognizer

def Sound (recognize : Recognizer) : Prop :=
  ∀ s m, recognize s = .ok (some m) → m.Splits s

def spaced (body : Body) (rest : Text) : Match :=
  ⟨⟨body.text ++ rest.takeWhile (· = ' '), body⟩, rest.dropWhile (· = ' ')⟩

def ofReader (read : Reader) : Recognizer := fun s =>
  .ok ((read s).map fun (body, rest) => spaced body rest)

/-- A keyword and the group after it. The keyword alone decides that the text has to be a call,
and the spaces after the call are left. -/
def nested (keyword : Text) (kind : FunctionKind) : Recognizer := fun s =>
  match s.after? keyword with
  | none => .ok none
  | some arguments =>
    match Group.read arguments with
    | .ok (group, rest) => .ok (some ⟨⟨keyword ++ group, .function kind (keyword ++ group)⟩, rest⟩)
    | .error fault => .error ⟨fault, keyword.length⟩

def first : List Recognizer → Recognizer
  | [], _ => .ok none
  | recognize :: others, s =>
    match recognize s with
    | .ok none => first others s
    | outcome => outcome

theorem ofReader_sound {read : Reader} (h : read.Sound) : (ofReader read).Sound := by
  intro s m hm
  simp only [ofReader, Except.ok.injEq, Option.map_eq_some_iff] at hm
  obtain ⟨⟨body, rest⟩, hr, rfl⟩ := hm
  obtain ⟨he, hn⟩ := h s body rest hr
  exact ⟨by simp [spaced, he], by simp [spaced, hn]⟩

theorem nested_sound (keyword : Text) (kind : FunctionKind) : (nested keyword kind).Sound := by
  intro s m hm
  unfold nested at hm
  split at hm
  · cases hm
  · next arguments ha =>
    split at hm
    · next group rest hg =>
      cases hm
      obtain ⟨he, hn⟩ := Group.read_append hg
      exact ⟨by rw [Text.after?_eq_some_iff.1 ha, he, List.append_assoc], by simp [hn]⟩
    · cases hm

theorem first_sound {recognizers : List Recognizer}
    (h : ∀ recognize ∈ recognizers, recognize.Sound) : (first recognizers).Sound := by
  intro s m hm
  induction recognizers with
  | nil => cases hm
  | cons recognize others ih =>
    rw [first] at hm
    split at hm
    · exact ih (fun r hr => h r (List.mem_cons_of_mem _ hr)) hm
    · exact h recognize List.mem_cons_self s m hm

end Recognizer
end StyleValue
