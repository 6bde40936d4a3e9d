import StyleValue.Reader

/-!
# Rules

The rules by which tokens are found, and the order in which they are tried. Gradients,
calculations and variables take a whole group, other functions only run to the first closing
paren. Keywords are identifiers too, so identifiers come after every function.
-/

namespace StyleValue

inductive Rule where
  | operator | comma | ident
  | fraction | integer | number
  | single | double | string
  | color | url
  | gradient | calc | variable
  deriving DecidableEq, Repr

namespace Rule

def recognize : Rule → Recognizer
  | .operator => .ofReader (Reader.mark '/' (.operator ['/']))
  | .comma => .ofReader (Reader.mark ',' (.comma [',']))
  | .ident => .ofReader Reader.ident
  | .fraction => .ofReader Reader.fraction
  | .integer => .ofReader Reader.integer
  | .number => .first [.ofReader Reader.fraction, .ofReader Reader.integer]
  | .single => .ofReader (Reader.string '\'')
  | .double => .ofReader (Reader.string '"')
  | .string => .first [.ofReader (Reader.string '\''), .ofReader (Reader.string '"')]
  | .color => .ofReader Reader.color
  | .url => .ofReader (Reader.call "url".toList .url)
  | .gradient => .nested "linear-gradient".toList .gradient
  | .calc => .nested "calc".toList .calc
  | .variable => .nested "var".toList .variable

def trialOrder : List Rule :=
  [.operator, .number, .color, .gradient, .calc, .url, .variable, .ident, .string, .comma]

def name : Rule → String
  | .operator => "operator"
  | .comma => "comma"
  | .ident => "ident"
  | .fraction => "fraction"
  | .integer => "integer"
  | .number => "number"
  | .single => "single"
  | .double => "double"
  | .string => "string"
  | .color => "color"
  | .url => "url"
  | .gradient => "gradient"
  | .calc => "calc"
  | .variable => "variable"

def first (rules : List Rule) : Recognizer := .first (rules.map recognize)

theorem numbers_sound :
    ∀ r ∈ [Recognizer.ofReader Reader.fraction, .ofReader Reader.integer], r.Sound := by
  simp only [List.mem_cons, List.not_mem_nil, or_false, forall_eq_or_imp, forall_eq]
  exact ⟨Recognizer.ofReader_sound Reader.fraction_sound,
    Recognizer.ofReader_sound Reader.integer_sound⟩

theorem strings_sound :
    ∀ r ∈ [Recognizer.ofReader (Reader.string '\''), .ofReader (Reader.string '"')], r.Sound := by
  simp only [List.mem_cons, List.not_mem_nil, or_false, forall_eq_or_imp, forall_eq]
  exact ⟨Recognizer.ofReader_sound (Reader.string_sound _),
    Recognizer.ofReader_sound (Reader.string_sound _)⟩

theorem recognize_sound : ∀ rule : Rule, rule.recognize.Sound
  | .operator => Recognizer.ofReader_sound (Reader.mark_sound rfl)
  | .comma => Recognizer.ofReader_sound (Reader.mark_sound rfl)
  | .ident => Recognizer.ofReader_sound Reader.ident_sound
  | .fraction => Recognizer.ofReader_sound Reader.fraction_sound
  | .integer => Recognizer.ofReader_sound Reader.integer_sound
  | .number => Recognizer.first_sound numbers_sound
  | .single => Recognizer.ofReader_sound (Reader.string_sound _)
  | .double => Recognizer.ofReader_sound (Reader.string_sound _)
  | .string => Recognizer.first_sound strings_sound
  | .color => Recognizer.ofReader_sound Reader.color_sound
  | .url => Recognizer.ofReader_sound (Reader.call_sound _ _)
  | .gradient => Recognizer.nested_sound _ _
  | .calc => Recognizer.nested_sound _ _
  | .variable => Recognizer.nested_sound _ _

theorem first_sound (rules : List Rule) : (first rules).Sound := by
  apply Recognizer.first_sound
  simp only [List.mem_map, forall_exists_index, and_imp, forall_apply_eq_imp_iff₂]
  exact fun rule _ => rule.recognize_sound

end Rule
end StyleValue
