import StyleValue.Token.Basic
import StyleValue.Numeric.Display

/-!
# Records and displayed tokens

The record of a token lists its kind's fields with their values, without the raw text.
Every token can be made again from its kind and its record.

A token is shown as its kind applied to its quoted raw text without margins. A number is shown
by its amount and unit instead.
-/

namespace StyleValue

inductive Field where
  | value | string | unit | quote
  deriving DecidableEq, Repr

def Field.name : Field → String
  | .value => "value"
  | .string => "string"
  | .unit => "unit"
  | .quote => "quote"

inductive FieldValue where
  | text (text : Text)
  | amount (amount : Amount)
  deriving DecidableEq, Repr

def Kind.fields : Kind → List Field
  | .operator => [.value]
  | .comma => [.string]
  | .ident => [.string]
  | .number => [.string, .unit, .value]
  | .string => [.quote, .string, .value]
  | .function _ => [.value]

namespace Body

def get? : Body → Field → Option FieldValue
  | .operator value, .value => some (.text value)
  | .comma s, .string => some (.text s)
  | .ident s, .string => some (.text s)
  | .number _ _ s, .string => some (.text s)
  | .number _ unit _, .unit => some (.text unit)
  | .number value _ _, .value => some (.amount value)
  | .string quote _, .quote => some (.text quote)
  | .string quote value, .string => some (.text (quote ++ value ++ quote))
  | .string _ value, .value => some (.text value)
  | .function _ value, .value => some (.text value)
  | _, _ => none

def record (b : Body) : List (Field × FieldValue) :=
  b.kind.fields.filterMap fun field => (b.get? field).map (field, ·)

theorem record_fields (b : Body) : b.record.map Prod.fst = b.kind.fields := by
  cases b <;> rfl

def ofRecord? : Kind → List (Field × FieldValue) → Option Body
  | .operator, [(.value, .text value)] => some (.operator value)
  | .comma, [(.string, .text s)] => some (.comma s)
  | .ident, [(.string, .text s)] => some (.ident s)
  | .number, [(.string, .text s), (.unit, .text unit), (.value, .amount value)] =>
    some (.number value unit s)
  | .string, [(.quote, .text quote), (.string, .text _), (.value, .text value)] =>
    some (.string quote value)
  | .function kind, [(.value, .text value)] => some (.function kind value)
  | _, _ => none

theorem ofRecord?_record (b : Body) : ofRecord? b.kind b.record = some b := by
  cases b <;> rfl

end Body

def Token.record (t : Token) : List (Field × FieldValue) := t.body.record

def FunctionKind.title : FunctionKind → String
  | .color => "Color"
  | .gradient => "Gradient"
  | .calc => "Calc"
  | .url => "Url"
  | .variable => "Variable"

def Kind.title : Kind → String
  | .operator => "Operator"
  | .number => "Number"
  | .ident => "Ident"
  | .string => "String"
  | .comma => "Comma"
  | .function kind => kind.title

def Amount.display : Amount → Text
  | .whole n => showInt n
  | .fraction x => x.display

def applied (title : String) (argument : Text) : Text :=
  title.toList ++ '(' :: argument ++ [')']

def showRaw (raw : Text) : Text := (raw.trim Text.isMargin).quoted

def Token.display (t : Token) : Text :=
  applied t.kind.title <|
    match t.body with
    | .number value unit _ => value.display ++ unit
    | _ => showRaw t.raw

end StyleValue
