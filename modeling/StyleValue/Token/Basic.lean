import StyleValue.Numeric.Binary64

/-!
# Tokens

A token is its body, which says what was read, and its raw text, which also holds the spaces
around it. The raw texts of consecutive tokens lie end to end in the source.
-/

namespace StyleValue

/-- The kinds of tokens written as a name with a parenthesized argument list. -/
inductive FunctionKind where
  | color | gradient | calc | url | variable
  deriving DecidableEq, Repr

inductive Kind where
  | operator | number | ident | string | comma
  | function (kind : FunctionKind)
  deriving DecidableEq, Repr

def FunctionKind.name : FunctionKind → String
  | .color => "color"
  | .gradient => "gradient"
  | .calc => "calc"
  | .url => "url"
  | .variable => "variable"

def Kind.name : Kind → String
  | .operator => "operator"
  | .number => "number"
  | .ident => "ident"
  | .string => "string"
  | .comma => "comma"
  | .function kind => kind.name

/-- Numerals with a point stand for doubles, the others for integers. -/
inductive Amount where
  | whole (value : Int)
  | fraction (value : Binary64)
  deriving DecidableEq, Repr

inductive Body where
  | operator (value : Text)
  | comma (string : Text)
  | ident (string : Text)
  | number (value : Amount) (unit string : Text)
  | string (quote value : Text)
  | function (kind : FunctionKind) (value : Text)
  deriving DecidableEq, Repr

namespace Body

def kind : Body → Kind
  | .operator _ => .operator
  | .comma _ => .comma
  | .ident _ => .ident
  | .number .. => .number
  | .string .. => .string
  | .function kind _ => .function kind

def text : Body → Text
  | .operator value => value
  | .comma s => s
  | .ident s => s
  | .number _ _ s => s
  | .string quote value => quote ++ value ++ quote
  | .function _ value => value

end Body

structure Token where
  raw : Text
  body : Body
  deriving DecidableEq, Repr

namespace Token

def kind (t : Token) : Kind := t.body.kind

def text (t : Token) : Text := t.body.text

/-- A token made from its body. Without a raw text, or with an empty one, it takes its own text;
only punctuation keeps an empty raw text. -/
def ofBody (body : Body) (raw : Option Text) : Token :=
  match body, raw with
  | .operator _, some raw => ⟨raw, body⟩
  | .comma _, some raw => ⟨raw, body⟩
  | _, some (c :: raw) => ⟨c :: raw, body⟩
  | _, _ => ⟨body.text, body⟩

end Token
end StyleValue
