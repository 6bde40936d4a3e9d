import StyleValue.Token.Record

/-!
# Drafts and public names

Tokens made and changed by hand, without a source. A draft may also be a bare text of no kind.
Changing a field leaves the raw text as it is, and changing the raw text leaves the fields.
The catalogue lists what can be made, and the names of types that a user meets.
-/

namespace StyleValue

/-- What a draft can be made as: a bare text, any function, or a token of one kind. -/
inductive Category where
  | bare
  | anyFunction
  | kind (kind : Kind)
  deriving DecidableEq, Repr

namespace Category

def title : Category → String
  | .bare => "Token"
  | .anyFunction => "Function"
  | .kind k => k.title

def kind? : Category → Option Kind
  | .kind k => some k
  | _ => none

def fields : Category → List Field
  | .bare => []
  | .anyFunction => [.value]
  | .kind k => k.fields

def isFunction : Category → Bool
  | .anyFunction => true
  | .kind (.function _) => true
  | _ => false

end Category

inductive DraftError where
  | functionWithoutKind
  | recordOfBareText
  | computedString
  deriving DecidableEq, Repr

def DraftError.message : DraftError → String
  | .functionWithoutKind =>
    "Function is a base class, use Color, Gradient, Calc, Url or Variable"
  | .recordOfBareText => "'Token' object has no attribute 'type'"
  | .computedString => "property 'string' of 'String' object has no setter"

inductive Draft where
  | bare (raw : Text)
  | token (token : Token)
  deriving DecidableEq, Repr

/-- The values given for a new draft. Each kind takes those of its fields that are not computed. -/
structure Ingredients where
  raw : Option Text
  value : Text
  amount : Amount
  unit : Text
  string : Text
  quote : Text
  deriving DecidableEq, Repr

inductive Change where
  | raw (text : Text)
  | field (field : Field) (value : FieldValue)
  deriving DecidableEq, Repr

def Ingredients.body (i : Ingredients) : Kind → Body
  | .operator => .operator ['/']
  | .comma => .comma [',']
  | .ident => .ident i.string
  | .number => .number i.amount i.unit i.string
  | .string => .string i.quote i.value
  | .function kind => .function kind i.value

/-- Fields that the body does not have are left out. -/
def Body.set : Body → Field → FieldValue → Except DraftError Body
  | .operator _, .value, .text value => .ok (.operator value)
  | .comma _, .string, .text s => .ok (.comma s)
  | .ident _, .string, .text s => .ok (.ident s)
  | .number _ unit s, .value, .amount value => .ok (.number value unit s)
  | .number value _ s, .unit, .text unit => .ok (.number value unit s)
  | .number value unit _, .string, .text s => .ok (.number value unit s)
  | .string .., .string, _ => .error .computedString
  | .string quote _, .value, .text value => .ok (.string quote value)
  | .string _ value, .quote, .text quote => .ok (.string quote value)
  | .function kind _, .value, .text value => .ok (.function kind value)
  | body, _, _ => .ok body

namespace Draft

def make : Category → Ingredients → Except DraftError Draft
  | .bare, i => .ok (.bare (i.raw.getD []))
  | .anyFunction, _ => .error .functionWithoutKind
  | .kind k, i => .ok (.token (Token.ofBody (i.body k) i.raw))

def category : Draft → Category
  | .bare _ => .bare
  | .token t => .kind t.kind

def raw : Draft → Text
  | .bare raw => raw
  | .token t => t.raw

def record : Draft → Except DraftError (Kind × List (Field × FieldValue))
  | .bare _ => .error .recordOfBareText
  | .token t => .ok (t.kind, t.record)

def display : Draft → Text
  | .bare raw => applied Category.bare.title (showRaw raw)
  | .token t => t.display

def change : Draft → Change → Except DraftError Draft
  | .bare _, .raw raw => .ok (.bare raw)
  | .bare raw, .field .. => .ok (.bare raw)
  | .token t, .raw raw => .ok (.token { t with raw })
  | .token t, .field field value =>
    (t.body.set field value).map fun body => .token { t with body }

/-- The drafts after each change in turn. A change that fails leaves the draft as it was. -/
def changes (draft : Draft) : List Change → List (Draft × Option DraftError)
  | [] => []
  | c :: rest =>
    match draft.change c with
    | .ok changed => (changed, none) :: changed.changes rest
    | .error e => (draft, some e) :: draft.changes rest

end Draft

namespace Catalogue

def version : String := "0.1.0"

def kinds : List Kind :=
  [.operator, .number, .ident, .string, .comma,
   .function .color, .function .gradient, .function .calc, .function .url, .function .variable]

def categories : List Category := .bare :: .anyFunction :: kinds.map .kind

def category? (title : String) : Option Category := categories.find? (·.title = title)

def typeNames : List String := ["Kind", Category.bare.title, "AnyToken"] ++ kinds.map Kind.title

end Catalogue
end StyleValue
