import StyleValue.Recognizer
import StyleValue.Numeric.Numeral
import StyleValue.Numeric.Binary64

/-!
# Readers

How each token is written, without the spaces after it. A number is a numeral with everything up
to the next blank or slash as its unit. A string runs to the next quote of its kind, and a simple
call to the first closing paren.
-/

namespace StyleValue

/-- ASCII letters and digits, the underscore and the hyphen. -/
def isIdentChar (c : Char) : Bool := c.isAlphanum || c = '_' || c = '-'

def isUnitChar (c : Char) : Bool := !Text.isBlank c && c ≠ '/'

namespace Reader

def mark (c : Char) (body : Body) : Reader
  | [] => none
  | d :: s => if d = c then some (body, s) else none

def ident : Reader := fun s =>
  let name := s.takeWhile isIdentChar
  if name = [] then none else some (.ident name, s.dropWhile isIdentChar)

def number (numeral? : Text → Option (Text × Text)) (amount : Text → Amount) : Reader := fun s =>
  (numeral? s).map fun (numeral, rest) =>
    let unit := rest.takeWhile isUnitChar
    (.number (amount numeral) unit (numeral ++ unit), rest.dropWhile isUnitChar)

def fraction : Reader :=
  number Numeral.fraction? fun numeral => .fraction (Binary64.ofDecimal (Decimal.ofNumeral numeral))

def integer : Reader := number Numeral.whole? fun numeral => .whole (Int32.ofNumeral numeral)

def string (quote : Char) : Reader
  | [] => none
  | c :: s =>
    if c = quote then
      match s.dropWhile (· ≠ quote) with
      | [] => none
      | _ :: rest => some (.string [quote] (s.takeWhile (· ≠ quote)), rest)
    else none

def call (name : Text) (kind : FunctionKind) : Reader := fun s =>
  match s.after? (name ++ ['(']) with
  | none => none
  | some arguments =>
    match arguments.dropWhile (· ≠ ')') with
    | [] => none
    | _ :: rest =>
      some (.function kind (name ++ '(' :: arguments.takeWhile (· ≠ ')') ++ [')']), rest)

def color : Reader := fun s => (call "rgb".toList .color s).or (call "rgba".toList .color s)

theorem mark_sound {c : Char} {body : Body} (h : body.text = [c]) : (mark c body).Sound := by
  intro s b rest hs
  cases s with
  | nil => cases hs
  | cons d s =>
    simp only [mark] at hs
    split at hs
    · next hd => cases hs; simp [h, hd]
    · cases hs

theorem ident_sound : ident.Sound := by
  intro s b rest hs
  simp only [ident] at hs
  split at hs
  · cases hs
  · next hn => cases hs; exact ⟨List.takeWhile_append_dropWhile.symm, hn⟩

theorem number_sound {numeral? : Text → Option (Text × Text)} {amount : Text → Amount}
    (h : ∀ {s numeral rest}, numeral? s = some (numeral, rest) →
      s = numeral ++ rest ∧ numeral ≠ []) : (number numeral? amount).Sound := by
  intro s b rest hs
  simp only [number, Option.map_eq_some_iff] at hs
  obtain ⟨⟨numeral, after⟩, hn, he⟩ := hs
  cases he
  obtain ⟨rfl, hne⟩ := h hn
  exact ⟨by simp [Body.text], by simp [Body.text, hne]⟩

theorem fraction_sound : fraction.Sound := number_sound Numeral.fraction?_append

theorem integer_sound : integer.Sound := number_sound Numeral.whole?_append

theorem string_sound (quote : Char) : (string quote).Sound := by
  intro s b rest hs
  cases s with
  | nil => cases hs
  | cons c s =>
    simp only [string] at hs
    split at hs
    · next hc =>
      split at hs
      · cases hs
      · next hq =>
        cases hs
        refine ⟨?_, by simp [Body.text]⟩
        rw [hc]
        simpa [Body.text] using Text.dropWhile_ne_cons hq
    · cases hs

theorem call_sound (name : Text) (kind : FunctionKind) : (call name kind).Sound := by
  intro s b rest hs
  unfold call at hs
  split at hs
  · cases hs
  · next arguments ha =>
    split at hs
    · cases hs
    · next hc =>
      cases hs
      refine ⟨?_, by simp [Body.text]⟩
      rw [Text.after?_eq_some_iff.1 ha]
      simpa [Body.text] using Text.dropWhile_ne_cons hc

theorem color_sound : color.Sound := by
  intro s b rest hs
  rcases Option.or_eq_some_iff.1 hs with h | ⟨_, h⟩
  · exact call_sound _ _ s b rest h
  · exact call_sound _ _ s b rest h

end Reader

end StyleValue
