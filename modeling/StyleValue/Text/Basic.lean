/-!
# Text

A text is its list of characters, so every length and position counts code points.
Removing a leading keyword inverts concatenation: `s.after? k = some r ↔ s = k ++ r`.

Three classes of space agree on a common core and must not be confused. Blanks separate tokens,
white space surrounds a number text, and margins are dropped when a token is printed. The byte order
mark U+FEFF is a blank only; U+0085 is no blank; the separators U+001C to U+001F are margins only.
-/

namespace StyleValue

abbrev Text := List Char

namespace Text

def trimRight (p : Char → Bool) (s : Text) : Text := (s.reverse.dropWhile p).reverse

def trim (p : Char → Bool) (s : Text) : Text := trimRight p (s.dropWhile p)

/-- What follows `keyword` in a text that begins with it. -/
def after? : Text → Text → Option Text
  | s, [] => some s
  | [], _ :: _ => none
  | c :: s, k :: keyword => if c = k then after? s keyword else none

theorem after?_eq_some_iff {s keyword rest : Text} :
    s.after? keyword = some rest ↔ s = keyword ++ rest := by
  fun_induction after? s keyword with
  | case1 s => simp
  | case2 k keyword => simp
  | case3 s c keyword ih => simpa using ih
  | case4 c s k keyword h => simp [h]

theorem dropWhile_ne_cons {s rest : Text} {c d : Char}
    (h : s.dropWhile (· ≠ c) = d :: rest) : s = s.takeWhile (· ≠ c) ++ c :: rest := by
  have hd : d = c := by
    have hs := List.head?_dropWhile_not (· ≠ c) s
    rw [h] at hs
    simpa using hs
  conv => lhs; rw [← List.takeWhile_append_dropWhile (p := (· ≠ c)) (l := s), h, hd]

/-- The code points that belong to all three classes, in ascending order. -/
def spaceCodes : List Nat :=
  [0x09, 0x0a, 0x0b, 0x0c, 0x0d, 0x20, 0xa0, 0x1680,
   0x2000, 0x2001, 0x2002, 0x2003, 0x2004, 0x2005, 0x2006, 0x2007, 0x2008, 0x2009, 0x200a,
   0x2028, 0x2029, 0x202f, 0x205f, 0x3000]

def blankCodes : List Nat := spaceCodes ++ [0xfeff]

def isBlank (c : Char) : Bool := blankCodes.contains c.toNat

/-- The Unicode property `White_Space`. -/
def isWhiteSpace (c : Char) : Bool := c.toNat == 0x85 || spaceCodes.contains c.toNat

/-- White space together with the four information separators. -/
def isMargin (c : Char) : Bool := (0x1c ≤ c.toNat && c.toNat ≤ 0x1f) || isWhiteSpace c

def isBlankRun (s : Text) : Bool := !s.isEmpty && s.all isBlank

/-- The zero of each row of decimal digits, in ascending order. A row is ten consecutive code
points, and each script has one. -/
def digitZeros : List Nat :=
  [0x30, 0x660, 0x6f0, 0x7c0, 0x966, 0x9e6, 0xa66, 0xae6, 0xb66, 0xbe6, 0xc66, 0xce6, 0xd66,
   0xde6, 0xe50, 0xed0, 0xf20, 0x1040, 0x1090, 0x17e0, 0x1810, 0x1946, 0x19d0, 0x1a80, 0x1a90,
   0x1b50, 0x1bb0, 0x1c40, 0x1c50, 0xa620, 0xa8d0, 0xa900, 0xa9d0, 0xa9f0, 0xaa50, 0xabf0,
   0xff10, 0x104a0, 0x10d30, 0x11066, 0x110f0, 0x11136, 0x111d0, 0x112f0, 0x11450, 0x114d0,
   0x11650, 0x116c0, 0x11730, 0x118e0, 0x11950, 0x11c50, 0x11d50, 0x11da0, 0x16a60, 0x16ac0,
   0x16b50, 0x1d7ce, 0x1d7d8, 0x1d7e2, 0x1d7ec, 0x1d7f6, 0x1e140, 0x1e2f0, 0x1e950, 0x1fbf0]

def digitValue? (c : Char) : Option Nat :=
  (digitZeros.find? fun code => code ≤ c.toNat && c.toNat < code + 10).map (c.toNat - ·)

/-- Decimal digits of any script become ASCII digits, other characters stay. -/
def asciiDigit (c : Char) : Char :=
  match digitValue? c with
  | some d => Nat.digitChar d
  | none => c

end Text
end StyleValue
