import StyleValue.Position
import StyleValue.Rule

/-!
# Scanners

A scanner looks for a token at a position of a source. It is given the whole source, goes along it by
positions and cuts out what it takes. A probe does so for the body of a token alone. Every scanner
finds what the recognizer of the same rule finds in the text from the position on.
-/

namespace StyleValue

/-- Looks for a body at a position of a source, and gives the position after its text. -/
abbrev Probe := Text → Nat → Option (Body × Nat)

abbrev Scanner := Text → Nat → Except Failure (Option Found)

namespace Group

/-- Goes on from `index`, where `depth` groups are open, and gives the position after the paren that
closes the last of them. -/
def stop? (source : Text) (index : Nat) (depth : Int) : Nat → Option Nat
  | 0 => none
  | count + 1 =>
    let after :=
      if source[index]? = some '(' then depth + 1
      else if source[index]? = some ')' then depth - 1
      else depth
    if after = 0 then some (index + 1) else stop? source (index + 1) after count

def scan (source : Text) (start : Nat) : Except Failure Text :=
  if source.slice start (start + 1) = ['('] then
    match stop? source start 0 (source.length - start) with
    | some stop => .ok (source.slice start stop)
    | none => .error (.malformed .notClosed start)
  else .error (.malformed .notOpened start)

theorem stop?_cons {source s : Text} {index after : Nat} {depth : Int} {c : Char}
    (h : source.drop index = c :: s)
    (ha : (after : Int) + 1 = if c = '(' then depth + 1 else if c = ')' then depth - 1 else depth) :
    stop? source index depth (s.length + 1) = stop? source (index + 1) (after + 1) s.length := by
  have hc : source[index]? = some c := Text.getElem?_of_drop h
  have hn : (after : Int) + 1 ≠ 0 := by omega
  simp [stop?, hc, ← ha, hn]

theorem stop?_of_drop {source s : Text} {index depth : Nat} (h : source.drop index = s) :
    stop? source index (depth + 1) s.length =
      (close? depth s).map fun (inner, _) => index + inner.length := by
  fun_induction close? depth s generalizing index with
  | case1 => rfl
  | case2 depth s ih =>
    have hstep : stop? source index (depth + 1) (s.length + 1) =
        stop? source (index + 1) ((depth + 1 : Nat) + 1) s.length := stop?_cons h rfl
    rw [List.length_cons, hstep, ih (Text.drop_succ_of_drop h)]
    simp [Function.comp_def, Nat.add_assoc, Nat.add_comm 1]
  | case3 s =>
    have hc : source[index]? = some ')' := Text.getElem?_of_drop h
    simp [stop?, hc]
  | case4 s depth _ ih =>
    have hclose : (depth : Int) + 1 = ((depth + 1 : Nat) : Int) + 1 - 1 := by omega
    rw [List.length_cons, stop?_cons h hclose, ih (Text.drop_succ_of_drop h)]
    simp [Function.comp_def, Nat.add_assoc, Nat.add_comm 1]
  | case5 depth c s hopen hclose ih =>
    have hsame : (depth : Int) + 1 = if c = '(' then (depth : Int) + 1 + 1 else
        if c = ')' then (depth : Int) + 1 - 1 else depth + 1 := by rw [if_neg hopen, if_neg hclose]
    rw [List.length_cons, stop?_cons h hsame, ih (Text.drop_succ_of_drop h)]
    simp [Function.comp_def, Nat.add_assoc, Nat.add_comm 1]

/-- No group is open before the first paren, which leaves one open. -/
theorem stop?_of_open {source s : Text} {start : Nat} (h : source.drop start = '(' :: s) :
    stop? source start 0 (source.length - start) =
      (close? 0 s).map fun (inner, _) => start + ('(' :: inner).length := by
  have hstep : stop? source start 0 (s.length + 1) =
      stop? source (start + 1) ((0 : Nat) + 1) s.length := stop?_cons h rfl
  rw [← List.length_drop, h, List.length_cons, hstep, stop?_of_drop (Text.drop_succ_of_drop h)]
  simp [Nat.add_assoc, Nat.add_comm 1]

/-- The scan along the source reads the group of the remaining text. -/
theorem scan_eq (source : Text) (start : Nat) : scan source start = Group.at source start := by
  by_cases hopen : source[start]? = some '('
  · have hhead : (source.drop start).head? = some '(' := by rw [List.head?_drop, hopen]
    obtain ⟨s, h⟩ := List.head?_eq_some_iff.mp hhead
    rw [scan, if_pos (Text.slice_succ_iff.mpr hopen), stop?_of_open h, Group.at, h]
    cases hc : close? 0 s with
    | none => simp [read, hc]
    | some split =>
      obtain ⟨inner, rest⟩ := split
      have hgroup : source.drop start = ('(' :: inner) ++ rest := by
        rw [h, close?_append hc, List.cons_append]
      simp only [read, hc, Option.map_some, Text.slice_of_drop hgroup]
  · have hhead : (source.drop start).head? ≠ some '(' := by rwa [List.head?_drop]
    rw [scan, if_neg (mt Text.slice_succ_iff.mp hopen), Group.at, read_of_head_ne hhead]

end Group

namespace Probe

def mark (c : Char) (body : Body) : Probe := fun source position =>
  if source[position]? = some c then some (body, position + 1) else none

def ident : Probe := fun source position =>
  let stop := source.runEnd isIdentChar position
  if stop = position then none else some (.ident (source.slice position stop), stop)

def signEnd (source : Text) (position : Nat) : Nat :=
  if source[position]? = some '+' ∨ source[position]? = some '-' then position + 1 else position

def wholeEnd? (source : Text) (position : Nat) : Option Nat :=
  let digits := signEnd source position
  let stop := source.runEnd Char.isDigit digits
  if stop = digits then none else some stop

def fractionEnd? (source : Text) (position : Nat) : Option Nat :=
  let point := (wholeEnd? source position).getD position
  if source[point]? = some '.' then
    let stop := source.runEnd Char.isDigit (point + 1)
    if stop = point + 1 then none else some stop
  else none

def number (numeralEnd? : Text → Nat → Option Nat) (amount : Text → Amount) : Probe :=
  fun source position => (numeralEnd? source position).map fun numeralEnd =>
    let stop := source.runEnd isUnitChar numeralEnd
    (.number (amount (source.slice position numeralEnd)) (source.slice numeralEnd stop)
      (source.slice position stop), stop)

def fraction : Probe :=
  number fractionEnd? fun numeral => .fraction (Binary64.ofDecimal (Decimal.ofNumeral numeral))

def integer : Probe := number wholeEnd? fun numeral => .whole (Int32.ofNumeral numeral)

def string (quote : Char) : Probe := fun source position =>
  if source[position]? = some quote then
    (source.indexOf? quote (position + 1)).map fun close =>
      (.string [quote] (source.slice (position + 1) close), close + 1)
  else none

def call (name : Text) (kind : FunctionKind) : Probe := fun source position =>
  if source.holdsAt (name ++ ['(']) position then
    (source.indexOf? ')' (position + (name ++ ['(']).length)).map fun close =>
      (.function kind (source.slice position (close + 1)), close + 1)
  else none

def color : Probe := fun source position =>
  (call "rgb".toList .color source position).or (call "rgba".toList .color source position)

/-- The probe finds the body that is read, and stops behind its text. -/
def Refines (probe : Probe) (read : Reader) : Prop :=
  ∀ source position, probe source position =
    (read (source.drop position)).map fun (body, _) => (body, position + body.text.length)

def EndsOf (numeralEnd? : Text → Nat → Option Nat) (numeral? : Text → Option (Text × Text)) : Prop :=
  ∀ source position, numeralEnd? source position =
    (numeral? (source.drop position)).map fun (numeral, _) => position + numeral.length

theorem mark_refines {c : Char} {body : Body} (h : body.text.length = 1) :
    (mark c body).Refines (Reader.mark c body) := by
  intro source position
  cases hs : source.drop position with
  | nil =>
    have hc : source[position]? = none := Text.getElem?_of_drop hs
    simp [mark, Reader.mark, hc]
  | cons d s =>
    have hd : source[position]? = some d := Text.getElem?_of_drop hs
    by_cases hdc : d = c
    · simp [mark, Reader.mark, hd, hdc, h]
    · simp [mark, Reader.mark, hd, hdc]

theorem ident_refines : ident.Refines Reader.ident := by
  intro source position
  have hs : source.drop position = (source.drop position).takeWhile isIdentChar ++
      (source.drop position).dropWhile isIdentChar := List.takeWhile_append_dropWhile.symm
  simp only [ident, Reader.ident, Text.runEnd_of_drop rfl, Text.slice_of_drop hs,
    Nat.add_eq_left, List.length_eq_zero_iff]
  split
  · rfl
  · rfl

theorem signEnd_eq (source : Text) (position : Nat) :
    signEnd source position =
      position + (Decimal.splitSign (source.drop position)).1.length := by
  rw [signEnd, Text.getElem?_of_drop rfl]
  generalize source.drop position = s
  fun_cases Decimal.splitSign s with
  | case1 => rfl
  | case2 => rfl
  | case3 _ hplus hminus =>
    have hsign : ¬ (s.head? = some '+' ∨ s.head? = some '-') := by
      simp only [List.head?_eq_some_iff, not_or, not_exists]
      exact ⟨hplus, hminus⟩
    rw [if_neg hsign]
    rfl

theorem wholeEnd?_ends : EndsOf wholeEnd? Numeral.whole? := by
  intro source position
  have hs := Decimal.splitSign_append (source.drop position)
  have hbody := Text.drop_of_drop hs.symm
  simp only [wholeEnd?, Numeral.whole?, signEnd_eq, Text.runEnd_of_drop hbody, Nat.add_eq_left,
    List.length_eq_zero_iff]
  split
  · rfl
  · simp [Nat.add_assoc]

theorem fractionEnd?_ends : EndsOf fractionEnd? Numeral.fraction? := by
  intro source position
  have hs := Numeral.getD_whole?_append (source.drop position)
  have hpoint : (wholeEnd? source position).getD position =
      position + ((Numeral.whole? (source.drop position)).getD ([], source.drop position)).1.length := by
    rw [wholeEnd?_ends]
    cases Numeral.whole? (source.drop position) <;> rfl
  have hbody := Text.drop_of_drop hs.symm
  simp only [fractionEnd?, Numeral.fraction?, hpoint, Text.getElem?_of_drop hbody]
  generalize (Numeral.whole? (source.drop position)).getD ([], source.drop position) = split at *
  obtain ⟨whole, body⟩ := split
  cases body with
  | nil => rfl
  | cons d afterPoint =>
    by_cases hd : d = '.'
    · subst hd
      have hafter := Text.drop_succ_of_drop hbody
      simp only [List.head?_cons, if_true, Text.runEnd_of_drop hafter, Nat.add_eq_left,
        List.length_eq_zero_iff]
      split
      · rfl
      · simp [Nat.add_assoc, Nat.add_comm 1]
    · simp [hd]

theorem number_refines {numeralEnd? : Text → Nat → Option Nat}
    {numeral? : Text → Option (Text × Text)} {amount : Text → Amount}
    (he : EndsOf numeralEnd? numeral?)
    (hs : ∀ {s numeral rest}, numeral? s = some (numeral, rest) → s = numeral ++ rest ∧ numeral ≠ []) :
    (number numeralEnd? amount).Refines (Reader.number numeral? amount) := by
  intro source position
  simp only [number, Reader.number, he source position]
  cases hn : numeral? (source.drop position) with
  | none => rfl
  | some split =>
    obtain ⟨numeral, rest⟩ := split
    have hsplit := (hs hn).1
    have hrest := Text.drop_of_drop hsplit
    have hunit : rest = rest.takeWhile isUnitChar ++ rest.dropWhile isUnitChar :=
      List.takeWhile_append_dropWhile.symm
    have hnumber := Text.slice_of_drop_append (hunit ▸ hsplit)
    simp only [Option.map_some, Text.runEnd_of_drop hrest, Text.slice_of_drop hsplit,
      Text.slice_of_drop (hrest.trans hunit), hnumber, Body.text, List.length_append]
    rw [Nat.add_assoc]

theorem fraction_refines : fraction.Refines Reader.fraction :=
  number_refines fractionEnd?_ends Numeral.fraction?_append

theorem integer_refines : integer.Refines Reader.integer :=
  number_refines wholeEnd?_ends Numeral.whole?_append

theorem string_refines (quote : Char) : (string quote).Refines (Reader.string quote) := by
  intro source position
  cases hs : source.drop position with
  | nil =>
    have hc : source[position]? = none := Text.getElem?_of_drop hs
    simp [string, Reader.string, hc]
  | cons c s =>
    have hc : source[position]? = some c := Text.getElem?_of_drop hs
    have hnext := Text.drop_succ_of_drop hs
    by_cases hq : c = quote
    · subst hq
      simp only [string, Reader.string, hc, if_true]
      cases hd : s.dropWhile (· ≠ c) with
      | nil =>
        rw [Text.indexOf?_eq_none hnext hd]
        rfl
      | cons d rest =>
        have hvalue := Text.slice_of_drop (hnext.trans (Text.dropWhile_ne_cons hd))
        simp only [Text.indexOf?_eq_some hnext hd, Option.map_some, hvalue]
        simp [Body.text, Nat.add_assoc, Nat.add_comm 1]
    · simp [string, Reader.string, hc, hq]

theorem call_refines (name : Text) (kind : FunctionKind) :
    (call name kind).Refines (Reader.call name kind) := by
  intro source position
  simp only [call, Reader.call]
  cases ha : Text.after? (source.drop position) (name ++ ['(']) with
  | none => simp [Text.holdsAt_of_after?_eq_none ha]
  | some arguments =>
    have hs := Text.after?_eq_some_iff.mp ha
    have hle := Text.le_length_of_drop hs (by simp)
    have hnext := Text.drop_of_drop hs
    simp only [Text.holdsAt_iff.mpr ⟨hle, arguments, hs⟩, if_true]
    cases hd : arguments.dropWhile (· ≠ ')') with
    | nil =>
      rw [Text.indexOf?_eq_none hnext hd]
      rfl
    | cons d rest =>
      have hcall : source.drop position =
          (name ++ '(' :: arguments.takeWhile (· ≠ ')') ++ [')']) ++ rest := by
        rw [hs]
        conv => lhs; rw [Text.dropWhile_ne_cons hd]
        simp
      have hclose : position + (name ++ ['(']).length + (arguments.takeWhile (· ≠ ')')).length + 1 =
          position + (name ++ '(' :: arguments.takeWhile (· ≠ ')') ++ [')']).length := by
        simp only [List.length_append, List.length_cons, List.length_nil]
        omega
      rw [Text.indexOf?_eq_some hnext hd, Option.map_some, hclose, Text.slice_of_drop hcall]
      rfl

theorem color_refines : color.Refines Reader.color := by
  intro source position
  simp only [color, Reader.color, call_refines _ _ source position, Option.map_or]

end Probe

namespace Scanner

/-- The token takes the spaces that follow its body. -/
def ofProbe (probe : Probe) : Scanner := fun source position =>
  .ok <| (probe source position).map fun (body, bodyEnd) =>
    let stop := source.runEnd (· = ' ') bodyEnd
    ⟨⟨source.slice position stop, body⟩, stop⟩

/-- The keyword alone decides that there has to be a group. -/
def nested (keyword : Text) (kind : FunctionKind) : Scanner := fun source position =>
  if source.holdsAt keyword position then
    (Group.scan source (position + keyword.length)).map fun arguments =>
      let stop := position + keyword.length + arguments.length
      some ⟨⟨source.slice position stop, .function kind (keyword ++ arguments)⟩, stop⟩
  else .ok none

def first : List Scanner → Scanner
  | [], _, _ => .ok none
  | scan :: others, source, position =>
    match scan source position with
    | .ok none => first others source position
    | outcome => outcome

theorem ofProbe_eq {probe : Probe} {read : Reader} (h : probe.Refines read) (hs : read.Sound) :
    ofProbe probe = (Recognizer.ofReader read).at := by
  funext source position
  simp only [ofProbe, h source position, Recognizer.at, Recognizer.ofReader]
  cases hr : read (source.drop position) with
  | none => simp
  | some split =>
    obtain ⟨body, rest⟩ := split
    obtain ⟨hsplit, hne⟩ := hs _ _ _ hr
    have hle := Text.le_length_of_drop hsplit hne
    have hspaces : rest = rest.takeWhile (· = ' ') ++ rest.dropWhile (· = ' ') :=
      List.takeWhile_append_dropWhile.symm
    have hraw := Text.slice_of_drop_append (hspaces ▸ hsplit)
    simp only [if_pos hle, Option.map_some, Text.runEnd_of_drop (Text.drop_of_drop hsplit), hraw,
      Recognizer.spaced, List.length_append]
    rw [Nat.add_assoc]

theorem nested_eq (keyword : Text) (kind : FunctionKind) :
    nested keyword kind = (Recognizer.nested keyword kind).at := by
  funext source position
  simp only [nested, Recognizer.at, Recognizer.nested, Group.scan_eq, Group.at]
  by_cases hle : position ≤ source.length
  · cases ha : Text.after? (source.drop position) keyword with
    | none => simp [Text.holdsAt_of_after?_eq_none ha]
    | some arguments =>
      have hs := Text.after?_eq_some_iff.mp ha
      have hnext := Text.drop_of_drop hs
      simp only [Text.holdsAt_iff.mpr ⟨hle, arguments, hs⟩, if_true, if_pos hle, hnext]
      cases hg : Group.read arguments with
      | error fault => rfl
      | ok split =>
        obtain ⟨group, rest⟩ := split
        have hcall := Text.slice_of_drop_append ((Group.read_append hg).1 ▸ hs)
        simp only [Except.map, hcall, Option.map_some, List.length_append]
        rw [Nat.add_assoc]
  · have hn : source.holdsAt keyword position = false := by
      rw [← Bool.not_eq_true, Text.holdsAt_iff]
      exact fun h => hle h.1
    simp [hn, hle]

theorem first_eq (recognizers : List Recognizer) :
    first (recognizers.map Recognizer.at) = (Recognizer.first recognizers).at := by
  funext source position
  induction recognizers with
  | nil => simp [first, Recognizer.at, Recognizer.first]
  | cons recognize others ih =>
    rw [List.map_cons, first, ih]
    simp only [Recognizer.at, Recognizer.first]
    by_cases hle : position ≤ source.length
    · simp only [if_pos hle]
      cases recognize (source.drop position) with
      | error e => rfl
      | ok found =>
        cases found with
        | none => rfl
        | some m => rfl
    · simp [hle]

end Scanner

namespace Rule

def scan : Rule → Scanner
  | .operator => .ofProbe (Probe.mark '/' (.operator ['/']))
  | .comma => .ofProbe (Probe.mark ',' (.comma [',']))
  | .ident => .ofProbe Probe.ident
  | .fraction => .ofProbe Probe.fraction
  | .integer => .ofProbe Probe.integer
  | .number => .first [.ofProbe Probe.fraction, .ofProbe Probe.integer]
  | .single => .ofProbe (Probe.string '\'')
  | .double => .ofProbe (Probe.string '"')
  | .string => .first [.ofProbe (Probe.string '\''), .ofProbe (Probe.string '"')]
  | .color => .ofProbe Probe.color
  | .url => .ofProbe (Probe.call "url".toList .url)
  | .gradient => .nested "linear-gradient".toList .gradient
  | .calc => .nested "calc".toList .calc
  | .variable => .nested "var".toList .variable

def scanFirst (rules : List Rule) : Scanner := .first (rules.map scan)

theorem fraction_scan : Scanner.ofProbe Probe.fraction = (Recognizer.ofReader Reader.fraction).at :=
  Scanner.ofProbe_eq Probe.fraction_refines Reader.fraction_sound

theorem integer_scan : Scanner.ofProbe Probe.integer = (Recognizer.ofReader Reader.integer).at :=
  Scanner.ofProbe_eq Probe.integer_refines Reader.integer_sound

theorem string_scan (quote : Char) :
    Scanner.ofProbe (Probe.string quote) = (Recognizer.ofReader (Reader.string quote)).at :=
  Scanner.ofProbe_eq (Probe.string_refines quote) (Reader.string_sound quote)

/-- A rule finds at a position what it finds in the text from there on. -/
theorem scan_eq : ∀ rule : Rule, rule.scan = rule.recognize.at
  | .operator => Scanner.ofProbe_eq (Probe.mark_refines rfl) (Reader.mark_sound rfl)
  | .comma => Scanner.ofProbe_eq (Probe.mark_refines rfl) (Reader.mark_sound rfl)
  | .ident => Scanner.ofProbe_eq Probe.ident_refines Reader.ident_sound
  | .fraction => fraction_scan
  | .integer => integer_scan
  | .number => by rw [scan, recognize, ← Scanner.first_eq, fraction_scan, integer_scan]; rfl
  | .single => string_scan _
  | .double => string_scan _
  | .string => by rw [scan, recognize, ← Scanner.first_eq, string_scan, string_scan]; rfl
  | .color => Scanner.ofProbe_eq Probe.color_refines Reader.color_sound
  | .url => Scanner.ofProbe_eq (Probe.call_refines _ _) (Reader.call_sound _ _)
  | .gradient => Scanner.nested_eq _ _
  | .calc => Scanner.nested_eq _ _
  | .variable => Scanner.nested_eq _ _

theorem scanFirst_eq (rules : List Rule) : scanFirst rules = (first rules).at := by
  rw [scanFirst, first, ← Scanner.first_eq, List.map_map, funext scan_eq]
  rfl

end Rule
end StyleValue
