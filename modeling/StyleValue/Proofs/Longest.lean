import StyleValue.Position
import StyleValue.Proofs.Step
import StyleValue.Proofs.Trim

/-! # Longest matches

The patterns of the tokens that take no group, as languages of texts. Where a text begins with a
member of a pattern, the rule of the pattern takes the longest one, and elsewhere it passes. A
number splits after the longest numeral it begins with, so a fraction and an integer that begin at
the same place also end at the same place. -/

namespace StyleValue

structure Longest (language : Text → Prop) (front s : Text) : Prop where
  mem : language front
  isPrefix : front <+: s
  longest : ∀ other, language other → other <+: s → other.length ≤ front.length

def ThenSpaces (language : Text → Prop) (s : Text) : Prop :=
  ∃ text spaces, language text ∧ (∀ c ∈ spaces, c = ' ') ∧ s = text ++ spaces

/-- A numeral, and everything up to a blank or a slash for its unit. -/
def WithUnit (numerals : Text → Prop) (s : Text) : Prop :=
  ∃ numeral unit, numerals numeral ∧ (∀ c ∈ unit, isUnitChar c) ∧ s = numeral ++ unit

def Enclosed (quote : Char) (s : Text) : Prop :=
  ∃ value, quote ∉ value ∧ s = quote :: value ++ [quote]

def Called (name s : Text) : Prop :=
  ∃ arguments, ')' ∉ arguments ∧ s = name ++ '(' :: arguments ++ [')']

/-- The rules that never fail and try no other rules. -/
inductive Pattern where
  | operator | comma | ident
  | fraction | integer
  | single | double
  | color | url
  deriving DecidableEq, Repr

namespace Pattern

def rule : Pattern → Rule
  | .operator => .operator
  | .comma => .comma
  | .ident => .ident
  | .fraction => .fraction
  | .integer => .integer
  | .single => .single
  | .double => .double
  | .color => .color
  | .url => .url

def reader : Pattern → Reader
  | .operator => .mark '/' (.operator ['/'])
  | .comma => .mark ',' (.comma [','])
  | .ident => .ident
  | .fraction => .fraction
  | .integer => .integer
  | .single => .string '\''
  | .double => .string '"'
  | .color => .color
  | .url => .call "url".toList .url

theorem recognize_eq (pattern : Pattern) :
    pattern.rule.recognize = .ofReader pattern.reader := by
  cases pattern <;> rfl

/-- The texts of the tokens, without the spaces after them. -/
def Describes : Pattern → Text → Prop
  | .operator, s => s = ['/']
  | .comma, s => s = [',']
  | .ident, s => s ≠ [] ∧ ∀ c ∈ s, isIdentChar c
  | .fraction, s => WithUnit Numeral.Fraction s
  | .integer, s => WithUnit Numeral.Whole s
  | .single, s => Enclosed '\'' s
  | .double, s => Enclosed '"' s
  | .color, s => Called "rgb".toList s ∨ Called "rgba".toList s
  | .url, s => Called "url".toList s

end Pattern

theorem Text.prefix_run {p : Char → Bool} {text run rest : Text} (ht : ∀ c ∈ text, p c)
    (hr : rest.begins p = false) (h : text <+: run ++ rest) : text <+: run := by
  rcases List.prefix_or_prefix_of_prefix h (List.prefix_append run rest) with h' | ⟨more, rfl⟩
  · exact h'
  · have hm : more <+: rest := (List.prefix_append_right_inj run).mp h
    obtain ⟨tail, rfl⟩ := hm
    cases more with
    | nil => simp
    | cons c more =>
      have hc : p c := ht c (by simp)
      have hn : p c = false := hr
      rw [hc] at hn
      cases hn

/-- A reader takes as much of a text as any member of the language that the text begins with, and
leaves the spaces after it. -/
structure Reader.Munches (read : Reader) (language : Text → Prop) : Prop where
  sound : read.Sound
  mem : ∀ {s b rest}, read s = some (b, rest) → language b.text
  complete : ∀ {text} rest, language text →
    ∃ b after, read (text ++ rest) = some (b, after) ∧ text <+: b.text
  unspaced : ∀ {text}, language text → Text.begins (· = ' ') text.reverse = false

namespace Reader.Munches

variable {read : Reader} {language : Text → Prop} {s rest : Text} {b : Body}

theorem prefix_text (h : read.Munches language) (hr : read s = some (b, rest)) {text : Text}
    (ht : language text) (hs : text <+: s) : text <+: b.text := by
  obtain ⟨t, rfl⟩ := hs
  obtain ⟨b', after, hr', hp⟩ := h.complete t ht
  rw [hr] at hr'
  cases hr'
  exact hp

theorem eq_none_iff (h : read.Munches language) :
    read s = none ↔ ∀ front, ThenSpaces language front → ¬ front <+: s := by
  constructor
  · rintro hn front ⟨text, spaces, ht, -, rfl⟩ ⟨t, rfl⟩
    obtain ⟨b, after, hr, -⟩ := h.complete (spaces ++ t) ht
    rw [← List.append_assoc, hn] at hr
    cases hr
  · intro hall
    apply Option.eq_none_iff_forall_ne_some.mpr
    rintro ⟨b, rest⟩ hr
    refine hall b.text ⟨b.text, [], h.mem hr, by simp, by simp⟩ ⟨rest, ?_⟩
    exact (h.sound s b rest hr).1.symm

theorem nil_eq_none (h : read.Munches language) : read [] = none := by
  apply Option.eq_none_iff_forall_ne_some.mpr
  rintro ⟨b, rest⟩ hr
  obtain ⟨hs, hn⟩ := h.sound [] b rest hr
  exact hn (List.append_eq_nil_iff.mp hs.symm).1

theorem longest (h : read.Munches language) (hr : read s = some (b, rest)) :
    Longest (ThenSpaces language) (b.text ++ rest.takeWhile (· = ' ')) s := by
  have hs := (h.sound s b rest hr).1
  refine ⟨⟨b.text, _, h.mem hr, fun c hc => ?_, rfl⟩, ⟨rest.dropWhile (· = ' '), ?_⟩, ?_⟩
  · simpa using Text.mem_takeWhile c hc
  · rw [List.append_assoc, List.takeWhile_append_dropWhile, hs]
  · rintro other ⟨text, spaces, ht, hspaces, rfl⟩ hp
    obtain ⟨more, hm⟩ := h.prefix_text hr ht ((List.prefix_append text spaces).trans hp)
    rw [hs, ← hm, List.append_assoc, List.prefix_append_right_inj] at hp
    have hall : ∀ c ∈ spaces, decide (c = ' ') = true := by simpa using hspaces
    have hlen : spaces.length ≤ (more ++ rest.takeWhile (· = ' ')).length := by
      by_cases hle : spaces.length ≤ more.length
      · exact hle.trans (by simp)
      · -- The spaces go beyond the text, which would end with one of them.
        obtain ⟨tail, rfl⟩ := List.prefix_of_prefix_length_le (List.prefix_append more rest) hp
          (by omega)
        have hends := h.unspaced (h.mem hr)
        rw [← hm] at hends
        have hnil := Text.eq_nil_of_ends hends fun c hc => hall c (List.mem_append_left tail hc)
        subst hnil
        simp only [List.nil_append] at hp hall ⊢
        refine (Text.prefix_run hall (Text.begins_dropWhile (· = ' ') rest) ?_).length_le
        rwa [List.takeWhile_append_dropWhile]
    rw [← hm]
    simp only [List.length_append] at hlen ⊢
    omega

theorem trimRight_raw (h : read.Munches language) (hr : read s = some (b, rest)) :
    (b.text ++ rest.takeWhile (· = ' ')).trimRight (· = ' ') = b.text :=
  Text.trimRight_run (h.unspaced (h.mem hr)) Text.mem_takeWhile

end Reader.Munches

namespace Numeral

/-- A reader of numerals takes a member of the language with all the digits that follow. -/
structure ReadsAll (numeral? : Text → Option (Text × Text)) (numerals : Text → Prop) : Prop where
  eq_some_iff : ∀ {s numeral rest}, numeral? s = some (numeral, rest) ↔
    numerals numeral ∧ s = numeral ++ rest ∧ rest.begins Char.isDigit = false
  digits : ∀ {numeral more}, numerals numeral → (∀ c ∈ more, c.isDigit) → numerals (numeral ++ more)
  unitChars : ∀ {numeral}, numerals numeral → ∀ c ∈ numeral, isUnitChar c

theorem Digits.append {digits more : Text} (h : Digits digits) (hm : ∀ c ∈ more, c.isDigit) :
    Digits (digits ++ more) :=
  ⟨by simp [h.1], List.forall_mem_append.mpr ⟨h.2, hm⟩⟩

theorem Digits.unitChars {digits : Text} (h : Digits digits) : ∀ c ∈ digits, isUnitChar c :=
  fun c hc => isUnitChar_of_isDigit (h.2 c hc)

theorem Whole.unitChars {numeral : Text} (h : Whole numeral) : ∀ c ∈ numeral, isUnitChar c := by
  obtain ⟨sign, digits, hsign, hdigits, rfl⟩ := h
  refine List.forall_mem_append.mpr ⟨?_, hdigits.unitChars⟩
  rcases hsign with rfl | rfl | rfl
  · simp
  · exact Text.forall_mem_of_all rfl
  · exact Text.forall_mem_of_all rfl

theorem readsAll_whole : ReadsAll whole? Whole where
  eq_some_iff := whole?_eq_some_iff
  digits := by
    rintro _ more ⟨sign, digits, hsign, hdigits, rfl⟩ hm
    exact ⟨sign, digits ++ more, hsign, hdigits.append hm, List.append_assoc _ _ _⟩
  unitChars := Whole.unitChars

theorem readsAll_fraction : ReadsAll fraction? Fraction where
  eq_some_iff := fraction?_eq_some_iff
  digits := by
    rintro _ more ⟨whole, digits, hwhole, hdigits, rfl⟩ hm
    exact ⟨whole, digits ++ more, hwhole, hdigits.append hm, by simp⟩
  unitChars := by
    rintro _ ⟨whole, digits, hwhole, hdigits, rfl⟩
    refine List.forall_mem_append.mpr ⟨?_, List.forall_mem_cons.mpr ⟨by decide, hdigits.unitChars⟩⟩
    rcases hwhole with rfl | hwhole
    · simp
    · exact hwhole.unitChars

namespace ReadsAll

variable {numeral? : Text → Option (Text × Text)} {numerals : Text → Prop}

theorem exists_read (h : ReadsAll numeral? numerals) {numeral : Text} (hn : numerals numeral)
    (rest : Text) :
    ∃ more after, numeral? (numeral ++ rest) = some (numeral ++ more, after) := by
  refine ⟨rest.takeWhile Char.isDigit, rest.dropWhile Char.isDigit, h.eq_some_iff.mpr ?_⟩
  refine ⟨h.digits hn Text.mem_takeWhile, ?_, Text.begins_dropWhile _ _⟩
  rw [List.append_assoc, List.takeWhile_append_dropWhile]

theorem longest (h : ReadsAll numeral? numerals) {numeral unit : Text} (hn : numerals numeral)
    (hu : unit.begins Char.isDigit = false) : Longest numerals numeral (numeral ++ unit) := by
  refine ⟨hn, List.prefix_append numeral unit, ?_⟩
  rintro other ho ⟨t, ht⟩
  obtain ⟨more, after, hread⟩ := h.exists_read ho t
  rw [ht, h.eq_some_iff.mpr ⟨hn, rfl, hu⟩] at hread
  cases hread
  simp

end ReadsAll
end Numeral

namespace Reader

theorem mark_munches {c : Char} {body : Body} (hb : body.text = [c]) (hc : c ≠ ' ') :
    (mark c body).Munches (· = [c]) where
  sound := mark_sound hb
  mem hr := by rw [(mark_eq_some_iff.mp hr).1, hb]
  complete := by
    rintro _ rest rfl
    exact ⟨body, rest, mark_eq_some_iff.mpr ⟨rfl, rfl⟩, hb ▸ List.prefix_rfl⟩
  unspaced := by
    rintro _ rfl
    simpa using hc

theorem unspaced_of_none {p : Char → Bool} (hp : p ' ' = false) {text : Text}
    (ht : ∀ c ∈ text, p c) : Text.begins (· = ' ') text.reverse = false := by
  refine Text.begins_of_none fun c hc => ?_
  have hpc := ht c (List.mem_reverse.mp hc)
  rw [decide_eq_false_iff_not]
  rintro rfl
  rw [hp] at hpc
  cases hpc

theorem ident_munches :
    ident.Munches fun s => s ≠ [] ∧ ∀ c ∈ s, isIdentChar c where
  sound := ident_sound
  mem hr := by
    obtain ⟨name, rfl, hn, hname, -, -⟩ := ident_eq_some_iff.mp hr
    exact ⟨hn, hname⟩
  complete := by
    rintro text rest ⟨hn, ht⟩
    refine ⟨.ident (text ++ rest.takeWhile isIdentChar), rest.dropWhile isIdentChar,
      ident_eq_some_iff.mpr ⟨_, rfl, by simp [hn], ?_, ?_, Text.begins_dropWhile _ _⟩,
      List.prefix_append _ _⟩
    · exact List.forall_mem_append.mpr ⟨ht, Text.mem_takeWhile⟩
    · rw [List.append_assoc, List.takeWhile_append_dropWhile]
  unspaced ht := unspaced_of_none (by decide) ht.2

theorem number_munches {numeral? : Text → Option (Text × Text)} {numerals : Text → Prop}
    (h : Numeral.ReadsAll numeral? numerals) {amount : Text → Amount}
    (hs : (number numeral? amount).Sound) :
    (number numeral? amount).Munches (WithUnit numerals) where
  sound := hs
  mem hr := by
    obtain ⟨numeral, unit, rfl, hn, hu, -⟩ := number_eq_some_iff.mp hr
    exact ⟨numeral, unit, (h.eq_some_iff.mp hn).1, hu, rfl⟩
  complete := by
    rintro _ rest ⟨numeral, unit, hn, hu, rfl⟩
    obtain ⟨more, after, hread⟩ := h.exists_read hn (unit ++ rest)
    rw [← List.append_assoc] at hread
    have hsplit : after = after.takeWhile isUnitChar ++ after.dropWhile isUnitChar :=
      List.takeWhile_append_dropWhile.symm
    refine ⟨_, after.dropWhile isUnitChar, number_eq_some_iff.mpr ⟨numeral ++ more,
      after.takeWhile isUnitChar, rfl, hsplit ▸ hread, Text.mem_takeWhile,
      Text.begins_dropWhile _ _⟩, ?_⟩
    refine Text.prefix_run (List.forall_mem_append.mpr ⟨h.unitChars hn, hu⟩)
      (Text.begins_dropWhile isUnitChar after) ⟨rest, ?_⟩
    rw [(h.eq_some_iff.mp hread).2.1]
    simp [Body.text, ← hsplit]
  unspaced := by
    rintro _ ⟨numeral, unit, hn, hu, rfl⟩
    exact unspaced_of_none (by decide) (List.forall_mem_append.mpr ⟨h.unitChars hn, hu⟩)

theorem string_munches {quote : Char} (hq : quote ≠ ' ') :
    (string quote).Munches (Enclosed quote) where
  sound := string_sound quote
  mem hr := by
    obtain ⟨value, rfl, hv, -⟩ := string_eq_some_iff.mp hr
    exact ⟨value, hv, rfl⟩
  complete := by
    rintro _ rest ⟨value, hv, rfl⟩
    exact ⟨.string [quote] value, rest, string_eq_some_iff.mpr ⟨value, rfl, hv, by simp⟩,
      List.prefix_rfl⟩
  unspaced := by
    rintro _ ⟨value, -, rfl⟩
    simpa using hq

theorem call_munches (name : Text) (kind : FunctionKind) :
    (call name kind).Munches (Called name) where
  sound := call_sound name kind
  mem hr := by
    obtain ⟨arguments, rfl, ha, -⟩ := call_eq_some_iff.mp hr
    exact ⟨arguments, ha, rfl⟩
  complete := by
    rintro _ rest ⟨arguments, ha, rfl⟩
    exact ⟨_, rest, call_eq_some_iff.mpr ⟨arguments, rfl, ha, by simp⟩, List.prefix_rfl⟩
  unspaced := by
    rintro _ ⟨arguments, -, rfl⟩
    simp

theorem color_munches :
    color.Munches fun s => Called "rgb".toList s ∨ Called "rgba".toList s where
  sound := color_sound
  mem hr := by
    obtain ⟨name, hn, hcall⟩ := color_eq_some_iff.mp hr
    have hmem := (call_munches name .color).mem hcall
    simp only [List.mem_cons, List.not_mem_nil, or_false] at hn
    rcases hn with rfl | rfl
    · exact Or.inl hmem
    · exact Or.inr hmem
  complete := by
    intro text rest ht
    rcases ht with ht | ht
    · obtain ⟨b, after, hr, hp⟩ := (call_munches _ .color).complete rest ht
      exact ⟨b, after, color_eq_some_iff.mpr ⟨_, by decide, hr⟩, hp⟩
    · obtain ⟨b, after, hr, hp⟩ := (call_munches _ .color).complete rest ht
      exact ⟨b, after, color_eq_some_iff.mpr ⟨_, by decide, hr⟩, hp⟩
  unspaced ht := ht.elim (call_munches _ .color).unspaced (call_munches _ .color).unspaced

end Reader

theorem Pattern.munches : ∀ pattern : Pattern, pattern.reader.Munches pattern.Describes
  | .operator => Reader.mark_munches rfl (by decide)
  | .comma => Reader.mark_munches rfl (by decide)
  | .ident => Reader.ident_munches
  | .fraction => Reader.number_munches Numeral.readsAll_fraction Reader.fraction_sound
  | .integer => Reader.number_munches Numeral.readsAll_whole Reader.integer_sound
  | .single => Reader.string_munches (by decide)
  | .double => Reader.string_munches (by decide)
  | .color => Reader.color_munches
  | .url => Reader.call_munches _ _

/-- A number splits after the longest numeral that its string begins with, and its amount is what
that numeral alone converts to. -/
structure NumberSplit (numerals : Text → Prop) (b : Body) (numeral unit : Text) (amount : Amount) :
    Prop where
  body_eq : b = .number amount unit (numeral ++ unit)
  longest : Longest numerals numeral (numeral ++ unit)
  not_digit : unit.begins Char.isDigit = false
  converts : Converts numeral amount

theorem Numeral.exists_digits {s fraction whole rest after : Text}
    (hf : fraction? s = some (fraction, rest)) (hw : whole? s = some (whole, after)) :
    ∃ digits, fraction = whole ++ '.' :: digits := by
  obtain ⟨⟨front, digits, hfront, -, rfl⟩, hs, -⟩ := fraction?_eq_some_iff.mp hf
  rw [List.append_assoc, List.cons_append] at hs
  rcases hfront with rfl | hfront
  · have hnone : whole? s = none := by
      rw [hs]
      rfl
    rw [hnone] at hw
    cases hw
  · rw [whole?_eq_some_iff.mpr ⟨hfront, hs, rfl⟩] at hw
    cases hw
    exact ⟨digits, rfl⟩

namespace Reader

variable {s rest : Text} {b : Body} {numeral? : Text → Option (Text × Text)}
  {numerals : Text → Prop} {amount : Text → Amount}

theorem number_run (h : Numeral.ReadsAll numeral? numerals)
    (hr : number numeral? amount s = some (b, rest)) :
    b.text = s.takeWhile isUnitChar ∧ rest = s.dropWhile isUnitChar := by
  obtain ⟨numeral, unit, rfl, hread, hu, hrest⟩ := number_eq_some_iff.mp hr
  obtain ⟨hn, rfl, -⟩ := h.eq_some_iff.mp hread
  have hall := List.forall_mem_append.mpr ⟨h.unitChars hn, hu⟩
  rw [← List.append_assoc, Text.takeWhile_run hall hrest, Text.dropWhile_run hall hrest]
  exact ⟨rfl, rfl⟩

theorem exists_split (h : Numeral.ReadsAll numeral? numerals)
    (hc : ∀ {numeral}, numerals numeral → Converts numeral (amount numeral))
    (hr : number numeral? amount s = some (b, rest)) :
    ∃ numeral unit, numeral? s = some (numeral, unit ++ rest) ∧
      NumberSplit numerals b numeral unit (amount numeral) := by
  obtain ⟨numeral, unit, rfl, hread, hu, -⟩ := number_eq_some_iff.mp hr
  obtain ⟨hn, -, hdigit⟩ := h.eq_some_iff.mp hread
  have hunit := (isUnit_of_rest hu hdigit).2
  exact ⟨numeral, unit, hread, rfl, h.longest hn hunit, hunit, hc hn⟩

theorem exists_fraction_split (hr : fraction s = some (b, rest)) :
    ∃ numeral unit value, Numeral.fraction? s = some (numeral, unit ++ rest) ∧
      NumberSplit Numeral.Fraction b numeral unit (.fraction value) := by
  obtain ⟨numeral, unit, hsplit⟩ :=
    exists_split Numeral.readsAll_fraction Numeral.Fraction.converts hr
  exact ⟨numeral, unit, _, hsplit⟩

theorem exists_integer_split (hr : integer s = some (b, rest)) :
    ∃ numeral unit value, Numeral.whole? s = some (numeral, unit ++ rest) ∧
      NumberSplit Numeral.Whole b numeral unit (.whole value) := by
  obtain ⟨numeral, unit, hsplit⟩ :=
    exists_split Numeral.readsAll_whole Numeral.Whole.converts hr
  exact ⟨numeral, unit, _, hsplit⟩

/-- A fraction and an integer at the beginning of a text have the same string. Only the point and
the digits behind it are counted to the numeral of the one and to the unit of the other. -/
theorem exists_common_split {b' : Body} {rest' : Text} (hf : fraction s = some (b, rest))
    (hi : integer s = some (b', rest')) :
    b.text = b'.text ∧ rest = rest' ∧ ∃ numeral digits unit x n,
      NumberSplit Numeral.Fraction b (numeral ++ '.' :: digits) unit (.fraction x) ∧
      NumberSplit Numeral.Whole b' numeral ('.' :: digits ++ unit) (.whole n) := by
  obtain ⟨htext, hrest⟩ := number_run Numeral.readsAll_fraction hf
  obtain ⟨htext', hrest'⟩ := number_run Numeral.readsAll_whole hi
  obtain ⟨fraction, unit, x, hread, hsplit⟩ := exists_fraction_split hf
  obtain ⟨numeral, unit', n, hread', hsplit'⟩ := exists_integer_split hi
  obtain ⟨digits, rfl⟩ := Numeral.exists_digits hread hread'
  have hsame : b.text = b'.text := htext.trans htext'.symm
  have hunit : unit' = '.' :: digits ++ unit := by
    rw [hsplit.body_eq, hsplit'.body_eq] at hsame
    simpa [Body.text] using hsame.symm
  subst hunit
  exact ⟨hsame, hrest.trans hrest'.symm, numeral, digits, unit, x, n, hsplit, hsplit'⟩

end Reader

namespace Recognizer

variable {read : Reader} {language : Text → Prop}

def foundAt (position : Nat) (b : Body) (rest : Text) : Found :=
  ⟨(spaced b rest).token, position + (spaced b rest).token.raw.length⟩

theorem at_ofReader (h : read.Munches language) (source : Text) (position : Nat) :
    (ofReader read).at source position =
      .ok ((read (source.drop position)).map fun (b, rest) => foundAt position b rest) := by
  unfold Recognizer.at
  split
  · simp only [ofReader, Option.map_map]
    rfl
  · next hle =>
    rw [List.drop_eq_nil_of_le (by omega), h.nil_eq_none]
    rfl

theorem at_ofReader_eq_some_iff (h : read.Munches language) {source : Text} {position : Nat}
    {found : Found} : (ofReader read).at source position = .ok (some found) ↔
      ∃ b rest, read (source.drop position) = some (b, rest) ∧ found = foundAt position b rest := by
  rw [at_ofReader h]
  simp only [Except.ok.injEq, Option.map_eq_some_iff, Prod.exists]
  exact exists_congr fun _ => exists_congr fun _ => and_congr_right fun _ => eq_comm

end Recognizer

namespace Pattern

def Language (pattern : Pattern) : Text → Prop := ThenSpaces pattern.Describes

theorem at_eq_some_iff {pattern : Pattern} {source : Text} {position : Nat} {found : Found} :
    pattern.rule.recognize.at source position = .ok (some found) ↔
      ∃ b rest, pattern.reader (source.drop position) = some (b, rest) ∧
        found = Recognizer.foundAt position b rest := by
  rw [recognize_eq]
  exact Recognizer.at_ofReader_eq_some_iff pattern.munches

theorem at_longest (pattern : Pattern) (source : Text) (position : Nat) :
    ∃ found?, pattern.rule.recognize.at source position = .ok found? ∧
      (found? = none ↔ ∀ front, pattern.Language front → ¬ front <+: source.drop position) ∧
      ∀ found, found? = some found →
        Longest pattern.Language found.token.raw (source.drop position) ∧
        found.stop = position + found.token.raw.length ∧
        found.token.text = found.token.raw.trimRight (· = ' ') := by
  have hm := pattern.munches
  rw [recognize_eq, Recognizer.at_ofReader hm]
  refine ⟨_, rfl, Option.map_eq_none_iff.trans hm.eq_none_iff, fun found hf => ?_⟩
  obtain ⟨⟨b, rest⟩, hr, rfl⟩ := Option.map_eq_some_iff.mp hf
  exact ⟨hm.longest hr, rfl, (hm.trimRight_raw hr).symm⟩

end Pattern

theorem Rule.number_at {source : Text} {position : Nat} {b : Body} {rest : Text}
    (h : Reader.fraction (source.drop position) = some (b, rest)) :
    Rule.number.recognize.at source position = Rule.fraction.recognize.at source position := by
  refine Recognizer.at_congr (Recognizer.first_cons_of_not_pass (fun hpass => ?_) _)
  rw [Recognizer.ofReader_eq_none_iff, h] at hpass
  cases hpass

/-- The rule of every pattern passes exactly where no member of the pattern begins the text, and
takes the longest one elsewhere; without its spaces that is the text of the token. Numbers split
after the longest numeral, which alone gives the amount. Where a fraction and an integer both begin,
they have the same raw text and the same string, and the rule for numbers takes the fraction. -/
theorem recognize_longest (source : Text) (position : Nat) :
    (∀ pattern : Pattern, ∃ found?,
      pattern.rule.recognize.at source position = .ok found? ∧
      (found? = none ↔ ∀ front, pattern.Language front → ¬ front <+: source.drop position) ∧
      ∀ found, found? = some found →
        Longest pattern.Language found.token.raw (source.drop position) ∧
        found.stop = position + found.token.raw.length ∧
        found.token.text = found.token.raw.trimRight (· = ' ')) ∧
    (∀ found, Rule.fraction.recognize.at source position = .ok (some found) →
      ∃ numeral unit value,
        NumberSplit Numeral.Fraction found.token.body numeral unit (.fraction value)) ∧
    (∀ found, Rule.integer.recognize.at source position = .ok (some found) →
      ∃ numeral unit value,
        NumberSplit Numeral.Whole found.token.body numeral unit (.whole value)) ∧
    ∀ fraction integer, Rule.fraction.recognize.at source position = .ok (some fraction) →
      Rule.integer.recognize.at source position = .ok (some integer) →
      fraction.stop = integer.stop ∧ fraction.token.raw = integer.token.raw ∧
      fraction.token.text = integer.token.text ∧
      Rule.number.recognize.at source position = .ok (some fraction) ∧
      ∃ numeral digits unit x n,
        NumberSplit Numeral.Fraction fraction.token.body (numeral ++ '.' :: digits) unit
          (.fraction x) ∧
        NumberSplit Numeral.Whole integer.token.body numeral ('.' :: digits ++ unit)
          (.whole n) := by
  refine ⟨fun pattern => pattern.at_longest source position, ?_, ?_, ?_⟩
  · intro found hfound
    obtain ⟨b, rest, hr, rfl⟩ := (@Pattern.at_eq_some_iff .fraction _ _ _).mp hfound
    obtain ⟨numeral, unit, value, -, hsplit⟩ := Reader.exists_fraction_split hr
    exact ⟨numeral, unit, value, hsplit⟩
  · intro found hfound
    obtain ⟨b, rest, hr, rfl⟩ := (@Pattern.at_eq_some_iff .integer _ _ _).mp hfound
    obtain ⟨numeral, unit, value, -, hsplit⟩ := Reader.exists_integer_split hr
    exact ⟨numeral, unit, value, hsplit⟩
  · intro fraction integer hfraction hinteger
    obtain ⟨b, rest, hf, rfl⟩ := (@Pattern.at_eq_some_iff .fraction _ _ _).mp hfraction
    obtain ⟨b', rest', hi, rfl⟩ := (@Pattern.at_eq_some_iff .integer _ _ _).mp hinteger
    obtain ⟨htext, rfl, hsplit⟩ := Reader.exists_common_split hf hi
    have hraw : (Recognizer.spaced b rest).token.raw = (Recognizer.spaced b' rest).token.raw := by
      simp only [Recognizer.spaced, htext]
    refine ⟨?_, hraw, htext, (Rule.number_at hf).trans hfraction, hsplit⟩
    simp only [Recognizer.foundAt, hraw]

end StyleValue
