import StyleValue.Parse
import StyleValue.Proofs.Outline
import StyleValue.Proofs.Trim

/-! # The grammar of values

A value is written as lexemes with blanks around them. Two lexemes can stand next to each other
unless the first is a number and the second no operator, or the first is an identifier and the
second begins with an identifier character. Parsing accepts exactly the values written this way,
and each of them is written in one way only. -/

namespace StyleValue

/-- The second lexeme can follow the first without blanks. -/
def MayTouch : Body → Body → Prop
  | .number .., next => next.kind = .operator
  | .ident _, next => next.text.begins isIdentChar = false
  | _, _ => True

/-- Blanks, and lexemes each with the blanks after it. -/
structure Phrase where
  lead : Text
  parts : List (Body × Text)

namespace Phrase

def textOf : List (Body × Text) → Text
  | [] => []
  | (b, gap) :: parts => b.text ++ gap ++ textOf parts

def text (phrase : Phrase) : Text := phrase.lead ++ textOf phrase.parts

def bodies (phrase : Phrase) : List Body := phrase.parts.map Prod.fst

inductive Linked : List (Body × Text) → Prop where
  | nil : Linked []
  | cons {b gap parts} : Lexeme b → (∀ c ∈ gap, Text.isBlank c) →
      (gap = [] → ∀ next ∈ (parts.map Prod.fst).head?, MayTouch b next) →
      Linked parts → Linked ((b, gap) :: parts)

structure Valid (phrase : Phrase) : Prop where
  lead : ∀ c ∈ phrase.lead, Text.isBlank c
  linked : Linked phrase.parts

end Phrase

theorem begins_unit_of_blank {c : Char} (h : Text.isBlank c) (s : Text) :
    Text.begins isUnitChar (c :: s) = false := by
  simp [isUnitChar, h]

theorem separated_of_blank {s : Text} (h : ∀ c ∈ s, Text.isBlank c) :
    s.begins isUnitChar = false := by
  cases s with
  | nil => rfl
  | cons c s => exact begins_unit_of_blank (h c List.mem_cons_self) s

theorem follows_of_separated {rest : Text} (h : rest.begins isUnitChar = false) (b : Body) :
    Follows b rest := by
  cases b with
  | number => exact h
  | ident name =>
    refine ⟨Text.begins_imp (fun _ => isUnitChar_of_isIdentChar) h, fun _ hargs => ?_⟩
    obtain ⟨t, rfl⟩ : ∃ t, rest = '(' :: t := by
      cases rest with
      | nil => cases hargs.1
      | cons c t => cases hargs.1; exact ⟨t, rfl⟩
    exact absurd (show isUnitChar '(' = false from h) (by decide)
  | operator | comma | string | function => trivial

theorem begins_unit_iff {next : Body} (hn : Lexeme next) :
    next.text.begins isUnitChar = false ↔ next.kind = .operator := by
  constructor
  · intro h
    obtain ⟨c, s, ht, -⟩ := hn.exists_cons
    have hblank := hn.begins_blank
    rw [ht, Text.begins_cons] at h hblank
    have hslash : c = '/' := by simpa [isUnitChar, hblank] using h
    rw [hn.operator_of_slash (by rw [ht, hslash]; rfl)]
    rfl
  · intro h
    cases hn with
    | operator => rfl
    | _ => cases h

theorem follows_lexeme_iff {b next : Body} (hn : Lexeme next) (rest : Text) :
    Follows b (next.text ++ rest) ↔ MayTouch b next := by
  cases b with
  | number => rw [Follows, Text.begins_append hn.text_ne_nil, begins_unit_iff hn, MayTouch]
  | ident name =>
    rw [Follows, Text.begins_append hn.text_ne_nil, MayTouch, and_iff_left_iff_imp]
    rintro - - ⟨hparen, -⟩
    obtain ⟨c, s, ht, -⟩ := hn.exists_cons
    rw [ht] at hparen
    exact hn.head_ne_paren (by rw [ht]; exact hparen)
  | operator | comma | string | function => exact Iff.rfl

theorem ends_of_number {numeral digits front unit : Text} (hd : Numeral.Digits digits)
    (hn : numeral = front ++ digits) (hu : IsUnit unit) :
    Text.begins Text.isBlank (numeral ++ unit).reverse = false := by
  by_cases hunit : unit = []
  · rw [hunit, List.append_nil, hn]
    exact Text.ends_of_run hd.1
      (fun c hc => isBlank_of_isUnitChar (isUnitChar_of_isDigit (hd.2 c hc))) front
  · exact Text.ends_of_run hunit (fun c hc => isBlank_of_isUnitChar (hu.1 c hc)) numeral

theorem Lexeme.ends_invisible {b : Body} (h : Lexeme b) (hk : b.kind ≠ .number)
    {p : Char → Bool} (hp : Text.Invisible p) : Text.begins p b.text.reverse = false := by
  have hends : ∀ c : Char, 0x21 ≤ c.toNat → c.toNat < 0x7f → ∀ front : Text,
      Text.begins p (front ++ [c]).reverse = false := by
    intro c hc hc' front
    rw [List.reverse_concat, Text.begins_cons]
    exact hp c hc hc'
  cases h with
  | operator => exact hends '/' (by decide) (by decide) []
  | comma => exact hends ',' (by decide) (by decide) []
  | @string quote value hq _ =>
    refine hends quote ?_ ?_ ([quote] ++ value) <;> rcases hq with rfl | rfl <;> decide
  | @call name kind arguments _ _ =>
    exact hends ')' (by decide) (by decide) (name ++ '(' :: arguments)
  | @group keyword kind group _ hg =>
    obtain ⟨inner, -, rfl⟩ := hg
    have hgroup := hends ')' (by decide) (by decide) (keyword ++ '(' :: inner)
    rwa [List.append_assoc] at hgroup
  | fraction | integer => exact (hk rfl).elim
  | @ident name hn =>
    exact Text.ends_of_run hn.nonempty (fun c hc => hp.of_isIdentChar (hn.chars c hc)) []

theorem Lexeme.ends_blank {b : Body} (h : Lexeme b) :
    Text.begins Text.isBlank b.text.reverse = false := by
  by_cases hk : b.kind = .number
  · cases h with
    | fraction hn hu =>
      obtain ⟨whole, digits, -, hd, rfl⟩ := hn
      exact ends_of_number hd (List.append_cons whole '.' digits) hu
    | integer hn hu _ =>
      obtain ⟨sign, digits, -, hd, rfl⟩ := hn
      exact ends_of_number hd rfl hu
    | _ => cases hk
  · exact h.ends_invisible hk Text.invisible_isBlank

namespace Phrase

variable {b : Body} {gap rest : Text} {parts : List (Body × Text)}

/-- In a linked list each lexeme is left by what follows it, up to a separated rest. -/
theorem follows_of_linked (hlinked : Linked parts) (hgap : ∀ c ∈ gap, Text.isBlank c)
    (htouch : gap = [] → ∀ next ∈ (parts.map Prod.fst).head?, MayTouch b next)
    (hrest : rest.begins isUnitChar = false) : Follows b (gap ++ textOf parts ++ rest) := by
  cases gap with
  | cons c gap =>
    exact follows_of_separated (begins_unit_of_blank (hgap c List.mem_cons_self) _) b
  | nil =>
    cases hlinked with
    | nil => exact follows_of_separated hrest b
    | @cons next gap others hn _ _ _ =>
      simp only [textOf, List.nil_append, List.append_assoc]
      exact (follows_lexeme_iff hn _).mpr (htouch rfl next rfl)

theorem chain_of_linked (h : Linked parts) (hrest : rest.begins isUnitChar = false) :
    Chain (textOf parts) (parts.map Prod.fst) rest := by
  induction h with
  | nil => exact .nil (by simp [textOf])
  | @cons b gap parts hb hgap htouch hlinked ih =>
    have hfollows := follows_of_linked hlinked hgap htouch hrest
    have hchain := @Chain.cons [] b _ _ rest (by simp) hb hfollows (ih.lead hgap)
    simpa [textOf] using hchain

theorem Valid.chain {phrase : Phrase} (h : phrase.Valid)
    (hrest : rest.begins isUnitChar = false) : Chain phrase.text phrase.bodies rest :=
  (chain_of_linked h.linked hrest).lead h.lead

theorem exists_of_chain {s : Text} {bodies : List Body} (h : Chain s bodies rest)
    (hr : rest = []) : ∃ phrase : Phrase, phrase.Valid ∧ phrase.text = s ∧
      phrase.bodies = bodies := by
  induction h with
  | @nil blanks rest hb =>
    exact ⟨⟨blanks, []⟩, ⟨hb, .nil⟩, by simp [text, textOf], rfl⟩
  | @cons lead b s bodies rest hl hb hf _ ih =>
    obtain ⟨⟨gap, parts⟩, ⟨hgap, hlinked⟩, rfl, rfl⟩ := ih hr
    subst hr
    refine ⟨⟨lead, (b, gap) :: parts⟩, ⟨hl, .cons hb hgap ?_ hlinked⟩, ?_, rfl⟩
    · rintro rfl next hnext
      cases hlinked with
      | nil => cases hnext
      | @cons first gap others hfirst _ _ _ =>
        cases hnext
        simp only [text, textOf, List.nil_append, List.append_assoc] at hf
        exact (follows_lexeme_iff hfirst _).mp hf
    · simp only [text, textOf, List.append_assoc]

theorem begins_textOf (h : Linked parts) : (textOf parts).begins Text.isBlank = false := by
  cases h with
  | nil => rfl
  | cons hb _ _ _ =>
    rw [textOf, List.append_assoc, Text.begins_append hb.text_ne_nil]
    exact hb.begins_blank

theorem stands_of_linked {parts : List (Body × Text)} (h : Linked ((b, gap) :: parts)) :
    Stands b (textOf ((b, gap) :: parts)) (gap ++ textOf parts) := by
  cases h with
  | cons hb hgap htouch hlinked =>
    have hf := @follows_of_linked b gap [] parts hlinked hgap htouch rfl
    exact ⟨hb, by rw [textOf, List.append_assoc], by simpa using hf⟩

theorem Linked.eq_nil (h : Linked parts) (ht : textOf parts = []) : parts = [] := by
  cases h with
  | nil => rfl
  | cons hb _ _ _ =>
    simp only [textOf, List.append_eq_nil_iff] at ht
    exact (hb.text_ne_nil ht.1.1).elim

theorem linked_unique {others : List (Body × Text)} (h : Linked parts) (h' : Linked others)
    (ht : textOf parts = textOf others) : parts = others := by
  induction h generalizing others with
  | nil => exact (h'.eq_nil ht.symm).symm
  | @cons b gap parts hb hgap htouch hlinked ih =>
    have hs := stands_of_linked (.cons hb hgap htouch hlinked)
    cases h' with
    | nil => exact (hb.text_ne_nil (by simp [textOf] at ht; exact ht.1)).elim
    | @cons b' gap' parts' hb' hgap' htouch' hlinked' =>
      have hs' := stands_of_linked (.cons hb' hgap' htouch' hlinked')
      rw [ht] at hs
      obtain ⟨rfl, hrest⟩ := hs.unique hs'
      obtain ⟨rfl, hparts⟩ := Text.run_unique hgap hgap' (begins_textOf hlinked)
        (begins_textOf hlinked') hrest
      rw [ih hlinked' hparts]

theorem Valid.eq_of_text {phrase other : Phrase} (h : phrase.Valid) (h' : other.Valid)
    (ht : phrase.text = other.text) : phrase = other := by
  obtain ⟨lead, parts⟩ := phrase
  obtain ⟨lead', parts'⟩ := other
  obtain ⟨hlead, hlinked⟩ := h
  obtain ⟨hlead', hlinked'⟩ := h'
  obtain ⟨rfl, hparts⟩ := Text.run_unique hlead hlead' (begins_textOf hlinked)
    (begins_textOf hlinked') ht
  cases linked_unique hlinked hlinked' hparts
  rfl

theorem linked_trim (h : Linked parts) : ∃ others tail, Linked others ∧
    others.map Prod.fst = parts.map Prod.fst ∧ textOf parts = textOf others ++ tail ∧
    (∀ c ∈ tail, Text.isBlank c) ∧ Text.Trimmed Text.isBlank (textOf others) := by
  induction h with
  | nil => exact ⟨[], [], .nil, rfl, rfl, by simp, rfl, rfl⟩
  | @cons b gap parts hb hgap htouch hlinked ih =>
    obtain ⟨others, tail, hothers, hbodies, htext, htail, htrim⟩ := ih
    by_cases hn : textOf others = []
    · cases hothers.eq_nil hn
      cases List.map_eq_nil_iff.mp hbodies.symm
      exact ⟨[(b, [])], gap, .cons hb (by simp) (by simp) .nil, rfl, by simp [textOf], hgap,
        by simpa [textOf] using ⟨hb.begins_blank, hb.ends_blank⟩⟩
    · refine ⟨(b, gap) :: others, tail, .cons hb hgap (by rwa [hbodies]) hothers,
        by rw [List.map_cons, hbodies, List.map_cons],
        by simp only [textOf, htext, List.append_assoc], htail, ?_, ?_⟩
      · exact begins_textOf (.cons hb hgap (by rwa [hbodies]) hothers)
      · rw [textOf, Text.ends_append hn]
        exact htrim.ends

/-- The phrases of a source are the chains of lexemes in what trimming leaves of it. -/
theorem chain_trim_iff {source : Text} {bodies : List Body} :
    Chain (source.trim Text.isBlank) bodies [] ↔
      ∃ phrase : Phrase, phrase.Valid ∧ phrase.text = source ∧ phrase.bodies = bodies := by
  constructor
  · intro h
    obtain ⟨phrase, hv, ht, rfl⟩ := exists_of_chain h rfl
    obtain ⟨tail, hblank, hsplit⟩ := Text.exists_margin Text.isBlank source
    have hsource : source.takeWhile Text.isBlank ++ (phrase.text ++ tail) = source := by
      rw [ht, ← List.append_assoc]
      exact hsplit
    have hchain := hv.chain (separated_of_blank hblank)
    rw [← List.append_nil tail] at hchain
    have hwhole := (hchain.append (.nil hblank)).lead (Text.mem_takeWhile (s := source))
    rw [hsource, List.append_nil] at hwhole
    exact exists_of_chain hwhole rfl
  · intro h
    obtain ⟨⟨lead, parts⟩, ⟨hlead, hlinked⟩, rfl, rfl⟩ := h
    obtain ⟨others, tail, hothers, hbodies, htext, htail, htrim⟩ := linked_trim hlinked
    have hsource : text ⟨lead, parts⟩ = lead ++ textOf others ++ tail := by
      rw [text, htext, List.append_assoc]
    rw [hsource, Text.trim_run hlead htrim htail, bodies, ← hbodies]
    exact chain_of_linked hothers rfl

end Phrase

theorem parse_bodies_iff {source : Text} {bodies : List Body} :
    (∃ tokens, parse source = .ok tokens ∧ tokens.map Token.body = bodies) ↔
      Chain (source.trim Text.isBlank) bodies [] := by
  have hrest : (Lexer.ofSource (source.trim Text.isBlank)).rest = source.trim Text.isBlank := rfl
  rw [← hrest, ← Lexer.outline_eq_ok_iff, Lexer.outline, map_eq_ok_iff]
  exact Iff.rfl

/-- Parsing succeeds exactly on the texts of valid phrases. Each source is the text of at most
one, and its lexemes are the bodies of the tokens. -/
theorem parse_grammar (source : Text) :
    ((∃ tokens, parse source = .ok tokens) ↔
      ∃ phrase : Phrase, phrase.Valid ∧ phrase.text = source) ∧
    (∀ phrase other : Phrase, phrase.Valid → other.Valid → phrase.text = source →
      other.text = source → phrase = other) ∧
    ∀ tokens (phrase : Phrase), parse source = .ok tokens → phrase.Valid → phrase.text = source →
      tokens.map Token.body = phrase.bodies := by
  have hiff := fun bodies => (@parse_bodies_iff source bodies).trans Phrase.chain_trim_iff
  have hunique : ∀ phrase other : Phrase, phrase.Valid → other.Valid → phrase.text = source →
      other.text = source → phrase = other :=
    fun phrase other h h' ht ht' => h.eq_of_text h' (ht.trans ht'.symm)
  refine ⟨⟨?_, ?_⟩, hunique, ?_⟩
  · intro h
    obtain ⟨tokens, h⟩ := h
    obtain ⟨phrase, hv, ht, -⟩ := (hiff _).mp ⟨tokens, h, rfl⟩
    exact ⟨phrase, hv, ht⟩
  · intro h
    obtain ⟨phrase, hv, ht⟩ := h
    obtain ⟨tokens, h, -⟩ := (hiff _).mpr ⟨phrase, hv, ht, rfl⟩
    exact ⟨tokens, h⟩
  · intro tokens phrase h hv ht
    obtain ⟨other, hv', ht', hb⟩ := (hiff _).mp ⟨tokens, h, rfl⟩
    rw [hunique phrase other hv hv' ht ht', hb]

end StyleValue
