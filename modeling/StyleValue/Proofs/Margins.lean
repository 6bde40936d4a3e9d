import StyleValue.Parse
import StyleValue.Proofs.Ownership
import StyleValue.Proofs.Quoting
import StyleValue.Token.Record

/-! # What is shown of the blanks around a token

A token other than a number is shown by its raw text without margins. Every blank but the byte order
mark is a margin, so the blanks before a token are shown from the first byte order mark on, and the
spaces after it never. Where no such mark stands before it, the token is shown as its own text, and
its kind and record decide how it is shown. -/

namespace StyleValue

def byteOrderMark : Char := '\ufeff'

theorem Text.isMargin_eq_false_iff {c : Char} (h : Text.isBlank c) :
    Text.isMargin c = false ↔ c = byteOrderMark := by
  constructor
  · intro hm
    have hspace : c.toNat ∉ Text.spaceCodes := by
      intro hc
      simp [Text.isMargin, Text.isWhiteSpace, hc] at hm
    have hblank : c.toNat ∈ Text.spaceCodes ++ [0xfeff] := by
      simpa [Text.isBlank, Text.blankCodes] using h
    rcases List.mem_append.mp hblank with hc | hc
    · exact (hspace hc).elim
    · exact Char.toNat_inj.mp (List.mem_singleton.mp hc)
  · rintro rfl
    decide

/-- Among blanks, nothing is left by the margins exactly if there is no byte order mark. -/
theorem Text.dropWhile_isMargin_eq_nil_iff {lead : Text} (h : ∀ c ∈ lead, Text.isBlank c) :
    lead.dropWhile Text.isMargin = [] ↔ byteOrderMark ∉ lead := by
  rw [List.dropWhile_eq_nil_iff]
  constructor
  · intro hall hm
    have hmargin := hall _ hm
    rw [(Text.isMargin_eq_false_iff (h _ hm)).mpr rfl] at hmargin
    cases hmargin
  · intro hm c hc
    by_contra hmargin
    have hmark := (Text.isMargin_eq_false_iff (h c hc)).mp (by simpa using hmargin)
    exact hm (hmark ▸ hc)

theorem applied_inj {title : String} {s t : Text} : applied title s = applied title t ↔ s = t := by
  simp [applied]

namespace Token

def lead (t : Token) : Text := t.raw.takeWhile Text.isBlank

/-- What the margins leave of these blanks. -/
def shownLead (t : Token) : Text := t.lead.dropWhile Text.isMargin

def TakenByStep (t : Token) : Prop :=
  ∃ lexer after : Lexer, lexer.next = (.ok (some t), after)

/-- Parsing the source returns the token, or a lexer on the source does in answer to a call. -/
def ReturnedFrom (t : Token) (source : Text) : Prop :=
  (∃ tokens, parse source = .ok tokens ∧ t ∈ tokens) ∨
  ∃ index calls, t ∈ Lexer.tokensAll (Lexer.run ⟨source, index⟩ calls)

end Token

namespace Lexer

variable {lexer last : Lexer} {token : Token}

theorem Steps.takenByStep {tokens : List Token} (h : Steps lexer tokens last)
    (ht : token ∈ tokens) : token.TakenByStep := by
  obtain ⟨front, back, rfl⟩ := List.append_of_mem ht
  obtain ⟨middle, -, hback⟩ := h.split
  cases hback with
  | cons hn _ => exact ⟨middle, _, hn⟩

theorem takenByStep_of_run {calls : List Call} (h : token ∈ tokensAll (lexer.run calls)) :
    token.TakenByStep := by
  have hpull : ∀ (lexer : Lexer) (pull : Pull), token ∈ (lexer.perform pull.call).1.taken →
      token.TakenByStep := by
    intro lexer pull ht
    obtain ⟨last, hsteps⟩ := exists_steps lexer [pull]
    exact hsteps.takenByStep (List.mem_append_left [] ht)
  induction calls generalizing lexer with
  | nil => cases h
  | cons call calls ih =>
    rcases List.mem_append.mp h with h | h
    · cases call with
      | seek index => cases h
      | next => exact hpull lexer .next h
      | value => exact hpull lexer .value h
      | process => exact hpull lexer .process h
    · exact ih h

end Lexer

namespace Token

variable {t u : Token} {source : Text}

theorem ReturnedFrom.takenByStep (h : t.ReturnedFrom source) : t.TakenByStep := by
  rcases h with ⟨tokens, hp, ht⟩ | ⟨index, calls, ht⟩
  · have hrun : t ∈ Lexer.tokensAll
        (Lexer.run (Lexer.ofSource (source.trim Text.isBlank)) [.process]) := by
      refine List.mem_append_left [] ?_
      change t ∈ (Lexer.Answer.ofTokens (parse source)).taken
      rw [hp]
      exact ht
    exact Lexer.takenByStep_of_run hrun
  · exact Lexer.takenByStep_of_run ht

/-- The raw text is the token's text between its blanks and spaces, and the text of a token other
than a number has no margins. -/
structure Surrounded (t : Token) (trail : Text) : Prop where
  raw_eq : t.raw = t.lead ++ t.text ++ trail
  trail_space : ∀ c ∈ trail, c = ' '
  text_ne_nil : t.text ≠ []
  trimmed : t.kind ≠ .number → Text.Trimmed Text.isMargin t.text

theorem ReturnedFrom.surrounded (h : t.ReturnedFrom source) : ∃ trail, t.Surrounded trail := by
  obtain ⟨earlier, after, hn⟩ := h.takenByStep
  obtain ⟨rest, ht⟩ := Lexer.exists_takes hn
  have hlexeme := ht.stands.lexeme
  have hlead : t.lead = earlier.rest.takeWhile Text.isBlank := by
    have hbegins : Text.begins Text.isBlank (t.text ++ t.body.spaces rest) = false :=
      (Text.begins_append hlexeme.text_ne_nil _).trans hlexeme.begins_blank
    rw [lead, ht.raw_eq, List.append_assoc]
    exact Text.takeWhile_run Text.mem_takeWhile hbegins
  refine ⟨t.body.spaces rest, ?_, fun c hc => Body.eq_space_of_mem hc, hlexeme.text_ne_nil,
    fun hk => ?_⟩
  · rw [hlead]
    exact ht.raw_eq
  · exact ⟨hlexeme.begins_invisible Text.invisible_isMargin,
      hlexeme.ends_invisible hk Text.invisible_isMargin⟩

theorem Surrounded.trim_raw {trail : Text} (h : t.Surrounded trail) (hk : t.kind ≠ .number) :
    t.raw.trim Text.isMargin = t.shownLead ++ t.text := by
  have hwhole : t.raw = t.lead.takeWhile Text.isMargin ++ (t.shownLead ++ t.text) ++ trail := by
    rw [← List.append_assoc, shownLead, List.takeWhile_append_dropWhile, h.raw_eq]
  have hbegins : Text.begins Text.isMargin (t.shownLead ++ t.text) = false := by
    by_cases hs : t.shownLead = []
    · rw [hs]
      exact (h.trimmed hk).begins
    · rw [Text.begins_append hs]
      exact Text.begins_dropWhile _ _
  have hends : Text.begins Text.isMargin (t.shownLead ++ t.text).reverse = false := by
    rw [Text.ends_append h.text_ne_nil]
    exact (h.trimmed hk).ends
  have htrail : ∀ c ∈ trail, Text.isMargin c := by
    intro c hc
    rw [h.trail_space c hc]
    decide
  rw [hwhole, Text.trim_run Text.mem_takeWhile ⟨hbegins, hends⟩ htrail]

theorem display_of_ne_number (hk : t.kind ≠ .number) :
    t.display = applied t.kind.title (showRaw t.raw) := by
  unfold display
  split
  · next heq => exact (hk (congrArg Body.kind heq)).elim
  · rfl

theorem Surrounded.display_eq {trail : Text} (h : t.Surrounded trail) (hk : t.kind ≠ .number) :
    t.display = applied t.kind.title (Text.quoted (t.shownLead ++ t.text)) := by
  rw [display_of_ne_number hk, showRaw, h.trim_raw hk]

theorem Surrounded.display_eq_iff {trail : Text} (h : t.Surrounded trail) (hk : t.kind ≠ .number) :
    t.display = applied t.kind.title t.text.quoted ↔ byteOrderMark ∉ t.lead := by
  rw [h.display_eq hk, applied_inj, Text.quoted_inj, List.append_left_eq_self]
  exact Text.dropWhile_isMargin_eq_nil_iff Text.mem_takeWhile

theorem body_eq_of_record (hk : t.kind = u.kind) (hr : t.record = u.record) : t.body = u.body := by
  have ht := t.body.ofRecord?_record
  have hu := u.body.ofRecord?_record
  rw [show t.body.kind = u.body.kind from hk, show t.body.record = u.body.record from hr, hu] at ht
  exact (Option.some.inj ht).symm

theorem display_eq_of_number (hbody : t.body = u.body) (hk : t.kind = .number) :
    t.display = u.display := by
  obtain ⟨raw, body⟩ := t
  obtain ⟨raw', body'⟩ := u
  cases (hbody : body = body')
  cases body with
  | number => rfl
  | _ => cases hk

/-- A token of a source is shown by the blanks from the first byte order mark on and its text, so by
its text alone exactly if there is no such mark. Two tokens of the same kind and record are shown
alike exactly if they are numbers or the same blanks are shown of them. -/
theorem display_returned (h : t.ReturnedFrom source) :
    (t.kind ≠ .number →
      (∃ trail, t.raw = t.lead ++ t.text ++ trail ∧ ∀ c ∈ trail, c = ' ') ∧
      t.display = applied t.kind.title (Text.quoted (t.shownLead ++ t.text)) ∧
      (t.display = applied t.kind.title t.text.quoted ↔ byteOrderMark ∉ t.lead)) ∧
    ∀ {other : Text} {u : Token}, u.ReturnedFrom other → t.kind = u.kind → t.record = u.record →
      (t.display = u.display ↔ t.kind = .number ∨ t.shownLead = u.shownLead) := by
  obtain ⟨trail, hst⟩ := h.surrounded
  refine ⟨fun hk => ?_, fun hu hkind hrecord => ?_⟩
  · exact ⟨⟨trail, hst.raw_eq, hst.trail_space⟩, hst.display_eq hk, hst.display_eq_iff hk⟩
  · obtain ⟨_, hsu⟩ := hu.surrounded
    have hbody := body_eq_of_record hkind hrecord
    by_cases hk : t.kind = .number
    · exact iff_of_true (display_eq_of_number hbody hk) (Or.inl hk)
    · rw [hst.display_eq hk, hsu.display_eq (hkind ▸ hk), hkind, applied_inj, Text.quoted_inj,
        show t.text = _ from congrArg Body.text hbody]
      simp [text, ← hkind, hk]

theorem parse_marked : parse "a\ufeffa".toList =
    .ok [⟨"a".toList, .ident "a".toList⟩, ⟨"\ufeffa".toList, .ident "a".toList⟩] := by
  have hfirst : (Lexer.ofSource "a\ufeffa".toList).next =
      (.ok (some ⟨"a".toList, .ident "a".toList⟩), ⟨"a\ufeffa".toList, 1⟩) := rfl
  have hsecond : Lexer.next ⟨"a\ufeffa".toList, 1⟩ =
      (.ok (some ⟨"\ufeffa".toList, .ident "a".toList⟩), ⟨"a\ufeffa".toList, 3⟩) := rfl
  have hstop : Lexer.next ⟨"a\ufeffa".toList, 3⟩ = (.ok none, ⟨"a\ufeffa".toList, 3⟩) := rfl
  change (Lexer.ofSource "a\ufeffa".toList).process.1 = _
  rw [Lexer.process_of_token hfirst, Lexer.process_of_token hsecond, Lexer.process_of_stop hstop]
  rfl

theorem display_returned_marked :
    ∃ t u : Token, t.ReturnedFrom "a\ufeffa".toList ∧ u.ReturnedFrom "a\ufeffa".toList ∧
      t.kind ≠ .number ∧ t.display = applied t.kind.title t.text.quoted ∧
      u.display = applied u.kind.title (Text.quoted "\ufeffa".toList) ∧
      t.kind = u.kind ∧ t.record = u.record ∧ t.display ≠ u.display := by
  have ht : ReturnedFrom ⟨"a".toList, .ident "a".toList⟩ "a\ufeffa".toList :=
    Or.inl ⟨_, parse_marked, by decide⟩
  have hu : ReturnedFrom ⟨"\ufeffa".toList, .ident "a".toList⟩ "a\ufeffa".toList :=
    Or.inl ⟨_, parse_marked, by decide⟩
  exact ⟨_, _, ht, hu, by decide, ((display_returned ht).1 (by decide)).2.2.mpr (by decide),
    ((display_returned hu).1 (by decide)).2.1, rfl, rfl,
    ((display_returned ht).2 hu rfl rfl).not.mpr (by decide)⟩

/-- Two tokens of the same kind and record that are shown differently. -/
theorem display_byteOrderMark :
    ∃ t u : Token, parse "a\ufeffa".toList = .ok [t, u] ∧ t.kind = .ident ∧ u.kind = .ident ∧
      t.record = u.record ∧ t.display = "Ident('a')".toList ∧
      u.display = "Ident('\\ufeffa')".toList ∧
      u.display ≠ applied u.kind.title u.text.quoted ∧ u.display ≠ t.display :=
  ⟨_, _, parse_marked, rfl, rfl, rfl, rfl, rfl, by decide, by decide⟩

end Token

end StyleValue
