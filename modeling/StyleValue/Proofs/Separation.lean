import StyleValue.Token.Record
import StyleValue.Proofs.Grammar

/-! # Values joined by a separator

No lexeme goes on across a blank or a slash, and none depends on what stands before it. So a value
followed by blanks or a slash and any other text is read as the value and then as that text: the
tokens of both follow each other, and a failure of the text moves with it. -/

namespace StyleValue

/-- What a token is without its raw text. -/
def Token.entry (t : Token) : Kind × List (Field × FieldValue) := (t.kind, t.record)

theorem entry_eq_of_bodies {tokens others : List Token}
    (h : tokens.map Token.body = others.map Token.body) :
    tokens.map Token.entry = others.map Token.entry := by
  have he := congrArg (List.map fun b => (b.kind, b.record)) h
  rw [List.map_map, List.map_map] at he
  exact he

theorem exists_phrase {source : Text} {tokens : List Token} (h : parse source = .ok tokens) :
    ∃ phrase : Phrase, phrase.Valid ∧ phrase.text = source ∧
      phrase.bodies = tokens.map Token.body :=
  Phrase.chain_trim_iff.mp (parse_bodies_iff.mp ⟨tokens, h, rfl⟩)

theorem chain_of_parse {source rest : Text} {tokens : List Token} (h : parse source = .ok tokens)
    (hrest : rest.begins isUnitChar = false) :
    Chain source (tokens.map Token.body) rest := by
  obtain ⟨phrase, hv, rfl, hb⟩ := exists_phrase h
  rw [← hb]
  exact hv.chain hrest

theorem parse_of_chain {source : Text} {bodies : List Body} (h : Chain source bodies []) :
    ∃ tokens, parse source = .ok tokens ∧ tokens.map Token.body = bodies :=
  parse_bodies_iff.mpr (Phrase.chain_trim_iff.mpr (Phrase.exists_of_chain h rfl))

theorem chain_slash {blanks rest : Text} (hb : ∀ c ∈ blanks, Text.isBlank c) :
    Chain ('/' :: blanks) [.operator ['/']] rest := by
  have h := @Chain.cons [] (.operator ['/']) blanks [] rest (by simp) .operator trivial (.nil hb)
  exact h

theorem parse_join {s separator t : Text} {first second : List Token} {marks : List Body}
    (hs : parse s = .ok first) (ht : parse t = .ok second)
    (hsep : (separator ++ t).begins isUnitChar = false) (hc : Chain separator marks t) :
    ∃ tokens, parse (s ++ separator ++ t) = .ok tokens ∧
      tokens.map Token.body = first.map Token.body ++ (marks ++ second.map Token.body) := by
  rw [← List.append_nil (separator ++ t)] at hsep
  rw [← List.append_nil t] at hc
  have hchain := (chain_of_parse hs hsep).append (hc.append (chain_of_parse ht rfl))
  rw [← List.append_assoc] at hchain
  exact parse_of_chain hchain

theorem parse_error_behind {front source t : Text} {bodies : List Body} {e : Failure}
    (ht : parse t = .error e) (h : Chain front bodies (t.trim Text.isBlank))
    (hsource : source.trim Text.isBlank = front ++ t.trim Text.isBlank) :
    parse source = .error (e.shift front.length) := by
  have houtline := Lexer.outline_eq_error_iff.mpr ht
  rw [parse, ← Lexer.outline_eq_error_iff, hsource, Lexer.outline_join h, houtline]
  rfl

theorem trim_ne_nil {t : Text} {e : Failure} (h : parse t = .error e) :
    t.trim Text.isBlank ≠ [] := by
  intro hn
  have hr : (Lexer.ofSource (t.trim Text.isBlank)).rest = [] := hn
  have ho := Lexer.outline_eq_error_iff.mpr h
  rw [Lexer.outline_of_nil hr] at ho
  cases ho

theorem chain_of_parse_dropWhile {source rest : Text} {tokens : List Token}
    (h : parse source = .ok tokens) (hrest : rest.begins isUnitChar = false) :
    Chain (source.dropWhile Text.isBlank) (tokens.map Token.body) rest := by
  obtain ⟨⟨lead, parts⟩, ⟨hlead, hlinked⟩, rfl, hb⟩ := exists_phrase h
  rw [← hb, Phrase.text, Text.dropWhile_run hlead (Phrase.begins_textOf hlinked)]
  exact Phrase.chain_of_linked hlinked hrest

theorem parse_join_error {s separator t : Text} {first : List Token} {marks : List Body}
    {e : Failure} (hs : parse s = .ok first) (ht : parse t = .error e)
    (hsep : Text.begins isUnitChar
      (separator ++ t.takeWhile Text.isBlank ++ t.trim Text.isBlank) = false)
    (hc : Chain (separator ++ t.takeWhile Text.isBlank) marks (t.trim Text.isBlank))
    (hne : s.dropWhile Text.isBlank ++ separator ≠ [])
    (hbegins : Text.begins Text.isBlank (s.dropWhile Text.isBlank ++ separator) = false) :
    parse (s ++ separator ++ t) = .error (e.shift ((s.dropWhile Text.isBlank).length +
      separator.length + (t.takeWhile Text.isBlank).length)) := by
  have hchain := (chain_of_parse_dropWhile hs hsep).append hc
  have htrim := Text.trim_join (trim_ne_nil ht) hne hbegins
  have herror := parse_error_behind ht hchain htrim
  rwa [List.length_append, List.length_append, ← Nat.add_assoc] at herror

theorem parse_error_behind_blanks {s w t : Text} {e : Failure} (hs : ∀ c ∈ s, Text.isBlank c)
    (hw : ∀ c ∈ w, Text.isBlank c) (ht : parse t = .error e) :
    parse (s ++ w ++ t) = .error (e.shift 0) := by
  apply @parse_error_behind [] _ t [] e ht (.nil (by simp))
  exact Text.trim_lead (List.forall_mem_append.mpr ⟨hs, hw⟩) t

theorem separated_of_blanks {w : Text} (hne : w ≠ []) (hw : ∀ c ∈ w, Text.isBlank c)
    (t : Text) : (w ++ t).begins isUnitChar = false := by
  rw [Text.begins_append hne]
  exact separated_of_blank hw

theorem parse_error_across_blanks {s w t : Text} {first : List Token} {e : Failure}
    (hs : parse s = .ok first) (hne : w ≠ []) (hw : ∀ c ∈ w, Text.isBlank c)
    (hblank : s.dropWhile Text.isBlank ≠ []) (ht : parse t = .error e) :
    parse (s ++ w ++ t) = .error (e.shift ((s.dropWhile Text.isBlank).length +
      w.length + (t.takeWhile Text.isBlank).length)) := by
  refine @parse_join_error _ _ _ _ [] _ hs ht ?_ (.nil ?_) (by simp [hblank]) ?_
  · rw [List.append_assoc]
    exact separated_of_blanks hne hw _
  · exact List.forall_mem_append.mpr ⟨hw, Text.mem_takeWhile⟩
  · rw [Text.begins_append hblank]
    exact Text.begins_dropWhile _ _

theorem begins_dropWhile_slash (s : Text) :
    Text.begins Text.isBlank (s.dropWhile Text.isBlank ++ ['/']) = false := by
  by_cases hn : s.dropWhile Text.isBlank = []
  · rw [hn]
    rfl
  · rw [Text.begins_append hn]
    exact Text.begins_dropWhile _ _

/-- A value behind another and blanks or a slash keeps its tokens. When it fails, the failure is
the same, at the position that its text moves to. -/
theorem parse_separated {s : Text} {first : List Token} (hs : parse s = .ok first) (t : Text) :
    (∀ w : Text, w ≠ [] → (∀ c ∈ w, Text.isBlank c) →
      (∀ second, parse t = .ok second → ∃ tokens, parse (s ++ w ++ t) = .ok tokens ∧
        tokens.map Token.entry = first.map Token.entry ++ second.map Token.entry) ∧
      ∀ e, parse t = .error e → ∃ e', parse (s ++ w ++ t) = .error e' ∧
        e'.diagnostic = { e.diagnostic with
          position := e.diagnostic.position + if s.all Text.isBlank then 0 else
            (s.dropWhile Text.isBlank).length + w.length + (t.takeWhile Text.isBlank).length }) ∧
    (∀ second, parse t = .ok second → ∃ tokens, parse (s ++ ['/'] ++ t) = .ok tokens ∧
      tokens.map Token.entry = first.map Token.entry ++
        (.operator, [(.value, .text ['/'])]) :: second.map Token.entry) ∧
    ∀ e, parse t = .error e → ∃ e', parse (s ++ ['/'] ++ t) = .error e' ∧
      e'.diagnostic = { e.diagnostic with
        position := e.diagnostic.position +
          ((s.dropWhile Text.isBlank).length + 1 + (t.takeWhile Text.isBlank).length) } := by
  refine ⟨fun w hne hw => ⟨fun second ht => ?_, fun e ht => ?_⟩, fun second ht => ?_,
    fun e ht => ?_⟩
  · obtain ⟨tokens, h, hb⟩ := parse_join hs ht (separated_of_blanks hne hw t) (.nil hw)
    refine ⟨tokens, h, ?_⟩
    rw [← List.map_append]
    exact entry_eq_of_bodies (by rw [hb, List.nil_append, List.map_append])
  · refine ⟨_, ?_, Failure.shift_diagnostic e _⟩
    split
    · next hall => exact parse_error_behind_blanks (List.all_eq_true.mp hall) hw ht
    · next hall => exact parse_error_across_blanks hs hne hw (by simpa using hall) ht
  · obtain ⟨tokens, h, hb⟩ := parse_join hs ht rfl (@chain_slash [] t (by simp))
    refine ⟨tokens, h, ?_⟩
    have hentry := @entry_eq_of_bodies tokens (first ++ ⟨['/'], .operator ['/']⟩ :: second)
      (by rw [hb, List.map_append]; rfl)
    rw [hentry, List.map_append]
    rfl
  · refine ⟨_, parse_join_error hs ht rfl (chain_slash Text.mem_takeWhile) (by simp)
      (begins_dropWhile_slash s), Failure.shift_diagnostic e _⟩

theorem parse_separated_name_quote :
    ∃ first e, parse "a".toList = .ok first ∧ parse "'".toList = .error e ∧
      ∃ e', parse ("a".toList ++ [' '] ++ "'".toList) = .error e' ∧
        e'.diagnostic.message = e.diagnostic.message ∧ e'.diagnostic.position = 2 := by
  have hname : parse "a".toList = .ok [⟨['a'], .ident ['a']⟩] := by
    have hnext : (Lexer.ofSource ['a']).next = (.ok (some ⟨['a'], .ident ['a']⟩), ⟨['a'], 1⟩) := rfl
    have hstop : Lexer.next ⟨['a'], 1⟩ = (.ok none, ⟨['a'], 1⟩) := rfl
    change (Lexer.ofSource ['a']).process.1 = _
    rw [Lexer.process_of_token hnext, Lexer.process_of_stop hstop]
    rfl
  have hquote : parse "'".toList = .error (.unrecognized ['\''] 0) := by
    have hnext : (Lexer.ofSource ['\'']).next =
        (.error (.unrecognized ['\''] 0), ⟨['\''], 0⟩) := rfl
    change (Lexer.ofSource ['\'']).process.1 = _
    rw [Lexer.process_of_error hnext]
  obtain ⟨e', h, hd⟩ := ((parse_separated hname "'".toList).1 [' '] (by decide)
    (Text.forall_mem_of_all rfl)).2 _ hquote
  exact ⟨_, _, hname, hquote, e', h, by rw [hd], by rw [hd]; decide⟩

end StyleValue
