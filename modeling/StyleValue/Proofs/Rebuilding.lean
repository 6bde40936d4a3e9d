import StyleValue.Catalogue
import StyleValue.Proofs.Separation
import StyleValue.Proofs.Spacing
import StyleValue.Proofs.Tiling

/-! # Tokens rebuilt from their records

The record of a token that was read holds all that its kind is made from. The rebuilt token has the
text of the lexeme for its raw text. So the rebuilt tokens of a value are read back from their raw
texts, whatever blanks separate these. -/

namespace StyleValue

def FieldValue.text? : FieldValue → Option Text
  | .text t => some t
  | .amount _ => none

def FieldValue.amount? : FieldValue → Option Amount
  | .text _ => none
  | .amount x => some x

/-- What a record gives for a new draft. There is no raw text in it, and no draft takes a field that
its record does not have. -/
def Ingredients.ofRecord (record : List (Field × FieldValue)) : Ingredients where
  raw := none
  value := ((record.lookup .value).bind FieldValue.text?).getD []
  amount := ((record.lookup .value).bind FieldValue.amount?).getD (.whole 0)
  unit := ((record.lookup .unit).bind FieldValue.text?).getD []
  string := ((record.lookup .string).bind FieldValue.text?).getD []
  quote := ((record.lookup .quote).bind FieldValue.text?).getD []

def Token.remade (t : Token) : Except DraftError Draft :=
  Draft.make (.kind t.kind) (.ofRecord t.record)

def Body.token (b : Body) : Token := ⟨b.text, b⟩

theorem Lexeme.make_record {b : Body} (h : Lexeme b) :
    Draft.make (.kind b.kind) (.ofRecord b.record) = .ok (.token b.token) := by
  cases h <;> rfl

def joined : List Text → List Text → Text
  | text :: texts, gap :: gaps => text ++ gap ++ joined texts gaps
  | texts, _ => texts.flatten

/-- There is a gap between any two of the texts, and every gap holds blanks. -/
structure Gaps (gaps : List Text) (count : Nat) : Prop where
  length_eq : gaps.length = count - 1
  nonempty : ∀ gap ∈ gaps, gap ≠ []
  blank : ∀ gap ∈ gaps, ∀ c ∈ gap, Text.isBlank c

theorem chain_joined {bodies : List Body} {gaps : List Text} (hb : ∀ b ∈ bodies, Lexeme b)
    (hg : Gaps gaps bodies.length) : Chain (joined (bodies.map Body.text) gaps) bodies [] := by
  induction bodies generalizing gaps with
  | nil =>
    cases List.eq_nil_of_length_eq_zero hg.length_eq
    exact .nil (by simp [joined])
  | cons b bodies ih =>
    obtain ⟨hlexeme, hbodies⟩ := List.forall_mem_cons.mp hb
    cases gaps with
    | nil =>
      cases List.eq_nil_of_length_eq_zero hg.length_eq.symm
      exact @Chain.cons [] b [] [] [] (by simp) hlexeme (follows_of_separated rfl b)
        (.nil (by simp))
    | cons gap gaps =>
      obtain ⟨hlength, hne, hblank⟩ := hg
      obtain ⟨hgap, hgaps⟩ := List.forall_mem_cons.mp hblank
      have hlater : Gaps gaps bodies.length :=
        ⟨by simp at hlength; omega, fun g hm => hne g (List.mem_cons_of_mem gap hm), hgaps⟩
      have hfollows : Follows b (gap ++ joined (bodies.map Body.text) gaps ++ []) := by
        refine follows_of_separated ?_ b
        rw [List.append_assoc]
        exact separated_of_blanks (hne gap List.mem_cons_self) hgap _
      have hchain := @Chain.cons [] b _ bodies [] (by simp) hlexeme hfollows
        ((ih hbodies hlater).lead hgap)
      rwa [List.nil_append, ← List.append_assoc] at hchain

theorem Lexer.process_lexemes {lexer : Lexer} {tokens : List Token}
    (h : lexer.process.1 = .ok tokens) :
    ∀ t ∈ tokens, Lexeme t.body ∧ t.raw.trim Text.isBlank = t.text := by
  induction tokens generalizing lexer with
  | nil => simp
  | cons token tokens ih =>
    obtain ⟨after, hn, hp⟩ := process_cons_iff.mp h
    obtain ⟨rest, ht⟩ := exists_takes hn
    exact List.forall_mem_cons.mpr ⟨⟨ht.stands.lexeme, ht.trim_raw⟩, ih hp⟩

theorem parse_lexeme {b : Body} (h : Lexeme b) : parse b.text = .ok [b.token] := by
  have hchain := @chain_joined [b] [] (by simpa using h) ⟨rfl, by simp, by simp⟩
  rw [show joined ([b].map Body.text) [] = b.text from List.append_nil _] at hchain
  obtain ⟨tokens, hp, hbodies⟩ := parse_of_chain hchain
  obtain ⟨t, rfl, hbody⟩ := List.map_eq_singleton_iff.mp hbodies
  have hraw := parse_raw hp
  rw [Text.trim_of_trimmed ⟨h.begins_blank, h.ends_blank⟩] at hraw
  have htoken : t = b.token := by
    obtain ⟨raw, body⟩ := t
    simp only [List.map_cons, List.map_nil, List.flatten_cons, List.flatten_nil,
      List.append_nil] at hraw hbody
    rw [hraw, hbody]
    rfl
  rw [hp, htoken]

/-- Every token that is read can be made again from its record, with its trimmed raw text. However
the tokens made so are separated by blanks, they are read back, and each is read back alone. -/
theorem records_lossless {source : Text} {tokens : List Token} (h : parse source = .ok tokens) :
    ∃ rebuilt : List Token,
      tokens.map Token.remade = rebuilt.map (fun t => .ok (.token t)) ∧
      rebuilt.map Token.entry = tokens.map Token.entry ∧
      rebuilt.map Token.raw = tokens.map (fun t => t.raw.trim Text.isBlank) ∧
      (∀ gaps, Gaps gaps tokens.length → ∃ others,
        parse (joined (rebuilt.map Token.raw) gaps) = .ok others ∧
        others.map Token.entry = tokens.map Token.entry) ∧
      ∀ t ∈ rebuilt, parse t.raw = .ok [t] := by
  have hlexemes := Lexer.process_lexemes h
  refine ⟨tokens.map fun t => t.body.token, ?_, ?_, ?_, fun gaps hgaps => ?_, fun t ht => ?_⟩
  · rw [List.map_map]
    exact List.map_congr_left fun t ht => (hlexemes t ht).1.make_record
  · rw [List.map_map]
    rfl
  · rw [List.map_map]
    exact List.map_congr_left fun t ht => (hlexemes t ht).2.symm
  · have hbodies : ∀ b ∈ tokens.map Token.body, Lexeme b :=
      List.forall_mem_map.mpr fun t ht => (hlexemes t ht).1
    have hchain := chain_joined hbodies (by rwa [List.length_map])
    obtain ⟨others, hp, hb⟩ := parse_of_chain hchain
    refine ⟨others, ?_, entry_eq_of_bodies hb⟩
    rw [List.map_map] at hp ⊢
    exact hp
  · obtain ⟨token, hmem, rfl⟩ := List.mem_map.mp ht
    exact parse_lexeme (hlexemes token hmem).1

theorem records_lossless_name_quoted :
    ∃ tokens others, parse " a'b' ".toList = .ok tokens ∧
      tokens.map Token.remade = [.ok (.token ⟨['a'], .ident ['a']⟩),
        .ok (.token ⟨"'b'".toList, .string ['\''] ['b']⟩)] ∧
      parse "a\t 'b'".toList = .ok others ∧
      others.map Token.entry = tokens.map Token.entry := by
  have hname : (Lexer.ofSource "a'b'".toList).next =
      (.ok (some ⟨['a'], .ident ['a']⟩), ⟨"a'b'".toList, 1⟩) := rfl
  have hquoted : Lexer.next ⟨"a'b'".toList, 1⟩ =
      (.ok (some ⟨"'b'".toList, .string ['\''] ['b']⟩), ⟨"a'b'".toList, 4⟩) := rfl
  have hstop : Lexer.next ⟨"a'b'".toList, 4⟩ = (.ok none, ⟨"a'b'".toList, 4⟩) := rfl
  have hparse : parse " a'b' ".toList =
      .ok [⟨['a'], .ident ['a']⟩, ⟨"'b'".toList, .string ['\''] ['b']⟩] := by
    change (Lexer.ofSource "a'b'".toList).process.1 = _
    rw [Lexer.process_of_token hname, Lexer.process_of_token hquoted, Lexer.process_of_stop hstop]
    rfl
  obtain ⟨rebuilt, -, -, hraw, hgaps, -⟩ := records_lossless hparse
  obtain ⟨others, hothers, hentry⟩ := hgaps ["\t ".toList]
    ⟨rfl, by simp, List.forall_mem_singleton.mpr (Text.forall_mem_of_all rfl)⟩
  rw [hraw] at hothers
  exact ⟨_, others, hparse, rfl, hothers, hentry⟩

end StyleValue
