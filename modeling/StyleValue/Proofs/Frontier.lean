import StyleValue.Proofs.Separation
import StyleValue.Proofs.Spacing
import StyleValue.Proofs.Stream

/-! # The frontier of a failure

A failure splits the trimmed source in two. What stands before it is a value by itself, of the
tokens that were read. What stands behind it fails by itself, at its beginning. -/

namespace StyleValue

theorem BeginsArguments.append {s : Text} (h : BeginsArguments s) (more : Text) :
    BeginsArguments (s ++ more) := by
  obtain ⟨hopen, hclose⟩ := h
  cases s with
  | nil => cases hopen
  | cons c s => exact ⟨hopen, List.mem_append_left more hclose⟩

theorem follows_of_append {b : Body} {rest more : Text} (h : Follows b (rest ++ more)) :
    Follows b rest := by
  cases b with
  | number => exact Text.begins_of_append h
  | ident name =>
    exact ⟨Text.begins_of_append h.1, fun hn hargs => h.2 hn (hargs.append more)⟩
  | operator | comma | string | function => trivial

theorem Chain.truncate {s rest more : Text} {bodies : List Body}
    (h : Chain s bodies (rest ++ more)) : Chain s bodies rest := by
  generalize hr : rest ++ more = r at h
  induction h with
  | nil hb => exact .nil hb
  | cons hl hlex hf _ ih =>
    subst hr
    rw [← List.append_assoc] at hf
    exact .cons hl hlex (follows_of_append hf) (ih rfl)

namespace Lexer

/-- The tokens before a failure make up the text up to the one that the failure is about. -/
theorem chain_of_failure {lexer : Lexer} {e : Failure} (h : lexer.stream.ending = some e) :
    ∃ front, lexer.rest = front ++ (⟨lexer.source, lexer.stream.stop⟩ : Lexer).rest ∧
      lexer.stream.stop = lexer.index + front.length ∧
      Chain front (lexer.stream.tokens.map fun t => t.1.body)
        (⟨lexer.source, lexer.stream.stop⟩ : Lexer).rest := by
  match hn : lexer.next with
  | (.ok none, after) =>
    rw [stream_of_stop hn] at h
    cases h
  | (.error e', after) =>
    obtain ⟨-, rfl, -⟩ := next_error_iff.mp hn
    rw [stream_of_error hn]
    exact ⟨_, rest_split lexer, rfl, .nil Text.mem_takeWhile⟩
  | (.ok (some token), after) =>
    obtain ⟨rest, hs, hraw, hrest, hafter⟩ := exists_takes hn
    have hstream := stream_of_token hn
    rw [hstream] at h ⊢
    obtain ⟨front, hfront, hstop, hchain⟩ := chain_of_failure h
    rw [next_source hn] at hfront hchain
    rw [hfront] at hrest
    refine ⟨token.raw ++ front, ?_, ?_, ?_⟩
    · rw [rest_split lexer, hs.text_eq, hraw]
      conv => lhs; rw [hrest]
      simp only [List.append_assoc]
      rfl
    · rw [hstop, hafter, List.length_append, Nat.add_assoc]
    · rw [hraw, List.append_assoc]
      have hspaces := token.body.spaces_blank rest
      refine .cons Text.mem_takeWhile hs.lexeme ?_ (hchain.lead hspaces)
      rw [List.append_assoc, ← hrest]
      exact hs.follows
termination_by lexer.source.length - lexer.index
decreasing_by exact next_shortens hn

theorem process_error_behind {front back : Text} {bodies : List Body} {e : Failure}
    (hc : Chain front bodies back) (h : (ofSource (front ++ back)).process.1 = .error e) :
    ∃ e', (ofSource back).process.1 = .error e' ∧ e = e'.shift front.length := by
  rw [← outline_eq_error_iff, outline_join hc] at h
  cases hb : (ofSource back).outline with
  | ok others =>
    rw [hb] at h
    cases h
  | error e' =>
    rw [hb] at h
    exact ⟨e', outline_eq_error_iff.mp hb, (Except.error.inj h).symm⟩

end Lexer

theorem parse_eq_outcome (source : Text) :
    parse source = (Lexer.ofSource (source.trim Text.isBlank)).stream.outcome := by
  rw [parse, Lexer.process_eq]

/-- What stands before a failure in the trimmed source parses, to the tokens that steps took, and
what stands behind it fails in the same way. The failure tells where it begins. -/
theorem parse_frontier {source : Text} {e : Failure} (h : parse source = .error e) :
    let trimmed := source.trim Text.isBlank
    let stream := (Lexer.ofSource trimmed).stream
    stream.ending = some e ∧ e.BeginsAt trimmed stream.stop ∧
      (∃ read, parse (trimmed.take stream.stop) = .ok read ∧
        read.map Token.entry = stream.tokens.map fun t => t.1.entry) ∧
      ∃ e', parse (trimmed.drop stream.stop) = .error e' ∧
        e.diagnostic = { e'.diagnostic with
          position := e'.diagnostic.position + stream.stop } := by
  intro trimmed stream
  have houtcome := h
  rw [parse_eq_outcome, TokenStream.outcome_eq_error_iff] at houtcome
  have hbegins : e.BeginsAt trimmed stream.stop := Lexer.stream_beginsAt houtcome
  obtain ⟨front, hsplit, hstop, hchain⟩ := Lexer.chain_of_failure houtcome
  change trimmed = front ++ trimmed.drop stream.stop at hsplit
  change Chain front _ (trimmed.drop stream.stop) at hchain
  have hlength : front.length = stream.stop := by
    rw [← Nat.zero_add front.length]
    exact hstop.symm
  have htake : trimmed.take stream.stop = front := by
    conv => lhs; rw [hsplit, ← hlength, List.take_left]
  refine ⟨houtcome, hbegins, ?_, ?_⟩
  · obtain ⟨read, hread, hbodies⟩ := parse_of_chain (@Chain.truncate front [] _ _ hchain)
    refine ⟨read, by rw [htake, hread], ?_⟩
    have hentries := @entry_eq_of_bodies read (stream.tokens.map Prod.fst)
      (by rw [hbodies, List.map_map]; rfl)
    rw [hentries, List.map_map]
    rfl
  · have hprocess : (Lexer.ofSource trimmed).process.1 = .error e := h
    rw [hsplit] at hprocess
    obtain ⟨e', he', rfl⟩ := Lexer.process_error_behind hchain hprocess
    have htrim := (Text.trimmed_trim Text.isBlank source).drop hbegins.inside hbegins.not_blank
    refine ⟨e', ?_, ?_⟩
    · rw [parse, Text.trim_of_trimmed htrim]
      exact he'
    · rw [e'.shift_diagnostic, hlength]

theorem parse_frontier_open_call :
    parse " a rgb(1".toList = .error (.unrecognized "(1".toList 5) ∧
      (∃ read, parse "a rgb".toList = .ok read ∧ read.map Token.entry =
        [(.ident, [(.string, .text "a".toList)]), (.ident, [(.string, .text "rgb".toList)])]) ∧
      ∃ e, parse "(1".toList = .error e ∧ e.diagnostic.snippet = "(1".toList ∧
        e.diagnostic.position = 0 := by
  have hname : (Lexer.ofSource "a rgb(1".toList).next =
      (.ok (some ⟨"a ".toList, .ident "a".toList⟩), ⟨"a rgb(1".toList, 2⟩) := rfl
  have hcolor : Lexer.next ⟨"a rgb(1".toList, 2⟩ =
      (.ok (some ⟨"rgb".toList, .ident "rgb".toList⟩), ⟨"a rgb(1".toList, 5⟩) := rfl
  have hparen : Lexer.next ⟨"a rgb(1".toList, 5⟩ =
      (.error (.unrecognized "(1".toList 5), ⟨"a rgb(1".toList, 5⟩) := rfl
  have hstream : (Lexer.ofSource (Text.trim Text.isBlank " a rgb(1".toList)).stream =
      ⟨[(⟨"a ".toList, .ident "a".toList⟩, 2), (⟨"rgb".toList, .ident "rgb".toList⟩, 5)],
        some (.unrecognized "(1".toList 5), 5⟩ := by
    change (Lexer.ofSource "a rgb(1".toList).stream = _
    rw [Lexer.stream_of_token hname, Lexer.stream_of_token hcolor, Lexer.stream_of_error hparen]
  have herror : parse " a rgb(1".toList = .error (.unrecognized "(1".toList 5) := by
    rw [parse_eq_outcome, hstream]
    rfl
  obtain ⟨-, -, hread, e, he, hd⟩ := parse_frontier herror
  rw [hstream] at hread he hd
  refine ⟨herror, hread, e, he, ?_, ?_⟩
  · exact (congrArg Diagnostic.snippet hd).symm
  · have hposition : 5 = e.diagnostic.position + 5 := congrArg Diagnostic.position hd
    omega

end StyleValue
