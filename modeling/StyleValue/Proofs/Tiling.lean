import StyleValue.Parse
import StyleValue.Proofs.Step
import StyleValue.Proofs.Trim

/-! # Raw texts tile the source

A step that takes a token reads exactly the raw text of the token. Any other step reads blanks,
and after it no step takes a token again. So whatever calls are made, the raw texts of the tokens
taken lie end to end from where the lexer began, and only blanks can be left behind them. -/

namespace StyleValue

def Lexer.Answer.raw : Answer → Text
  | .token t => t.raw
  | .tokens ts => (ts.map Token.raw).flatten
  | _ => []

namespace Lexer

theorem process_nil_iff {lexer : Lexer} : lexer.process.1 = .ok [] ↔ lexer.unread = [] := by
  match h : lexer.next with
  | (.ok none, after) => simp [process_of_stop h, (next_stop_iff.mp h).1]
  | (.ok (some token), after) =>
    have hu := unread_ne_nil_of_token h
    rw [process_of_token h, map_eq_ok_iff]
    simp [hu]
  | (.error e, after) => simp [process_of_error h, (next_error_iff.mp h).1]

theorem process_cons_iff {lexer : Lexer} {token : Token} {tokens : List Token} :
    lexer.process.1 = .ok (token :: tokens) ↔
      ∃ after, lexer.next = (.ok (some token), after) ∧ after.process.1 = .ok tokens := by
  match h : lexer.next with
  | (.ok none, after) => simp [process_of_stop h]
  | (.ok (some first), after) =>
    rw [process_of_token h, map_eq_ok_iff]
    constructor
    · intro hm
      obtain ⟨others, hp, he⟩ := hm
      cases he
      exact ⟨after, rfl, hp⟩
    · intro hm
      obtain ⟨after', hn, hp⟩ := hm
      cases hn
      exact ⟨tokens, hp, rfl⟩
  | (.error e, after) => simp [process_of_error h]

/-- What a call reads: the raw text of the tokens it takes, and the blanks behind them. -/
structure Reads (lexer : Lexer) (raw gap : Text) (after : Lexer) : Prop where
  rest_eq : lexer.rest = raw ++ gap ++ after.rest
  after_eq : after = ⟨lexer.source, lexer.index + (raw ++ gap).length⟩
  blank : ∀ c ∈ gap, Text.isBlank c

/-- No step takes a token or moves the index any more. -/
structure Exhausted (lexer : Lexer) : Prop where
  inside : lexer.index ≤ lexer.source.length
  not_blank : lexer.rest.begins Text.isBlank = false
  no_token : ∀ m, Rule.first Rule.trialOrder lexer.rest ≠ .ok (some m)

theorem Reads.refl (lexer : Lexer) : lexer.Reads [] [] lexer :=
  ⟨rfl, rfl, by simp⟩

theorem Reads.trans {lexer middle after : Lexer} {raw raws gap : Text}
    (h : lexer.Reads raw [] middle) (h' : middle.Reads raws gap after) :
    lexer.Reads (raw ++ raws) gap after := by
  obtain ⟨hr, rfl, -⟩ := h
  obtain ⟨hr', rfl, hb⟩ := h'
  refine ⟨?_, ?_, hb⟩
  · rw [hr, hr']
    simp
  · simp only [List.length_append, List.length_nil, Nat.add_zero, Nat.add_assoc]

theorem Reads.slice {lexer after : Lexer} {raw gap : Text} (h : lexer.Reads raw gap after) :
    (lexer.source.drop lexer.index).take (after.index - lexer.index) = raw ++ gap := by
  obtain ⟨hr, rfl, -⟩ := h
  rw [← rest, hr, Nat.add_sub_cancel_left, List.take_left]

theorem Reads.inside {lexer after : Lexer} {raw gap : Text} (h : lexer.Reads raw gap after)
    (hle : lexer.index ≤ lexer.source.length) : after.index ≤ after.source.length := by
  obtain ⟨hr, rfl, -⟩ := h
  have hlen := congrArg List.length hr
  rw [rest, List.length_drop, List.length_append] at hlen
  change lexer.index + (raw ++ gap).length ≤ lexer.source.length
  omega

theorem reads_of_value {lexer after : Lexer} {token : Token}
    (h : lexer.value = (.ok (some token), after)) : lexer.Reads token.raw [] after := by
  obtain ⟨-, hr, ha⟩ := value_token h
  exact ⟨by simpa using hr, by simpa using ha, by simp⟩

theorem start_le {lexer : Lexer} (h : lexer.index ≤ lexer.source.length) :
    lexer.start ≤ lexer.source.length := by
  have hle := (List.takeWhile_prefix Text.isBlank (l := lexer.rest)).length_le
  simp only [rest, List.length_drop] at hle
  simp only [start, rest]
  omega

theorem reads_blanks (lexer : Lexer) :
    lexer.Reads [] (lexer.rest.takeWhile Text.isBlank) ⟨lexer.source, lexer.start⟩ := by
  refine ⟨?_, rfl, Text.mem_takeWhile⟩
  rw [List.nil_append]
  exact rest_split lexer

theorem exhausted_start {lexer : Lexer} (h : lexer.index ≤ lexer.source.length)
    (hn : ∀ m, Rule.first Rule.trialOrder lexer.unread ≠ .ok (some m)) :
    Exhausted ⟨lexer.source, lexer.start⟩ := by
  exact ⟨start_le h, begins_unread lexer, hn⟩

theorem exhausted_end (source : Text) : Exhausted ⟨source, source.length⟩ := by
  have hr : (⟨source, source.length⟩ : Lexer).rest = [] := by simp [rest]
  exact ⟨le_refl _, by rw [hr]; rfl, fun m => by rw [hr, first_nil]; simp⟩

theorem start_of_end {lexer : Lexer} (h : lexer.index ≤ lexer.source.length)
    (hu : lexer.unread = []) : lexer.start = lexer.source.length :=
  le_antisymm (start_le h) (List.drop_eq_nil_iff.mp hu)

/-- The calls that take at most one token. -/
def Call.IsStep (call : Call) : Prop := call = .next ∨ call = .value

def Answer.isEmpty : Answer → Bool
  | .stopped | .nothing | .failed _ => true
  | _ => false

theorem Answer.raw_of_isEmpty {answer : Answer} (h : answer.isEmpty = true) : answer.raw = [] := by
  cases answer with
  | stopped | nothing | failed => rfl
  | moved | token | tokens => cases h

/-- A step takes a token and reads its raw text, or it reads blanks and no token is left. -/
theorem step_reads {lexer : Lexer} {call : Call} (hc : call.IsStep)
    (h : lexer.index ≤ lexer.source.length) :
    (∃ token after, lexer.perform call = (.token token, after) ∧ lexer.Reads token.raw [] after ∧
        ∃ m, Rule.first Rule.trialOrder lexer.unread = .ok (some m)) ∨
      ∃ answer gap after, lexer.perform call = (answer, after) ∧ answer.isEmpty = true ∧
        lexer.Reads [] gap after ∧ after.Exhausted := by
  rcases hc with rfl | rfl
  · match hn : lexer.next with
    | (.ok (some token), after) =>
      obtain ⟨m, hm, -, -⟩ := next_token_iff.mp hn
      exact Or.inl ⟨token, after, by simp [perform, hn, Answer.ofToken],
        reads_of_value (next_token hn).2, m, hm⟩
    | (.ok none, after) =>
      obtain ⟨hu, rfl⟩ := next_stop_iff.mp hn
      have hb := reads_blanks lexer
      rw [start_of_end h hu] at hb
      exact Or.inr ⟨.stopped, _, _, by simp [perform, hn, Answer.ofToken], rfl, hb,
        exhausted_end lexer.source⟩
    | (.error e, after) =>
      obtain ⟨-, rfl, hf⟩ := next_error_iff.mp hn
      refine Or.inr ⟨.failed e, _, _, by simp [perform, hn, Answer.ofToken], rfl,
        reads_blanks lexer, exhausted_start h ?_⟩
      rcases hf with ⟨m, hf, -⟩ | ⟨hf, -⟩
      · simp [hf]
      · simp [hf]
  · match hf : Rule.first Rule.trialOrder lexer.unread with
    | .ok (some m) =>
      have hv := value_of_token hf
      exact Or.inl ⟨_, _, by simp [perform, hv, Answer.ofToken], reads_of_value hv, m, rfl⟩
    | .ok none =>
      exact Or.inr ⟨.nothing, _, _, by simp [perform, value_of_pass hf, Answer.ofToken], rfl,
        reads_blanks lexer, exhausted_start h (by simp [hf])⟩
    | .error e =>
      exact Or.inr ⟨.failed (e.failureAt lexer.start), _, _,
        by simp [perform, value_of_error hf, Answer.ofToken], rfl, reads_blanks lexer,
        exhausted_start h (by simp [hf])⟩

theorem step_of_exhausted {lexer : Lexer} {call : Call} (hc : call.IsStep) (h : lexer.Exhausted) :
    ∃ answer, lexer.perform call = (answer, lexer) ∧ answer.isEmpty = true := by
  obtain ⟨hle, hblank, htoken⟩ := h
  rcases step_reads hc hle with ⟨token, after, -, -, m, hm⟩ | ⟨answer, gap, after, hp, he, hr, -⟩
  · rw [← dropWhile_rest, Text.dropWhile_of_begins hblank] at hm
    exact (htoken m hm).elim
  · obtain ⟨hr, rfl, hgap⟩ := hr
    cases gap with
    | nil => exact ⟨answer, hp, he⟩
    | cons c gap =>
      rw [hr] at hblank
      have hc : Text.isBlank c = false := hblank
      rw [hgap c List.mem_cons_self] at hc
      cases hc

def afterAll (lexer : Lexer) (calls : List Call) : Lexer :=
  calls.foldl (fun l call => (l.perform call).2) lexer

def lastIndex (lexer : Lexer) (answers : List (Answer × Nat)) : Nat :=
  (answers.getLast?.map Prod.snd).getD lexer.index

theorem run_lastIndex (lexer : Lexer) (calls : List Call) :
    lexer.lastIndex (lexer.run calls) = (lexer.afterAll calls).index := by
  induction calls generalizing lexer with
  | nil => rfl
  | cons call calls ih =>
    have h := ih (lexer.perform call).2
    rw [afterAll, List.foldl_cons, ← afterAll, ← h, run]
    simp only [lastIndex, List.getLast?_cons]
    cases ((lexer.perform call).2.run calls).getLast? with
    | none => rfl
    | some last => rfl

theorem run_of_exhausted {lexer : Lexer} {calls : List Call} (hc : ∀ call ∈ calls, call.IsStep)
    (h : lexer.Exhausted) : lexer.afterAll calls = lexer ∧
      ∀ answer ∈ lexer.run calls, answer.1.isEmpty = true := by
  induction calls with
  | nil => simp [afterAll, run]
  | cons call calls ih =>
    obtain ⟨answer, hp, he⟩ := step_of_exhausted (hc call List.mem_cons_self) h
    obtain ⟨ha, hall⟩ := ih fun c hm => hc c (List.mem_cons_of_mem _ hm)
    rw [afterAll, List.foldl_cons, ← afterAll, run]
    simp only [hp]
    exact ⟨ha, List.forall_mem_cons.mpr ⟨he, hall⟩⟩

def rawAll (answers : List (Answer × Nat)) : Text :=
  (answers.map fun answer => answer.1.raw).flatten

theorem rawAll_of_isEmpty {answers : List (Answer × Nat)}
    (h : ∀ answer ∈ answers, answer.1.isEmpty = true) : rawAll answers = [] := by
  rw [rawAll, List.flatten_eq_nil_iff]
  intro raw hm
  obtain ⟨answer, ha, rfl⟩ := List.mem_map.mp hm
  exact Answer.raw_of_isEmpty (h answer ha)

theorem run_reads {lexer : Lexer} {calls : List Call} (hc : ∀ call ∈ calls, call.IsStep)
    (h : lexer.index ≤ lexer.source.length) :
    ∃ gap, lexer.Reads (rawAll (lexer.run calls)) gap (lexer.afterAll calls) ∧
      ((∀ answer ∈ (lexer.run calls).getLast?, answer.1.isEmpty = false) → gap = []) := by
  induction calls generalizing lexer with
  | nil => exact ⟨[], Reads.refl lexer, fun _ => rfl⟩
  | cons call calls ih =>
    have hstep := hc call List.mem_cons_self
    have hcalls := fun c hm => hc c (List.mem_cons_of_mem call hm)
    rcases step_reads hstep h with ⟨token, after, hp, hr, -⟩ | ⟨answer, gap, after, hp, he, hr, hx⟩
    · obtain ⟨gap, hreads, hgap⟩ := ih hcalls (hr.inside h)
      refine ⟨gap, ?_, fun hlast => hgap fun answer hm => hlast answer ?_⟩
      · rw [afterAll, List.foldl_cons, run, hp]
        exact hr.trans hreads
      · rw [run, hp, List.getLast?_cons, hm]
        rfl
    · obtain ⟨ha, hall⟩ := run_of_exhausted hcalls hx
      refine ⟨gap, ?_, fun hlast => ?_⟩
      · rw [afterAll, List.foldl_cons, run, hp]
        change lexer.Reads (answer.raw ++ rawAll (after.run calls)) gap (after.afterAll calls)
        rw [ha, rawAll_of_isEmpty hall, Answer.raw_of_isEmpty he]
        exact hr
      · have hempty : ∀ a ∈ lexer.run (call :: calls), a.1.isEmpty = true := by
          rw [run, hp]
          exact List.forall_mem_cons.mpr ⟨he, hall⟩
        have hne : lexer.run (call :: calls) ≠ [] := by
          rw [run]
          exact List.cons_ne_nil _ _
        have hfalse := hlast _ (List.getLast?_eq_some_getLast hne)
        rw [hempty _ (List.getLast_mem hne)] at hfalse
        cases hfalse

theorem process_reads {lexer : Lexer} {tokens : List Token}
    (h : lexer.process.1 = .ok tokens) :
    ∃ gap, (∀ c ∈ gap, Text.isBlank c) ∧ lexer.rest = (tokens.map Token.raw).flatten ++ gap := by
  induction tokens generalizing lexer with
  | nil =>
    have hu := process_nil_iff.mp h
    rw [← dropWhile_rest, List.dropWhile_eq_nil_iff] at hu
    exact ⟨lexer.rest, hu, rfl⟩
  | cons token tokens ih =>
    obtain ⟨after, hn, hp⟩ := process_cons_iff.mp h
    obtain ⟨gap, hgap, hr⟩ := ih hp
    refine ⟨gap, hgap, ?_⟩
    rw [(value_token (next_token hn).2).2.1, hr]
    simp

end Lexer

theorem parse_raw {source : Text} {tokens : List Token} (h : parse source = .ok tokens) :
    (tokens.map Token.raw).flatten = source.trim Text.isBlank := by
  obtain ⟨gap, hgap, hr⟩ := Lexer.process_reads h
  have htrim := Text.trimmed_trim Text.isBlank source
  rw [show source.trim Text.isBlank = (tokens.map Token.raw).flatten ++ gap from hr] at htrim ⊢
  rw [htrim.eq_nil_of_append hgap, List.append_nil]

/-- The raw texts of the tokens that steps take lie end to end from where the lexer begins. Blanks
alone can be read behind them, and none are when the last step takes a token. Reading to the end
leaves nothing but blanks, and parsing leaves nothing of the trimmed source. -/
theorem raw_texts_tile :
    (∀ (lexer : Lexer) (calls : List Lexer.Call), lexer.index ≤ lexer.source.length →
      (∀ call ∈ calls, call = .next ∨ call = .value) →
      let answers := lexer.run calls
      let last := lexer.lastIndex answers
      lexer.index ≤ last ∧ last ≤ lexer.source.length ∧
      ∃ gap, (lexer.source.drop lexer.index).take (last - lexer.index) =
          Lexer.rawAll answers ++ gap ∧
        (∀ c ∈ gap, Text.isBlank c) ∧
        ∀ token index, answers.getLast? = some (.token token, index) → gap = []) ∧
    (∀ (lexer : Lexer) (tokens : List Token), lexer.process.1 = .ok tokens →
      ∃ gap, (∀ c ∈ gap, Text.isBlank c) ∧
        (tokens.map Token.raw).flatten ++ gap = lexer.source.drop lexer.index) ∧
    ∀ (source : Text) (tokens : List Token), parse source = .ok tokens →
      (tokens.map Token.raw).flatten = source.trim Text.isBlank := by
  refine ⟨?_, ?_, fun source tokens => parse_raw⟩
  · intro lexer calls hle hc answers last
    obtain ⟨gap, hr, hgap⟩ := Lexer.run_reads hc hle
    have hlast : last = (lexer.afterAll calls).index := lexer.run_lastIndex calls
    have hinside := hr.inside hle
    have hafter := hr.after_eq
    refine ⟨?_, ?_, gap, ?_, hr.blank, fun token index ht => hgap ?_⟩
    · rw [hlast, hafter]
      exact Nat.le_add_right _ _
    · rw [hlast]
      rw [hafter] at hinside ⊢
      exact hinside
    · rw [hlast]
      exact hr.slice
    · intro answer hm
      rw [ht] at hm
      cases hm
      rfl
  · intro lexer tokens h
    obtain ⟨gap, hgap, hr⟩ := Lexer.process_reads h
    exact ⟨gap, hgap, hr.symm⟩

end StyleValue
