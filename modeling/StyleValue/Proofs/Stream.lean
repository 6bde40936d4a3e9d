import StyleValue.Proofs.Tiling

/-! # The stream of a lexer

Steps made one after another take the tokens of a source in turn, until one of them stops or fails.
This stream is all there is to a lexer: any call takes from it what it still holds, and once it is
used up all calls say how it ended and stay where it ended. -/

namespace StyleValue

/-- Tokens to come, each with the index it leaves, how they end, and the index left at the end. -/
structure TokenStream where
  tokens : List (Token × Nat)
  ending : Option Failure
  stop : Nat
  deriving DecidableEq, Repr

inductive Pull where
  | next | value | process
  deriving DecidableEq, Repr

def Pull.call : Pull → Lexer.Call
  | .next => .next
  | .value => .value
  | .process => .process

namespace TokenStream

def outcome (stream : TokenStream) : Except Failure (List Token) :=
  match stream.ending with
  | none => .ok (stream.tokens.map Prod.fst)
  | some e => .error e

/-- What is said where no token is left. To have no value is a failure only at a malformed call. -/
def ended (ending : Option Failure) : Pull → Lexer.Answer
  | .next => ending.elim .stopped .failed
  | .value =>
    match ending with
    | some (.malformed fault position) => .failed (.malformed fault position)
    | _ => .nothing
  | .process => ending.elim (.tokens []) .failed

def answer (stream : TokenStream) (pull : Pull) : Lexer.Answer × Nat :=
  match stream.tokens, pull with
  | [], _ => (ended stream.ending pull, stream.stop)
  | _, .process => (.ofTokens stream.outcome, stream.stop)
  | (token, index) :: _, _ => (.token token, index)

def after (stream : TokenStream) : Pull → TokenStream
  | .process => { stream with tokens := [] }
  | _ => { stream with tokens := stream.tokens.tail }

def run : TokenStream → List Pull → List (Lexer.Answer × Nat)
  | _, [] => []
  | stream, pull :: pulls => stream.answer pull :: (stream.after pull).run pulls

theorem answer_process (stream : TokenStream) :
    stream.answer .process = (.ofTokens stream.outcome, stream.stop) := by
  obtain ⟨tokens, ending, stop⟩ := stream
  cases tokens with
  | nil => cases ending <;> rfl
  | cons token tokens => rfl

theorem outcome_eq_error_iff {stream : TokenStream} {e : Failure} :
    stream.outcome = .error e ↔ stream.ending = some e := by
  unfold outcome
  cases stream.ending <;> simp

end TokenStream

namespace Lexer

/-- What steps made one after another give. -/
def stream (lexer : Lexer) : TokenStream :=
  match _h : lexer.next with
  | (.ok none, after) => ⟨[], none, after.index⟩
  | (.ok (some token), after) =>
    { after.stream with tokens := (token, after.index) :: after.stream.tokens }
  | (.error e, after) => ⟨[], some e, after.index⟩
termination_by lexer.source.length - lexer.index
decreasing_by all_goals exact next_shortens _h

variable {lexer after : Lexer}

theorem stream_of_stop (h : lexer.next = (.ok none, after)) :
    lexer.stream = ⟨[], none, after.index⟩ := by
  rw [stream]
  split
  · next hn => rw [h] at hn; cases hn; rfl
  · next hn => rw [h] at hn; cases hn
  · next hn => rw [h] at hn; cases hn

theorem stream_of_token {token : Token} (h : lexer.next = (.ok (some token), after)) :
    lexer.stream = { after.stream with tokens := (token, after.index) :: after.stream.tokens } := by
  rw [stream]
  split
  · next hn => rw [h] at hn; cases hn
  · next hn => rw [h] at hn; cases hn; rfl
  · next hn => rw [h] at hn; cases hn

theorem stream_of_error {e : Failure} (h : lexer.next = (.error e, after)) :
    lexer.stream = ⟨[], some e, after.index⟩ := by
  rw [stream]
  split
  · next hn => rw [h] at hn; cases hn
  · next hn => rw [h] at hn; cases hn
  · next hn => rw [h] at hn; cases hn; rfl

theorem start_start (lexer : Lexer) :
    (⟨lexer.source, lexer.start⟩ : Lexer).start = lexer.start := by
  have hrun := @Text.takeWhile_run Text.isBlank [] lexer.unread (by simp) lexer.begins_unread
  change lexer.start + (lexer.unread.takeWhile Text.isBlank).length = lexer.start
  rw [List.nil_append] at hrun
  rw [hrun, List.length_nil, Nat.add_zero]

theorem unread_start (lexer : Lexer) :
    (⟨lexer.source, lexer.start⟩ : Lexer).unread = lexer.unread := by
  rw [unread, start_start]
  rfl

theorem next_error_again {e : Failure} (h : lexer.next = (.error e, after)) :
    after.next = (.error e, after) := by
  obtain ⟨hne, rfl, hf⟩ := next_error_iff.mp h
  refine next_error_iff.mpr ⟨?_, ?_, ?_⟩
  · rwa [unread_start]
  · rw [start_start]
  · rwa [unread_start, start_start]

/-- Reading to the end gives what the stream holds, and leaves the index at its end. -/
theorem process_eq (lexer : Lexer) :
    lexer.process = (lexer.stream.outcome, ⟨lexer.source, lexer.stream.stop⟩) := by
  match h : lexer.next with
  | (.ok none, after) =>
    rw [process_of_stop h, stream_of_stop h, ← next_source h]
    rfl
  | (.ok (some token), after) =>
    have ih := process_eq after
    rw [process_of_token h, stream_of_token h, ih, next_source h]
    simp only [TokenStream.outcome]
    cases after.stream.ending with
    | none => rfl
    | some e => rfl
  | (.error e, after) =>
    rw [process_of_error h, stream_of_error h, ← next_source h]
    rfl
termination_by lexer.source.length - lexer.index
decreasing_by exact next_shortens h

theorem stream_stop (lexer : Lexer) :
    (⟨lexer.source, lexer.stream.stop⟩ : Lexer).stream =
      ⟨[], lexer.stream.ending, lexer.stream.stop⟩ := by
  match h : lexer.next with
  | (.ok none, after) =>
    rw [stream_of_stop h, (next_stop_iff.mp h).2]
    refine stream_of_stop (next_of_end ?_)
    simp [unread, start, rest]
  | (.ok (some token), after) =>
    have ih := stream_stop after
    rwa [stream_of_token h, ← next_source h]
  | (.error e, after) =>
    rw [stream_of_error h, ← next_source h]
    exact stream_of_error (next_error_again h)
termination_by lexer.source.length - lexer.index
decreasing_by exact next_shortens h

theorem stop_of_end (h : lexer.stream.ending = none) :
    lexer.stream.stop = lexer.source.length := by
  have hs := stream_stop lexer
  match hn : (⟨lexer.source, lexer.stream.stop⟩ : Lexer).next with
  | (.ok none, after) =>
    rw [stream_of_stop hn, (next_stop_iff.mp hn).2] at hs
    exact (congrArg TokenStream.stop hs).symm
  | (.ok (some token), after) =>
    rw [stream_of_token hn] at hs
    cases congrArg TokenStream.tokens hs
  | (.error e, after) =>
    rw [stream_of_error hn, h] at hs
    cases congrArg TokenStream.ending hs

theorem next_of_failure {e : Failure} (h : lexer.stream.ending = some e) :
    (⟨lexer.source, lexer.stream.stop⟩ : Lexer).next =
      (.error e, ⟨lexer.source, lexer.stream.stop⟩) := by
  have hs := stream_stop lexer
  match hn : (⟨lexer.source, lexer.stream.stop⟩ : Lexer).next with
  | (.ok none, after) =>
    rw [stream_of_stop hn, h] at hs
    cases congrArg TokenStream.ending hs
  | (.ok (some token), after) =>
    rw [stream_of_token hn] at hs
    cases congrArg TokenStream.tokens hs
  | (.error e', ⟨source, index⟩) =>
    have hsource := next_source hn
    rw [stream_of_error hn, h] at hs
    cases congrArg TokenStream.ending hs
    cases hsource
    rw [show index = lexer.stream.stop from congrArg TokenStream.stop hs]

end Lexer

/-- What the failure is about begins at `start`: a text that begins no token, or the keyword of a
malformed call. -/
structure Failure.BeginsAt (e : Failure) (source : Text) (start : Nat) : Prop where
  inside : start < source.length
  not_blank : Text.isBlank source[start] = false
  unrecognized : e.diagnostic.cause = .unrecognized → e.diagnostic.position = start
  malformed : e.diagnostic.cause = .malformed → ∃ keyword ∈ keywords.map Prod.fst,
    keyword <+: source.drop start ∧ e.diagnostic.position = start + keyword.length

namespace Lexer

variable {lexer : Lexer}

theorem beginsAt_of_next {after : Lexer} {e : Failure} (h : lexer.next = (.error e, after)) :
    e.BeginsAt lexer.source after.index := by
  obtain ⟨hne, rfl, -⟩ := next_error_iff.mp h
  have hblank := lexer.begins_unread
  have hlt : lexer.start < lexer.source.length := by
    by_contra hle
    exact hne (List.drop_eq_nil_of_le (not_lt.mp hle))
  refine ⟨hlt, ?_, fun hc => ?_, fun hc => ?_⟩
  · rwa [unread, List.drop_eq_getElem_cons hlt] at hblank
  · obtain ⟨-, c, rest, -, -, rfl⟩ := unrecognized_iff.mp ⟨h, hc⟩
    rfl
  · obtain ⟨-, keyword, rest, hu, rfl⟩ := malformed_iff.mp ⟨h, hc⟩
    exact ⟨keyword, hu.mem, ⟨rest, hu.text_eq.symm⟩, rfl⟩

theorem stream_beginsAt {e : Failure} (h : lexer.stream.ending = some e) :
    e.BeginsAt lexer.source lexer.stream.stop :=
  beginsAt_of_next (next_of_failure h)

/-- A call is answered as the stream says, and the lexer goes on as the stream does. -/
structure Serves (lexer : Lexer) (pull : Pull) (after : Lexer) : Prop where
  perform_eq : lexer.perform pull.call = ((lexer.stream.answer pull).1, after)
  index_eq : after.index = (lexer.stream.answer pull).2
  stream_eq : after.stream = lexer.stream.after pull
  inside : after.index ≤ after.source.length

theorem serves_token {after : Lexer} {token : Token} {pull : Pull} (hp : pull ≠ .process)
    (hle : lexer.index ≤ lexer.source.length) (h : lexer.next = (.ok (some token), after)) :
    lexer.Serves pull after := by
  have hv := (next_token h).2
  have hs := stream_of_token h
  have hin := (reads_of_value hv).inside hle
  cases pull with
  | next => exact ⟨by simp [Pull.call, perform, h, hs, Answer.ofToken, TokenStream.answer],
      by rw [hs]; rfl, by rw [hs]; rfl, hin⟩
  | value => exact ⟨by simp [Pull.call, perform, hv, hs, Answer.ofToken, TokenStream.answer],
      by rw [hs]; rfl, by rw [hs]; rfl, hin⟩
  | process => exact (hp rfl).elim

theorem serves_process (lexer : Lexer) :
    lexer.Serves .process ⟨lexer.source, lexer.stream.stop⟩ := by
  have ha := lexer.stream.answer_process
  refine ⟨?_, by rw [ha], stream_stop lexer, ?_⟩
  · rw [ha, Pull.call, perform, process_eq]
    rfl
  · cases he : lexer.stream.ending with
    | none => exact (stop_of_end he).le
    | some e => exact (stream_beginsAt he).inside.le

theorem serves_ended (hle : lexer.index ≤ lexer.source.length) {pull : Pull}
    {ending : Option Failure} (hs : lexer.stream = ⟨[], ending, lexer.start⟩)
    (hp : lexer.perform pull.call =
      (TokenStream.ended ending pull, ⟨lexer.source, lexer.start⟩)) :
    lexer.Serves pull ⟨lexer.source, lexer.start⟩ := by
  have hstop := stream_stop lexer
  rw [hs] at hstop
  refine ⟨by rw [hp, hs]; rfl, by rw [hs]; rfl, ?_, start_le hle⟩
  rw [hstop, hs]
  cases pull <;> rfl

theorem serves_stopped (hle : lexer.index ≤ lexer.source.length) (hu : lexer.unread = [])
    {pull : Pull} (hp : pull ≠ .process) : lexer.Serves pull ⟨lexer.source, lexer.start⟩ := by
  have hn := next_of_end hu
  have hstart := start_of_end hle hu
  have hpass : Rule.first Rule.trialOrder lexer.unread = .ok none := by rw [hu, first_nil]
  refine serves_ended hle (by rw [stream_of_stop hn, hstart]) ?_
  cases pull with
  | next => simp [Pull.call, perform, hn, hstart, Answer.ofToken, TokenStream.ended]
  | value => simp [Pull.call, perform, value_of_pass hpass, Answer.ofToken, TokenStream.ended]
  | process => exact (hp rfl).elim

theorem serves_failed (hle : lexer.index ≤ lexer.source.length) {after : Lexer} {e : Failure}
    (hn : lexer.next = (.error e, after)) {pull : Pull} (hp : pull ≠ .process) :
    lexer.Serves pull ⟨lexer.source, lexer.start⟩ := by
  obtain ⟨-, rfl, hf⟩ := next_error_iff.mp hn
  refine serves_ended hle (stream_of_error hn) ?_
  cases pull with
  | next => simp [Pull.call, perform, hn, Answer.ofToken, TokenStream.ended]
  | value =>
    -- Only a malformed call is a failure for both.
    rcases hf with ⟨m, hf, rfl⟩ | ⟨hf, rfl⟩
    · simp [Pull.call, perform, value_of_error hf, Answer.ofToken, TokenStream.ended,
        Malformed.failureAt]
    · simp [Pull.call, perform, value_of_pass hf, Answer.ofToken, TokenStream.ended,
        Failure.unrecognizedAt_eq]
  | process => exact (hp rfl).elim

theorem exists_serves (hle : lexer.index ≤ lexer.source.length) (pull : Pull) :
    ∃ after, lexer.Serves pull after := by
  by_cases hp : pull = .process
  · exact ⟨_, hp ▸ serves_process lexer⟩
  match h : lexer.next with
  | (.ok (some token), after) => exact ⟨after, serves_token hp hle h⟩
  | (.ok none, after) => exact ⟨_, serves_stopped hle (next_stop_iff.mp h).1 hp⟩
  | (.error e, after) => exact ⟨_, serves_failed hle h hp⟩

theorem run_eq (hle : lexer.index ≤ lexer.source.length) (pulls : List Pull) :
    lexer.run (pulls.map Pull.call) = lexer.stream.run pulls := by
  induction pulls generalizing lexer with
  | nil => rfl
  | cons pull pulls ih =>
    obtain ⟨after, hp, hi, hs, hin⟩ := exists_serves hle pull
    rw [List.map_cons, run, TokenStream.run, hp, ← hs, ← ih hin]
    simp only [hi]

/-- However a lexer is driven, its calls are answered from one stream. A token is taken once, by
whichever call comes first. Behind the last token all calls say how the stream ended and leave one
index: the end of the source, or the beginning of the text that the failure is about. -/
theorem run_stream {lexer : Lexer} (hle : lexer.index ≤ lexer.source.length) (pulls : List Pull) :
    lexer.run (pulls.map Pull.call) = lexer.stream.run pulls ∧
      (lexer.stream.ending = none → lexer.stream.stop = lexer.source.length) ∧
      ∀ e, lexer.stream.ending = some e → e.BeginsAt lexer.source lexer.stream.stop :=
  ⟨run_eq hle pulls, stop_of_end, fun _ => stream_beginsAt⟩

theorem run_stream_name_at :
    (⟨"a \t@".toList, 0⟩ : Lexer).run [.value, .value, .next, .process] =
      [(.token ⟨"a ".toList, .ident ['a']⟩, 2), (.nothing, 3),
        (.failed (.unrecognized ['@'] 3), 3), (.failed (.unrecognized ['@'] 3), 3)] := by
  have hname : Lexer.next ⟨"a \t@".toList, 0⟩ =
      (.ok (some ⟨"a ".toList, .ident ['a']⟩), ⟨"a \t@".toList, 2⟩) := rfl
  have hfail : Lexer.next ⟨"a \t@".toList, 2⟩ =
      (.error (.unrecognized ['@'] 3), ⟨"a \t@".toList, 3⟩) := rfl
  have hrun := (@run_stream ⟨"a \t@".toList, 0⟩ (by decide) [.value, .value, .next, .process]).1
  rw [stream_of_token hname, stream_of_error hfail] at hrun
  exact hrun

end Lexer
end StyleValue
