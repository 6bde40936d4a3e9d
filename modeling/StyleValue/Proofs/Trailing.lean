import StyleValue.Proofs.Spacing
import StyleValue.Proofs.Tiling
import Mathlib.Data.List.ModifyLast

/-! # Blanks behind a source

Blanks put behind a source that does not end with one complete no lexeme, and close no group, call
or string. So they change neither the steps nor the failures. Only the last token may take some of
them, and a snippet may run on into them. -/

namespace StyleValue

section

variable {s rest tail : Text} {b : Body}

theorem begins_before {p : Char → Bool} (hp : ∀ c, p c → isUnitChar c)
    (ht : ∀ c ∈ tail, Text.isBlank c) : (rest ++ tail).begins p = rest.begins p := by
  by_cases hn : rest = []
  · rw [hn, List.nil_append, Text.begins_imp hp (separated_of_blank ht)]
    rfl
  · exact Text.begins_append hn tail

theorem mem_before {c : Char} (hc : Text.isBlank c = false)
    (ht : ∀ d ∈ tail, Text.isBlank d) : c ∈ rest ++ tail ↔ c ∈ rest := by
  rw [List.mem_append, or_iff_left_iff_imp]
  intro hmem
  rw [ht c hmem] at hc
  cases hc

theorem head_before {c : Char} (hc : Text.isBlank c = false) (ht : ∀ d ∈ tail, Text.isBlank d) :
    (rest ++ tail).head? = some c ↔ rest.head? = some c := by
  cases rest with
  | cons d rest => rfl
  | nil =>
    cases tail with
    | nil => rfl
    | cons d tail =>
      refine iff_of_false (fun h => ?_) (fun h => nomatch h)
      cases h
      rw [ht c List.mem_cons_self] at hc
      cases hc

theorem follows_before (ht : ∀ c ∈ tail, Text.isBlank c) :
    Follows b (rest ++ tail) ↔ Follows b rest := by
  cases b with
  | number =>
    rw [Follows, Follows, begins_before (fun _ h => h) ht]
  | ident name =>
    rw [Follows, Follows, begins_before (fun _ => isUnitChar_of_isIdentChar) ht,
      BeginsArguments, BeginsArguments, head_before (by decide) ht,
      mem_before (by decide) ht]
  | operator | comma | string | function => exact Iff.rfl

theorem Stands.before (h : Stands b s rest) (ht : ∀ c ∈ tail, Text.isBlank c) :
    Stands b (s ++ tail) (rest ++ tail) :=
  ⟨h.lexeme, by rw [h.text_eq, List.append_assoc], (follows_before ht).mpr h.follows⟩

theorem Unreadable.before {c : Char} (h : Unreadable c s) (ht : ∀ d ∈ tail, Text.isBlank d) :
    Unreadable c (s ++ tail) := by
  obtain ⟨hslash, hcomma, hident, hreason⟩ := h
  refine ⟨hslash, hcomma, hident, ?_⟩
  rcases hreason with ⟨hq, hmem⟩ | ⟨hsign, hdigit⟩ | hother
  · have hblank : Text.isBlank c = false := by rcases hq with rfl | rfl <;> decide
    exact Or.inl ⟨hq, mt (mem_before hblank ht).mp hmem⟩
  · rw [← begins_before (fun _ => isUnitChar_of_isDigit) ht] at hdigit
    exact Or.inr (Or.inl ⟨hsign, hdigit⟩)
  · exact Or.inr (Or.inr hother)

theorem Group.Balanced.ends_blank {group : Text} (h : Group.Balanced group) :
    Text.begins Text.isBlank group.reverse = false := by
  obtain ⟨inner, -, rfl⟩ := h
  exact Text.ends_of_run (List.cons_ne_nil ')' []) (Text.forall_mem_of_all rfl) ('(' :: inner)

/-- A group ends with its closing paren, so none is closed among the blanks. -/
theorem Group.Balanced.prefix_before {group : Text} (h : Group.Balanced group)
    (ht : ∀ c ∈ tail, Text.isBlank c) (hp : group <+: rest ++ tail) : group <+: rest := by
  obtain ⟨t, he⟩ := hp
  rcases List.append_eq_append_iff.mp he with ⟨more, hrest, -⟩ | ⟨more, hgroup, htail⟩
  · exact ⟨more, hrest.symm⟩
  · have hends := h.ends_blank
    rw [hgroup] at hends
    have hmore := Text.eq_nil_of_ends hends fun c hc => ht c (htail ▸ List.mem_append_left t hc)
    simp [hgroup, hmore]

theorem faultOf_before (ht : ∀ c ∈ tail, Text.isBlank c) :
    Group.faultOf (rest ++ tail) = Group.faultOf rest := by
  simp only [Group.faultOf, head_before (c := '(') (by decide) ht]

theorem Ungrouped.before {keyword : Text} (h : Ungrouped s keyword rest)
    (ht : ∀ c ∈ tail, Text.isBlank c) : Ungrouped (s ++ tail) keyword (rest ++ tail) :=
  ⟨h.mem, by rw [h.text_eq, List.append_assoc],
    fun group hg hp => h.no_group group hg (hg.prefix_before ht hp)⟩

end

namespace Rule

variable {s tail : Text}

theorem first_pass_before (hne : s ≠ []) (h : first trialOrder s = .ok none)
    (ht : ∀ c ∈ tail, Text.isBlank c) : first trialOrder (s ++ tail) = .ok none := by
  obtain ⟨c, t, rfl⟩ := List.exists_cons_of_ne_nil hne
  exact first_pass_iff.mpr ((first_pass_iff.mp h).before ht)

theorem first_error_before {e : Malformed} (h : first trialOrder s = .error e)
    (ht : ∀ c ∈ tail, Text.isBlank c) : first trialOrder (s ++ tail) = .error e := by
  obtain ⟨keyword, rest, hu, rfl⟩ := first_eq_error_iff.mp h
  rw [← faultOf_before ht]
  exact first_eq_error_iff.mpr ⟨keyword, rest ++ tail, hu.before ht, rfl⟩

end Rule

theorem Body.exists_spaces_before (b : Body) {rest after : Text} (tail : Text)
    (hr : rest = b.spaces rest ++ after) :
    ∃ more, (∀ c ∈ more, c = ' ') ∧ (after ≠ [] → more = []) ∧
      b.spaces (rest ++ tail) = b.spaces rest ++ more := by
  unfold spaces at hr ⊢
  by_cases hts : b.takesSpaces = true
  · simp only [if_pos hts, List.takeWhile_append] at hr ⊢
    split
    · next hlength =>
      have hall := (List.takeWhile_prefix (· = ' ')).eq_of_length hlength
      rw [hall, List.self_eq_append_right] at hr
      refine ⟨tail.takeWhile (· = ' '), fun c hc => ?_, fun hn => (hn hr).elim, by rw [hall]⟩
      simpa using Text.mem_takeWhile c hc
    · exact ⟨[], by simp, fun _ => rfl, by rw [List.append_nil]⟩
  · exact ⟨[], by simp, fun _ => rfl, by simp only [if_neg hts, List.append_nil]⟩

/-- The failure with its snippet cut where the source is `limit` characters long. -/
def Failure.cut (limit : Nat) : Failure → Failure
  | .unrecognized snippet position => .unrecognized (snippet.take (limit - position)) position
  | .malformed fault position => .malformed fault position

namespace Lexer

def before (tail : Text) (lexer : Lexer) : Lexer := ⟨lexer.source ++ tail, lexer.index⟩

variable {lexer after : Lexer} {tail : Text}

theorem rest_before (hle : lexer.index ≤ lexer.source.length) :
    (lexer.before tail).rest = lexer.rest ++ tail :=
  List.drop_append_of_le_length hle

structure Continues (lexer other : Lexer) (tail : Text) : Prop where
  lead_eq : other.rest.takeWhile Text.isBlank = lexer.rest.takeWhile Text.isBlank
  start_eq : other.start = lexer.start
  unread_eq : other.unread = lexer.unread ++ tail

theorem continues_before (tail : Text) (hle : lexer.index ≤ lexer.source.length)
    (hne : lexer.unread ≠ []) : lexer.Continues (lexer.before tail) tail := by
  have hblank : (lexer.unread ++ tail).begins Text.isBlank = false := by
    rw [Text.begins_append hne]
    exact lexer.begins_unread
  have hrest : (lexer.before tail).rest =
      lexer.rest.takeWhile Text.isBlank ++ (lexer.unread ++ tail) := by
    rw [rest_before hle, ← List.append_assoc, ← rest_split]
  obtain ⟨hstart, hunread⟩ := start_of_rest Text.mem_takeWhile hblank hrest
  exact ⟨by rw [hrest, Text.takeWhile_run Text.mem_takeWhile hblank], hstart, hunread⟩

/-- A step takes the same token. It takes spaces of the blanks only at the end of the source. -/
theorem next_before_token {token : Token} (hle : lexer.index ≤ lexer.source.length)
    (ht : ∀ c ∈ tail, Text.isBlank c) (h : lexer.next = (.ok (some token), after)) :
    ∃ spaces, (∀ c ∈ spaces, c = ' ') ∧ (after.rest ≠ [] → spaces = []) ∧
      (lexer.before tail).next = (.ok (some (token.padded [] spaces)),
        ⟨lexer.source ++ tail, after.index + spaces.length⟩) := by
  obtain ⟨rest, hs, hraw, hrest, hafter⟩ := exists_takes h
  obtain ⟨hlead, hstart, hunread⟩ :=
    continues_before tail hle (unread_ne_nil_of_token h)
  obtain ⟨more, hspace, hmore, hspaces⟩ := token.body.exists_spaces_before tail hrest
  have hstands := hs.before ht
  rw [← hunread] at hstands
  refine ⟨more, hspace, hmore, next_token_iff.mpr ⟨_, first_of_stands hstands, ?_, ?_⟩⟩
  · simp only [Body.found_token, hspaces, hlead, Token.padded, hraw, Token.text,
      List.append_assoc, List.nil_append]
  · have hindex : after.index = lexer.index + token.raw.length := congrArg Lexer.index hafter
    rw [hindex, hraw, hstart, Body.found_token, hspaces, start]
    simp only [before, Token.text, List.length_append, Nat.add_assoc]

theorem rest_eq_nil (hends : Text.begins Text.isBlank lexer.source.reverse = false)
    (hu : lexer.unread = []) : lexer.rest = [] := by
  rw [← dropWhile_rest, List.dropWhile_eq_nil_iff] at hu
  rw [← List.take_append_drop lexer.index lexer.source] at hends
  exact Text.eq_nil_of_ends hends hu

theorem process_of_blank (h : ∀ c ∈ lexer.rest, Text.isBlank c) : lexer.process.1 = .ok [] := by
  rw [process_nil_iff, ← dropWhile_rest, List.dropWhile_eq_nil_iff]
  exact h

theorem process_before {tokens : List Token} (hle : lexer.index ≤ lexer.source.length)
    (hends : Text.begins Text.isBlank lexer.source.reverse = false)
    (ht : ∀ c ∈ tail, Text.isBlank c) (h : lexer.process.1 = .ok tokens) :
    ∃ spaces, (∀ c ∈ spaces, c = ' ') ∧
      (lexer.before tail).process.1 = .ok (tokens.modifyLast (Token.padded [] spaces)) := by
  induction tokens generalizing lexer with
  | nil =>
    have hrest := rest_eq_nil hends (process_nil_iff.mp h)
    refine ⟨[], by simp, process_of_blank ?_⟩
    rw [rest_before hle, hrest, List.nil_append]
    exact ht
  | cons token tokens ih =>
    obtain ⟨after, hn, hp⟩ := process_cons_iff.mp h
    obtain ⟨spaces, hspace, hmore, hnext⟩ := next_before_token hle ht hn
    have hin := (reads_of_value (next_token hn).2).inside hle
    rw [← next_source hn] at hnext hends
    by_cases hr : after.rest = []
    · -- The last token has taken some of the blanks, and the others are left behind it.
      have hnil : after.process.1 = .ok [] := process_of_blank (by simp [hr])
      cases Except.ok.inj (hp.symm.trans hnil)
      refine ⟨spaces, hspace, process_cons_iff.mpr ⟨_, hnext, process_of_blank ?_⟩⟩
      have hleft : (⟨after.source ++ tail, after.index + spaces.length⟩ : Lexer).rest =
          ((after.before tail).rest).drop spaces.length := List.drop_drop.symm
      rw [hleft, rest_before hin, hr, List.nil_append]
      exact fun c hc => ht c (List.mem_of_mem_drop hc)
    · obtain ⟨others, hothers, hbefore⟩ := ih hin hends hp
      have hne : tokens ≠ [] := by
        rintro rfl
        exact hr (rest_eq_nil hends (process_nil_iff.mp hp))
      rw [hmore hr, token.padded_nil] at hnext
      refine ⟨others, hothers, ?_⟩
      rw [show token :: tokens = [token] ++ tokens from rfl,
        List.modifyLast_append_of_right_ne_nil _ _ _ hne]
      exact process_cons_iff.mpr ⟨_, hnext, hbefore⟩

/-- A step fails in the same way. Its snippet may run on into the blanks. -/
theorem next_before_error {e : Failure} (hle : lexer.index ≤ lexer.source.length)
    (ht : ∀ c ∈ tail, Text.isBlank c) (h : lexer.next = (.error e, after)) :
    ∃ e', (lexer.before tail).next = (.error e', after.before tail) ∧
      e'.cut lexer.source.length = e := by
  obtain ⟨hne, rfl, hf⟩ := next_error_iff.mp h
  obtain ⟨-, hstart, hunread⟩ := continues_before tail hle hne
  have hne' : (lexer.before tail).unread ≠ [] := by
    rw [hunread]
    exact List.append_ne_nil_of_left_ne_nil hne tail
  have hafter : (⟨lexer.source, lexer.start⟩ : Lexer).before tail =
      ⟨(lexer.before tail).source, (lexer.before tail).start⟩ := by
    rw [hstart]
    rfl
  rw [hafter]
  rcases hf with ⟨m, hf, rfl⟩ | ⟨hf, rfl⟩
  · have hfirst := Rule.first_error_before hf ht
    rw [← hunread] at hfirst
    refine ⟨_, next_error_iff.mpr ⟨hne', rfl, Or.inl ⟨m, hfirst, rfl⟩⟩, ?_⟩
    rw [hstart]
    rfl
  · have hfirst := Rule.first_pass_before hne hf ht
    rw [← hunread] at hfirst
    refine ⟨_, next_error_iff.mpr ⟨hne', rfl, Or.inr ⟨hfirst, rfl⟩⟩, ?_⟩
    have hlength : lexer.source.length - lexer.start = lexer.unread.length := by
      rw [unread, List.length_drop]
    have hrest : (lexer.before tail).source.drop lexer.start = lexer.unread ++ tail := by
      rw [← hunread, unread, hstart]
    rw [hstart, Failure.unrecognizedAt_eq, Failure.unrecognizedAt_eq, hrest, Failure.cut, hlength,
      List.take_take, Nat.min_comm, ← List.take_take, List.take_left]
    rfl

theorem process_before_error (lexer : Lexer) {e : Failure}
    (hle : lexer.index ≤ lexer.source.length)
    (hends : Text.begins Text.isBlank lexer.source.reverse = false)
    (ht : ∀ c ∈ tail, Text.isBlank c) (h : lexer.process.1 = .error e) :
    ∃ e', (lexer.before tail).process.1 = .error e' ∧ e'.cut lexer.source.length = e := by
  match hn : lexer.next with
  | (.ok none, after) =>
    rw [process_of_stop hn] at h
    cases h
  | (.ok (some token), after) =>
    obtain ⟨spaces, -, hmore, hnext⟩ := next_before_token hle ht hn
    have hin := (reads_of_value (next_token hn).2).inside hle
    have hp : after.process.1 = .error e := by
      rw [process_of_token hn] at h
      cases hp : after.process.1 with
      | ok tokens =>
        rw [hp] at h
        cases h
      | error e' =>
        rw [hp] at h
        exact h
    have hr : after.rest ≠ [] := by
      intro hr
      have hnil : after.process.1 = .ok [] := process_of_blank (by simp [hr])
      rw [hp] at hnil
      cases hnil
    rw [← next_source hn] at hends hnext ⊢
    obtain ⟨e', he', hcut⟩ := process_before_error after hin hends ht hp
    refine ⟨e', ?_, hcut⟩
    rw [hmore hr, token.padded_nil] at hnext
    rw [process_of_token hnext]
    change ((after.before tail).process.1).map _ = _
    rw [he']
    rfl
  | (.error e', after) =>
    rw [process_of_error hn] at h
    cases h
    obtain ⟨e', hnext, hcut⟩ := next_before_error hle ht hn
    exact ⟨e', by rw [process_of_error hnext], hcut⟩
termination_by lexer.source.length - lexer.index
decreasing_by exact next_shortens hn

end Lexer
end StyleValue
