import StyleValue.Proofs.Spacing

/-! # One character of lookahead

A step that takes a token depends on the source up to the end of the token and on the one character
after it. Only the name of a call is not settled by that character: with a paren after it, it is a
name or a call as the paren is closed anywhere later or not. -/

namespace StyleValue

/-- The second source is the first one up to `stop`, or has the same character there too. -/
def SeesAlike (stop : Nat) (source other : Text) : Prop :=
  other = source.take stop ∨
    (stop < source.length ∧ other.take (stop + 1) = source.take (stop + 1))

/-- The name of a call, with nothing between it and an opening paren. -/
structure OpensCall (token : Token) (source : Text) (stop : Nat) : Prop where
  name : ∃ name ∈ callNames.map Prod.fst, token.body = .ident name
  ends : token.text <:+ token.raw
  paren : source[stop]? = some '('

namespace SeesAlike

variable {stop : Nat} {source other : Text}

theorem take_eq (h : SeesAlike stop source other) : other.take stop = source.take stop := by
  rcases h with rfl | ⟨-, h⟩
  · rw [List.take_take, Nat.min_self]
  · have ht := congrArg (List.take stop) h
    rwa [List.take_take, List.take_take, Nat.min_eq_left (Nat.le_succ stop)] at ht

theorem head_eq (h : SeesAlike stop source other) :
    other.drop stop = [] ∨ (other.drop stop).head? = (source.drop stop).head? := by
  rcases h with rfl | ⟨-, h⟩
  · exact Or.inl (List.drop_eq_nil_of_le (List.length_take_le stop source))
  · refine Or.inr ?_
    have hget := congrArg (fun s => s[stop]?) h
    simp only [List.getElem?_take_of_lt (Nat.lt_succ_self stop)] at hget
    rw [List.head?_drop, List.head?_drop, hget]

theorem drop_eq {index : Nat} {raw rest : Text} (h : SeesAlike (index + raw.length) source other)
    (hn : raw ≠ []) (hr : source.drop index = raw ++ rest) :
    other.drop index = raw ++ other.drop (index + raw.length) := by
  have hlength := congrArg List.length hr
  have hpos := List.length_pos_iff.mpr hn
  rw [List.length_drop, List.length_append] at hlength
  have hle : index ≤ (source.take (index + raw.length)).length := by
    rw [List.length_take]
    omega
  have hraw : (source.take (index + raw.length)).drop index = raw := by
    rw [List.drop_take, Nat.add_sub_cancel_left, hr, List.take_left]
  calc other.drop index
      = (other.take (index + raw.length) ++ other.drop (index + raw.length)).drop index := by
        rw [List.take_append_drop]
    _ = (source.take (index + raw.length)).drop index ++ other.drop (index + raw.length) := by
        rw [h.take_eq, List.drop_append_of_le_length hle]
    _ = raw ++ other.drop (index + raw.length) := by rw [hraw]

theorem begins_drop (h : SeesAlike stop source other) {p : Char → Bool}
    (hp : Text.begins p (source.drop stop) = false) : Text.begins p (other.drop stop) = false := by
  rcases h.head_eq with hn | hh
  · rw [hn, Text.begins_nil]
  · rwa [Text.begins, hh]

end SeesAlike

section

variable {source other spaces : Text} {stop : Nat}

theorem begins_alike (h : SeesAlike stop source other) {p : Char → Bool}
    (hp : Text.begins p (spaces ++ source.drop stop) = false) :
    Text.begins p (spaces ++ other.drop stop) = false := by
  cases spaces with
  | nil => exact h.begins_drop hp
  | cons c spaces => exact hp

/-- A lexeme that does not go on into the one source goes on into the other only as a call. -/
theorem follows_alike {b : Body} (h : SeesAlike stop source other) (hspaces : ∀ c ∈ spaces, c = ' ')
    (hcall : ∀ name ∈ callNames.map Prod.fst, b = .ident name → spaces = [] →
      ¬ BeginsArguments (other.drop stop))
    (hf : Follows b (spaces ++ source.drop stop)) : Follows b (spaces ++ other.drop stop) := by
  cases b with
  | number => exact begins_alike h hf
  | ident name =>
    refine ⟨begins_alike h hf.1, fun hname hargs => ?_⟩
    cases spaces with
    | nil => exact hcall name hname rfl rfl hargs
    | cons c spaces =>
      have hparen : c = '(' := Option.some.inj hargs.1
      rw [hspaces c List.mem_cons_self] at hparen
      exact absurd hparen (by decide)
  | operator | comma | string | function => trivial

end

namespace Lexer

variable {source other rest : Text} {index stop : Nat} {token : Token}

theorem Takes.rest_alike (h : Takes ⟨source, index⟩ token rest ⟨source, stop⟩)
    (hs : SeesAlike stop source other) :
    (⟨other, index⟩ : Lexer).rest = (⟨source, index⟩ : Lexer).rest.takeWhile Text.isBlank ++
      (token.text ++ (token.body.spaces rest ++ other.drop stop)) := by
  have hstop : stop = index + token.raw.length := congrArg Lexer.index h.after_eq
  have hne : token.raw ≠ [] := by
    have htext : token.text ≠ [] := h.stands.lexeme.text_ne_nil
    simp [h.raw_eq, htext]
  rw [hstop] at hs
  have hdrop := hs.drop_eq hne h.rest_split
  rw [← hstop, h.raw_eq] at hdrop
  rw [Lexer.rest, hdrop]
  simp only [List.append_assoc]

theorem Takes.spaces_eq_nil (h : Takes ⟨source, index⟩ token rest ⟨source, stop⟩)
    (he : token.text <:+ token.raw) : token.body.spaces rest = [] := by
  have hlex := h.stands.lexeme
  have hne : token.text ≠ [] := hlex.text_ne_nil
  obtain ⟨front, hf⟩ := he
  have hends := hlex.ends_blank
  rw [← Token.text, ← Text.ends_append hne front, hf, h.raw_eq] at hends
  exact Text.eq_nil_of_ends hends (token.body.spaces_blank rest)

theorem value_alike (h : Lexer.value ⟨source, index⟩ = (.ok (some token), ⟨source, stop⟩))
    (hs : SeesAlike stop source other)
    (hcall : OpensCall token source stop → ')' ∉ other.drop stop) :
    Lexer.value ⟨other, index⟩ = (.ok (some token), ⟨other, stop⟩) := by
  obtain ⟨rest, ht⟩ := exists_takes (next_of_value h)
  have hfollows : Follows token.body (token.body.spaces rest ++ source.drop stop) := by
    have hrest : rest = token.body.spaces rest ++ source.drop stop := ht.rest_eq
    rw [← hrest]
    exact ht.stands.follows
  have hspaces : token.body.spaces (token.body.spaces rest ++ other.drop stop) =
      token.body.spaces rest :=
    Body.spaces_append fun hts => hs.begins_drop (Body.begins_after_spaces hts ht.rest_eq)
  have halike := follows_alike hs (fun c => Body.eq_space_of_mem) ?_ hfollows
  · have hnext := next_of_lexeme Text.mem_takeWhile ht.stands.lexeme halike (ht.rest_alike hs)
    rw [hspaces, ← Token.text, ← ht.raw_eq] at hnext
    have hstop : stop = index + token.raw.length := congrArg Lexer.index ht.after_eq
    rw [(next_token hnext).2, hstop]
  · rintro name hname hbody hnil ⟨hopen, hclose⟩
    refine hcall ⟨⟨name, hname, hbody⟩, ?_, ?_⟩ hclose
    · rw [ht.raw_eq, hnil, List.append_nil]
      exact List.suffix_append _ _
    · rcases hs.head_eq with hn | hh
      · rw [hn] at hopen
        cases hopen
      · rwa [hh, List.head?_drop] at hopen

theorem value_opens (h : Lexer.value ⟨source, index⟩ = (.ok (some token), ⟨source, stop⟩))
    (hs : SeesAlike stop source other) (ho : OpensCall token source stop)
    (hclose : ')' ∈ other.drop stop) :
    ∃ k ∈ callNames, token.body = .ident k.1 ∧ ∃ arguments called after,
      Lexer.value ⟨other, index⟩ = (.ok (some called), after) ∧ ')' ∉ arguments ∧
      called.body = .function k.2 (k.1 ++ '(' :: arguments ++ [')']) := by
  obtain ⟨rest, ht⟩ := exists_takes (next_of_value h)
  obtain ⟨⟨name, hname, hbody⟩, hends, hparen⟩ := ho
  obtain ⟨k, hk, rfl⟩ := List.mem_map.mp hname
  have hopen : (other.drop stop).head? = some '(' := by
    rcases hs.head_eq with hn | hh
    · rw [hn] at hclose
      cases hclose
    · rw [hh, List.head?_drop, hparen]
  obtain ⟨t, hdrop⟩ := List.head?_eq_some_iff.mp hopen
  rw [hdrop] at hclose
  obtain ⟨arguments, tail, rfl, ha⟩ := List.eq_append_cons_of_mem
    ((List.mem_cons.mp hclose).resolve_left (by decide))
  have hrest := ht.rest_alike hs
  rw [ht.spaces_eq_nil hends, hdrop, Token.text, hbody] at hrest
  have hcall : Lexeme (.function k.2 (k.1 ++ '(' :: arguments ++ [')'])) := .call hk ha
  have hsplit : (Body.ident k.1).text ++ ([] ++ '(' :: (arguments ++ ')' :: tail)) =
      (Body.function k.2 (k.1 ++ '(' :: arguments ++ [')'])).text ++ tail := by simp [Body.text]
  rw [hsplit] at hrest
  have hnext := next_of_lexeme Text.mem_takeWhile hcall trivial hrest
  exact ⟨k, hk, hbody, arguments, _, _, (next_token hnext).2, ha, rfl⟩

/-- A token is taken of every source that is alike up to its end and one character beyond, with the
same index left. The only exception is the name of a call with a paren right behind it. Then the
name is taken too, unless the paren is closed anywhere later: then a call of that name is taken. -/
theorem value_lookahead
    (h : Lexer.value ⟨source, index⟩ = (.ok (some token), ⟨source, stop⟩))
    (hs : SeesAlike stop source other) :
    (¬ OpensCall token source stop →
      Lexer.value ⟨other, index⟩ = (.ok (some token), ⟨other, stop⟩)) ∧
    (OpensCall token source stop →
      (')' ∉ other.drop stop →
        Lexer.value ⟨other, index⟩ = (.ok (some token), ⟨other, stop⟩)) ∧
      (')' ∈ other.drop stop → ∃ k ∈ callNames, token.body = .ident k.1 ∧
        ∃ arguments called after,
          Lexer.value ⟨other, index⟩ = (.ok (some called), after) ∧ ')' ∉ arguments ∧
          called.body = .function k.2 (k.1 ++ '(' :: arguments ++ [')']))) :=
  ⟨fun ho => value_alike h hs fun ho' => (ho ho').elim,
    fun ho => ⟨fun hc => value_alike h hs fun _ => hc, value_opens h hs ho⟩⟩

theorem value_lookahead_open_call :
    Lexer.value ⟨"rgb(1".toList, 0⟩ =
      (.ok (some ⟨"rgb".toList, .ident "rgb".toList⟩), ⟨"rgb(1".toList, 3⟩) ∧
    SeesAlike 3 "rgb(1".toList "rgb(2) x".toList ∧
    (∃ k ∈ callNames, Body.ident "rgb".toList = .ident k.1 ∧ ∃ arguments called after,
      Lexer.value ⟨"rgb(2) x".toList, 0⟩ = (.ok (some called), after) ∧ ')' ∉ arguments ∧
      called.body = .function k.2 (k.1 ++ '(' :: arguments ++ [')'])) ∧
    Lexer.value ⟨"rgb(2 x".toList, 0⟩ =
      (.ok (some ⟨"rgb".toList, .ident "rgb".toList⟩), ⟨"rgb(2 x".toList, 3⟩) := by
  have hvalue : Lexer.value ⟨"rgb(1".toList, 0⟩ =
      (.ok (some ⟨"rgb".toList, .ident "rgb".toList⟩), ⟨"rgb(1".toList, 3⟩) := rfl
  have hopens : OpensCall ⟨"rgb".toList, .ident "rgb".toList⟩ "rgb(1".toList 3 :=
    ⟨⟨"rgb".toList, by decide, rfl⟩, List.suffix_rfl, rfl⟩
  have hclosed : SeesAlike 3 "rgb(1".toList "rgb(2) x".toList := Or.inr ⟨by decide, rfl⟩
  have hopen : SeesAlike 3 "rgb(1".toList "rgb(2 x".toList := Or.inr ⟨by decide, rfl⟩
  exact ⟨hvalue, hclosed, ((value_lookahead hvalue hclosed).2 hopens).2 (by decide),
    ((value_lookahead hvalue hopen).2 hopens).1 (by decide)⟩

end Lexer

end StyleValue
