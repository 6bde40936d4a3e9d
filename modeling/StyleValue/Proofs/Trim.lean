import StyleValue.Proofs.Characters

/-! # Trimmed texts

A text is trimmed of the characters of a class if it neither begins nor ends with one. What trimming
leaves is the only trimmed text that makes up the whole with such characters around it. -/

namespace StyleValue.Text

variable {p : Char → Bool}

structure Trimmed (p : Char → Bool) (s : Text) : Prop where
  begins : begins p s = false
  ends : Text.begins p s.reverse = false

theorem begins_of_append {s t : Text} (h : begins p (s ++ t) = false) : begins p s = false := by
  cases s with
  | nil => rfl
  | cons c s => exact h

theorem ends_append {s : Text} (hs : s ≠ []) (front : Text) :
    begins p (front ++ s).reverse = begins p s.reverse := by
  rw [List.reverse_append, begins_append (by simpa using hs)]

theorem ends_of_run {run : Text} (hne : run ≠ []) (h : ∀ c ∈ run, p c = false) (front : Text) :
    begins p (front ++ run).reverse = false := by
  rw [ends_append hne]
  exact begins_of_none fun c hc => h c (List.mem_reverse.mp hc)

theorem eq_nil_of_ends {s tail : Text} (h : begins p (s ++ tail).reverse = false)
    (ht : ∀ c ∈ tail, p c) : tail = [] := by
  cases hr : tail.reverse with
  | nil => exact List.reverse_eq_nil_iff.mp hr
  | cons c t =>
    have hc : p c = false := by
      rw [List.reverse_append, hr] at h
      exact h
    rw [ht c (List.mem_reverse.mp (hr ▸ List.mem_cons_self))] at hc
    cases hc

theorem Trimmed.eq_nil_of_append {s tail : Text} (h : Trimmed p (s ++ tail))
    (ht : ∀ c ∈ tail, p c) : tail = [] :=
  eq_nil_of_ends h.ends ht

theorem trimRight_append (p : Char → Bool) (s : Text) :
    s.trimRight p ++ (s.reverse.takeWhile p).reverse = s := by
  rw [trimRight, ← List.reverse_append, List.takeWhile_append_dropWhile, List.reverse_reverse]

theorem exists_margin (p : Char → Bool) (s : Text) :
    ∃ tail, (∀ c ∈ tail, p c) ∧ s.takeWhile p ++ s.trim p ++ tail = s := by
  refine ⟨((s.dropWhile p).reverse.takeWhile p).reverse, ?_, ?_⟩
  · exact fun c hc => mem_takeWhile c (List.mem_reverse.mp hc)
  · rw [trim, List.append_assoc, trimRight_append, List.takeWhile_append_dropWhile]

theorem trim_lead {lead : Text} (hl : ∀ c ∈ lead, p c) (s : Text) :
    (lead ++ s).trim p = s.trim p := by
  rw [trim, List.dropWhile_append_of_pos hl, trim]

theorem trimmed_trim (p : Char → Bool) (s : Text) : Trimmed p (s.trim p) := by
  constructor
  · have h := begins_dropWhile p s
    rw [← trimRight_append p (s.dropWhile p)] at h
    exact begins_of_append h
  · rw [trim, trimRight, List.reverse_reverse]
    exact begins_dropWhile p _

theorem Trimmed.drop {s : Text} (h : Trimmed p s) {n : Nat} (hn : n < s.length)
    (hp : p s[n] = false) : Trimmed p (s.drop n) := by
  have hne : s.drop n ≠ [] := by simpa using hn
  refine ⟨?_, ?_⟩
  · rwa [List.drop_eq_getElem_cons hn, begins_cons]
  · have hends := h.ends
    rwa [← List.take_append_drop n s, ends_append hne] at hends

theorem trimRight_run {s tail : Text} (hs : begins p s.reverse = false) (ht : ∀ c ∈ tail, p c) :
    trimRight p (s ++ tail) = s := by
  rw [trimRight, List.reverse_append,
    dropWhile_run (fun c hc => ht c (List.mem_reverse.mp hc)) hs, List.reverse_reverse]

theorem trim_run {lead s tail : Text} (hl : ∀ c ∈ lead, p c) (hs : Trimmed p s)
    (ht : ∀ c ∈ tail, p c) : (lead ++ s ++ tail).trim p = s := by
  by_cases hn : s = []
  · subst hn
    have hall : ∀ c ∈ lead ++ [] ++ tail, p c := by
      simp only [List.append_nil, List.mem_append]
      rintro c (h | h)
      · exact hl c h
      · exact ht c h
    rw [trim, List.dropWhile_eq_nil_iff.mpr hall]
    rfl
  · have hb : begins p (s ++ tail) = false := by
      rw [begins_append hn]
      exact hs.begins
    rw [trim, List.append_assoc, dropWhile_run hl hb, trimRight_run hs.ends ht]

/-- Trimming texts put end to end takes the margins that are left outside. -/
theorem trim_join {s middle t : Text} (ht : t.trim p ≠ []) (hne : s.dropWhile p ++ middle ≠ [])
    (hbegins : begins p (s.dropWhile p ++ middle) = false) :
    (s ++ middle ++ t).trim p = s.dropWhile p ++ (middle ++ t.takeWhile p) ++ t.trim p := by
  obtain ⟨tail, htail, hsplit⟩ := exists_margin p t
  have hwhole : s ++ middle ++ t = s.takeWhile p ++
      (s.dropWhile p ++ (middle ++ t.takeWhile p) ++ t.trim p) ++ tail := by
    conv => lhs; rw [← List.takeWhile_append_dropWhile (p := p) (l := s), ← hsplit]
    simp only [List.append_assoc]
  rw [hwhole]
  refine trim_run mem_takeWhile ⟨?_, ?_⟩ htail
  · rw [← List.append_assoc, List.append_assoc, begins_append hne]
    exact hbegins
  · rw [ends_append ht]
    exact (trimmed_trim p t).ends

theorem trim_of_trimmed {s : Text} (h : Trimmed p s) : s.trim p = s := by
  simpa using @trim_run p [] s [] (by simp) h (by simp)

theorem trim_of_none {s : Text} (h : ∀ c ∈ s, p c = false) : s.trim p = s :=
  trim_of_trimmed ⟨begins_of_none h, begins_of_none fun c hc => h c (List.mem_reverse.mp hc)⟩

end StyleValue.Text
