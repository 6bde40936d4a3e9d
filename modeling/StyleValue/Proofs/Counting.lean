import Mathlib.Data.List.Infix
import StyleValue.Position
import StyleValue.Proofs.Step

/-! # Groups by counting parens

A group ends where a beginning of the text has as many closing as opening parens for the first
time. So the group at a place is the balanced beginning of the text there, of which there is at most
one, and it is never closed where every beginning has more opening than closing parens. -/

namespace StyleValue.Group

theorem forall_begin_cons {P : Text → Prop} {c : Char} {s : Text} :
    (∀ p, p <+: c :: s → P p) ↔ P [] ∧ ∀ p, p <+: s → P (c :: p) := by
  simp only [List.prefix_cons_iff, forall_eq_or_imp, forall_exists_index, and_imp]
  refine and_congr_right fun _ => ⟨fun h p hp => h _ p rfl hp, ?_⟩
  rintro h _ p rfl hp
  exact h p hp

/-- No end is found exactly where the closing parens never outnumber the open groups. -/
theorem close?_eq_none_iff {depth : Nat} {s : Text} :
    close? depth s = none ↔ ∀ p, p <+: s → p.count ')' ≤ p.count '(' + depth := by
  fun_induction close? depth s with
  | case1 depth => simp
  | case2 depth s ih =>
    rw [Option.map_eq_none_iff, ih, forall_begin_cons]
    simp [Nat.add_assoc, Nat.add_comm 1]
  | case3 s =>
    refine iff_of_false (by simp) fun h => ?_
    have hp := h [')'] (by simp)
    simp at hp
  | case4 s depth _ ih =>
    rw [Option.map_eq_none_iff, ih, forall_begin_cons]
    simp [← Nat.add_assoc]
  | case5 depth c s hopen hclose ih =>
    rw [Option.map_eq_none_iff, ih, forall_begin_cons]
    simp [hopen, hclose]

/-- At the end of `inner` for the first time, one closing paren more than the open groups need. -/
structure Ends (depth : Nat) (inner : Text) : Prop where
  count_eq : inner.count ')' = inner.count '(' + depth + 1
  before : ∀ p, p <+: inner → p ≠ inner → p.count ')' ≤ p.count '(' + depth

theorem Ends.cons {depth depth' : Nat} {c : Char} {inner : Text} (h : Ends depth inner)
    (hc : ∀ p : Text, (c :: p).count ')' + depth + p.count '(' =
      (c :: p).count '(' + depth' + p.count ')') : Ends depth' (c :: inner) := by
  constructor
  · have hcount := h.count_eq
    have hinner := hc inner
    omega
  · intro p hp hne
    rcases List.prefix_cons_iff.mp hp with rfl | ⟨q, rfl, hq⟩
    · simp
    · have hbefore := h.before q hq (by rintro rfl; exact hne rfl)
      have hcount := hc q
      omega

theorem close?_ends {depth : Nat} {s inner rest : Text} (h : close? depth s = some (inner, rest)) :
    Ends depth inner := by
  fun_induction close? depth s generalizing inner rest with
  | case1 => cases h
  | case2 depth s ih =>
    obtain ⟨⟨i, r⟩, hr, he⟩ := Option.map_eq_some_iff.mp h
    cases he
    refine (ih hr).cons fun p => ?_
    simp
    omega
  | case3 s =>
    cases h
    refine ⟨rfl, fun p hp hne => ?_⟩
    rcases List.prefix_cons_iff.mp hp with rfl | ⟨q, rfl, hq⟩
    · simp
    · exact absurd (by rw [List.prefix_nil.mp hq]) hne
  | case4 s depth _ ih =>
    obtain ⟨⟨i, r⟩, hr, he⟩ := Option.map_eq_some_iff.mp h
    cases he
    refine (ih hr).cons fun p => ?_
    simp
    omega
  | case5 depth c s hopen hclose ih =>
    obtain ⟨⟨i, r⟩, hr, he⟩ := Option.map_eq_some_iff.mp h
    cases he
    refine (ih hr).cons fun p => ?_
    simp [hopen, hclose]
    omega

/-- The shortest nonempty beginning of a text with as many opening as closing parens. -/
structure FirstLevel (group s : Text) : Prop where
  nonempty : group ≠ []
  begins : group <+: s
  level : group.count '(' = group.count ')'
  shortest : ∀ p, p <+: s → p ≠ [] → p.count '(' = p.count ')' → group.length ≤ p.length

theorem FirstLevel.unique {group other s : Text} (h : FirstLevel group s)
    (h' : FirstLevel other s) : group = other := by
  have hle := h.shortest other h'.begins h'.nonempty h'.level
  have hle' := h'.shortest group h.begins h.nonempty h.level
  exact (List.prefix_of_prefix_length_le h.begins h'.begins hle).eq_of_length (le_antisymm hle hle')

theorem firstLevel_of_close {s inner rest : Text} (h : close? 0 s = some (inner, rest)) :
    FirstLevel ('(' :: inner) ('(' :: s) := by
  obtain ⟨hcount, hbefore⟩ := close?_ends h
  have hinner : inner <+: s := ⟨rest, (close?_append h).symm⟩
  refine ⟨List.cons_ne_nil _ _, (List.prefix_cons_inj _).mpr hinner, ?_, ?_⟩
  · simp [hcount]
  · intro p hp hne hlevel
    rcases List.prefix_cons_iff.mp hp with rfl | ⟨q, rfl, hq⟩
    · exact absurd rfl hne
    · simp only [List.length_cons, Nat.add_le_add_iff_right]
      by_contra hlt
      have hshort : q <+: inner := List.prefix_of_prefix_length_le hq hinner (by omega)
      have hle := hbefore q hshort (by rintro rfl; exact hlt le_rfl)
      simp at hlevel
      omega

theorem read_notOpened_iff {s : Text} : read s = .error .notOpened ↔ s.head? ≠ some '(' := by
  refine ⟨fun h hhead => ?_, read_of_head_ne⟩
  have hfault := read_error_fault h
  rw [faultOf, if_pos hhead] at hfault
  cases hfault

theorem read_notClosed_iff {s : Text} : read s = .error .notClosed ↔
    s.head? = some '(' ∧ ∀ p, p <+: s → p ≠ [] → p.count ')' < p.count '(' := by
  by_cases hhead : s.head? = some '('
  · obtain ⟨t, rfl⟩ := List.head?_eq_some_iff.mp hhead
    have hnone : read ('(' :: t) = .error .notClosed ↔ close? 0 t = none := by
      simp only [read]
      cases close? 0 t <;> simp
    have hopen : ∀ p : Text, ('(' :: p).count ')' < ('(' :: p).count '(' ↔
        p.count ')' ≤ p.count '(' + 0 := by
      intro p
      rw [List.count_cons_self, List.count_cons_of_ne (by decide), Nat.lt_add_one_iff, Nat.add_zero]
    rw [hnone, close?_eq_none_iff, forall_begin_cons]
    simp only [hopen, hhead, true_and, ne_eq, not_true_eq_false, false_implies, reduceCtorEq,
      not_false_eq_true, true_implies]
  · rw [read_of_head_ne hhead]
    simp [hhead]

theorem read_ok_iff_level {s group : Text} :
    (∃ rest, read s = .ok (group, rest)) ↔ group.head? = some '(' ∧ FirstLevel group s := by
  constructor
  · rintro ⟨rest, h⟩
    unfold read at h
    split at h
    · split at h
      · next hc =>
        cases h
        exact ⟨rfl, firstLevel_of_close hc⟩
      · cases h
    · cases h
  · rintro ⟨hhead, hlevel⟩
    obtain ⟨inner, rfl⟩ := List.head?_eq_some_iff.mp hhead
    obtain ⟨rest, rfl⟩ := hlevel.begins
    match hc : close? 0 (inner ++ rest) with
    | none =>
      have hle := close?_eq_none_iff.mp hc inner (List.prefix_append _ _)
      have hcount := hlevel.level
      simp at hcount
      omega
    | some (i, r) =>
      have hi := hlevel.unique (firstLevel_of_close hc)
      cases hi
      exact ⟨r, by simp only [List.cons_append, read, hc]⟩

theorem at_eq_ok_iff {source group : Text} {start : Nat} :
    Group.at source start = .ok group ↔ ∃ rest, read (source.drop start) = .ok (group, rest) := by
  unfold Group.at
  cases read (source.drop start) with
  | error fault => simp
  | ok split => simp [Prod.ext_iff, eq_comm]

theorem at_eq_error_iff {source : Text} {start : Nat} {e : Failure} :
    Group.at source start = .error e ↔
      ∃ fault, read (source.drop start) = .error fault ∧ e = .malformed fault start := by
  unfold Group.at
  cases read (source.drop start) with
  | error fault => simp [eq_comm]
  | ok split => simp

theorem at_error_message_iff {source : Text} {start : Nat} {e : Failure} (fault : GroupFault) :
    Group.at source start = .error e ∧ e.diagnostic.message = fault.message ↔
      read (source.drop start) = .error fault ∧
        e.diagnostic = ⟨.malformed, fault.message, [], start⟩ := by
  constructor
  · rintro ⟨he, hm⟩
    obtain ⟨other, hr, rfl⟩ := at_eq_error_iff.mp he
    obtain rfl := GroupFault.message_injective hm
    exact ⟨hr, rfl⟩
  · rintro ⟨hr, he⟩
    have heq : e = .malformed fault start := Failure.diagnostic_injective he
    exact ⟨at_eq_error_iff.mpr ⟨fault, hr, heq⟩, by rw [he]⟩

/-- A group is read exactly where a balanced one begins, which is the shortest nonempty beginning
with as many opening as closing parens. Elsewhere the failure says whether no group begins there or
none that is closed. -/
theorem at_outcome (source : Text) (start : Nat) :
    (∀ group, Group.at source start = .ok group ↔
      group <+: source.drop start ∧ Balanced group) ∧
    (∀ group other, group <+: source.drop start → Balanced group →
      other <+: source.drop start → Balanced other → group = other) ∧
    (∀ group, Group.at source start = .ok group ↔
      group.head? = some '(' ∧ FirstLevel group (source.drop start)) ∧
    (∀ e, Group.at source start = .error e ∧
        e.diagnostic.message = "expected opening paren".toList ↔
      (source.drop start).head? ≠ some '(' ∧
        e.diagnostic = ⟨.malformed, "expected opening paren".toList, [], start⟩) ∧
    ∀ e, Group.at source start = .error e ∧
        e.diagnostic.message = "Failed parsing: No matching paren".toList ↔
      ((source.drop start).head? = some '(' ∧
        ∀ p, p <+: source.drop start → p ≠ [] → p.count ')' < p.count '(') ∧
        e.diagnostic = ⟨.malformed, "Failed parsing: No matching paren".toList, [], start⟩ := by
  refine ⟨fun group => ?_, ?_, fun group => ?_, fun e => ?_, fun e => ?_⟩
  · rw [at_eq_ok_iff]
    simp only [read_eq_ok_iff]
    constructor
    · rintro ⟨rest, hb, he⟩
      exact ⟨⟨rest, he.symm⟩, hb⟩
    · rintro ⟨⟨rest, he⟩, hb⟩
      exact ⟨rest, hb, he.symm⟩
  · rintro group other ⟨rest, he⟩ hb ⟨rest', he'⟩ hb'
    exact (balanced_unique hb hb' (he.trans he'.symm)).1
  · rw [at_eq_ok_iff, read_ok_iff_level]
  · exact (at_error_message_iff .notOpened).trans (and_congr_left' read_notOpened_iff)
  · exact (at_error_message_iff .notClosed).trans (and_congr_left' read_notClosed_iff)

end StyleValue.Group
