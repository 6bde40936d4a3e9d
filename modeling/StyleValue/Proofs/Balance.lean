import StyleValue.Group

/-! # Balanced groups

The grammar of a parenthesized group. Reading accepts exactly the texts that begin with a
group, takes that group and no more, and otherwise only the first character tells the fault. -/

namespace StyleValue.Group

/-- What may stand between an opening paren and the one that closes it. -/
inductive Inside : Text → Prop where
  | nil : Inside []
  | char {c s} : c ≠ '(' → c ≠ ')' → Inside s → Inside (c :: s)
  | group {inner s} : Inside inner → Inside s → Inside ('(' :: inner ++ ')' :: s)

def Balanced (group : Text) : Prop := ∃ inner, Inside inner ∧ group = '(' :: inner ++ [')']

/-- The rest of a text after the insides of `depth + 1` open groups, each closed in turn. -/
inductive Closing : Nat → Text → Prop where
  | last {inner} : Inside inner → Closing 0 (inner ++ [')'])
  | more {depth inner s} : Inside inner → Closing depth s →
      Closing (depth + 1) (inner ++ ')' :: s)

theorem Closing.char {depth : Nat} {c : Char} {s : Text} (hopen : c ≠ '(') (hclose : c ≠ ')')
    (h : Closing depth s) : Closing depth (c :: s) := by
  cases h with
  | last hi => exact .last (.char hopen hclose hi)
  | more hi hs => exact .more (.char hopen hclose hi) hs

theorem Closing.group {depth : Nat} {inner s : Text} (hi : Inside inner)
    (h : Closing depth s) : Closing depth ('(' :: inner ++ ')' :: s) := by
  cases h with
  | last hs => simpa using Closing.last (.group hi hs)
  | more hs ht => simpa using Closing.more (.group hi hs) ht

theorem close?_closing {depth : Nat} {s inner rest : Text}
    (h : close? depth s = some (inner, rest)) : Closing depth inner := by
  fun_induction close? depth s generalizing inner rest with
  | case1 => cases h
  | case2 depth s ih =>
    obtain ⟨⟨i, r⟩, hr, he⟩ := Option.map_eq_some_iff.mp h
    cases he
    -- The group opened here closes first, so the outer groups go on after it.
    cases ih hr with
    | more hi hs => exact hs.group hi
  | case3 s => cases h; exact .last .nil
  | case4 s depth _ ih =>
    obtain ⟨⟨i, r⟩, hr, he⟩ := Option.map_eq_some_iff.mp h
    cases he
    exact .more .nil (ih hr)
  | case5 depth c s hopen hclose ih =>
    obtain ⟨⟨i, r⟩, hr, he⟩ := Option.map_eq_some_iff.mp h
    cases he
    exact (ih hr).char hopen hclose

theorem close?_open (depth : Nat) (s : Text) :
    close? depth ('(' :: s) = (close? (depth + 1) s).map (Prod.map ('(' :: ·) id) := by
  rw [close?.eq_def]
  simp only [if_true]
  rfl

theorem close?_close_succ (depth : Nat) (s : Text) :
    close? (depth + 1) (')' :: s) = (close? depth s).map (Prod.map (')' :: ·) id) :=
  rfl

theorem close?_char {c : Char} (hopen : c ≠ '(') (hclose : c ≠ ')') (depth : Nat) (s : Text) :
    close? depth (c :: s) = (close? depth s).map (Prod.map (c :: ·) id) := by
  rw [close?.eq_def]
  simp only [if_neg hopen, if_neg hclose]
  rfl

theorem close?_inside {inner : Text} (h : Inside inner) (depth : Nat) (s : Text) :
    close? depth (inner ++ s) = (close? depth s).map (Prod.map (inner ++ ·) id) := by
  induction h generalizing depth s with
  | nil =>
    have he : (Prod.map (([] : Text) ++ ·) id : Text × Text → Text × Text) = id := rfl
    rw [he, Option.map_id, id, List.nil_append]
  | char hopen hclose _ ih =>
    rw [List.cons_append, close?_char hopen hclose, ih, Option.map_map, Prod.map_comp_map]
    rfl
  | @group inner t _ _ ihi iht =>
    have he : ('(' :: inner ++ ')' :: t) ++ s = '(' :: (inner ++ ')' :: (t ++ s)) := by simp
    rw [he, close?_open, ihi, close?_close_succ, iht]
    simp only [Option.map_map, Prod.map_comp_map]
    congr 2
    funext taken
    simp

theorem close?_zero_eq_some_iff {s inner rest : Text} :
    close? 0 s = some (inner, rest) ↔
      ∃ t, Inside t ∧ inner = t ++ [')'] ∧ s = inner ++ rest := by
  constructor
  · intro h
    have hs := close?_append h
    cases close?_closing h with
    | last ht => exact ⟨_, ht, rfl, hs⟩
  · intro h
    obtain ⟨t, ht, rfl, rfl⟩ := h
    rw [List.append_assoc, close?_inside ht]
    simp [close?]

theorem read_eq_ok_iff {s group rest : Text} :
    read s = .ok (group, rest) ↔ Balanced group ∧ s = group ++ rest := by
  constructor
  · intro h
    refine ⟨?_, (read_append h).1⟩
    unfold read at h
    split at h
    · split at h
      · next hc =>
        cases h
        obtain ⟨t, ht, rfl, _⟩ := close?_zero_eq_some_iff.mp hc
        exact ⟨t, ht, rfl⟩
      · cases h
    · cases h
  · intro h
    obtain ⟨⟨t, ht, rfl⟩, rfl⟩ := h
    have hc : close? 0 (t ++ [')'] ++ rest) = some (t ++ [')'], rest) :=
      close?_zero_eq_some_iff.mpr ⟨t, ht, rfl, rfl⟩
    simp only [List.append_assoc, List.cons_append] at hc ⊢
    simp only [read, hc]

theorem balanced_unique {group other rest rest' : Text} (h : Balanced group)
    (h' : Balanced other) (he : group ++ rest = other ++ rest') :
    group = other ∧ rest = rest' := by
  have hr : read (group ++ rest) = .ok (group, rest) := read_eq_ok_iff.mpr ⟨h, rfl⟩
  have hr' := read_eq_ok_iff.mpr ⟨h', he⟩
  rw [hr] at hr'
  cases hr'
  exact ⟨rfl, rfl⟩

def faultOf (s : Text) : GroupFault := if s.head? = some '(' then .notClosed else .notOpened

theorem read_error_fault {s : Text} {fault : GroupFault} (h : read s = .error fault) :
    fault = faultOf s := by
  unfold read at h
  split at h
  · split at h
    · cases h
    · cases h; rfl
  · next hs =>
    cases h
    cases s with
    | nil => rfl
    | cons c s =>
      have hc : c ≠ '(' := fun hc => hs s (by rw [hc])
      simp [faultOf, hc]

theorem read_eq_error_iff {s : Text} {fault : GroupFault} :
    read s = .error fault ↔ (∀ group, Balanced group → ¬ group <+: s) ∧ fault = faultOf s := by
  constructor
  · intro h
    refine ⟨?_, read_error_fault h⟩
    rintro group hg ⟨rest, rfl⟩
    rw [read_eq_ok_iff.mpr ⟨hg, rfl⟩] at h
    cases h
  · intro h
    obtain ⟨hn, rfl⟩ := h
    cases h : read s with
    | ok r =>
      obtain ⟨hg, rfl⟩ := read_eq_ok_iff.mp (show read s = .ok (r.1, r.2) from h)
      exact (hn r.1 hg (List.prefix_append _ _)).elim
    | error fault => rw [read_error_fault h]

end StyleValue.Group
