import Mathlib.Data.List.TakeWhile
import StyleValue.Reader

/-! # Character classes and runs

Which classes of characters exclude each other, and how a run of one class is cut off: a run
followed by a text that does not go on with its class is taken whole, and nothing more. -/

namespace StyleValue
namespace Text

def begins (p : Char → Bool) (s : Text) : Bool := s.head?.any p

@[simp] theorem begins_nil (p : Char → Bool) : begins p [] = false := rfl

@[simp] theorem begins_cons (p : Char → Bool) (c : Char) (s : Text) :
    begins p (c :: s) = p c := rfl

theorem begins_append {p : Char → Bool} {s : Text} (h : s ≠ []) (t : Text) :
    begins p (s ++ t) = begins p s := by
  cases s with
  | nil => exact (h rfl).elim
  | cons c s => rfl

theorem begins_imp {p q : Char → Bool} (hpq : ∀ c, p c → q c) {s : Text}
    (h : s.begins q = false) : s.begins p = false := by
  cases s with
  | nil => rfl
  | cons c s =>
    simp only [begins_cons] at h ⊢
    by_contra hp
    simp [hpq c (by simpa using hp)] at h

theorem begins_of_none {p : Char → Bool} {s : Text} (h : ∀ c ∈ s, p c = false) :
    begins p s = false := by
  cases s with
  | nil => rfl
  | cons c s => exact h c List.mem_cons_self

theorem begins_dropWhile (p : Char → Bool) (s : Text) : begins p (s.dropWhile p) = false := by
  have hs := List.head?_dropWhile_not p s
  unfold begins
  cases hd : (s.dropWhile p).head? with
  | none => rfl
  | some c => simpa [hd] using hs

/-- A property of the characters of a list is decided along the list. -/
theorem forall_mem_of_all {P : Char → Prop} [DecidablePred P] {s : Text}
    (h : s.all (fun c => decide (P c)) = true) : ∀ c ∈ s, P c :=
  fun c hc => of_decide_eq_true (List.all_eq_true.mp h c hc)

theorem takeWhile_run {p : Char → Bool} {run rest : Text} (hrun : ∀ c ∈ run, p c)
    (hrest : rest.begins p = false) : (run ++ rest).takeWhile p = run := by
  rw [List.takeWhile_append_of_pos hrun]
  cases rest with
  | nil => simp
  | cons c rest =>
    rw [List.takeWhile_cons_of_neg (by simpa using hrest), List.append_nil]

theorem dropWhile_run {p : Char → Bool} {run rest : Text} (hrun : ∀ c ∈ run, p c)
    (hrest : rest.begins p = false) : (run ++ rest).dropWhile p = rest := by
  rw [List.dropWhile_append_of_pos hrun]
  cases rest with
  | nil => rfl
  | cons c rest => rw [List.dropWhile_cons_of_neg (by simpa using hrest)]

/-- A text is cut in one way after a run that does not go on. -/
theorem run_unique {p : Char → Bool} {run other rest rest' : Text} (hrun : ∀ c ∈ run, p c)
    (hother : ∀ c ∈ other, p c) (hrest : rest.begins p = false) (hrest' : rest'.begins p = false)
    (he : run ++ rest = other ++ rest') : run = other ∧ rest = rest' := by
  have hr : run = other := by rw [← takeWhile_run hrun hrest, he, takeWhile_run hother hrest']
  subst hr
  exact ⟨rfl, List.append_cancel_left he⟩

theorem mem_takeWhile {p : Char → Bool} {s : Text} : ∀ c ∈ s.takeWhile p, p c :=
  fun _ h => List.mem_takeWhile_imp h

theorem dropWhile_of_begins {p : Char → Bool} {s : Text} (h : s.begins p = false) :
    s.dropWhile p = s :=
  @dropWhile_run p [] s (by simp) h

/-- The class holds no visible ASCII character. -/
def Invisible (p : Char → Bool) : Prop :=
  ∀ c : Char, 0x21 ≤ c.toNat → c.toNat < 0x7f → p c = false

theorem invisible_isBlank : Invisible isBlank := by
  intro c h h'
  simp [isBlank, blankCodes, spaceCodes]
  omega

theorem invisible_isMargin : Invisible isMargin := by
  intro c h h'
  simp [isMargin, isWhiteSpace, spaceCodes]
  omega

theorem isBlank_space : isBlank ' ' = true := by decide

end Text

theorem isDigit_code {c : Char} (h : c.isDigit) : 0x30 ≤ c.toNat ∧ c.toNat ≤ 0x39 := by
  simpa [Char.isDigit, UInt32.le_iff_toNat_le] using h

theorem isIdentChar_code {c : Char} (h : isIdentChar c) : 0x2d ≤ c.toNat ∧ c.toNat ≤ 0x7a := by
  change (((((c.val ≥ 65 ∧ c.val ≤ 90 : Bool) || (c.val ≥ 97 && c.val ≤ 122)) ||
    (c.val ≥ 48 && c.val ≤ 57)) || c = '_') || c = '-') = true at h
  simp only [Bool.or_eq_true, Bool.and_eq_true, decide_eq_true_eq, ge_iff_le,
    UInt32.le_iff_toNat_le] at h
  change ((((65 ≤ c.toNat ∧ c.toNat ≤ 90) ∨ (97 ≤ c.toNat ∧ c.toNat ≤ 122)) ∨
    (48 ≤ c.toNat ∧ c.toNat ≤ 57)) ∨ c = '_') ∨ c = '-' at h
  rcases h with ((h | h) | rfl) | rfl
  · omega
  · omega
  · decide
  · decide

theorem Text.Invisible.of_isIdentChar {p : Char → Bool} (hp : Text.Invisible p) {c : Char}
    (h : isIdentChar c) : p c = false :=
  have hc := isIdentChar_code h
  hp c (by omega) (by omega)

theorem isBlank_of_isIdentChar {c : Char} (h : isIdentChar c) : Text.isBlank c = false :=
  Text.invisible_isBlank.of_isIdentChar h

theorem isIdentChar_of_isDigit {c : Char} (h : c.isDigit) : isIdentChar c := by
  simp [isIdentChar, Char.isAlphanum, h]

theorem isUnitChar_of_isIdentChar {c : Char} (h : isIdentChar c) : isUnitChar c := by
  have hb := isBlank_of_isIdentChar h
  have hs : c ≠ '/' := by
    intro heq
    subst heq
    exact absurd h (by decide)
  simp [isUnitChar, hb, hs]

theorem isUnitChar_of_isDigit {c : Char} (h : c.isDigit) : isUnitChar c :=
  isUnitChar_of_isIdentChar (isIdentChar_of_isDigit h)

theorem isBlank_of_isUnitChar {c : Char} (h : isUnitChar c) : Text.isBlank c = false := by
  simp only [isUnitChar, Bool.and_eq_true, Bool.not_eq_eq_eq_not, Bool.not_true] at h
  exact h.1

end StyleValue
