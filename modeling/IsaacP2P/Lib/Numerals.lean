import Mathlib.Data.List.TakeWhile

/-!
# The number at the front of a text

What `strtol` reads in base 10. `Spells` is the grammar: white space, a sign or none,
digits, and a rest that starts with no digit. `leading` reads such a text, and nothing
else (`leading_eq_some_iff`).
-/

namespace Numerals

/-- `std::isspace` in the C locale: the blank, and tab to carriage return. -/
def isSpace (c : Char) : Bool := c == ' ' || (9 ≤ c.toNat && c.toNat ≤ 13)

def decimal (digits : List Char) : Nat :=
  digits.foldl (fun n c => 10 * n + (c.toNat - '0'.toNat)) 0

/-- Whether there is a minus sign, and what follows the sign. -/
def splitSign : List Char → Bool × List Char
  | '-' :: s => (true, s)
  | '+' :: s => (false, s)
  | s => (false, s)

def signed (negative : Bool) (digits : List Char) : Int :=
  if negative then - decimal digits else decimal digits

/-- `none` if there are no digits. -/
def leading (s : List Char) : Option Int :=
  let (negative, s) := splitSign (s.dropWhile isSpace)
  let digits := s.takeWhile Char.isDigit
  if digits.isEmpty then none else some (signed negative digits)

/-- `n` is an `int` of 32 bits. -/
def fitsInt (n : Int) : Bool := -0x80000000 ≤ n && n ≤ 0x7FFFFFFF

/-- The digits end where `rest` begins. -/
structure Digits (digits rest : List Char) : Prop where
  ne_nil : digits ≠ []
  all : ∀ c ∈ digits, c.isDigit = true
  stop : ∀ c ∈ rest.head?, c.isDigit = false

inductive Spells : List Char → Int → Prop where
  | unsigned {blanks digits rest : List Char} : (∀ c ∈ blanks, isSpace c = true) →
      Digits digits rest → Spells (blanks ++ (digits ++ rest)) (decimal digits)
  | plus {blanks digits rest : List Char} : (∀ c ∈ blanks, isSpace c = true) →
      Digits digits rest → Spells (blanks ++ '+' :: (digits ++ rest)) (decimal digits)
  | minus {blanks digits rest : List Char} : (∀ c ∈ blanks, isSpace c = true) →
      Digits digits rest → Spells (blanks ++ '-' :: (digits ++ rest)) (- decimal digits)

variable {s t digits rest : List Char} {n : Int}

theorem not_isSpace_of_isDigit {c : Char} (h : c.isDigit = true) : isSpace c = false := by
  simp only [Char.isDigit, ge_iff_le, Bool.and_eq_true, decide_eq_true_eq,
    UInt32.le_iff_toNat_le] at h
  have hlow : 48 ≤ c.toNat := h.1
  have hblank : c ≠ ' ' := by
    rintro rfl
    exact absurd hlow (by decide)
  simp only [isSpace, Bool.or_eq_false_iff, beq_eq_false_iff_ne, Bool.and_eq_false_iff,
    decide_eq_false_iff_not]
  exact ⟨hblank, .inr (by omega)⟩

theorem splitSign_cases (s : List Char) :
    (∃ t, s = '-' :: t ∧ splitSign s = (true, t)) ∨
    (∃ t, s = '+' :: t ∧ splitSign s = (false, t)) ∨ splitSign s = (false, s) := by
  unfold splitSign
  split
  · exact .inl ⟨_, rfl, rfl⟩
  · exact .inr (.inl ⟨_, rfl, rfl⟩)
  · exact .inr (.inr rfl)

theorem splitSign_digit {c : Char} (h : c.isDigit = true) (cs : List Char) :
    splitSign (c :: cs) = (false, c :: cs) := by
  rcases splitSign_cases (c :: cs) with ⟨t, he, -⟩ | ⟨t, he, -⟩ | hs
  · cases he
    exact absurd h (by decide)
  · cases he
    exact absurd h (by decide)
  · exact hs

theorem Digits.takeWhile (h : Digits digits rest) :
    (digits ++ rest).takeWhile Char.isDigit = digits := by
  rw [List.takeWhile_append_of_pos h.all]
  cases rest with
  | nil => simp
  | cons c cs => rw [List.takeWhile_cons_of_neg (by simp [h.stop c rfl]), List.append_nil]

theorem digits_takeWhile (hne : s.takeWhile Char.isDigit ≠ []) :
    Digits (s.takeWhile Char.isDigit) (s.dropWhile Char.isDigit) := by
  refine ⟨hne, fun c hc => List.mem_takeWhile_imp hc, fun c hc => ?_⟩
  have h := List.head?_dropWhile_not Char.isDigit s
  rw [Option.mem_def.mp hc] at h
  simpa using h

theorem leading_of_digits {blanks : List Char} (negative : Bool)
    (hb : ∀ c ∈ blanks, isSpace c = true) (hd : t.dropWhile isSpace = t)
    (hs : splitSign t = (negative, digits ++ rest)) (h : Digits digits rest) :
    leading (blanks ++ t) = some (signed negative digits) := by
  have hne : digits.isEmpty = false := by simpa using h.ne_nil
  simp only [leading, List.dropWhile_append_of_pos hb, hd, hs, h.takeWhile, hne,
    Bool.false_eq_true, if_false]

theorem Spells.leading (h : Spells s n) : leading s = some n := by
  cases h with
  | unsigned hb h =>
    obtain ⟨c, cs, rfl⟩ := List.exists_cons_of_ne_nil h.ne_nil
    have hdigit : c.isDigit = true := h.all c (List.mem_cons_self ..)
    refine leading_of_digits false hb ?_ (splitSign_digit hdigit _) h
    exact List.dropWhile_cons_of_neg (by simp [not_isSpace_of_isDigit hdigit])
  | plus hb h =>
    refine leading_of_digits false hb ?_ rfl h
    exact List.dropWhile_cons_of_neg (by decide)
  | minus hb h =>
    refine leading_of_digits true hb ?_ rfl h
    exact List.dropWhile_cons_of_neg (by decide)

theorem digits_of_leading {negative : Bool} (hs : splitSign (s.dropWhile isSpace) = (negative, t))
    (h : leading s = some n) :
    ∃ digits rest, t = digits ++ rest ∧ Digits digits rest ∧ n = signed negative digits := by
  simp only [leading, hs] at h
  split at h
  · cases h
  · rename_i hne
    cases h
    exact ⟨_, _, List.takeWhile_append_dropWhile.symm, digits_takeWhile (by simpa using hne), rfl⟩

theorem spells_of_leading (h : leading s = some n) : Spells s n := by
  have hblanks : ∀ c ∈ s.takeWhile isSpace, isSpace c = true := fun c hc =>
    List.mem_takeWhile_imp hc
  rw [← List.takeWhile_append_dropWhile (p := isSpace) (l := s)]
  rcases splitSign_cases (s.dropWhile isSpace) with ⟨t, ht, hs⟩ | ⟨t, ht, hs⟩ | hs
  · obtain ⟨digits, rest, rfl, hd, rfl⟩ := digits_of_leading hs h
    rw [ht]
    exact .minus hblanks hd
  · obtain ⟨digits, rest, rfl, hd, rfl⟩ := digits_of_leading hs h
    rw [ht]
    exact .plus hblanks hd
  · obtain ⟨digits, rest, ht, hd, rfl⟩ := digits_of_leading hs h
    rw [ht]
    exact .unsigned hblanks hd

theorem leading_eq_some_iff : leading s = some n ↔ Spells s n := ⟨spells_of_leading, Spells.leading⟩

end Numerals
