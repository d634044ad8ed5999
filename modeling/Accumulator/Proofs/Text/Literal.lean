import Accumulator.Proofs.Text.Scan
import Mathlib.Algebra.Group.Nat.Defs

/-!
Integer literals: digits with a sign or without one. None of them is malformed.
A literal is read as the integer that it spells, if that has 64 bits; digits
behind an integer take it away from zero, so once it has left the bounds it does
not come back.
-/

namespace Accumulator.Text.Decimal

/-- Digits with a sign or without one, and the integer that they spell. -/
inductive Literal : Int → List Char → Prop where
  | unsigned {digits : List Char} (hdigits : IsRun Char.isDigit digits) :
    Literal (value digits) digits
  | positive {digits : List Char} (hdigits : IsRun Char.isDigit digits) :
    Literal (value digits) ('+' :: digits)
  | negative {digits : List Char} (hdigits : IsRun Char.isDigit digits) :
    Literal (-value digits) ('-' :: digits)

theorem Literal.ne_nil {n : Int} {lit : List Char} (h : Literal n lit) : lit ≠ [] := by
  cases h with
  | unsigned hdigits => exact hdigits.nonempty
  | positive | negative => exact List.cons_ne_nil _ _

/-- Whether a literal can start with the character. -/
def IsStart (c : Char) : Prop := c.isDigit = true ∨ c = '+' ∨ c = '-'

theorem exists_literal_cons_iff {c : Char} {cs : List Char} : (∃ n, Literal n (c :: cs)) ↔
    IsStart c ∧ (∀ d ∈ cs, d.isDigit = true) ∧ (c.isDigit = true ∨ cs ≠ []) := by
  constructor
  · rintro ⟨n, h⟩
    generalize htext : c :: cs = text at h
    cases h with
    | unsigned hdigits =>
      subst htext
      have hall := List.forall_mem_cons.1 hdigits.all
      exact ⟨.inl hall.1, hall.2, .inl hall.1⟩
    | positive hdigits =>
      cases htext
      exact ⟨.inr (.inl rfl), hdigits.all, .inr hdigits.nonempty⟩
    | negative hdigits =>
      cases htext
      exact ⟨.inr (.inr rfl), hdigits.all, .inr hdigits.nonempty⟩
  · rintro ⟨hstart, hall, hsome⟩
    rcases hstart with hdigit | rfl | rfl
    · exact ⟨_, .unsigned ⟨List.cons_ne_nil c cs, List.forall_mem_cons.2 ⟨hdigit, hall⟩⟩⟩
    · exact ⟨_, .positive ⟨hsome.resolve_left (by decide), hall⟩⟩
    · exact ⟨_, .negative ⟨hsome.resolve_left (by decide), hall⟩⟩

/-- The integer of a sign and a magnitude. -/
def withSign (negative : Bool) (n : Nat) : Int := if negative then -n else n

/-- Whether an integer has 64 bits. -/
def Fits (n : Int) : Prop := -0x8000000000000000 ≤ n ∧ n < 0x8000000000000000

instance (n : Int) : Decidable (Fits n) := inferInstanceAs (Decidable (_ ∧ _))

theorem le_ofDigitChars (cs : List Char) (n : Nat) : n ≤ Nat.ofDigitChars 10 cs n := by
  rw [Nat.ofDigitChars_eq_ofDigitChars_zero]
  have hpow : 0 < 10 ^ cs.length := Nat.pow_pos (by decide)
  exact Nat.le_trans (Nat.le_mul_of_pos_left n hpow) (Nat.le_add_right _ _)

theorem not_fits_of_le {negative : Bool} {m n : Nat} (h : m ≤ n)
    (hm : ¬Fits (withSign negative m)) : ¬Fits (withSign negative n) := by
  cases negative with
  | false =>
    simp only [Fits, withSign, Bool.false_eq_true, if_false] at hm ⊢
    omega
  | true =>
    simp only [Fits, withSign, if_true] at hm ⊢
    omega

/-- One more digit, in the direction of the sign. -/
theorem extend_cons (negative : Bool) {c : Char} (hc : c.isDigit = true) (m : Nat)
    (cs : List Char) : extend negative (withSign negative m) (c :: cs) =
      let next := withSign negative (10 * m + (c.toNat - '0'.toNat))
      if Fits next then extend negative next cs else .error .tooLarge := by
  have hnext : (if negative = true then
      10 * withSign negative m - ((c.toNat - '0'.toNat : Nat) : Int)
        else 10 * withSign negative m + ((c.toNat - '0'.toNat : Nat) : Int)) =
      withSign negative (10 * m + (c.toNat - '0'.toNat)) := by
    cases negative with
    | false =>
      simp only [withSign, Bool.false_eq_true, if_false]
      omega
    | true =>
      simp only [withSign, if_true]
      omega
  rw [extend, if_pos hc]
  simp only [hnext]
  rfl

/-- Digits behind an integer go on with it, as long as it has 64 bits. -/
theorem extend_digits (negative : Bool) {ds : List Char} (hds : ∀ c ∈ ds, c.isDigit = true)
    {m : Nat} (hm : Fits (withSign negative m)) : extend negative (withSign negative m) ds =
      let n := withSign negative (Nat.ofDigitChars 10 ds m)
      if Fits n then .ok n else .error .tooLarge := by
  induction ds generalizing m with
  | nil => exact (if_pos hm).symm
  | cons c cs ih =>
    rw [List.forall_mem_cons] at hds
    simp only [extend_cons negative hds.1, Nat.ofDigitChars_cons]
    split
    next hnext => exact ih hds.2 hnext
    next hnext => rw [if_neg (not_fits_of_le (le_ofDigitChars cs _) hnext)]

/-- A literal is the integer that it spells, or it is too large. -/
theorem readInt_literal {n : Int} {lit : List Char} (h : Literal n lit) :
    readInt lit = if Fits n then .ok n else .error .tooLarge := by
  have hzero (negative : Bool) : withSign negative 0 = 0 := by cases negative <;> rfl
  have hfits (negative : Bool) : Fits (withSign negative 0) := by rw [hzero]; decide
  cases h with
  | @unsigned digits hdigits =>
    have hextend := extend_digits false hdigits.all (hfits false)
    rw [hzero] at hextend
    unfold readInt
    split
    next => exact absurd rfl hdigits.nonempty
    next => exact absurd (hdigits.all '+' List.mem_cons_self) (by decide)
    next => exact absurd (hdigits.all '-' List.mem_cons_self) (by decide)
    next => exact absurd (hdigits.all '+' List.mem_cons_self) (by decide)
    next => exact absurd (hdigits.all '-' List.mem_cons_self) (by decide)
    next => exact hextend
  | positive hdigits =>
    have hextend := extend_digits false hdigits.all (hfits false)
    obtain ⟨c, cs, rfl⟩ := List.exists_cons_of_ne_nil hdigits.nonempty
    rw [hzero] at hextend
    exact hextend
  | negative hdigits =>
    have hextend := extend_digits true hdigits.all (hfits true)
    obtain ⟨c, cs, rfl⟩ := List.exists_cons_of_ne_nil hdigits.nonempty
    rw [hzero] at hextend
    exact hextend

theorem literal_digits (n : Nat) : Literal n (digits n) := by
  have hdigits := Literal.unsigned ⟨digits_ne_nil n, fun c hc => isDigit_of_mem_digits hc⟩
  rwa [value_digits] at hdigits

theorem readInt_digits {n : Nat} (hn : n < 2 ^ 63) : readInt (digits n) = .ok n := by
  rw [readInt_literal (literal_digits n), if_pos]
  constructor <;> omega

end Accumulator.Text.Decimal
