import Mathlib.Data.BitVec
import PFabric.Support.Text

/-!
# Numerals in a base

The value of a string of digits in a base up to 36, where digits beyond nine are letters
of either case, and `strtoul` of C, which reads such a string and leaves the rest.

A numeral that is followed by something else than a digit is read as its value, as far as
this fits into 64 bits.
-/

namespace PFabric
namespace Numerals

/-- The value of a digit or letter. -/
def alnumValue (c : Char) : Option ℕ :=
  if c.isDigit then some (c.toNat - '0'.toNat)
  else if c.isLower then some (c.toNat - 'a'.toNat + 10)
  else if c.isUpper then some (c.toNat - 'A'.toNat + 10)
  else none

/-- The value of a digit of the base. -/
def digitValue (base : ℕ) (c : Char) : Option ℕ := (alnumValue c).filter (· < base)

/-- The value of a string, in which a character that is no digit counts as zero. -/
def value (base : ℕ) (t : Text) : ℕ :=
  t.foldl (fun v c => base * v + (digitValue base c).getD 0) 0

variable {base : ℕ}

theorem digitValue_digitChar {d : ℕ} (hd : d < base) (hbase : base ≤ 16) :
    digitValue base (Nat.digitChar d) = some d := by
  have halnum : ∀ d < 16, alnumValue (Nat.digitChar d) = some d := by decide
  rw [digitValue, halnum d (by omega)]
  simp [hd]

theorem value_append_digit (t : Text) (c : Char) :
    value base (t ++ [c]) = base * value base t + (digitValue base c).getD 0 := by
  simp [value]

theorem value_toDigits (hone : 1 < base) (hbase : base ≤ 16) (k : ℕ) :
    value base (Nat.toDigits base k) = k := by
  induction k using Nat.strongRecOn with
  | ind k ih =>
      rw [Nat.toDigits_eq_if hone]
      by_cases hk : k < base
      · rw [if_pos hk, ← List.nil_append [Nat.digitChar k], value_append_digit,
          digitValue_digitChar hk hbase]
        simp [value]
      · have hlt : k / base < k := Nat.div_lt_self (by omega) hone
        have hmod : k % base < base := Nat.mod_lt k (by omega)
        rw [if_neg hk, value_append_digit, ih _ hlt, digitValue_digitChar hmod hbase]
        exact Nat.div_add_mod k base

theorem isSome_digitValue_of_mem_toDigits
    (hone : 1 < base) (hbase : base ≤ 16)
    {k : ℕ} {c : Char} (h : c ∈ Nat.toDigits base k) :
    (digitValue base c).isSome = true := by
  induction k using Nat.strongRecOn with
  | ind k ih =>
      rw [Nat.toDigits_eq_if hone] at h
      by_cases hk : k < base
      · rw [if_pos hk, List.mem_singleton] at h
        rw [h, digitValue_digitChar hk hbase]
        rfl
      · rw [if_neg hk, List.mem_append, List.mem_singleton] at h
        rcases h with h | rfl
        · exact ih _ (Nat.div_lt_self (by omega) hone) h
        · rw [digitValue_digitChar (Nat.mod_lt k (by omega)) hbase]
          rfl

/-- Zeros in front do not count. -/
theorem value_leftpad (n : ℕ) (t : Text) : value base (t.leftpad n '0') = value base t := by
  have hzeros : ∀ m, value base (List.replicate m '0' ++ t) = value base t := by
    intro m
    induction m with
    | zero => rfl
    | succ m ih =>
        have hzero : (digitValue base '0').getD 0 = 0 := by
          have halnum : alnumValue '0' = some 0 := by decide
          rw [digitValue, halnum, Option.filter_some]
          split_ifs <;> rfl
        rw [← ih, List.replicate_succ, List.cons_append, value, List.foldl_cons, hzero]
        rfl
  exact hzeros _

/-! ## Reading -/

def isDigitOf (base : ℕ) (c : Char) : Bool := (digitValue base c).isSome

/-- `isspace` in the C locale. -/
def isSpace (c : Char) : Bool := c ∈ [' ', '\t', '\n', '\x0b', '\x0c', '\r']

/-- A sign in front: whether it is a minus, and what is behind it. -/
def takeSign : Text → Bool × Text
  | [] => (false, [])
  | c :: t => if c = '-' then (true, t) else if c = '+' then (false, t) else (false, c :: t)

/-- `0x` is passed over in base 16, if a digit follows. -/
def dropHexMark (base : ℕ) : Text → Text
  | z :: x :: d :: t =>
      if base = 16 ∧ z = '0' ∧ (x = 'x' ∨ x = 'X') ∧ isDigitOf 16 d then d :: t
      else z :: x :: d :: t
  | t => t

/-- `strtoul`, for 64-bit longs: the number, and the text behind it.  Without digits the
number is zero and the whole text is left; a number that is too large is replaced by the
largest one. -/
def strtoul (base : ℕ) (str : Text) : BitVec 64 × Text :=
  let (minus, t) := takeSign (str.dropWhile isSpace)
  let t := dropHexMark base t
  let digits := t.takeWhile (isDigitOf base)
  if digits = [] then (0#64, str)
  else
    let number := BitVec.ofNat 64 (value base digits)
    (if 2 ^ 64 ≤ value base digits then BitVec.allOnes 64
      else if minus then -number else number,
      t.dropWhile (isDigitOf base))

theorem not_isDigitOf_of_mem {c : Char}
    (h : c ∈ [' ', '\t', '\n', '\x0b', '\x0c', '\r', '-', '+', ':']) :
    isDigitOf base c = false := by
  have hall : [' ', '\t', '\n', '\x0b', '\x0c', '\r', '-', '+', ':'].all
      (fun c => (alnumValue c).isNone) = true := by decide
  have halnum : alnumValue c = none :=
    Option.isNone_iff_eq_none.mp (List.all_eq_true.mp hall c h)
  rw [isDigitOf, digitValue, halnum]
  rfl

/-- A digit is passed over neither as white space nor as a sign. -/
theorem not_isSpace_of_isDigitOf {c : Char} (h : isDigitOf base c = true) :
    isSpace c = false ∧ c ≠ '-' ∧ c ≠ '+' := by
  have hnot : c ∉ [' ', '\t', '\n', '\x0b', '\x0c', '\r', '-', '+', ':'] := fun hmem =>
    absurd ((not_isDigitOf_of_mem hmem).symm.trans h) Bool.false_ne_true
  simp only [List.mem_cons, not_or] at hnot
  simp [isSpace, hnot]

theorem not_isDigitOf_x (hbase : base ≤ 16) : isDigitOf base 'x' = false ∧
    isDigitOf base 'X' = false := by
  have hx : alnumValue 'x' = some 33 ∧ alnumValue 'X' = some 33 := by decide
  have hlt : ¬ 33 < base := by omega
  simp [isDigitOf, digitValue, hx, hlt]

theorem dropHexMark_of_getElem? {t : Text} (h : ∀ c ∈ t[1]?, c ≠ 'x' ∧ c ≠ 'X') :
    dropHexMark base t = t := by
  rcases t with _ | ⟨z, _ | ⟨x, _ | ⟨d, t⟩⟩⟩
  · rfl
  · rfl
  · rfl
  · obtain ⟨hx, hX⟩ := h x rfl
    rw [dropHexMark, if_neg]
    rintro ⟨-, -, hmark, -⟩
    exact hmark.elim hx hX

/-- Nothing is read where no number begins. -/
theorem strtoul_colon (t : Text) : strtoul base (':' :: t) = (0, ':' :: t) := by
  have hcolon : isDigitOf base ':' = false := not_isDigitOf_of_mem (by decide)
  have hmark : dropHexMark base (':' :: t) = ':' :: t := by
    rcases t with _ | ⟨x, _ | ⟨d, t⟩⟩ <;> simp [dropHexMark]
  have hspace : isSpace ':' = false := by decide
  simp [strtoul, hspace, takeSign, hmark, hcolon]

/-- A numeral is read as its value, up to what is no digit. -/
theorem strtoul_toDigits (hone : 1 < base) (hbase : base ≤ 16) (k : ℕ) {t : Text}
    (ht : ∀ c ∈ t.head?, isDigitOf base c = false ∧ c ≠ 'x' ∧ c ≠ 'X') :
    strtoul base (Nat.toDigits base k ++ t) =
      (if 2 ^ 64 ≤ k then BitVec.allOnes 64 else BitVec.ofNat 64 k, t) := by
  have hdigits : ∀ c ∈ Nat.toDigits base k, isDigitOf base c = true := fun _ =>
    isSome_digitValue_of_mem_toDigits hone hbase
  have hvalue := value_toDigits hone hbase k
  obtain ⟨d, ds, hds⟩ := List.exists_cons_of_ne_nil (Nat.toDigits_ne_nil (n := k) (b := base))
  rw [hds] at hdigits hvalue ⊢
  obtain ⟨hspace, hminus, hplus⟩ := not_isSpace_of_isDigitOf (hdigits d List.mem_cons_self)
  have hmark : dropHexMark base (d :: ds ++ t) = d :: ds ++ t := by
    refine dropHexMark_of_getElem? fun c hc => ?_
    cases ds with
    | nil => exact (ht c (by simpa [List.head?_eq_getElem?] using hc)).2
    | cons d' ds =>
        obtain rfl : d' = c := Option.some.inj hc
        have hdigit := hdigits d' (by simp)
        obtain ⟨hx, hX⟩ := not_isDigitOf_x hbase
        constructor
        · rintro rfl
          exact absurd (hx.symm.trans hdigit) Bool.false_ne_true
        · rintro rfl
          exact absurd (hX.symm.trans hdigit) Bool.false_ne_true
  have hstop : t.takeWhile (isDigitOf base) = [] ∧ t.dropWhile (isDigitOf base) = t := by
    cases t with
    | nil => exact ⟨rfl, rfl⟩
    | cons c t => simp [(ht c rfl).1]
  have htake : (d :: ds ++ t).takeWhile (isDigitOf base) = d :: ds := by
    rw [List.takeWhile_append_of_pos hdigits, hstop.1, List.append_nil]
  have hdrop : (d :: ds ++ t).dropWhile (isDigitOf base) = t := by
    rw [List.dropWhile_append_of_pos hdigits, hstop.2]
  have hsign : takeSign ((d :: ds ++ t).dropWhile isSpace) = (false, d :: ds ++ t) := by
    simp [hspace, takeSign, hminus, hplus]
  simp only [strtoul, hsign, hmark, htake, hdrop, hvalue]
  rfl

end Numerals
end PFabric
