import PFabric.Support.Numerals

/-!
# Formatted output of C

A format is a list of pieces: texts and the conversions `%d`, `%u`, `%llu` and
`%08x`.  The arguments are the 64-bit words in which a caller passes them; a
conversion without `ll` reads the lower half of its word.

A format in which every conversion is followed by a character that it cannot print
itself shows all the numbers that are put into it.
-/

namespace PFabric
namespace Printf

open Text

inductive Conv
  | d
  | u
  | llu
  | x08
deriving DecidableEq

inductive Piece
  | lit (t : String)
  | conv (conv : Conv)
deriving DecidableEq

/-- What a conversion makes of its argument. -/
def Conv.print : Conv → BitVec 64 → Text
  | .d, w => ofInt (w.setWidth 32).toInt
  | .u, w => decimal (w.setWidth 32).toNat
  | .llu, w => decimal w.toNat
  | .x08, w => (Nat.toDigits 16 (w.setWidth 32).toNat).leftpad 8 '0'

/-- What is printed.  A missing argument, which the standard leaves undefined, ends
the output. -/
def printf : List Piece → List (BitVec 64) → Text
  | [], _ => []
  | .lit t :: format, args => t.toList ++ printf format args
  | .conv conv :: format, w :: args => conv.print w ++ printf format args
  | .conv _ :: _, [] => []

/-- A `u32` as an argument. -/
def u32 (v : BitVec 32) : BitVec 64 := v.setWidth 64

@[simp] theorem print_d_u32 (v : BitVec 32) : Conv.d.print (u32 v) = ofInt v.toInt := by
  rw [Conv.print, u32, BitVec.setWidth_setWidth_of_le _ (by decide), BitVec.setWidth_eq]

@[simp] theorem print_u_u32 (v : BitVec 32) : Conv.u.print (u32 v) = decimal v.toNat := by
  rw [Conv.print, u32, BitVec.setWidth_setWidth_of_le _ (by decide), BitVec.setWidth_eq]

@[simp] theorem print_llu (w : BitVec 64) : Conv.llu.print w = decimal w.toNat := rfl

/-! ## Reading output back -/

/-- The number a conversion shows. -/
def Conv.shown : Conv → BitVec 64 → ℤ
  | .d, w => (w.setWidth 32).toInt
  | .u, w => (w.setWidth 32).toNat
  | .llu, w => w.toNat
  | .x08, w => (w.setWidth 32).toNat

/-- The characters a conversion prints. -/
def Conv.prints : Conv → Char → Bool
  | .d, c => c = '-' || c.isDigit
  | .u, c => c.isDigit
  | .llu, c => c.isDigit
  | .x08, c => (Numerals.digitValue 16 c).isSome

theorem Conv.prints_of_mem {conv : Conv} {w : BitVec 64} {c : Char} (h : c ∈ conv.print w) :
    conv.prints c = true := by
  cases conv with
  | d => simpa [Conv.prints] using mem_ofInt h
  | u => exact isDigit_of_mem_decimal h
  | llu => exact isDigit_of_mem_decimal h
  | x08 =>
      rw [Conv.print, List.leftpad, List.mem_append] at h
      rcases h with h | h
      · rw [List.eq_of_mem_replicate h]
        decide
      · exact Numerals.isSome_digitValue_of_mem_toDigits (by decide) (by decide) h

theorem Conv.shown_eq_of_print_eq {conv : Conv} {w w' : BitVec 64}
    (h : conv.print w = conv.print w') : conv.shown w = conv.shown w' := by
  cases conv with
  | d => exact ofInt_injective h
  | u => exact congrArg Nat.cast (decimal_injective h)
  | llu => exact congrArg Nat.cast (decimal_injective h)
  | x08 =>
      have hvalue := congrArg (Numerals.value 16) h
      simp only [Conv.print, Numerals.value_leftpad,
        Numerals.value_toDigits (show 1 < 16 by decide) (Nat.le_refl 16)] at hvalue
      exact congrArg Nat.cast hvalue

/-- The format goes on with a character that the conversion does not print. -/
def Conv.endsAt (conv : Conv) : List Piece → Bool
  | .lit t :: _ => t.toList.head?.any fun c => !conv.prints c
  | _ => false

/-- Every conversion ends where its number does. -/
def separated : List Piece → Bool
  | [] => true
  | .lit _ :: format => separated format
  | .conv conv :: format => conv.endsAt format && separated format

/-- The numbers shown in the output. -/
def shown : List Piece → List (BitVec 64) → List ℤ
  | .lit _ :: format, args => shown format args
  | .conv conv :: format, w :: args => conv.shown w :: shown format args
  | _, _ => []

theorem Conv.not_prints_head {conv : Conv} {format : List Piece} (h : conv.endsAt format = true)
    (args : List (BitVec 64)) (v : Text) :
    ∀ c ∈ (printf format args ++ v).head?, conv.prints c = false := by
  rcases format with _ | ⟨t | _, format⟩
  · exact absurd h Bool.false_ne_true
  · rw [Conv.endsAt, Option.any_eq_true] at h
    obtain ⟨c, hc, hprints⟩ := h
    intro c' hc'
    rw [printf, List.append_assoc, List.head?_append, hc] at hc'
    obtain rfl : c = c' := Option.some.inj hc'
    simpa using hprints
  · exact absurd h Bool.false_ne_true

/-- The output of a separated format shows the numbers put into it, and ends where it
ends. -/
theorem printf_append_inj {format : List Piece} {args args' : List (BitVec 64)} {v w : Text}
    (h : printf format args ++ v = printf format args' ++ w)
    (hlen : args.length = args'.length) (hsep : separated format = true) :
    shown format args = shown format args' ∧ v = w := by
  induction format generalizing args args' with
  | nil => exact ⟨rfl, h⟩
  | cons piece format ih =>
      cases piece with
      | lit t =>
          rw [printf, printf, List.append_assoc, List.append_assoc] at h
          exact ih (List.append_cancel_left h) hlen hsep
      | conv conv =>
          obtain ⟨hends, hsep⟩ := Bool.and_eq_true_iff.mp hsep
          cases args with
          | nil =>
              obtain rfl := List.eq_nil_of_length_eq_zero hlen.symm
              exact ⟨rfl, h⟩
          | cons a args =>
              obtain ⟨a', args', rfl⟩ := List.exists_cons_of_length_eq_add_one hlen.symm
              rw [printf, printf, List.append_assoc, List.append_assoc] at h
              obtain ⟨hprint, hrest⟩ := append_inj_of_stop (fun _ => Conv.prints_of_mem)
                (fun _ => Conv.prints_of_mem) (conv.not_prints_head hends args v)
                (conv.not_prints_head hends args' w) h
              obtain ⟨hshown, hvw⟩ := ih hrest (Nat.succ.inj hlen) hsep
              rw [shown, shown, hshown, Conv.shown_eq_of_print_eq hprint]
              exact ⟨rfl, hvw⟩

end Printf
end PFabric
