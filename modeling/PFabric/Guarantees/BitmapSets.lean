import Mathlib.Order.Bounds.Basic
import PFabric.Kernel.Bitmap

/-!
# The bitmap as a set of bands

The four bitmap functions for any number of words, in terms of the set of bands
whose bit is on.  The functions take and return a band as a C `int`: what they
compute is right as long as every band is one.
-/

namespace PFabric

variable {W : ℕ}

/-- The bands whose bit is on. -/
def bands (bitmap : Fin W → BitVec 32) : Finset ℕ :=
  (Finset.range (32 * W)).filter fun b => bandBit bitmap b = true

/-- The updates insert and erase their band, and the scans return the least and
the greatest one. -/
structure SetAlgebra [NeZero W] (bitmap : Fin W → BitVec 32) : Prop where
  add : ∀ stats (b : ℕ), b < 32 * W →
    bands (bitmapAddBand bitmap stats b).1 = insert b (bands bitmap)
  remove : ∀ stats (b : ℕ), b < 32 * W →
    bands (bitmapRemoveBand bitmap stats b).1 = (bands bitmap).erase b
  high_eq_neg_one_iff : bitmapHighPrio bitmap = -1 ↔ bands bitmap = ∅
  high_isLeast : (bands bitmap).Nonempty →
    ∃ b < 32 * W, bitmapHighPrio bitmap = (b : ℤ) ∧ IsLeast (bands bitmap : Set ℕ) b
  low_eq_neg_one_iff : bitmapLowPrio bitmap = -1 ↔ bands bitmap = ∅
  low_isGreatest : (bands bitmap).Nonempty →
    ∃ b < 32 * W, bitmapLowPrio bitmap = (b : ℤ) ∧ IsGreatest (bands bitmap : Set ℕ) b

/-! ## Updates -/

theorem mem_bands {bitmap : Fin W → BitVec 32} {b : ℕ} :
    b ∈ bands bitmap ↔ bandBit bitmap b = true := by
  rw [bands, Finset.mem_filter, Finset.mem_range, and_iff_right_iff_imp]
  intro hb
  obtain ⟨i, j, hj, rfl, -⟩ := exists_word_of_bandBit hb
  have hi : (i : ℕ) < W := i.isLt
  unfold bandsInBitmap at *
  omega

theorem lt_of_mem_bands {bitmap : Fin W → BitVec 32} {b : ℕ} (hb : b ∈ bands bitmap) :
    b < 32 * W :=
  Finset.mem_range.mp (Finset.mem_filter.mp hb).1

theorem bands_bitmapAddBand [NeZero W] (bitmap stats : Fin W → BitVec 32) {b : ℕ}
    (hb : b < 32 * W) (hint : b < 2 ^ 32) :
    bands (bitmapAddBand bitmap stats b).1 = insert b (bands bitmap) := by
  ext b'
  rw [Finset.mem_insert, mem_bands, mem_bands, bandBit_bitmapAddBand bitmap stats hb hint]
  simp

theorem bands_bitmapRemoveBand [NeZero W] (bitmap stats : Fin W → BitVec 32) {b : ℕ}
    (hb : b < 32 * W) (hint : b < 2 ^ 32) :
    bands (bitmapRemoveBand bitmap stats b).1 = (bands bitmap).erase b := by
  ext b'
  rw [Finset.mem_erase, mem_bands, mem_bands, bandBit_bitmapRemoveBand bitmap stats hb hint]
  simp

/-! ## Scans -/

/-- What both scans return when every band is an `int`; `Q` says which band. -/
theorem scan_cases {bitmap : Fin W → BitVec 32} {ret : ℤ} {Q : ℕ → Prop} (hW : 32 * W ≤ 2 ^ 31)
    (hspec : (ret = -1 ∧ ∀ b, bandBit bitmap b = false) ∨
      ∃ b, ret = toCInt b ∧ bandBit bitmap b = true ∧ Q b) :
    (ret = -1 ∧ bands bitmap = ∅) ∨ ∃ b ∈ bands bitmap, ret = (b : ℤ) ∧ Q b := by
  rcases hspec with ⟨hret, hnone⟩ | ⟨b, hret, hbit, hQ⟩
  · left
    refine ⟨hret, Finset.eq_empty_of_forall_notMem fun b hb => ?_⟩
    rw [mem_bands, hnone b] at hb
    exact Bool.false_ne_true hb
  · right
    have hb : b ∈ bands bitmap := mem_bands.mpr hbit
    have hlt : b < 2 ^ 31 := (lt_of_mem_bands hb).trans_le hW
    exact ⟨b, hb, hret.trans (toCInt_of_lt hlt), hQ⟩

section Cases

variable {bitmap : Fin W → BitVec 32} {ret : ℤ} {Q : ℕ → Prop}
  (hcases : (ret = -1 ∧ bands bitmap = ∅) ∨ ∃ b ∈ bands bitmap, ret = (b : ℤ) ∧ Q b)

include hcases

theorem scan_eq_neg_one_iff : ret = -1 ↔ bands bitmap = ∅ := by
  rcases hcases with ⟨hret, hempty⟩ | ⟨b, hb, hret, -⟩
  · exact iff_of_true hret hempty
  · exact iff_of_false (by omega) (Finset.ne_empty_of_mem hb)

theorem exists_scan_eq (hne : (bands bitmap).Nonempty) :
    ∃ b ∈ bands bitmap, ret = (b : ℤ) ∧ Q b := by
  rcases hcases with ⟨-, hempty⟩ | hsome
  · exact absurd hempty hne.ne_empty
  · exact hsome

end Cases

/-- With at most `2 ^ 31` bands the bitmap functions are the set operations, for
every number of words and every contents. -/
theorem setAlgebra_of_bands_le [NeZero W] (hW : 32 * W ≤ 2 ^ 31) (bitmap : Fin W → BitVec 32) :
    SetAlgebra bitmap := by
  have hhigh := scan_cases hW (bitmapHighPrio_spec bitmap)
  have hlow := scan_cases hW (bitmapLowPrio_spec bitmap)
  refine
    { add := fun stats b hb => bands_bitmapAddBand bitmap stats hb (by omega)
      remove := fun stats b hb => bands_bitmapRemoveBand bitmap stats hb (by omega)
      high_eq_neg_one_iff := scan_eq_neg_one_iff hhigh
      high_isLeast := fun hne => ?_
      low_eq_neg_one_iff := scan_eq_neg_one_iff hlow
      low_isGreatest := fun hne => ?_ }
  · obtain ⟨b, hb, hret, hleast⟩ := exists_scan_eq hhigh hne
    exact ⟨b, lt_of_mem_bands hb, hret, hb, fun b' hb' => hleast b' (mem_bands.mp hb')⟩
  · obtain ⟨b, hb, hret, hgreatest⟩ := exists_scan_eq hlow hne
    exact ⟨b, lt_of_mem_bands hb, hret, hb, fun b' hb' => hgreatest b' (mem_bands.mp hb')⟩

/-- Two words, with the last band of the first and the first of the second. -/
theorem setAlgebra_two_words : SetAlgebra ![0x80000000#32, 1#32] :=
  setAlgebra_of_bands_le (by decide) _

/-! ## More bands than an `int` counts -/

/-- One word more, and only its first band on. -/
def bandTwoPow31 : Fin (2 ^ 26 + 1) → BitVec 32 :=
  Function.update (fun _ => 0#32) (Fin.last (2 ^ 26)) 1#32

theorem bandBit_bandTwoPow31 (b : ℕ) : bandBit bandTwoPow31 b = true ↔ b = 2 ^ 31 := by
  have hone : ∀ j, (1#32).getLsbD j = true ↔ j = 0 := by
    intro j
    rw [BitVec.getLsbD_one]
    simp
  have hzero : bandBit (fun _ : Fin (2 ^ 26 + 1) => 0#32) b = false := by simp [bandBit]
  rw [bandTwoPow31, bandBit_update, hzero, Fin.val_last]
  split
  · rw [hone]
    unfold bandsInBitmap at *
    omega
  · unfold bandsInBitmap at *
    refine iff_of_false Bool.false_ne_true ?_
    omega

/-- `bitmap_high_prio` returns a negative band although the bitmap is not empty. -/
theorem not_setAlgebra_bandTwoPow31 : ¬ SetAlgebra bandTwoPow31 := by
  intro h
  have hne : (bands bandTwoPow31).Nonempty :=
    ⟨2 ^ 31, mem_bands.mpr ((bandBit_bandTwoPow31 _).mpr rfl)⟩
  obtain ⟨b, -, hret, -⟩ := h.high_isLeast hne
  rcases bitmapHighPrio_spec bandTwoPow31 with ⟨-, hnone⟩ | ⟨b', hret', hbit, -⟩
  · have hbit := (bandBit_bandTwoPow31 (2 ^ 31)).mpr rfl
    rw [hnone] at hbit
    exact Bool.false_ne_true hbit
  · rw [(bandBit_bandTwoPow31 b').mp hbit] at hret'
    have hneg : toCInt (2 ^ 31) = -2 ^ 31 := by decide
    omega

end PFabric
