import PFabric.Kernel.Data
import PFabric.Support.BitScan
import Mathlib.Data.Finset.Max
import Mathlib.Data.List.FinRange

/-!
# The occupancy bitmap

The bitmap is an array of `W` words of 32 bits; the qdisc is compiled with
`W = bitmapSize`, but the four functions of `sch_pfab.c` are written for any
number of words and are modelled so.  Band `b` is bit `b % 32` of word `b / 32`.

The scans return a C `int`, `-1` when no bit is set.
-/

namespace PFabric

variable {W : ℕ}

/-- The conversion of an unsigned value to `int`. -/
def toCInt (n : ℕ) : ℤ := (BitVec.ofNat 32 n).toInt

theorem toCInt_of_lt {n : ℕ} (h : n < 2 ^ 31) : toCInt n = n := by
  rw [toCInt, BitVec.toInt_eq_toNat_bmod, BitVec.toNat_ofNat]
  rw [Nat.mod_eq_of_lt (by omega)]
  exact Int.bmod_eq_of_le (by omega) (by omega)

/-- The conversion of an `int` to `u32`. -/
def toU32 (band : ℤ) : ℕ := (BitVec.ofInt 32 band).toNat

theorem toU32_natCast {n : ℕ} (h : n < 2 ^ 32) : toU32 n = n := by
  rw [toU32, BitVec.ofInt_natCast, BitVec.toNat_ofNat]
  exact Nat.mod_eq_of_lt h

/-! ## The functions of `sch_pfab.c` -/

/-- The nested loop of both scans, over the word and bit indices in the order
in which the loops visit them; empty words are skipped. -/
def scanBitmap (words : List (Fin W)) (bits : List ℕ)
    (bitmap : Fin W → BitVec 32) : ℤ :=
  (words.findSome? fun i =>
    if bitmap i = 0 then none
    else
      (bits.find? fun j => bitmap i &&& (1#32 <<< j) ≠ 0#32).map
        fun j => toCInt (i * bandsInBitmap + j)).getD (-1)

/-- `bitmap_high_prio`: scan upwards. -/
def bitmapHighPrio (bitmap : Fin W → BitVec 32) : ℤ :=
  scanBitmap (List.finRange W) (List.range bandsInBitmap) bitmap

/-- `bitmap_low_prio`: scan downwards. -/
def bitmapLowPrio (bitmap : Fin W → BitVec 32) : ℤ :=
  scanBitmap (List.finRange W).reverse (List.range bandsInBitmap).reverse bitmap

/-- `BAND_TO_BIT_AND_BMAP`.  A band below `32 * W` has its word inside the
array; the reduction modulo `W` only makes the index total. -/
def bandToBitAndBmap [NeZero W] (band : ℤ) : ℕ × Fin W :=
  (toU32 band % bandsInBitmap, Fin.ofNat W (toU32 band / bandsInBitmap))

/-- `bitmap_add_band`, on the qdisc's bitmap and its copy in `pfab_stats`. -/
def bitmapAddBand [NeZero W] (bitmap stats : Fin W → BitVec 32) (band : ℤ) :
    (Fin W → BitVec 32) × (Fin W → BitVec 32) :=
  let (bit, bMap) := bandToBitAndBmap band
  let word := bitmap bMap ||| (1#32 <<< bit)
  (Function.update bitmap bMap word, Function.update stats bMap word)

/-- `bitmap_remove_band`, on the qdisc's bitmap and its copy in `pfab_stats`. -/
def bitmapRemoveBand [NeZero W] (bitmap stats : Fin W → BitVec 32) (band : ℤ) :
    (Fin W → BitVec 32) × (Fin W → BitVec 32) :=
  let (bit, bMap) := bandToBitAndBmap band
  let word := bitmap bMap &&& ~~~(1#32 <<< bit)
  (Function.update bitmap bMap word, Function.update stats bMap word)

/-! ## The bitmap as a set of bands -/

/-- Bit `b` of the bitmap. -/
def bandBit (bitmap : Fin W → BitVec 32) (b : ℕ) : Bool :=
  if h : b / bandsInBitmap < W then
    (bitmap ⟨b / bandsInBitmap, h⟩).getLsbD (b % bandsInBitmap)
  else false

theorem bandBit_word (bitmap : Fin W → BitVec 32) (i : Fin W) {j : ℕ}
    (hj : j < bandsInBitmap) :
    bandBit bitmap (i * bandsInBitmap + j) = (bitmap i).getLsbD j := by
  have hdiv : (i * bandsInBitmap + j) / bandsInBitmap = i := by
    unfold bandsInBitmap at *
    omega
  have hmod : (i * bandsInBitmap + j) % bandsInBitmap = j := by
    unfold bandsInBitmap at *
    omega
  simp [bandBit, hdiv, hmod]

theorem exists_word_of_bandBit {bitmap : Fin W → BitVec 32} {b : ℕ}
    (hb : bandBit bitmap b = true) :
    ∃ (i : Fin W) (j : ℕ), j < bandsInBitmap ∧
      b = i * bandsInBitmap + j ∧ (bitmap i).getLsbD j = true := by
  rw [bandBit] at hb
  split at hb
  · next h =>
      refine ⟨⟨b / bandsInBitmap, h⟩, b % bandsInBitmap, ?_, ?_, hb⟩
      · exact Nat.mod_lt b (by decide)
      · exact (Nat.div_add_mod' b bandsInBitmap).symm
  · exact absurd hb (by simp)

theorem bandToBitAndBmap_natCast [NeZero W] {b : ℕ}
    (hb : b < bandsInBitmap * W) (hint : b < 2 ^ 32) :
    bandToBitAndBmap (W := W) b =
      (b % bandsInBitmap, ⟨b / bandsInBitmap, Nat.div_lt_of_lt_mul hb⟩) := by
  rw [bandToBitAndBmap, toU32_natCast hint]
  congr 1
  apply Fin.ext
  exact Nat.mod_eq_of_lt (Nat.div_lt_of_lt_mul hb)

theorem mod_eq_iff_of_div_eq {b b' : ℕ}
    (h : b' / bandsInBitmap = b / bandsInBitmap) :
    b' % bandsInBitmap = b % bandsInBitmap ↔ b' = b := by
  unfold bandsInBitmap at *
  omega

/-- Writing one word changes no band outside it. -/
theorem bandBit_update (bitmap : Fin W → BitVec 32) (i : Fin W)
    (word : BitVec 32) (b : ℕ) :
    bandBit (Function.update bitmap i word) b =
      if b / bandsInBitmap = i then word.getLsbD (b % bandsInBitmap)
      else bandBit bitmap b := by
  by_cases hword : b / bandsInBitmap = i
  · have hlt : b / bandsInBitmap < W := hword ▸ i.isLt
    have hi : (⟨b / bandsInBitmap, hlt⟩ : Fin W) = i := Fin.ext hword
    rw [if_pos hword, bandBit, dif_pos hlt, hi, Function.update_self]
  · rw [if_neg hword, bandBit, bandBit]
    split
    · next hlt =>
        have hi : (⟨b / bandsInBitmap, hlt⟩ : Fin W) ≠ i := by
          intro h
          exact hword (congrArg Fin.val h)
        rw [Function.update_of_ne hi]
    · rfl

/-- `bitmap_add_band` inserts its band and leaves every other band alone. -/
theorem bandBit_bitmapAddBand [NeZero W] (bitmap stats : Fin W → BitVec 32)
    {b : ℕ} (hb : b < bandsInBitmap * W) (hint : b < 2 ^ 32) (b' : ℕ) :
    bandBit (bitmapAddBand bitmap stats b).1 b' =
      (decide (b' = b) || bandBit bitmap b') := by
  simp only [bitmapAddBand, bandToBitAndBmap_natCast hb hint, bandBit_update]
  split
  · next hword =>
      rw [getLsbD_or_shiftLeft_one _ (Nat.mod_lt b (by decide))]
      simp only [mod_eq_iff_of_div_eq hword, bandBit, hword,
        dif_pos (Nat.div_lt_of_lt_mul hb)]
  · next hword =>
      have hne : b' ≠ b := fun h => hword (by rw [h])
      simp [hne]

/-- `bitmap_remove_band` erases its band and leaves every other band alone. -/
theorem bandBit_bitmapRemoveBand [NeZero W] (bitmap stats : Fin W → BitVec 32)
    {b : ℕ} (hb : b < bandsInBitmap * W) (hint : b < 2 ^ 32) (b' : ℕ) :
    bandBit (bitmapRemoveBand bitmap stats b).1 b' =
      (!decide (b' = b) && bandBit bitmap b') := by
  simp only [bitmapRemoveBand, bandToBitAndBmap_natCast hb hint, bandBit_update]
  split
  · next hword =>
      rw [getLsbD_and_not_shiftLeft_one]
      simp only [mod_eq_iff_of_div_eq hword, bandBit, hword,
        dif_pos (Nat.div_lt_of_lt_mul hb)]
  · next hword =>
      have hne : b' ≠ b := fun h => hword (by rw [h])
      simp [hne]

/-! ## What the scans return -/

section Scan

variable {words : List (Fin W)} {bits : List ℕ} (bitmap : Fin W → BitVec 32)

/-- The search inside one word finds a bit exactly when the word has one. -/
theorem scanWord_isSome_iff (hbits : ∀ j, j ∈ bits ↔ j < bandsInBitmap)
    (i : Fin W) :
    (if bitmap i = 0 then none
      else
        (bits.find? fun j => bitmap i &&& (1#32 <<< j) ≠ 0#32).map
          fun j => toCInt (i * bandsInBitmap + j)).isSome ↔
      ∃ j, (bitmap i).getLsbD j = true := by
  split
  · next hzero => simp [hzero]
  · rw [Option.isSome_map, List.find?_isSome]
    constructor
    · rintro ⟨j, _, hj⟩
      exact ⟨j, (and_shiftLeft_one_ne_zero_iff _ j).mp (of_decide_eq_true hj)⟩
    · rintro ⟨j, hj⟩
      refine ⟨j, (hbits j).mpr (BitVec.lt_of_getLsbD hj), ?_⟩
      exact decide_eq_true ((and_shiftLeft_one_ne_zero_iff _ j).mpr hj)

/-- The scan returns `-1` on an empty bitmap, and otherwise the band that comes
first in the order `R` in which the loops visit the bands. -/
theorem scanBitmap_spec {R : ℕ → ℕ → Prop}
    {rWord : Fin W → Fin W → Prop} {rBit : ℕ → ℕ → Prop}
    (hwords : words.Pairwise rWord) (hall : ∀ i, i ∈ words)
    (hbits : bits.Pairwise rBit) (hmem : ∀ j, j ∈ bits ↔ j < bandsInBitmap)
    (hRword : ∀ i i' j j', rWord i i' → j < bandsInBitmap → j' < bandsInBitmap →
      R (i * bandsInBitmap + j) (i' * bandsInBitmap + j'))
    (hRbit : ∀ (i : Fin W) j j', rBit j j' →
      R (i * bandsInBitmap + j) (i * bandsInBitmap + j')) :
    (scanBitmap words bits bitmap = -1 ∧ ∀ b, bandBit bitmap b = false) ∨
      ∃ b, scanBitmap words bits bitmap = toCInt b ∧ bandBit bitmap b = true ∧
        ∀ b', bandBit bitmap b' = true → b' = b ∨ R b b' := by
  rw [scanBitmap]
  cases hscan : words.findSome? _ with
  | none =>
      left
      refine ⟨rfl, ?_⟩
      intro b
      by_contra hb
      rw [Bool.not_eq_false] at hb
      obtain ⟨i, j, _, rfl, hbit⟩ := exists_word_of_bandBit hb
      have hsome := (scanWord_isSome_iff bitmap hmem i).mpr ⟨j, hbit⟩
      rw [List.findSome?_eq_none_iff.mp hscan i (hall i)] at hsome
      exact absurd hsome (by simp)
  | some prio =>
      right
      obtain ⟨i, _, hi, hfirst⟩ := findSome?_first hwords hscan
      split at hi
      · exact absurd hi (by simp)
      obtain ⟨j, hfind, rfl⟩ := Option.map_eq_some_iff.mp hi
      obtain ⟨hjmem, hjbit, hjfirst⟩ := find?_first hbits hfind
      have hj : j < bandsInBitmap := (hmem j).mp hjmem
      refine ⟨i * bandsInBitmap + j, rfl, ?_, ?_⟩
      · rw [bandBit_word bitmap i hj]
        exact (and_shiftLeft_one_ne_zero_iff _ j).mp (of_decide_eq_true hjbit)
      · intro b' hb'
        obtain ⟨i', j', hj', rfl, hbit'⟩ := exists_word_of_bandBit hb'
        rcases hfirst i' (hall i') ((scanWord_isSome_iff bitmap hmem i').mpr ⟨j', hbit'⟩)
          with rfl | hlater
        · have htest : decide (bitmap i' &&& (1#32 <<< j') ≠ 0#32) = true :=
            decide_eq_true ((and_shiftLeft_one_ne_zero_iff _ j').mpr hbit')
          rcases hjfirst j' ((hmem j').mpr hj') htest with rfl | hlater
          · exact Or.inl rfl
          · exact Or.inr (hRbit i' j j' hlater)
        · exact Or.inr (hRword i i' j j' hlater hj hj')

/-- `bitmap_high_prio` returns the least band of a non-empty bitmap. -/
theorem bitmapHighPrio_spec :
    (bitmapHighPrio bitmap = -1 ∧ ∀ b, bandBit bitmap b = false) ∨
      ∃ b, bitmapHighPrio bitmap = toCInt b ∧ bandBit bitmap b = true ∧
        ∀ b', bandBit bitmap b' = true → b ≤ b' := by
  have hspec := scanBitmap_spec (R := fun b b' => b < b') bitmap
    (List.pairwise_lt_finRange W) List.mem_finRange
    (List.pairwise_lt_range (n := bandsInBitmap)) (fun _ => List.mem_range)
    (fun i i' j j' hlt hj hj' => by
      have : (i : ℕ) < i' := hlt
      unfold bandsInBitmap at *
      omega)
    (fun i j j' hlt => by omega)
  refine hspec.imp id ?_
  rintro ⟨b, hret, hbit, hleast⟩
  exact ⟨b, hret, hbit, fun b' hb' => by
    rcases hleast b' hb' with rfl | hlt
    · exact le_refl b'
    · exact le_of_lt hlt⟩

/-- `bitmap_low_prio` returns the greatest band of a non-empty bitmap. -/
theorem bitmapLowPrio_spec :
    (bitmapLowPrio bitmap = -1 ∧ ∀ b, bandBit bitmap b = false) ∨
      ∃ b, bitmapLowPrio bitmap = toCInt b ∧ bandBit bitmap b = true ∧
        ∀ b', bandBit bitmap b' = true → b' ≤ b := by
  have hspec := scanBitmap_spec (R := fun b b' => b' < b) bitmap
    (List.pairwise_reverse.mpr (List.pairwise_lt_finRange W))
    (fun i => List.mem_reverse.mpr (List.mem_finRange i))
    (List.pairwise_reverse.mpr (List.pairwise_lt_range (n := bandsInBitmap)))
    (fun _ => List.mem_reverse.trans List.mem_range)
    (fun i i' j j' hlt hj hj' => by
      have : (i' : ℕ) < i := hlt
      unfold bandsInBitmap at *
      omega)
    (fun i j j' hlt => by omega)
  refine hspec.imp id ?_
  rintro ⟨b, hret, hbit, hgreatest⟩
  exact ⟨b, hret, hbit, fun b' hb' => by
    rcases hgreatest b' hb' with rfl | hlt
    · exact le_refl b'
    · exact le_of_lt hlt⟩

end Scan

/-! ## The bitmap of the qdisc -/

instance : NeZero bitmapSize := ⟨by decide⟩

/-- The bands marked in the qdisc's bitmap. -/
def markedBands (bitmap : Fin bitmapSize → BitVec 32) : Finset Band :=
  Finset.univ.filter fun b => bandBit bitmap b = true

section Marked

variable (bitmap stats : Fin bitmapSize → BitVec 32)

theorem mem_markedBands {b : Band} :
    b ∈ markedBands bitmap ↔ bandBit bitmap b = true := by
  simp [markedBands]

/-- A set bit is a band of the qdisc. -/
theorem lt_numBands_of_bandBit {b : ℕ} (hb : bandBit bitmap b = true) :
    b < numBands := by
  obtain ⟨i, j, hj, rfl, _⟩ := exists_word_of_bandBit hb
  have hi : (i : ℕ) < 1 := i.isLt
  unfold bandsInBitmap numBands at *
  omega

theorem toCInt_band (b : Band) : toCInt b = b :=
  toCInt_of_lt (lt_trans b.isLt (by decide))

theorem band_lt_words (b : Band) : (b : ℕ) < bandsInBitmap * bitmapSize :=
  b.isLt

theorem band_lt_u32 (b : Band) : (b : ℕ) < 2 ^ 32 :=
  lt_trans b.isLt (by decide)

theorem markedBands_bitmapAddBand (b : Band) :
    markedBands (bitmapAddBand bitmap stats (b : ℕ)).1 =
      insert b (markedBands bitmap) := by
  ext b'
  rw [Finset.mem_insert, mem_markedBands, mem_markedBands,
    bandBit_bitmapAddBand bitmap stats (band_lt_words b) (band_lt_u32 b)]
  simp [Fin.ext_iff]

theorem markedBands_bitmapRemoveBand (b : Band) :
    markedBands (bitmapRemoveBand bitmap stats (b : ℕ)).1 =
      (markedBands bitmap).erase b := by
  ext b'
  rw [Finset.mem_erase, mem_markedBands, mem_markedBands,
    bandBit_bitmapRemoveBand bitmap stats (band_lt_words b) (band_lt_u32 b)]
  simp [Fin.ext_iff]

/-- A scan that returns the first band in the order `R` returns the marked band
that `first` picks by this order. -/
theorem scan_eq_dite {R : ℕ → ℕ → Prop} {prio : ℤ}
    (hspec : (prio = -1 ∧ ∀ b, bandBit bitmap b = false) ∨
      ∃ b, prio = toCInt b ∧ bandBit bitmap b = true ∧
        ∀ b', bandBit bitmap b' = true → R b b')
    (first : (markedBands bitmap).Nonempty → Band)
    (hfirst : ∀ h, ∀ b ∈ markedBands bitmap, (∀ b' ∈ markedBands bitmap, R b b') → first h = b) :
    prio = if h : (markedBands bitmap).Nonempty then ((first h : ℕ) : ℤ) else -1 := by
  rcases hspec with ⟨hret, hnone⟩ | ⟨b, hret, hbit, hbefore⟩
  · have hempty : ¬ (markedBands bitmap).Nonempty := by
      rintro ⟨b, hb⟩
      rw [mem_markedBands, hnone b] at hb
      exact absurd hb (by simp)
    rw [dif_neg hempty, hret]
  · let band : Band := ⟨b, lt_numBands_of_bandBit bitmap hbit⟩
    have hmem : band ∈ markedBands bitmap := (mem_markedBands bitmap).mpr hbit
    have hband : first ⟨band, hmem⟩ = band :=
      hfirst _ band hmem fun b' hb' => hbefore b' ((mem_markedBands bitmap).mp hb')
    rw [dif_pos ⟨band, hmem⟩, hband, hret]
    exact toCInt_band band

/-- The most urgent marked band, as the scan reports it. -/
theorem bitmapHighPrio_eq :
    bitmapHighPrio bitmap =
      if h : (markedBands bitmap).Nonempty then
        (((markedBands bitmap).min' h : ℕ) : ℤ) else -1 := by
  refine scan_eq_dite bitmap (bitmapHighPrio_spec bitmap) (markedBands bitmap).min' ?_
  intro h b hb hleast
  exact le_antisymm (Finset.min'_le _ b hb) (Finset.le_min' _ h b hleast)

/-- The least urgent marked band, as the scan reports it. -/
theorem bitmapLowPrio_eq :
    bitmapLowPrio bitmap =
      if h : (markedBands bitmap).Nonempty then
        (((markedBands bitmap).max' h : ℕ) : ℤ) else -1 := by
  refine scan_eq_dite bitmap (bitmapLowPrio_spec bitmap) (markedBands bitmap).max' ?_
  intro h b hb hgreatest
  exact le_antisymm (Finset.max'_le _ h b hgreatest) (Finset.le_max' _ b hb)

end Marked

end PFabric
