import Mathlib.Data.BitVec
import PFabric.Tc.Handles

/-!
# Handles read back

What `print_tc_classid` prints is read by `get_tc_classid` as the same handle, for every
handle.  `get_qdisc_handle` stops at the colon: given the text of a class it returns the
qdisc of the class, and it accepts anything behind the colon.  Both cut the number they
read to 32 bits first.
-/

namespace PFabric

open Numerals

/-! ## Numbers -/

/-- What is left of a number that was read as a `long`. -/
def long32 (k : ℕ) : BitVec 32 :=
  (if 2 ^ 64 ≤ k then BitVec.allOnes 64 else BitVec.ofNat 64 k).setWidth 32

theorem long32_of_lt {k : ℕ} (h : k < 2 ^ 32) : long32 k = BitVec.ofNat 32 k := by
  have hlt : ¬ 2 ^ 64 ≤ k := by omega
  rw [long32, if_neg hlt]
  apply BitVec.eq_of_toNat_eq
  simp only [BitVec.toNat_setWidth, BitVec.toNat_ofNat]
  omega

theorem long32_toNat (v : BitVec 32) : long32 v.toNat = v := by
  rw [long32_of_lt v.isLt, BitVec.ofNat_toNat, BitVec.setWidth_eq]

/-- The text of a number that may be left out. -/
def numeral (k : Option ℕ) : Text := k.elim [] (Nat.toDigits 16)

/-- The value of a number that may be left out. -/
def half (k : Option ℕ) : BitVec 32 := k.elim 0#32 long32

theorem strtoul_numeral_colon (k : Option ℕ) (t : Text) :
    (strtoul 16 (numeral k ++ ':' :: t)).1.setWidth 32 = half k ∧
      (strtoul 16 (numeral k ++ ':' :: t)).2 = ':' :: t := by
  cases k with
  | none => exact ⟨congrArg (fun r => r.1.setWidth 32) (strtoul_colon t), by
      rw [numeral, Option.elim_none, List.nil_append, strtoul_colon]⟩
  | some k =>
      have hread := strtoul_toDigits (show 1 < 16 by decide) (le_refl 16) k (t := ':' :: t) ?_
      · exact ⟨congrArg (fun r => r.1.setWidth 32) hread, congrArg Prod.snd hread⟩
      · intro c hc
        obtain rfl : ':' = c := Option.some.inj hc
        exact ⟨not_isDigitOf_of_mem (by decide), by decide, by decide⟩

theorem strtoul_numeral (k : Option ℕ) :
    (strtoul 16 (numeral k)).1.setWidth 32 = half k ∧ (strtoul 16 (numeral k)).2 = [] := by
  cases k with
  | none => exact ⟨rfl, rfl⟩
  | some k =>
      have hread := strtoul_toDigits (show 1 < 16 by decide) (le_refl 16) k (t := []) (by simp)
      rw [List.append_nil] at hread
      exact ⟨congrArg (fun r => r.1.setWidth 32) hread, congrArg Prod.snd hread⟩

/-! ## Reading -/

/-- A text with a colon is no keyword. -/
theorem ne_of_colon {u : Text} (hu : ':' ∉ u) (t v : Text) : t ++ ':' :: v ≠ u := by
  rintro rfl
  exact hu (by simp)

theorem numeral_ne_nil (k : ℕ) : numeral (some k) ≠ [] := Nat.toDigits_ne_nil

/-- The class with these numbers, if both are in range. -/
def classidOf (maj min : BitVec 32) : Option (BitVec 32) :=
  if 0x10000#32 ≤ maj then none else if 0x10000#32 ≤ min then none else some (maj <<< 16 ||| min)

/-- Two numbers with a colon between them, either of which may be left out. -/
theorem getTcClassid_numerals (j k : Option ℕ) :
    getTcClassid (numeral j ++ ':' :: numeral k) = classidOf (half j) (half k) := by
  obtain ⟨hmaj, hrest⟩ := strtoul_numeral_colon j (numeral k)
  obtain ⟨hmin, hend⟩ := strtoul_numeral k
  have hhalf : (if ':' :: numeral k = numeral j ++ ':' :: numeral k then 0#32 else half j) =
      half j := by
    cases j with
    | none => exact ite_self _
    | some j =>
        refine if_neg fun heq => numeral_ne_nil j ?_
        simpa using heq
  rw [getTcClassid, if_neg (ne_of_colon (by decide) _ _), if_neg (ne_of_colon (by decide) _ _)]
  simp only [hrest, hmaj, hhalf, hmin, hend, List.head?_cons, ne_eq, not_true, and_false,
    if_false, classidOf]

/-- `get_qdisc_handle` reads up to the colon. -/
theorem getQdiscHandle_numeral (j : Option ℕ) (t : Text) :
    getQdiscHandle (numeral j ++ ':' :: t) = j.map fun j => long32 j <<< 16 := by
  obtain ⟨hmaj, hrest⟩ := strtoul_numeral_colon j t
  rw [getQdiscHandle, if_neg (ne_of_colon (by decide) _ _)]
  simp only [hrest, hmaj]
  cases j with
  | none => simp [numeral]
  | some j =>
      have hne : ':' :: t ≠ numeral (some j) ++ ':' :: t := by
        intro heq
        refine numeral_ne_nil j ?_
        simpa using heq
      simp [hne, half]

/-! ## Printing -/

theorem toNat_tcHMin (h : BitVec 32) : (tcHMin h).toNat = h.toNat % 2 ^ 16 := by
  rw [tcHMin, BitVec.toNat_and]
  exact Nat.and_two_pow_sub_one_eq_mod h.toNat 16

theorem getLsbD_tcHMaj (h : BitVec 32) (i : ℕ) :
    (tcHMaj h).getLsbD i = (decide (16 ≤ i) && h.getLsbD i) := by
  have hmask : ∀ i < 32, (0xFFFF0000#32).getLsbD i = decide (16 ≤ i) := by decide
  rw [tcHMaj, BitVec.getLsbD_and]
  by_cases hi : i < 32
  · rw [hmask i hi, Bool.and_comm]
  · simp [BitVec.getLsbD_of_ge h i (by omega)]

theorem tcHMaj_shift (h : BitVec 32) : tcHMaj h >>> 16 = h >>> 16 := by
  apply BitVec.eq_of_getLsbD_eq
  intro i _
  simp [getLsbD_tcHMaj]

theorem tcHMaj_eq (h : BitVec 32) : tcHMaj h = (h >>> 16) <<< 16 := by
  apply BitVec.eq_of_getLsbD_eq
  intro i hi
  rw [getLsbD_tcHMaj, BitVec.getLsbD_shiftLeft, BitVec.getLsbD_ushiftRight]
  by_cases hle : 16 ≤ i
  · have hsub : 16 + (i - 16) = i := by omega
    simp [hle, hi, hsub]
  · simp [hle, Nat.lt_of_not_le hle]

theorem toNat_shift_lt (h : BitVec 32) : (h >>> 16).toNat < 2 ^ 16 := by
  have hlt := h.isLt
  rw [BitVec.toNat_ushiftRight, Nat.shiftRight_eq_div_pow]
  omega

/-- The two numbers make up the handle. -/
theorem classidOf_parts (h : BitVec 32) : classidOf (h >>> 16) (tcHMin h) = some h := by
  have hmaj : ¬ 0x10000#32 ≤ h >>> 16 := by
    have hlt := toNat_shift_lt h
    rw [BitVec.le_def]
    exact not_le.mpr hlt
  have hmin : ¬ 0x10000#32 ≤ tcHMin h := by
    rw [BitVec.le_def, toNat_tcHMin]
    exact not_le.mpr (Nat.mod_lt _ (by decide))
  have hmasks : 0xFFFF0000#32 ||| 0x0000FFFF#32 = BitVec.allOnes 32 := by decide
  rw [classidOf, if_neg hmaj, if_neg hmin, ← tcHMaj_eq, tcHMaj, tcHMin,
    ← BitVec.and_or_distrib_left, hmasks, BitVec.and_allOnes]

theorem length_hex_le {v : BitVec 32} (h : v.toNat < 2 ^ 16) : (hex v).length ≤ 4 :=
  (Nat.length_toDigits_le_iff (by decide) (by decide)).mpr h

theorem snprintf_eq {len : ℕ} {t : Text} (h : t.length < len) : snprintf len t = t :=
  List.take_of_length_le (by omega)

/-- A handle that is no keyword is printed as its two numbers; the first one is left out if
it is zero, or else the second one is. -/
theorem exists_printTcClassid_eq {len : ℕ} (hlen : 10 ≤ len) {h : BitVec 32} (hroot : h ≠ tcHRoot)
    (hunspec : h ≠ tcHUnspec) :
    ∃ j k, printTcClassid len h = numeral j ++ ':' :: numeral k ∧ half j = h >>> 16 ∧
      half k = tcHMin h ∧ (j = none ↔ tcHMaj h = 0#32) := by
  have hmaj : (hex (h >>> 16)).length ≤ 4 := length_hex_le (toNat_shift_lt h)
  have hmin : (hex (tcHMin h)).length ≤ 4 := by
    refine length_hex_le ?_
    rw [toNat_tcHMin]
    exact Nat.mod_lt _ (by decide)
  rw [printTcClassid, if_neg hroot, if_neg hunspec, tcHMaj_shift]
  by_cases hmaj0 : tcHMaj h = 0#32
  · refine ⟨none, some (tcHMin h).toNat, ?_, ?_, long32_toNat _, iff_of_true rfl hmaj0⟩
    · rw [if_pos hmaj0, snprintf_eq]
      · rfl
      · rw [List.length_cons]
        omega
    · rw [← tcHMaj_shift, hmaj0]
      rfl
  · by_cases hmin0 : tcHMin h = 0#32
    · refine ⟨some (h >>> 16).toNat, none, ?_, long32_toNat _, hmin0.symm,
        iff_of_false (by simp) hmaj0⟩
      rw [if_neg hmaj0, if_pos hmin0, snprintf_eq]
      · rfl
      · rw [List.length_append, List.length_singleton]
        omega
    · refine ⟨some (h >>> 16).toNat, some (tcHMin h).toNat, ?_, long32_toNat _, long32_toNat _,
        iff_of_false (by simp) hmaj0⟩
      rw [if_neg hmaj0, if_neg hmin0, snprintf_eq]
      · rfl
      · rw [List.length_append, List.length_cons]
        omega

/-- Every handle that is printed into a buffer of ten characters or more is read back as the
class it is.  As a qdisc it is read as the qdisc of the class, unless it has none: a text
without a first number, or the keyword of the root, is refused. -/
theorem handles_read_back (len : ℕ) (hlen : 10 ≤ len) (h : BitVec 32) :
    getTcClassid (printTcClassid len h) = some h ∧
      getQdiscHandle (printTcClassid len h) =
        (if h = tcHUnspec then some tcHUnspec
        else if h = tcHRoot ∨ tcHMaj h = 0#32 then none
        else some (tcHMaj h)) ∧
      getQdiscHandle (printQdiscHandle len h) = some (tcHMaj h) := by
  have hprinted : getQdiscHandle (printQdiscHandle len h) = some (tcHMaj h) := by
    have hmaj : (hex (h >>> 16)).length ≤ 4 := length_hex_le (toNat_shift_lt h)
    rw [printQdiscHandle, tcHMaj_shift, snprintf_eq]
    · refine (getQdiscHandle_numeral (some (h >>> 16).toNat) []).trans ?_
      rw [Option.map_some, long32_toNat, tcHMaj_eq]
    · rw [List.length_append, List.length_singleton]
      omega
  by_cases hroot : h = tcHRoot
  · subst hroot
    have htext : printTcClassid len tcHRoot = "root".toList := rfl
    rw [htext, if_neg (by decide), if_pos (Or.inl rfl)]
    exact ⟨rfl, by decide, hprinted⟩
  · by_cases hunspec : h = tcHUnspec
    · subst hunspec
      have hnone : printTcClassid len tcHUnspec = "none".toList := by
        rw [printTcClassid, if_neg hroot, if_pos rfl]
        exact snprintf_eq (t := "none".toList) (by change 4 < len; omega)
      rw [hnone, if_pos rfl]
      exact ⟨rfl, rfl, hprinted⟩
    · obtain ⟨j, k, htext, hj, hk, hnone⟩ := exists_printTcClassid_eq hlen hroot hunspec
      refine ⟨?_, ?_, hprinted⟩
      · rw [htext, getTcClassid_numerals, hj, hk, classidOf_parts]
      · rw [htext, getQdiscHandle_numeral, if_neg hunspec]
        cases j with
        | none =>
            rw [if_pos (Or.inr (hnone.mp rfl))]
            rfl
        | some j =>
            have hmaj : tcHMaj h ≠ 0#32 := fun h0 => by simpa using hnone.mpr h0
            have hshift : long32 j = h >>> 16 := hj
            rw [if_neg (by simp [hroot, hmaj]), Option.map_some, hshift, tcHMaj_eq]

/-- The class below which the experiment puts its qdisc. -/
theorem handles_read_back_class :
    printTcClassid 63 0x10001#32 = "1:1".toList ∧
      getQdiscHandle (printTcClassid 63 0x10001#32) = some 0x10000#32 := by
  have hread := (handles_read_back 63 (by decide) 0x10001#32).2.1
  refine ⟨by decide, hread.trans ?_⟩
  decide

end PFabric
