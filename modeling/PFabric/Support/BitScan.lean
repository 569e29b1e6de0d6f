import Mathlib.Data.List.Pairwise

/-!
# Scanning for the first hit, and single bits of a word

Loops that search a sequence and leave at the first hit are `List.findSome?`
and `List.find?` over the sequence of loop indices.  When that sequence is
ordered, the hit is the extreme one.  The rest of the file reads, sets and
clears one bit of a machine word through a shifted mask.
-/

namespace PFabric

/-! ## First hits of ordered searches -/

section FirstHit

variable {α β : Type*} {r : α → α → Prop} {l : List α}

/-- The hit of a search over an ordered sequence precedes every other hit. -/
theorem findSome?_first (hl : l.Pairwise r) {f : α → Option β} {b : β}
    (h : l.findSome? f = some b) :
    ∃ a ∈ l, f a = some b ∧
      ∀ a' ∈ l, (f a').isSome → a' = a ∨ r a a' := by
  obtain ⟨before, a, after, rfl, hfa, hbefore⟩ := List.findSome?_eq_some_iff.mp h
  refine ⟨a, by simp, hfa, ?_⟩
  intro a' ha' hsome
  rcases List.mem_append.mp ha' with hmem | hmem
  · simp [hbefore a' hmem] at hsome
  · rcases List.mem_cons.mp hmem with heq | hmem
    · exact Or.inl heq
    · have hcons : (a :: after).Pairwise r := (List.pairwise_append.mp hl).2.1
      exact Or.inr (List.rel_of_pairwise_cons hcons hmem)

/-- `findSome?_first` for a search by a test. -/
theorem find?_first (hl : l.Pairwise r) {p : α → Bool} {a : α}
    (h : l.find? p = some a) :
    a ∈ l ∧ p a = true ∧ ∀ a' ∈ l, p a' = true → a' = a ∨ r a a' := by
  obtain ⟨hpa, before, after, rfl, hbefore⟩ := List.find?_eq_some_iff_append.mp h
  refine ⟨by simp, hpa, ?_⟩
  intro a' ha' hpa'
  rcases List.mem_append.mp ha' with hmem | hmem
  · have := hbefore a' hmem
    simp [hpa'] at this
  · rcases List.mem_cons.mp hmem with heq | hmem
    · exact Or.inl heq
    · have hcons : (a :: after).Pairwise r := (List.pairwise_append.mp hl).2.1
      exact Or.inr (List.rel_of_pairwise_cons hcons hmem)

end FirstHit

/-! ## One bit of a word -/

section Bits

variable {w : ℕ}

/-- Testing a word against a shifted one reads the bit of that position. -/
theorem and_shiftLeft_one_ne_zero_iff (x : BitVec w) (j : ℕ) :
    x &&& (1#w <<< j) ≠ 0#w ↔ x.getLsbD j = true := by
  rw [← BitVec.twoPow_eq, BitVec.and_twoPow]
  by_cases hbit : x.getLsbD j
  · have hj : j < w := BitVec.lt_of_getLsbD hbit
    simp only [hbit, if_true, iff_true]
    intro hzero
    have := congrArg (fun y => y.getLsbD j) hzero
    simp [hj] at this
  · simp [hbit]

/-- Or-ing a shifted one into a word sets that bit and no other. -/
theorem getLsbD_or_shiftLeft_one (x : BitVec w) {j : ℕ} (hj : j < w) (k : ℕ) :
    (x ||| (1#w <<< j)).getLsbD k = (decide (k = j) || x.getLsbD k) := by
  rw [← BitVec.twoPow_eq, BitVec.getLsbD_or, BitVec.getLsbD_twoPow]
  by_cases hk : k = j
  · subst hk
    simp [hj]
  · simp [hk, Ne.symm hk]

/-- And-ing the complement of a shifted one clears that bit and no other. -/
theorem getLsbD_and_not_shiftLeft_one (x : BitVec w) (j k : ℕ) :
    (x &&& ~~~(1#w <<< j)).getLsbD k = (!decide (k = j) && x.getLsbD k) := by
  rw [← BitVec.twoPow_eq, BitVec.getLsbD_and, BitVec.getLsbD_not,
    BitVec.getLsbD_twoPow]
  by_cases hkw : k < w
  · by_cases hk : k = j
    · subst hk
      simp [hkw]
    · simp [hk, Ne.symm hk, hkw]
  · simp [hkw, BitVec.getLsbD_of_ge x k (Nat.le_of_not_lt hkw)]

end Bits

end PFabric
