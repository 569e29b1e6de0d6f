import Mathlib.Algebra.BigOperators.Ring.Finset
import Mathlib.Data.Fin.VecNotation
import PFabric.Experiment.Ideal

/-!
# The ideal scheduler: optimality and closed form

The completion times of `schedule_flows` against those of an arbitrary schedule
that gives every flow the slots it needs, one flow in a slot, and against one
pass over the flows in the order of their sizes.
-/

namespace PFabric
namespace Ideal

open SlotSchedule Finset

variable {n : ℕ} {argmin : Argmin}

/-- The number of flows with a recorded completion time that is not later than
the end of slot `t`.  The initial value `-1` records none. -/
def completedBy (argmin : Argmin) (flowSizes : Fin n → ℤ) (t : ℕ) : ℕ :=
  #{i | 0 ≤ scheduleFlows argmin flowSizes i ∧
    scheduleFlows argmin flowSizes i ≤ t * deltaT}

/-- No schedule is ahead at the end of any slot, and none has a smaller sum or
mean of completion times. -/
def Optimal (argmin : Argmin) (flowSizes : Fin n → ℤ) : Prop :=
  ∀ σ : Schedule (slots flowSizes),
    (∀ t, #{i | σ.completionSlot i ≤ t} ≤ completedBy argmin flowSizes t) ∧
    ∑ i, scheduleFlows argmin flowSizes i ≤ ∑ i, σ.completionSlot i * deltaT ∧
    (∑ i, scheduleFlows argmin flowSizes i) / n ≤
      (∑ i, σ.completionSlot i * deltaT) / n

/-! ## At most one empty flow -/

theorem completedBy_eq
    {flowSizes : Fin n → ℤ} (hempty : AtMostOneEmpty flowSizes) (t : ℕ) :
    completedBy argmin flowSizes t = #{i | lastSlot flowSizes i ≤ t} := by
  refine congrArg card (filter_congr fun i _ => ?_)
  rw [scheduleFlows_eq hempty, mul_le_mul_iff_left₀ deltaT_pos, Nat.cast_le]
  exact and_iff_right (mul_nonneg (Nat.cast_nonneg _) deltaT_pos.le)

theorem sum_lastSlot_le {flowSizes : Fin n → ℤ} (σ : Schedule (slots flowSizes)) :
    ∑ i, lastSlot flowSizes i ≤ ∑ i, σ.completionSlot i :=
  sum_le_sum_of_card_le (card_completed_le key_injective slots_le_of_key_le σ)

theorem optimal_of_atMostOneEmpty
    {flowSizes : Fin n → ℤ} (hempty : AtMostOneEmpty flowSizes) :
    Optimal argmin flowSizes := by
  intro σ
  have hsum : ∑ i, scheduleFlows argmin flowSizes i ≤
      ∑ i, σ.completionSlot i * deltaT := by
    simp only [scheduleFlows_eq hempty, ← sum_mul]
    refine mul_le_mul_of_nonneg_right ?_ deltaT_pos.le
    exact_mod_cast sum_lastSlot_le σ
  refine ⟨fun t => ?_, hsum, div_le_div_of_nonneg_right hsum (Nat.cast_nonneg n)⟩
  rw [completedBy_eq hempty]
  exact card_completed_le key_injective slots_le_of_key_le σ t

/-! ## Several empty flows -/

/-- The serial schedule completes also the flow that `schedule_flows` drops. -/
theorem atMostOneEmpty_of_optimal
    {flowSizes : Fin n → ℤ} (h : Optimal argmin flowSizes) :
    AtMostOneEmpty flowSizes := by
  by_contra hempty
  obtain ⟨i, hi⟩ := exists_scheduleFlows_eq_neg_one argmin hempty
  set σ : Schedule (slots flowSizes) := serial _ (@key_injective n flowSizes)
  set t := ∑ j, slots flowSizes j
  have hall : univ.filter (σ.completionSlot · ≤ t) = univ :=
    filter_true_of_mem fun j _ =>
      (completionSlot_serial_le key_injective j).trans (finishSlot_le_total j)
  have hlt : completedBy argmin flowSizes t < #(univ : Finset (Fin n)) := by
    refine card_lt_card (filter_ssubset.mpr ⟨i, mem_univ i, ?_⟩)
    rw [hi]
    exact fun hcompleted => absurd hcompleted.1 (by decide)
  have hle := (h σ).1 t
  rw [hall] at hle
  exact absurd hle (not_le.mpr hlt)

/-- The schedule is optimal exactly if at most one flow has nothing to send. -/
theorem optimal_iff_atMostOneEmpty (argmin : Argmin) (flowSizes : Fin n → ℤ) :
    Optimal argmin flowSizes ↔ AtMostOneEmpty flowSizes :=
  ⟨atMostOneEmpty_of_optimal, optimal_of_atMostOneEmpty⟩

/-- An `argmin` that searches for the first value which no other one is below. -/
def firstIndex : Argmin where
  index values := values.findIdx fun v => values.all (v ≤ ·)
  index_eq {before after v} hbefore hafter := by
    have hlater : ∀ w ∈ before, (before ++ v :: after).all (w ≤ ·) = false := by
      intro w hw
      refine List.all_eq_false.mpr ⟨v, by simp, ?_⟩
      simpa using hbefore w hw
    have hleast : (before ++ v :: after).all (v ≤ ·) = true := by
      refine List.all_eq_true.mpr fun w hw => decide_eq_true ?_
      rcases List.mem_append.mp hw with hw | hw
      · exact (hbefore w hw).le
      · rcases List.mem_cons.mp hw with rfl | hw
        · exact le_rfl
        · exact hafter w hw
    generalize hp : (fun u : ℚ => (before ++ v :: after).all (u ≤ ·)) = p
    replace hlater : ∀ w ∈ before, p w = false := fun w hw => hp ▸ hlater w hw
    replace hleast : p v = true := hp ▸ hleast
    rw [List.findIdx_append, List.findIdx_eq_length_of_false hlater,
      if_neg (lt_irrefl _), List.findIdx_cons, hleast, cond_true, Nat.zero_add]

/-- Two flows of size zero: the second one is never served. -/
theorem not_optimal_two_empty : ¬ Optimal firstIndex ![0, 0] := fun h =>
  absurd (atMostOneEmpty_of_optimal h 0 1 (by decide) (by decide)) (by decide)

/-! ## One pass over the sorted flows -/

/-- The flow the loop serves in slot `T`, if it gets that far. -/
def servedIn (argmin : Argmin) (flowSizes : Fin n → ℤ) (T : ℕ) : Option (Fin n) :=
  let s := (State.scheduleSlot argmin)^[T] (start flowSizes)
  s.flowsToSchedule[getMinIndex argmin s.remainingSizes]?

/-- The loop ends, and its slot by slot choices come to one pass over the flows in
the order of size and position. -/
structure OnePass (argmin : Argmin) (flowSizes : Fin n → ℤ) : Prop where
  terminates : ∃ T,
    ((State.scheduleSlot argmin)^[T] (start flowSizes)).flowsToSchedule = []
  completionTime : ∀ i, scheduleFlows argmin flowSizes i =
    deltaT * ∑ j with toLex (flowSizes j, j) ≤ toLex (flowSizes i, i),
      ((max 1 ⌈(flowSizes j : ℚ) / 1466⌉ : ℤ) : ℚ)
  inOrder : ∀ i j, toLex (flowSizes i, i) < toLex (flowSizes j, j) →
    scheduleFlows argmin flowSizes i < scheduleFlows argmin flowSizes j
  notPreempted : ∀ i T₁ T T₂, T₁ ≤ T → T ≤ T₂ →
    servedIn argmin flowSizes T₁ = some i → servedIn argmin flowSizes T₂ = some i →
    servedIn argmin flowSizes T = some i

theorem exists_iterate_flowsToSchedule_eq_nil (flowSizes : Fin n → ℤ) :
    ∃ T, ((State.scheduleSlot argmin)^[T] (start flowSizes)).flowsToSchedule = [] := by
  obtain ⟨T, hT, hnil⟩ := State.exists_iterate_eq_scheduleLoop argmin (start flowSizes)
  exact ⟨T, hT ▸ hnil⟩

theorem cast_lastSlot (flowSizes : Fin n → ℤ) (i : Fin n) :
    (lastSlot flowSizes i : ℚ) =
      ∑ j with toLex (flowSizes j, j) ≤ toLex (flowSizes i, i),
        ((max 1 ⌈(flowSizes j : ℚ) / 1466⌉ : ℤ) : ℚ) := by
  simp only [← cast_frames, Int.cast_natCast, ← Nat.cast_sum]
  rfl

/-- Slot `T` belongs to the flow whose turn it is. -/
theorem servedIn_eq_some_iff
    {flowSizes : Fin n → ℤ} (hempty : AtMostOneEmpty flowSizes)
    {T : ℕ} {m : Fin n} :
    servedIn argmin flowSizes T = some m ↔
      firstSlot flowSizes m ≤ T ∧ T < lastSlot flowSizes m := by
  rw [servedIn, iterate_scheduleSlot_start hempty]
  constructor
  · intro hserved
    have hmem : m ∈ (stateAt flowSizes T).flowsToSchedule := List.mem_of_getElem? hserved
    have hpending : T < lastSlot flowSizes m := by simpa [stateAt] using hmem
    obtain ⟨k, hfirst, hlast⟩ := exists_running hpending
    rw [served_stateAt hfirst hlast, Option.some.injEq] at hserved
    exact hserved ▸ ⟨hfirst, hlast⟩
  · rintro ⟨hfirst, hlast⟩
    exact served_stateAt hfirst hlast

theorem onePass_of_atMostOneEmpty
    {flowSizes : Fin n → ℤ} (hempty : AtMostOneEmpty flowSizes) :
    OnePass argmin flowSizes where
  terminates := exists_iterate_flowsToSchedule_eq_nil flowSizes
  completionTime i := by rw [scheduleFlows_eq hempty, cast_lastSlot, mul_comm]
  inOrder i j hlt := by
    have hstart : lastSlot flowSizes i ≤ firstSlot flowSizes j :=
      finishSlot_le_startSlot (slots flowSizes) hlt
    rw [scheduleFlows_eq hempty, scheduleFlows_eq hempty, mul_lt_mul_iff_left₀ deltaT_pos,
      Nat.cast_lt]
    exact hstart.trans_lt (firstSlot_lt_lastSlot j)
  notPreempted i T₁ T T₂ h₁ h₂ := by
    simp only [servedIn_eq_some_iff hempty]
    rintro ⟨hfirst, -⟩ ⟨-, hlast⟩
    exact ⟨hfirst.trans h₁, h₂.trans_lt hlast⟩

/-- A dropped flow has no time of the closed form, which is never negative. -/
theorem atMostOneEmpty_of_onePass
    {flowSizes : Fin n → ℤ} (h : OnePass argmin flowSizes) :
    AtMostOneEmpty flowSizes := by
  by_contra hempty
  obtain ⟨i, hi⟩ := exists_scheduleFlows_eq_neg_one argmin hempty
  have hnonneg : 0 ≤ deltaT * lastSlot flowSizes i :=
    mul_nonneg deltaT_pos.le (Nat.cast_nonneg _)
  rw [cast_lastSlot, ← h.completionTime, hi] at hnonneg
  exact absurd hnonneg (by decide)

/-- The loop is one pass over the sorted flows exactly if at most one flow has
nothing to send. -/
theorem onePass_iff_atMostOneEmpty (argmin : Argmin) (flowSizes : Fin n → ℤ) :
    OnePass argmin flowSizes ↔ AtMostOneEmpty flowSizes :=
  ⟨atMostOneEmpty_of_onePass, onePass_of_atMostOneEmpty⟩

/-- Of two flows of size zero the second one gets no completion time. -/
theorem not_onePass_two_empty : ¬ OnePass firstIndex ![0, 0] := fun h =>
  absurd (atMostOneEmpty_of_onePass h 0 1 (by decide) (by decide)) (by decide)

end Ideal
end PFabric
