import Mathlib.Order.Interval.Finset.Nat
import Mathlib.Algebra.Order.BigOperators.Group.Finset
import Mathlib.Data.Finset.Max
import Mathlib.Data.Fintype.BigOperators
import Mathlib.Data.Fintype.Card

/-!
# Schedules of one server in unit slots

Finitely many jobs, each of which needs a number of slots of one server.  A
schedule gives every slot to at most one job.  The serial schedule serves the
jobs one after another in the order of a key; if no job needs more slots than a
later one, it has completed at least as many jobs as any other schedule at every
time, and its sum of completion times is least.
-/

namespace PFabric
namespace SlotSchedule

open Finset

variable {ι κ : Type*}

/-! ## Arbitrary schedules -/

section Arbitrary

variable [DecidableEq ι] (assign : ℕ → Option ι)

/-- The number of slots, among the first `t`, that go to a job. -/
def received (i : ι) (t : ℕ) : ℕ := #{u ∈ range t | assign u = some i}

theorem received_mono (i : ι) {t u : ℕ} (h : t ≤ u) :
    received assign i t ≤ received assign i u :=
  card_le_card (filter_subset_filter _ (range_mono h))

/-- The slots of different jobs are different ones. -/
theorem sum_received_le (A : Finset ι) (t : ℕ) : ∑ i ∈ A, received assign i t ≤ t := by
  have hdisjoint : (A : Set ι).PairwiseDisjoint
      fun i => (range t).filter (assign · = some i) := by
    intro i _ j _ hij
    refine disjoint_left.mpr fun u hi hj => hij ?_
    exact Option.some.inj ((mem_filter.mp hi).2.symm.trans (mem_filter.mp hj).2)
  calc ∑ i ∈ A, received assign i t
      = #(A.biUnion fun i => (range t).filter (assign · = some i)) :=
        (card_biUnion hdisjoint).symm
    _ ≤ #(range t) := card_le_card (biUnion_subset.mpr fun i _ => filter_subset _ _)
    _ = t := card_range t

/-- A schedule gives every slot to at most one job that is not yet complete, and
in the end every job has got its slots. -/
structure Schedule (slots : ι → ℕ) where
  assign : ℕ → Option ι
  unfinished : ∀ u i, assign u = some i → received assign i u < slots i
  complete : ∀ i, ∃ t, slots i ≤ received assign i t

namespace Schedule

variable {slots : ι → ℕ} (σ : Schedule slots)

/-- The number of slots after which a job is complete. -/
def completionSlot (i : ι) : ℕ := Nat.find (σ.complete i)

theorem completionSlot_le_iff {i : ι} {t : ℕ} :
    σ.completionSlot i ≤ t ↔ slots i ≤ received σ.assign i t := by
  constructor
  · intro h
    exact (Nat.find_spec (σ.complete i)).trans (received_mono σ.assign i h)
  · intro h
    exact Nat.find_min' (σ.complete i) h

end Schedule

end Arbitrary

/-! ## The serial schedule -/

section Serial

variable [Fintype ι] [LinearOrder κ] (key : ι → κ) (slots : ι → ℕ)

/-- The number of slots given to earlier jobs. -/
def startSlot (i : ι) : ℕ := ∑ j with key j < key i, slots j

/-- The number of slots given to earlier jobs and to the job itself. -/
def finishSlot (i : ι) : ℕ := ∑ j with key j ≤ key i, slots j

variable {key}

theorem finishSlot_eq (hkey : Function.Injective key) (i : ι) :
    finishSlot key slots i = startSlot key slots i + slots i := by
  classical
  have hinsert : univ.filter (key · ≤ key i) = insert i (univ.filter (key · < key i)) := by
    ext j
    simp only [mem_filter_univ, mem_insert, le_iff_eq_or_lt, hkey.eq_iff]
  rw [finishSlot, hinsert, sum_insert (by simp), startSlot, add_comm]

theorem finishSlot_le_startSlot {i j : ι} (h : key i < key j) :
    finishSlot key slots i ≤ startSlot key slots j := by
  refine sum_le_sum_of_subset fun k hk => ?_
  rw [mem_filter_univ] at hk ⊢
  exact lt_of_le_of_lt hk h

variable {slots}

/-- A job that is not yet complete waits for a job that is being served. -/
theorem exists_running {t : ℕ} {i : ι} (h : t < finishSlot key slots i) :
    ∃ m, startSlot key slots m ≤ t ∧ t < finishSlot key slots m := by
  classical
  obtain ⟨m, hm, hleast⟩ := exists_min_image
    (univ.filter (t < finishSlot key slots ·)) key ⟨i, (mem_filter_univ i).mpr h⟩
  rw [mem_filter_univ] at hm
  refine ⟨m, ?_, hm⟩
  -- the job served last before `m` is complete
  rcases Finset.eq_empty_or_nonempty (univ.filter (key · < key m)) with hempty | hne
  · rw [startSlot, hempty, sum_empty]
    exact Nat.zero_le t
  · obtain ⟨q, hq, hgreatest⟩ := exists_max_image _ key hne
    rw [mem_filter_univ] at hq
    have heq : univ.filter (key · < key m) = univ.filter (key · ≤ key q) := by
      ext j
      rw [mem_filter_univ, mem_filter_univ]
      exact ⟨fun hj => hgreatest j ((mem_filter_univ j).mpr hj), fun hj => lt_of_le_of_lt hj hq⟩
    rw [startSlot, heq]
    by_contra hlt
    exact absurd (hleast q ((mem_filter_univ q).mpr (Nat.lt_of_not_le hlt))) (not_le_of_gt hq)

theorem finishSlot_le_total (i : ι) : finishSlot key slots i ≤ ∑ j, slots j := by
  rw [finishSlot]
  exact sum_le_sum_of_subset (filter_subset _ _)

theorem running_unique {t : ℕ} {i j : ι} (hi : startSlot key slots i ≤ t)
    (hi' : t < finishSlot key slots i) (hj : startSlot key slots j ≤ t)
    (hj' : t < finishSlot key slots j) (hkey : Function.Injective key) : i = j := by
  rcases lt_trichotomy (key i) (key j) with hlt | heq | hlt
  · have := finishSlot_le_startSlot slots hlt
    omega
  · exact hkey heq
  · have := finishSlot_le_startSlot slots hlt
    omega

/-! ## Optimality -/

/-- The first jobs need the fewest slots among as many jobs. -/
theorem finishSlot_le_sum (hmono : ∀ i j, key i ≤ key j → slots i ≤ slots j) {m : ι}
    {A : Finset ι} (hcard : #{j | key j ≤ key m} ≤ #A) :
    finishSlot key slots m ≤ ∑ i ∈ A, slots i := by
  classical
  rw [finishSlot]
  generalize hC : univ.filter (key · ≤ key m) = C at hcard ⊢
  have hle : ∀ i ∈ C \ A, slots i ≤ slots m := by
    intro i hi
    rw [← hC, mem_sdiff, mem_filter_univ] at hi
    exact hmono i m hi.1
  have hge : ∀ i ∈ A \ C, slots m ≤ slots i := by
    intro i hi
    rw [← hC, mem_sdiff, mem_filter_univ] at hi
    exact hmono m i (le_of_not_ge hi.2)
  have hsdiff : #(C \ A) ≤ #(A \ C) := by
    have hC' := card_sdiff_add_card_inter C A
    have hA' := card_sdiff_add_card_inter A C
    rw [inter_comm] at hA'
    omega
  calc ∑ i ∈ C, slots i
      = ∑ i ∈ C ∩ A, slots i + ∑ i ∈ C \ A, slots i := (sum_inter_add_sum_sdiff C A slots).symm
    _ ≤ ∑ i ∈ C ∩ A, slots i + #(C \ A) • slots m :=
        Nat.add_le_add_left (sum_le_card_nsmul _ _ _ hle) _
    _ ≤ ∑ i ∈ A ∩ C, slots i + #(A \ C) • slots m := by
        rw [inter_comm]
        exact Nat.add_le_add_left (nsmul_le_nsmul_left (Nat.zero_le _) hsdiff) _
    _ ≤ ∑ i ∈ A ∩ C, slots i + ∑ i ∈ A \ C, slots i :=
        Nat.add_le_add_left (card_nsmul_le_sum _ _ _ hge) _
    _ = ∑ i ∈ A, slots i := sum_inter_add_sum_sdiff A C slots

/-- No schedule has completed more jobs by any time. -/
theorem card_completed_le [DecidableEq ι] (hkey : Function.Injective key)
    (hmono : ∀ i j, key i ≤ key j → slots i ≤ slots j) (σ : Schedule slots) (t : ℕ) :
    #{i | σ.completionSlot i ≤ t} ≤ #{i | finishSlot key slots i ≤ t} := by
  by_contra hlt
  rw [not_le] at hlt
  obtain ⟨i, hi⟩ : ∃ i, i ∉ univ.filter (finishSlot key slots · ≤ t) := by
    by_contra hall
    push Not at hall
    rw [eq_univ_iff_forall.mpr hall] at hlt
    exact absurd (card_le_univ _) (not_le_of_gt hlt)
  -- the first job the serial schedule has not completed
  obtain ⟨m, hm, hleast⟩ := exists_min_image
    (univ.filter (finishSlot key slots · ≤ t))ᶜ key ⟨i, mem_compl.mpr hi⟩
  have hsubset : univ.filter (key · ≤ key m) ⊆
      insert m (univ.filter (finishSlot key slots · ≤ t)) := by
    intro j hj
    rw [mem_filter_univ] at hj
    by_contra hnot
    rw [mem_insert, not_or] at hnot
    have heq := le_antisymm hj (hleast j (mem_compl.mpr hnot.2))
    exact hnot.1 (hkey heq)
  have hcard := (card_le_card hsubset).trans (card_insert_le _ _)
  have hsum : finishSlot key slots m ≤ t :=
    calc finishSlot key slots m
        ≤ ∑ i with σ.completionSlot i ≤ t, slots i :=
          finishSlot_le_sum hmono (hcard.trans hlt)
      _ ≤ ∑ i with σ.completionSlot i ≤ t, received σ.assign i t :=
          sum_le_sum fun i hi => σ.completionSlot_le_iff.mp ((mem_filter_univ i).mp hi)
      _ ≤ t := sum_received_le σ.assign _ t
  exact mem_compl.mp hm ((mem_filter_univ m).mpr hsum)

/-! ## The serial schedule is a schedule -/

variable (key slots) in
open Classical in
/-- In every slot the job is served that has started and is not complete. -/
noncomputable def serialAssign (u : ℕ) : Option ι :=
  if h : ∃ i, startSlot key slots i ≤ u ∧ u < finishSlot key slots i then some h.choose
  else none

theorem serialAssign_eq_some_iff (hkey : Function.Injective key) {u : ℕ} {i : ι} :
    serialAssign key slots u = some i ↔
      startSlot key slots i ≤ u ∧ u < finishSlot key slots i := by
  unfold serialAssign
  by_cases h : ∃ i, startSlot key slots i ≤ u ∧ u < finishSlot key slots i
  · rw [dif_pos h, Option.some_inj]
    constructor
    · rintro rfl
      exact h.choose_spec
    · intro hi
      exact running_unique h.choose_spec.1 h.choose_spec.2 hi.1 hi.2 hkey
  · rw [dif_neg h]
    exact iff_of_false (by simp) fun hi => h ⟨i, hi⟩

theorem received_serialAssign [DecidableEq ι] (hkey : Function.Injective key) (i : ι) (t : ℕ) :
    received (serialAssign key slots) i t =
      min t (finishSlot key slots i) - startSlot key slots i := by
  have hico : (range t).filter (serialAssign key slots · = some i) =
      Ico (startSlot key slots i) (min t (finishSlot key slots i)) := by
    ext u
    rw [mem_filter, serialAssign_eq_some_iff hkey, mem_range, mem_Ico, lt_min_iff]
    tauto
  rw [received, hico, Nat.card_Ico]

variable (slots) in
/-- The serial schedule. -/
noncomputable def serial [DecidableEq ι] (hkey : Function.Injective key) : Schedule slots where
  assign := serialAssign key slots
  unfinished := by
    intro u i hu
    obtain ⟨hstart, hfinish⟩ := (serialAssign_eq_some_iff hkey).mp hu
    have heq := finishSlot_eq slots hkey i
    rw [received_serialAssign hkey]
    omega
  complete := by
    intro i
    have heq := finishSlot_eq slots hkey i
    refine ⟨finishSlot key slots i, ?_⟩
    rw [received_serialAssign hkey]
    omega

theorem completionSlot_serial_le [DecidableEq ι] (hkey : Function.Injective key) (i : ι) :
    (serial slots hkey).completionSlot i ≤ finishSlot key slots i := by
  have heq := finishSlot_eq slots hkey i
  rw [Schedule.completionSlot_le_iff]
  change slots i ≤ received (serialAssign key slots) i (finishSlot key slots i)
  rw [received_serialAssign hkey]
  omega

end Serial

/-! ## Sums of completion times -/

section Sums

variable [Fintype ι]

/-- A sum of times, counted time by time. -/
theorem sum_eq_sum_card {f : ι → ℕ} {N : ℕ} (hN : ∀ i, f i ≤ N) :
    ∑ i, f i = ∑ t ∈ range N, #{i | t < f i} := by
  have hlayer : ∀ i, f i = ∑ t ∈ range N, if t < f i then 1 else 0 := by
    intro i
    have hrange : (range N).filter (· < f i) = range (f i) := by
      ext t
      have := hN i
      simp only [mem_filter, mem_range]
      omega
    rw [← card_filter, hrange, card_range]
  calc ∑ i, f i = ∑ i, ∑ t ∈ range N, if t < f i then 1 else 0 :=
        sum_congr rfl fun i _ => hlayer i
    _ = ∑ t ∈ range N, ∑ i, if t < f i then 1 else 0 := sum_comm
    _ = ∑ t ∈ range N, #{i | t < f i} := sum_congr rfl fun t _ => (card_filter _ _).symm

/-- If at every time no more jobs are complete under `g` than under `f`, the
completion times of `f` have the smaller sum. -/
theorem sum_le_sum_of_card_le {f g : ι → ℕ} (h : ∀ t, #{i | g i ≤ t} ≤ #{i | f i ≤ t}) :
    ∑ i, f i ≤ ∑ i, g i := by
  obtain ⟨N, hf, hg⟩ : ∃ N, (∀ i, f i ≤ N) ∧ ∀ i, g i ≤ N := by
    have hsingle : ∀ (k : ι → ℕ) i, k i ≤ ∑ i, k i := fun k i =>
      single_le_sum (f := k) (fun _ _ => Nat.zero_le _) (mem_univ i)
    exact ⟨∑ i, f i + ∑ i, g i, fun i => (hsingle f i).trans (Nat.le_add_right _ _),
      fun i => (hsingle g i).trans (Nat.le_add_left _ _)⟩
  rw [sum_eq_sum_card hf, sum_eq_sum_card hg]
  refine sum_le_sum fun t _ => ?_
  have hcf := card_filter_add_card_filter_not (s := (univ : Finset ι)) (f · ≤ t)
  have hcg := card_filter_add_card_filter_not (s := (univ : Finset ι)) (g · ≤ t)
  simp only [not_le] at hcf hcg
  have := h t
  omega

end Sums

end SlotSchedule
end PFabric
