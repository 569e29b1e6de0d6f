import Mathlib.Algebra.BigOperators.Field
import Mathlib.Tactic.NormNum
import PFabric.Experiment.Evaluation

/-!
# Normalisation of flow completion times

`normalize_fcts` means to divide the mean time of every flow by the baseline of the
flow's size bucket.  The means come as a matrix of one row, and its length is the
number of rows: the whole row is divided by the first baseline.
-/

namespace PFabric
namespace Experiment

open Text Template Comprehension Finset

/-! ## What is read -/

/-- The files hold the baseline of every bucket that is asked for, and the
completion time of every flow of every host. -/
structure Measures (getFctFromFile : Text → Option ℚ) (baselineTemplate searchTemplate : Text)
    (numHosts flowsPerHost : ℕ) (t : ℕ → ℕ → ℚ) (base : ℕ → ℚ) : Prop where
  baseline : ∀ flow < flowsPerHost,
    (format baselineTemplate (counts [flow % numBuckets])).bind getFctFromFile =
      some (base (flow % numBuckets))
  search : ∀ host < numHosts, ∀ flow < flowsPerHost,
    (format searchTemplate (counts [host, flow % numBuckets, flow])).bind getFctFromFile =
      some (t host flow)

section Values

variable {getFctFromFile : Text → Option ℚ} {baselineTemplate searchTemplate : Text}
  {numHosts flowsPerHost : ℕ} {t : ℕ → ℕ → ℚ} {base : ℕ → ℚ}

theorem Measures.baselines_eq
    (h : Measures getFctFromFile baselineTemplate searchTemplate numHosts flowsPerHost t base) :
    ((baselineFiles baselineTemplate flowsPerHost).bind fun files =>
      files.mapM getFctFromFile) =
      some ((List.range flowsPerHost).map fun flow => base (flow % numBuckets)) :=
  mapM_bind_mapM fun flow hflow => h.baseline flow (List.mem_range.mp hflow)

theorem Measures.hostFcts_eq
    (h : Measures getFctFromFile baselineTemplate searchTemplate numHosts flowsPerHost t base) :
    ((hostFiles searchTemplate numHosts flowsPerHost).bind fun files =>
      files.mapM fun files => files.mapM getFctFromFile) =
      some ((List.range numHosts).map fun host => (List.range flowsPerHost).map (t host)) :=
  mapM_bind_mapM fun host hhost => mapM_bind_mapM fun flow hflow =>
    h.search host (List.mem_range.mp hhost) flow (List.mem_range.mp hflow)

/-! ## What is computed -/

/-- The mean time of a flow over the hosts. -/
def flowMean (numHosts : ℕ) (t : ℕ → ℕ → ℚ) (flow : ℕ) : ℚ :=
  (∑ host ∈ range numHosts, t host flow) / numHosts

theorem sum_map_range (f : ℕ → ℚ) (k : ℕ) : ((List.range k).map f).sum = ∑ j ∈ range k, f j := rfl

theorem columnMeans_eq (hhosts : 1 ≤ numHosts) :
    columnMeans ((List.range numHosts).map fun host => (List.range flowsPerHost).map (t host)) =
      [(List.range flowsPerHost).map (flowMean numHosts t)] := by
  have hhead : (((List.range numHosts).map fun host =>
      (List.range flowsPerHost).map (t host)).headD []).length = flowsPerHost := by
    obtain ⟨k, rfl⟩ : ∃ k, numHosts = k + 1 := ⟨numHosts - 1, by omega⟩
    simp [List.range_succ_eq_map]
  rw [columnMeans, hhead]
  refine congrArg (fun row => [row]) (List.map_congr_left fun j hj => ?_)
  rw [List.map_map, List.length_map, List.length_range, flowMean, ← sum_map_range]
  refine congrArg (fun column : List ℚ => column.sum / numHosts)
    (List.map_congr_left fun host _ => ?_)
  simp [List.getD_eq_getElem?_getD, List.getElem?_range (List.mem_range.mp hj)]

/-- The whole row of means is divided by the baseline of the first bucket. -/
theorem getAvgNormalizedFct_eq (hhosts : 1 ≤ numHosts) (hflows : 1 ≤ flowsPerHost)
    (h : Measures getFctFromFile baselineTemplate searchTemplate numHosts flowsPerHost t base) :
    getAvgNormalizedFct getFctFromFile numHosts flowsPerHost baselineTemplate searchTemplate =
      some ((∑ j ∈ range flowsPerHost, flowMean numHosts t j / base 0) / flowsPerHost) := by
  obtain ⟨baselineFiles', hbaselineFiles, hbaselines⟩ :=
    Option.bind_eq_some_iff.mp h.baselines_eq
  obtain ⟨hostFiles', hhostFiles, hhostFcts⟩ := Option.bind_eq_some_iff.mp h.hostFcts_eq
  have hfirst : ((List.range flowsPerHost).map fun flow => base (flow % numBuckets))[0]? =
      some (base 0) := by
    rw [List.getElem?_map, List.getElem?_range hflows]
    rfl
  have hnormalized : normalizeFcts [(List.range flowsPerHost).map (flowMean numHosts t)]
      ((List.range flowsPerHost).map fun flow => base (flow % numBuckets)) =
      some [((List.range flowsPerHost).map (flowMean numHosts t)).map (· / base 0)] := by
    simp only [normalizeFcts, List.length_singleton, List.range_one, List.mapM_cons,
      List.mapM_nil, Nat.zero_mod, hfirst]
    rfl
  simp only [getAvgNormalizedFct, hbaselineFiles, hbaselines, hhostFiles, hhostFcts,
    columnMeans_eq hhosts, hnormalized, Option.bind_eq_bind, Option.bind_some, Option.some_inj]
  rw [meanAll, List.flatten_singleton, List.map_map, sum_map_range, List.length_map,
    List.length_range]
  rfl

end Values

/-! ## The condition -/

/-- Whatever the completion times are, the mean of every flow is divided by the
baseline of its own bucket. -/
def NormalizesByBucket (numHosts flowsPerHost : ℕ) (base : ℕ → ℚ) : Prop :=
  ∀ getFctFromFile baselineTemplate searchTemplate t,
    Measures getFctFromFile baselineTemplate searchTemplate numHosts flowsPerHost t base →
    getAvgNormalizedFct getFctFromFile numHosts flowsPerHost baselineTemplate searchTemplate =
      some ((∑ j ∈ range flowsPerHost, flowMean numHosts t j / base (j % numBuckets)) /
        flowsPerHost)

theorem normalizesByBucket_of_uniform {numHosts flowsPerHost : ℕ} (hhosts : 1 ≤ numHosts)
    (hflows : 1 ≤ flowsPerHost) {base : ℕ → ℚ}
    (huniform : ∀ k < numBuckets, k < flowsPerHost → base k = base 0) :
    NormalizesByBucket numHosts flowsPerHost base := by
  intro getFctFromFile baselineTemplate searchTemplate t h
  rw [getAvgNormalizedFct_eq hhosts hflows h]
  refine congrArg (fun s => some (s / (flowsPerHost : ℚ))) (sum_congr rfl fun j hj => ?_)
  have hlt := (Nat.mod_le j numBuckets).trans_lt (mem_range.mp hj)
  rw [huniform (j % numBuckets) (Nat.mod_lt j (by decide)) hlt]

/-- Any times can stand in the result files. -/
theorem exists_measures (numHosts flowsPerHost : ℕ) (t : ℕ → ℕ → ℚ) (base : ℕ → ℚ) :
    ∃ getFctFromFile, Measures getFctFromFile iperfBaselineOutput iperfSearchOutput numHosts
      flowsPerHost t base := by
  let name : ℕ ⊕ ℕ × ℕ → Text :=
    Sum.elim (fun k => fileName .baseline 0 k) fun p => fileName .pfabric p.1 p.2
  let value : ℕ ⊕ ℕ × ℕ → ℚ := Sum.elim base fun p => t p.1 p.2
  have hname : Function.Injective name := by
    rintro (k | ⟨host, flow⟩) (k' | ⟨host', flow'⟩) h
    · exact congrArg _ (fileName_injective h).1
    · exact absurd h (by simp [name, fileName])
    · exact absurd h (by simp [name, fileName])
    · obtain ⟨hflow, hhost⟩ := fileName_injective h
      exact congrArg _ (Prod.ext (hhost (by decide)) hflow)
  have hread : ∀ x, (Function.partialInv name (name x)).map value = some (value x) := by
    intro x
    rw [Function.partialInv_left hname, Option.map_some]
  refine ⟨fun path => (Function.partialInv name path).map value, ?_, ?_⟩
  · intro flow _
    rw [format_iperfBaselineOutput 0, Option.bind_some]
    exact hread (.inl (flow % numBuckets))
  · intro host _ flow _
    have hformat : format iperfSearchOutput (counts [host, flow % numBuckets, flow]) =
        some (fileName .pfabric host flow) := format_iperfSearchOutput (by decide) host flow
    rw [hformat, Option.bind_some]
    exact hread (.inr (host, flow))

theorem uniform_of_normalizesByBucket {numHosts flowsPerHost : ℕ} (hhosts : 1 ≤ numHosts)
    (hflows : 1 ≤ flowsPerHost) {base : ℕ → ℚ} (h : NormalizesByBucket numHosts flowsPerHost base)
    {k : ℕ} (hk : k < numBuckets) (hkflows : k < flowsPerHost) : base k = base 0 := by
  -- the times of a single flow show by which baseline it is divided
  let t : ℕ → ℕ → ℚ := fun _ flow => if flow = k then 1 else 0
  have hhosts' : (numHosts : ℚ) ≠ 0 := by exact_mod_cast (by omega : numHosts ≠ 0)
  have hflows' : (flowsPerHost : ℚ) ≠ 0 := by exact_mod_cast (by omega : flowsPerHost ≠ 0)
  have hmean : ∀ j, flowMean numHosts t j = if j = k then 1 else 0 := by
    intro j
    rw [flowMean, sum_const, card_range, nsmul_eq_mul, mul_div_cancel_left₀ _ hhosts']
  have hsum : ∀ b : ℕ → ℚ, ∑ j ∈ range flowsPerHost, flowMean numHosts t j / b j = 1 / b k := by
    intro b
    rw [sum_eq_single_of_mem k (mem_range.mpr hkflows)]
    · rw [hmean, if_pos rfl]
    · intro j _ hj
      rw [hmean, if_neg hj, zero_div]
  obtain ⟨getFctFromFile, hmeasures⟩ := exists_measures numHosts flowsPerHost t base
  have heq := h _ _ _ t hmeasures
  rw [getAvgNormalizedFct_eq hhosts hflows hmeasures, Option.some_inj, hsum fun _ => base 0,
    hsum fun j => base (j % numBuckets), Nat.mod_eq_of_lt hk, div_left_inj' hflows', one_div,
    one_div, inv_inj] at heq
  exact heq.symm

/-- The times are normalised as meant exactly if all buckets in use have the same
baseline. -/
theorem normalizesByBucket_iff (numHosts flowsPerHost : ℕ) (hhosts : 1 ≤ numHosts)
    (hflows : 1 ≤ flowsPerHost) (base : ℕ → ℚ) :
    NormalizesByBucket numHosts flowsPerHost base ↔
      ∀ k < numBuckets, k < flowsPerHost → base k = base 0 := by
  constructor
  · intro h k hk hkflows
    exact uniform_of_normalizesByBucket hhosts hflows h hk hkflows
  · exact normalizesByBucket_of_uniform hhosts hflows

/-- Two flows with the same baseline; the buckets not in use have another one. -/
theorem normalizes_two_flows :
    NormalizesByBucket 2 2 fun k => if k < 2 then 3 else 1 := by
  refine (normalizesByBucket_iff 2 2 (by decide) (by decide) _).mpr fun k _ hk => ?_
  rw [if_pos hk, if_pos (by decide)]

/-- Two flows, of which the second has twice the baseline of the first. -/
theorem not_normalizes_two_buckets : ¬ NormalizesByBucket 1 2 fun k => (k : ℚ) + 1 := by
  intro h
  have heq := uniform_of_normalizesByBucket le_rfl (by decide) h (k := 1) (by decide) (by decide)
  norm_num at heq

end Experiment
end PFabric
