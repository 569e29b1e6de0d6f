import PFabric.Guarantees.Normalization

/-!
# Averages over the iterations

`evaluate_scheme` appends the list of an iteration to its result once for every
load, while that list is still being filled.  All the references see the complete
list in the end, and every iteration is repeated equally often: the column means
are those over the iterations.
-/

namespace PFabric
namespace Experiment

open Finset

/-! ## Means of repeated rows -/

theorem sum_repeated
    {ι : Type*} (m : ℕ)
    (f : ι → List ℚ) (g : List ℚ → ℚ) (l : List ι) :
    ((l.flatMap fun x => List.replicate m (f x)).map g).sum =
      m * ((l.map f).map g).sum := by
  induction l with
  | nil => simp
  | cons x l ih => simp [ih, mul_add]

/-- Rows that are all repeated equally often have the same means. -/
theorem columnMeans_repeated
    {ι : Type*} {m : ℕ} (hm : 1 ≤ m)
    (f : ι → List ℚ) (l : List ι) :
    columnMeans (l.flatMap fun x => List.replicate m (f x)) =
      columnMeans (l.map f) := by
  have hm' : (m : ℚ) ≠ 0 := by exact_mod_cast (by omega : m ≠ 0)
  have hhead : (l.flatMap fun x => List.replicate m (f x)).headD [] =
      (l.map f).headD [] := by
    cases l with
    | nil => rfl
    | cons x l =>
        obtain ⟨k, rfl⟩ : ∃ k, m = k + 1 := ⟨m - 1, by omega⟩
        simp [List.replicate_succ]
  have hlength : ((l.flatMap fun x => List.replicate m (f x)).length : ℚ) =
      m * (l.map f).length := by
    have hsum : (l.flatMap fun x => List.replicate m (f x)).length =
        m * (l.map f).length := by
      simp [List.length_flatMap, mul_comm]
    rw [hsum, Nat.cast_mul]
  simp only [columnMeans, hhead, sum_repeated, hlength, mul_div_mul_left _ _ hm']

/-! ## The loops -/

section Scheme

variable {getFctFromFile : Text → Option ℚ} {baseDir : Text} {scheme : Test} {numHosts : ℕ}
  {loads : List ℤ} {v : ℕ → ℤ → ℚ}

/-- What the inner loop leaves: the list has got its values, and the result as many
references to it. -/
theorem foldlM_evaluateLoad
    {i : ℕ} {ls : List ℤ}
    (h : ∀ load ∈ ls,
      fctOfLoad getFctFromFile baseDir scheme numHosts i load = some (v i load))
    (fcts : Ref) (s : SchemeLists) :
    ls.foldlM (evaluateLoad getFctFromFile baseDir scheme numHosts i fcts) s =
      some ⟨s.heap.extend fcts (ls.map (v i)),
        s.fctsAllIter ++ List.replicate ls.length fcts⟩ := by
  induction ls generalizing s with
  | nil => simp [Heap.extend_nil]
  | cons load ls ih =>
      have hload : evaluateLoad getFctFromFile baseDir scheme numHosts i fcts s load =
          some ⟨s.heap.append fcts (v i load), s.fctsAllIter ++ [fcts]⟩ := by
        rw [evaluateLoad, h load List.mem_cons_self]
        rfl
      rw [List.foldlM_cons, hload, Option.bind_eq_bind, Option.bind_some,
        ih fun l hl => h l (List.mem_cons_of_mem load hl)]
      simp [Heap.append_extend, List.replicate_succ]

variable (loads v) in
/-- The lists after `k` iterations. -/
def listsAfter (k : ℕ) : SchemeLists where
  heap := ⟨(List.range k).map fun i => loads.map (v i)⟩
  fctsAllIter := (List.range k).flatMap fun i => List.replicate loads.length i

/-- An iteration adds its list, and the references to it. -/
theorem evaluateIteration_listsAfter
    {k : ℕ}
    (h : ∀ load ∈ loads,
      fctOfLoad getFctFromFile baseDir scheme numHosts k load = some (v k load)) :
    evaluateIteration getFctFromFile baseDir scheme numHosts loads
        (listsAfter loads v k) k =
      some (listsAfter loads v (k + 1)) := by
  have hfcts : (listsAfter loads v k).heap.new.1 = k := by simp [listsAfter, Heap.new]
  have hheap := Heap.objects_extend_new (listsAfter loads v k).heap (loads.map (v k))
  have hlists : (listsAfter loads v (k + 1)) =
      ⟨⟨(listsAfter loads v k).heap.objects ++ [loads.map (v k)]⟩,
        (listsAfter loads v k).fctsAllIter ++ List.replicate loads.length k⟩ := by
    simp [listsAfter, List.range_succ]
  rw [evaluateIteration, foldlM_evaluateLoad h, hlists, ← hheap, hfcts]

/-- The lists after the first iterations. -/
theorem foldlM_evaluateIteration {n : ℕ}
    (h : ∀ i < n, ∀ load ∈ loads,
      fctOfLoad getFctFromFile baseDir scheme numHosts i load = some (v i load)) :
    (List.range n).foldlM (evaluateIteration getFctFromFile baseDir scheme numHosts loads)
      ⟨.empty, []⟩ = some (listsAfter loads v n) := by
  induction n with
  | zero => rfl
  | succ n ih =>
      rw [List.range_succ, List.foldlM_append, ih fun i hi => h i (by omega),
        Option.bind_eq_bind, Option.bind_some, List.foldlM_cons,
        evaluateIteration_listsAfter (h n (Nat.lt_succ_self n))]
      rfl

/-! ## The averages -/

/-- Every reference to the list of an iteration shows the complete list. -/
theorem contents_listsAfter (k : ℕ) :
    (listsAfter loads v k).fctsAllIter.map (listsAfter loads v k).heap.contents =
      (List.range k).flatMap fun i => List.replicate loads.length (loads.map (v i)) := by
  rw [listsAfter, List.map_flatMap]
  refine List.flatMap_congr fun i hi => ?_
  have hget : ((List.range k).map fun i => loads.map (v i)).getD i [] =
      loads.map (v i) := by
    simp [List.getD_eq_getElem?_getD, List.getElem?_range (List.mem_range.mp hi)]
  rw [List.map_replicate, Heap.contents, hget]

variable (getFctFromFile baseDir scheme numHosts loads v) in
/-- The result of `evaluate_scheme` is, for every load, the average over the
iterations. -/
theorem evaluateScheme_eq (numIter : ℕ) (hiter : 1 ≤ numIter) (hloads : loads ≠ [])
    (h : ∀ i < numIter, ∀ load ∈ loads,
      fctOfLoad getFctFromFile baseDir scheme numHosts i load = some (v i load)) :
    ∃ fcts, evaluateScheme getFctFromFile baseDir scheme numHosts numIter loads = some fcts ∧
      fcts.length = loads.length ∧
      ∀ (k : ℕ) (load : ℤ), loads[k]? = some load →
        fcts[k]? = some (1 / numIter * ∑ i ∈ range numIter, v i load) := by
  have hrow : ∀ i, loads.map (v i) =
      (List.range loads.length).map fun k => v i (loads.getD k 0) := by
    intro i
    refine List.ext_getElem (by simp) fun k hk _ => ?_
    have hk' : k < loads.length := by simpa using hk
    simp [List.getD_eq_getElem?_getD, List.getElem?_eq_getElem hk']
  have hmeans : columnMeans ((listsAfter loads v numIter).fctsAllIter.map
      (listsAfter loads v numIter).heap.contents) =
      [(List.range loads.length).map (flowMean numIter fun i k => v i (loads.getD k 0))] := by
    rw [contents_listsAfter, columnMeans_repeated (List.length_pos_iff.mpr hloads)]
    simp only [hrow]
    exact columnMeans_eq hiter
  refine ⟨(List.range loads.length).map (flowMean numIter fun i k => v i (loads.getD k 0)),
    ?_, ?_, ?_⟩
  · rw [evaluateScheme, foldlM_evaluateIteration h, Option.bind_eq_bind,
      Option.bind_some, hmeans]
    rfl
  · rw [List.length_map, List.length_range]
  · intro k load hload
    have hk : k < loads.length := (List.getElem?_eq_some_iff.mp hload).1
    rw [List.getElem?_map, List.getElem?_range hk, Option.map_some, flowMean,
      one_div_mul_eq_div]
    simp only [List.getD_eq_getElem?_getD, hload, Option.getD_some]

end Scheme

/-- Completion times of an experiment with two loads and two runs. -/
def sampleFct (path : Text) : Option ℚ :=
  some (if "out/baseline".toList.isPrefixOf path then 2
    else if "out/pfabric/f1-r0".toList.isPrefixOf path then 4
    else if "out/pfabric/f1-r1".toList.isPrefixOf path then 6
    else if "out/pfabric/f2-r0".toList.isPrefixOf path then 8
    else 10)

/-- Two iterations with two loads.  The list of an iteration is appended when it holds
one of its two entries, and both are averaged. -/
theorem evaluateScheme_two_iterations :
    ∃ fcts, evaluateScheme sampleFct "out".toList .pfabric 1 2 [1, 2] = some fcts ∧
      fcts[0]? = some (5 / 2) ∧ fcts[1]? = some (9 / 2) := by
  obtain ⟨fcts, hfcts, -, hmean⟩ := evaluateScheme_eq sampleFct "out".toList .pfabric 1
    [1, 2] (fun i load => (i : ℚ) + 2 * load) 2 (by decide) (by decide) (by decide +kernel)
  refine ⟨fcts, hfcts, ?_, ?_⟩
  · exact (hmean 0 1 rfl).trans (by decide +kernel)
  · exact (hmean 1 2 rfl).trans (by decide +kernel)

end Experiment
end PFabric
