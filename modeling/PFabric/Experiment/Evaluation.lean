import Mathlib.Algebra.BigOperators.Group.List.Basic
import Mathlib.Algebra.Field.Rat
import Mathlib.Data.List.Sort
import Mathlib.Order.Lattice.Nat
import PFabric.Experiment.Runner
import PFabric.Support.SharedLists

/-!
# The evaluation of an experiment

The model of `eval_utils.py`: which result files it opens and what it computes
from the flow completion times in them, in exact arithmetic.  What
`get_fct_from_file` reads from a path is a parameter.  A `numpy` matrix is the
list of its rows.
-/

namespace PFabric
namespace Experiment

open Text Template Comprehension

/-! ## Loads -/

/-- `NUM_BUCKETS` -/
def numBuckets : ℕ := 8

/-- `SCHEMES` -/
def schemes : List Test := [.tcpDroptail, .pfabric]

/-- `int(x.split('f')[1].split('-r')[0])` -/
def loadOfName (x : Text) : Option ℤ := do
  let rest ← (split "f".toList x)[1]?
  let count ← (split "-r".toList rest)[0]?
  parseInt count

/-- `get_loads_list`, where `listing` is what `os.listdir` gives.  The order of the
list it makes of a set is not determined; `evaluate_all` sorts it. -/
def getLoadsList
    (tree : FileTree) (listing : List Text) (baseDir : Text) :
    Option (List ℤ) := do
  let d := listing.filter fun x =>
    Path.ofText (joinPath (joinPath baseDir "baseline".toList) x) ∈ tree.dirs ∧
      x.head? = some 'f'
  let d ← d.mapM loadOfName
  some d.dedup

/-- The loads of `evaluate_all`. -/
def sortedLoads
    (tree : FileTree) (listing : List Text) (baseDir : Text) :
    Option (List ℤ) :=
  (getLoadsList tree listing baseDir).map (List.insertionSort (· ≤ ·))

/-! ## Files -/

/-- `TEMPLATE` -/
def template : Text :=
  joinPath (joinPath (joinPath "%s".toList "%s".toList) "f%d-r%d".toList) "%s".toList

/-- `baseline_template` of `evaluate_scheme`. -/
def baselineTemplate (baseDir : Text) (load : ℤ) (i : ℕ) : Option Text :=
  format template [.str baseDir, .str "baseline".toList, .int load, .int i,
    .str "iperf_baseline_%d.txt".toList]

/-- `search_template` of `evaluate_scheme`. -/
def searchTemplate (baseDir : Text) (scheme : Test) (load : ℤ) (i : ℕ) : Option Text :=
  format template [.str baseDir, .str scheme.name, .int load, .int i,
    .str "iperf_search_h%d_p%d_f%d.txt".toList]

/-- The files from which the baselines are extracted. -/
def baselineFiles (template : Text) (flowsPerHost : ℤ) : Option (List Text) :=
  (List.range flowsPerHost.toNat).mapM fun flow =>
    format template (counts [flow % numBuckets])

/-- The files from which the completion times are extracted, host by host. -/
def hostFiles
    (template : Text) (numHosts : ℕ) (flowsPerHost : ℤ) :
    Option (List (List Text)) :=
  (List.range numHosts).mapM fun host => (List.range flowsPerHost.toNat).mapM fun flow =>
    format template (counts [host, flow % numBuckets, flow])

/-! ## Completion times -/

/-- `numpy.matrix(rows).mean(0)`, a matrix of one row. -/
def columnMeans (rows : List (List ℚ)) : List (List ℚ) :=
  [(List.range (rows.headD []).length).map fun j =>
    (rows.map fun row => row.getD j 0).sum / rows.length]

/-- The mean of all entries. -/
def meanAll (rows : List (List ℚ)) : ℚ := rows.flatten.sum / rows.flatten.length

/-- The index runs over the rows of the matrix, and indexing gives a row. -/
def normalizeFcts (fcts : List (List ℚ)) (baseline : List ℚ) : Option (List (List ℚ)) :=
  (List.range fcts.length).mapM fun i => do
    let row ← fcts[i]?
    let base ← baseline[i % numBuckets]?
    some (row.map (· / base))

def getAvgNormalizedFct (getFctFromFile : Text → Option ℚ) (numHosts : ℕ) (flowsPerHost : ℤ)
    (baselineTemplate searchTemplate : Text) : Option ℚ := do
  let baselines ← (← baselineFiles baselineTemplate flowsPerHost).mapM getFctFromFile
  let hostFcts ← (← hostFiles searchTemplate numHosts flowsPerHost).mapM fun files =>
    files.mapM getFctFromFile
  let normalizedFctPerFlow ← normalizeFcts (columnMeans hostFcts) baselines
  some (meanAll normalizedFctPerFlow)

/-! ## The average over the iterations -/

/-- The lists of `evaluate_scheme`: those named `fcts`, one for each iteration, and
the references to them in `fcts_all_iter`. -/
structure SchemeLists where
  heap : Heap ℚ
  fctsAllIter : List Ref

section Scheme

variable (getFctFromFile : Text → Option ℚ) (baseDir : Text) (scheme : Test) (numHosts : ℕ)

/-- What `evaluate_scheme` gets from `get_avg_normalized_fct` for one load. -/
def fctOfLoad (i : ℕ) (load : ℤ) : Option ℚ := do
  let baselineTemplate ← baselineTemplate baseDir load i
  let searchTemplate ← searchTemplate baseDir scheme load i
  getAvgNormalizedFct getFctFromFile numHosts load baselineTemplate searchTemplate

/-- The body of the inner loop.  It also appends the list itself, which is not yet
complete. -/
def evaluateLoad
    (i : ℕ) (fcts : Ref) (s : SchemeLists) (load : ℤ) :
    Option SchemeLists := do
  let fct ← fctOfLoad getFctFromFile baseDir scheme numHosts i load
  some { heap := s.heap.append fcts fct, fctsAllIter := s.fctsAllIter ++ [fcts] }

/-- The body of the outer loop. -/
def evaluateIteration (loads : List ℤ) (s : SchemeLists) (i : ℕ) : Option SchemeLists :=
  let fcts := s.heap.new.1
  let s := { s with heap := s.heap.new.2 }
  loads.foldlM (evaluateLoad getFctFromFile baseDir scheme numHosts i fcts) s

/-- `evaluate_scheme`. -/
def evaluateScheme (numIter : ℕ) (loads : List ℤ) : Option (List ℚ) := do
  let s ← (List.range numIter).foldlM
    (evaluateIteration getFctFromFile baseDir scheme numHosts loads) ⟨.empty, []⟩
  (columnMeans (s.fctsAllIter.map s.heap.contents))[0]?

end Scheme

/-! ## The files `evaluate_all` opens -/

/-- The flows whose files are opened for one load and iteration: those of the
baseline and those of the hosts. -/
def baselineFlows (load : ℤ) (i : ℕ) : List FlowId :=
  (List.range load.toNat).map fun flow => ⟨.baseline, load, i, 0, flow % numBuckets⟩

@[inherit_doc baselineFlows]
def hostFlows (numHosts : ℕ) (scheme : Test) (load : ℤ) (i : ℕ) : List FlowId :=
  (List.range numHosts).flatMap fun host =>
    (List.range load.toNat).map fun flow => ⟨scheme, load, i, host, flow⟩

/-- The files `get_avg_normalized_fct` opens for a load in an iteration, each with
the flow for which it is opened. -/
def openedFor (baseDir : Text) (numHosts : ℕ) (scheme : Test) (i : ℕ) (load : ℤ) :
    Option (List (FlowId × Text)) := do
  let baselines ← baselineFiles (← baselineTemplate baseDir load i) load
  let hosts ← hostFiles (← searchTemplate baseDir scheme load i) numHosts load
  some ((baselineFlows load i).zip baselines ++
    (hostFlows numHosts scheme load i).zip hosts.flatten)

/-- The files `evaluate_scheme` opens. -/
def openedByScheme
    (baseDir : Text) (numIter numHosts : ℕ)
    (loads : List ℤ) (scheme : Test) :
    Option (List (FlowId × Text)) := do
  let files ← (List.range numIter).mapM fun i =>
    loads.mapM (openedFor baseDir numHosts scheme i)
  some files.flatten.flatten

/-- The files `evaluate_all` opens. -/
def openedByAll
    (baseDir : Text) (numHosts numIter : ℕ)
    (schemes : List Test) (loads : List ℤ) :
    Option (List (FlowId × Text)) := do
  let files ← schemes.mapM (openedByScheme baseDir numIter numHosts loads)
  some files.flatten

/-! ## Names that are formatted twice -/

theorem format_template (dir ft : Text) (test : Test) (load : ℤ) (i : ℕ) :
    format template [.str dir, .str test.name, .int load, .int i, .str ft] =
      some (runDir dir test load i ++ '/' :: ft) := by
  change some (dir ++ '/' :: (test.name ++ '/' :: 'f' :: (ofInt load ++
    '-' :: 'r' :: (decimal i ++ '/' :: (ft ++ []))))) = _
  simp only [runDir, testDir, runName, List.append_nil, List.append_assoc, List.cons_append]

theorem percent_notMem_runDir
    {dir : Text} (hdir : '%' ∉ dir)
    (test : Test) (load : ℤ) (i : ℕ) :
    '%' ∉ runDir dir test load i ++ ['/'] := by
  have htest : '%' ∉ test.name := by cases test <;> decide
  have hi : '%' ∉ decimal i := notMem_decimal rfl
  have hload : '%' ∉ ofInt load := by
    cases load with
    | ofNat k => exact notMem_decimal rfl
    | negSucc k =>
        intro h
        exact notMem_decimal rfl (List.mem_of_ne_of_mem (by decide) h)
  simp [runDir, testDir, runName, hdir, htest, hi, hload]

/-- The second formatting only fills in the name of the file. -/
theorem format_runDir_append
    {dir : Text} (hdir : '%' ∉ dir)
    (test : Test) (load : ℤ) (i : ℕ)
    {ft file : Text} {args : List Arg}
    (h : format ft args = some file) :
    format (runDir dir test load i ++ '/' :: ft) args =
      some (runDir dir test load i ++ '/' :: file) := by
  have happend := format_append_of_notMem (percent_notMem_runDir hdir test load i) ft args
  rw [h, List.append_assoc, List.singleton_append] at happend
  rw [happend, Option.map_some, List.append_assoc, List.singleton_append]

theorem baselineFiles_eq {dir : Text} (hdir : '%' ∉ dir) (load : ℤ) (i : ℕ) :
    (baselineTemplate dir load i).bind (baselineFiles · load) =
      some ((baselineFlows load i).map (flowPath dir)) := by
  have htemplate : baselineTemplate dir load i =
      some (runDir dir .baseline load i ++ '/' :: iperfBaselineOutput) :=
    format_template dir _ .baseline load i
  rw [htemplate, Option.bind_some, baselineFiles,
    mapM_eq_some _ fun flow => format_runDir_append hdir .baseline load i
      (format_iperfBaselineOutput 0 (flow % numBuckets)),
    baselineFlows, List.map_map]
  rfl

theorem hostFiles_eq
    {dir : Text} (hdir : '%' ∉ dir)
    {scheme : Test} (hscheme : scheme ≠ .baseline)
    (numHosts : ℕ) (load : ℤ) (i : ℕ) :
    ((searchTemplate dir scheme load i).bind (hostFiles · numHosts load)).map List.flatten =
      some ((hostFlows numHosts scheme load i).map (flowPath dir)) := by
  have htemplate : searchTemplate dir scheme load i =
      some (runDir dir scheme load i ++ '/' :: iperfSearchOutput) :=
    format_template dir _ scheme load i
  have hfile : ∀ host flow : ℕ,
      format (runDir dir scheme load i ++ '/' :: iperfSearchOutput)
          (counts [host, flow % numBuckets, flow]) =
        some (flowPath dir ⟨scheme, load, i, host, flow⟩) :=
    fun host flow =>
      format_runDir_append hdir scheme load i (format_iperfSearchOutput hscheme host flow)
  rw [htemplate, Option.bind_some, hostFiles,
    mapM_eq_some _ fun host => mapM_eq_some _ fun flow => hfile host flow, Option.map_some,
    hostFlows, List.map_flatMap]
  simp only [List.map_map]
  rfl

/-- The flows for which `evaluate_all` opens files. -/
def evaluatedFlows
    (numHosts numIter : ℕ) (schemes : List Test) (loads : List ℤ) :
    List FlowId :=
  schemes.flatMap fun scheme =>
    (List.range numIter).flatMap fun i =>
      loads.flatMap fun load =>
        baselineFlows load i ++ hostFlows numHosts scheme load i

theorem openedFor_eq
    {dir : Text} (hdir : '%' ∉ dir)
    {scheme : Test} (hscheme : scheme ≠ .baseline)
    (numHosts i : ℕ) (load : ℤ) :
    openedFor dir numHosts scheme i load =
      some ((baselineFlows load i ++ hostFlows numHosts scheme load i).map fun id =>
        (id, flowPath dir id)) := by
  obtain ⟨bt, hbt, hbaselines⟩ := Option.bind_eq_some_iff.mp (baselineFiles_eq hdir load i)
  obtain ⟨hosts, hhosts, hflatten⟩ :=
    Option.map_eq_some_iff.mp (hostFiles_eq hdir hscheme numHosts load i)
  obtain ⟨st, hst, hhosts⟩ := Option.bind_eq_some_iff.mp hhosts
  have hzip : ∀ l : List FlowId, l.zip (l.map (flowPath dir)) = l.map fun id =>
      (id, flowPath dir id) := by
    intro l
    have hl : (l.map id).zip (l.map (flowPath dir)) =
        l.map fun id => (id, flowPath dir id) :=
      List.zip_map'
    rwa [List.map_id] at hl
  simp only [openedFor, hbt, hbaselines, hst, hhosts, hflatten, hzip, Option.bind_eq_bind,
    Option.bind_some, List.map_append]

theorem openedByAll_eq
    {dir : Text} (hdir : '%' ∉ dir)
    {schemes : List Test} (hschemes : .baseline ∉ schemes)
    (numHosts numIter : ℕ) (loads : List ℤ) :
    openedByAll dir numHosts numIter schemes loads =
      some ((evaluatedFlows numHosts numIter schemes loads).map fun id =>
        (id, flowPath dir id)) := by
  have hscheme : ∀ scheme ∈ schemes,
      openedByScheme dir numIter numHosts loads scheme =
      some (((List.range numIter).flatMap fun i => loads.flatMap fun load =>
        baselineFlows load i ++ hostFlows numHosts scheme load i).map fun id =>
          (id, flowPath dir id)) := by
    intro scheme hmem
    have hne : scheme ≠ .baseline := fun h => hschemes (h ▸ hmem)
    rw [openedByScheme, mapM_eq_some _ fun i =>
      mapM_eq_some _ fun load => openedFor_eq hdir hne numHosts i load]
    simp only [Option.bind_eq_bind, Option.bind_some, List.map_flatMap,
      List.flatten_flatten, List.map_map]
    rfl
  rw [openedByAll, mapM_eq_some_of_mem hscheme, evaluatedFlows, List.map_flatMap]
  rfl

end Experiment
end PFabric
