import Mathlib.Data.List.Nodup
import PFabric.Support.Comprehension
import PFabric.Support.FileTree

/-!
# The experiment runner

The model of `pfabric.py` as far as result files go: which directories it makes
and which `iperf` commands it starts, with the path each of them writes to.  Flow
sizes are given as ten times their decimal logarithm.
-/

namespace PFabric
namespace Experiment

open Text Template Comprehension

/-! ## The source -/

/-- The parsed arguments. -/
structure Args where
  dir : Text
  n : ℕ
  nflows : ℕ
  nruns : ℕ

/-- The test classes, in the order in which `main` runs them. -/
inductive Test where
  | baseline
  | tcpDroptail
  | dctcp
  | pfabric
  deriving DecidableEq

namespace Test

def name : Test → Text
  | baseline => "baseline".toList
  | tcpDroptail => "tcp-droptail".toList
  | dctcp => "dctcp".toList
  | pfabric => "pfabric".toList

def all : List Test := [baseline, tcpDroptail, dctcp, pfabric]

end Test

/-- `IPERF_SEARCH_OUTPUT` -/
def iperfSearchOutput : Text := "iperf_search_h%d_p%d_f%d.txt".toList

/-- `IPERF_BASELINE_OUTPUT` -/
def iperfBaselineOutput : Text := "iperf_baseline_%d.txt".toList

/-- `SEARCH_FLOW_SIZE_BUCKETS`, from `10**6.5` to `10**7.2`. -/
def searchFlowSizeBuckets : List ℕ := [65, 66, 67, 68, 69, 70, 71, 72]

/-- `NUM_FLOW_SIZE_BUCKETS` -/
def numFlowSizeBuckets : ℕ := searchFlowSizeBuckets.length

/-- What a flow of the experiment is: the test, the number of flows per host, the
run, the sending host and the number of the flow. -/
structure FlowId where
  test : Test
  nflows : ℤ
  run : ℕ
  host : ℕ
  flow : ℕ
  deriving DecidableEq

/-- The command given to a client, as far as it is not the same for all. -/
structure ClientCommand where
  client : Text
  nBytes : ℕ
  priority : ℕ
  outputPath : Text
  deriving DecidableEq

inductive Event where
  /-- `if not os.path.exists(dir): os.makedirs(dir)` -/
  | ensureDir (dir : Text)
  /-- The server is started and writes to the path. -/
  | server (output : Text)
  /-- A client is started for a flow. -/
  | client (flow : FlowId) (command : ClientCommand)

def iperfClientCmd (test : Test) (client : Text) (nBytes priority : ℕ) (outputPath : Text) :
    ClientCommand where
  client := client
  nBytes := nBytes
  priority := if test = .tcpDroptail then 0 else priority
  outputPath := outputPath

/-- The body of the innermost loop of `BaseTest.start_senders`. -/
def startFlow (a : Args) (test : Test) (outputDir : Text) (r i j : ℕ) : Option Event := do
  let client ← format "h%d".toList (counts [i])
  let bucket := j % numFlowSizeBuckets
  let nBytes ← searchFlowSizeBuckets[bucket]?
  let outputFile ← format iperfSearchOutput (counts [i, bucket, j])
  let outputPath ← format "%s/%s".toList [.str outputDir, .str outputFile]
  some (.client ⟨test, a.nflows, r, i, j⟩
    (iperfClientCmd test client nBytes (bucket * 4) outputPath))

/-- The body of the inner loop of `BaselineTest.start_senders`. -/
def startBaselineFlow (a : Args) (outputDir : Text) (r i : ℕ) : Option Event := do
  let outputFile ← format iperfBaselineOutput (counts [i])
  let outputPath ← format "%s/%s".toList [.str outputDir, .str outputFile]
  let bucket := i % numFlowSizeBuckets
  let nBytes ← searchFlowSizeBuckets[bucket]?
  some (.client ⟨.baseline, a.nflows, r, 0, i⟩
    (iperfClientCmd .baseline "h0".toList nBytes (bucket * 4) outputPath))

/-- The flows of one run, in its directory. -/
def startRun (a : Args) (test : Test) (outputDir : Text) (r : ℕ) : Option (List Event) :=
  if test = .baseline then (List.range numFlowSizeBuckets).mapM (startBaselineFlow a outputDir r)
  else do
    let flows ← (List.range (a.n - 1)).mapM fun i =>
      (List.range a.nflows).mapM (startFlow a test outputDir r i)
    some flows.flatten

/-- `start_senders` of both classes. -/
def startSenders (a : Args) (test : Test) (testDir : Text) : Option (List Event) := do
  let runs ← (List.range a.nruns).mapM fun (r : ℕ) => do
    let outputDir ← format "%s/f%s-r%d".toList [.str testDir, .int a.nflows, .int r]
    let flows ← startRun a test outputDir r
    some (.ensureDir outputDir :: flows)
  some runs.flatten

/-- `__init__` and `test`. -/
def runTest (a : Args) (test : Test) : Option (List Event) := do
  let outputDir ← format "%s/%s".toList [.str a.dir, .str test.name]
  let serverOutput ← format "%s/iperf_server.txt".toList [.str outputDir]
  let senders ← startSenders a test outputDir
  some (.ensureDir outputDir :: .server serverOutput :: senders)

/-- One execution of the script. -/
def main (a : Args) : Option (List Event) := do
  let tests ← Test.all.mapM (runTest a)
  some (.ensureDir a.dir :: tests.flatten)

/-- The script is executed for each number of flows. -/
def experiment (dir : Text) (n nruns : ℕ) (loads : List ℕ) : Option (List Event) := do
  let runs ← loads.mapM fun nflows => main ⟨dir, n, nflows, nruns⟩
  some runs.flatten

def Event.effect : Event → FileTree.Effect
  | .ensureDir dir => .ensureDir (Path.ofText dir)
  | .server output => .write (Path.ofText output)
  | .client _ command => .write (Path.ofText command.outputPath)

/-- The client commands, each with the flow it is for. -/
def clients (events : List Event) : List (FlowId × ClientCommand) :=
  events.filterMap fun
    | .client flow command => some (flow, command)
    | _ => none

/-! ## The names it makes -/

/-- The directory of a run within that of a test. -/
def runName (nflows : ℤ) (r : ℕ) : Text := 'f' :: (ofInt nflows ++ '-' :: 'r' :: decimal r)

def testDir (dir : Text) (test : Test) : Text := dir ++ '/' :: test.name

def runDir (dir : Text) (test : Test) (nflows : ℤ) (r : ℕ) : Text :=
  testDir dir test ++ '/' :: runName nflows r

/-- The file of a flow within the directory of its run. -/
def fileName (test : Test) (host flow : ℕ) : Text :=
  if test = .baseline then "iperf_baseline_".toList ++ (decimal flow ++ ".txt".toList)
  else "iperf_search_h".toList ++ (decimal host ++ ("_p".toList ++
    (decimal (flow % numFlowSizeBuckets) ++ ("_f".toList ++ (decimal flow ++ ".txt".toList)))))

def flowPath (dir : Text) (id : FlowId) : Text :=
  runDir dir id.test id.nflows id.run ++ '/' :: fileName id.test id.host id.flow

/-- The size of the flow's bucket. -/
def bucketSize (flow : ℕ) : ℕ := 65 + flow % numFlowSizeBuckets

def flowCommand (dir : Text) (id : FlowId) : ClientCommand where
  client := 'h' :: decimal id.host
  nBytes := bucketSize id.flow
  priority := if id.test = .tcpDroptail then 0 else id.flow % numFlowSizeBuckets * 4
  outputPath := flowPath dir id

/-- The flows of one run. -/
def runFlows (a : Args) (test : Test) (r : ℕ) : List FlowId :=
  if test = .baseline then
    (List.range numFlowSizeBuckets).map fun i => ⟨.baseline, a.nflows, r, 0, i⟩
  else (List.range (a.n - 1)).flatMap fun i =>
    (List.range a.nflows).map fun j => ⟨test, a.nflows, r, i, j⟩

/-! ## Templates -/

theorem format_slash (t u : Text) :
    format "%s/%s".toList [.str t, .str u] = some (t ++ '/' :: u) := by
  change some (t ++ '/' :: (u ++ [])) = _
  rw [List.append_nil]

theorem format_runDir (t : Text) (k : ℤ) (r : ℕ) :
    format "%s/f%s-r%d".toList [.str t, .int k, .int r] = some (t ++ '/' :: runName k r) := by
  change some (t ++ '/' :: 'f' :: (ofInt k ++ '-' :: 'r' :: (decimal r ++ []))) = _
  rw [List.append_nil, runName]

theorem format_serverOutput (t : Text) :
    format "%s/iperf_server.txt".toList [.str t] = some (t ++ '/' :: "iperf_server.txt".toList) :=
  rfl

theorem format_client (i : ℕ) : format "h%d".toList (counts [i]) = some ('h' :: decimal i) := by
  change some ('h' :: (decimal i ++ [])) = _
  rw [List.append_nil]

theorem format_runName (k r : ℕ) :
    format "f%s-r%d".toList (counts [k, r]) = some (runName k r) := by
  change some ('f' :: (decimal k ++ '-' :: 'r' :: (decimal r ++ []))) = _
  rw [List.append_nil]
  rfl

theorem format_iperfSearchOutput {test : Test} (h : test ≠ .baseline) (i j : ℕ) :
    format iperfSearchOutput (counts [i, j % numFlowSizeBuckets, j]) =
      some (fileName test i j) := by
  rw [fileName, if_neg h]
  rfl

theorem format_iperfBaselineOutput (host i : ℕ) :
    format iperfBaselineOutput (counts [i]) = some (fileName .baseline host i) := by
  rw [fileName, if_pos rfl]
  rfl

theorem searchFlowSizeBuckets_get (flow : ℕ) :
    searchFlowSizeBuckets[flow % numFlowSizeBuckets]? = some (bucketSize flow) := by
  have hget : ∀ b < numFlowSizeBuckets, searchFlowSizeBuckets[b]? = some (65 + b) := by decide
  exact hget _ (Nat.mod_lt _ (by decide))

/-! ## The events of an experiment -/

theorem startFlow_eq (a : Args) {test : Test} (htest : test ≠ .baseline) (r i j : ℕ) :
    startFlow a test (runDir a.dir test a.nflows r) r i j =
      some (.client ⟨test, a.nflows, r, i, j⟩
        (flowCommand a.dir ⟨test, a.nflows, r, i, j⟩)) := by
  simp only [startFlow, format_client, searchFlowSizeBuckets_get, format_iperfSearchOutput htest,
    format_slash, Option.bind_eq_bind, Option.bind_some]
  rfl

theorem startBaselineFlow_eq (a : Args) (r i : ℕ) :
    startBaselineFlow a (runDir a.dir .baseline a.nflows r) r i =
      some (.client ⟨.baseline, a.nflows, r, 0, i⟩
        (flowCommand a.dir ⟨.baseline, a.nflows, r, 0, i⟩)) := by
  have hclient : "h0".toList = 'h' :: decimal 0 := by
    rw [decimal, Nat.toDigits_zero]
    rfl
  simp only [startBaselineFlow, format_iperfBaselineOutput 0, searchFlowSizeBuckets_get,
    format_slash, hclient, Option.bind_eq_bind, Option.bind_some]
  rfl

/-- The events of one run. -/
def runEvents (a : Args) (test : Test) (r : ℕ) : List Event :=
  .ensureDir (runDir a.dir test a.nflows r) ::
    (runFlows a test r).map fun id => .client id (flowCommand a.dir id)

/-- The events of one test. -/
def testEvents (a : Args) (test : Test) : List Event :=
  .ensureDir (testDir a.dir test) ::
    .server (testDir a.dir test ++ '/' :: "iperf_server.txt".toList) ::
    (List.range a.nruns).flatMap (runEvents a test)

/-- The events of one execution of the script. -/
def mainEvents (a : Args) : List Event := .ensureDir a.dir :: Test.all.flatMap (testEvents a)

theorem startRun_eq (a : Args) (test : Test) (r : ℕ) :
    startRun a test (runDir a.dir test a.nflows r) r =
      some ((runFlows a test r).map fun id => .client id (flowCommand a.dir id)) := by
  by_cases htest : test = .baseline
  · subst htest
    rw [startRun, if_pos rfl, mapM_eq_some _ (startBaselineFlow_eq a r), runFlows, if_pos rfl,
      List.map_map]
    rfl
  · rw [startRun, if_neg htest,
      mapM_eq_some _ fun i => mapM_eq_some _ (startFlow_eq a htest r i), runFlows, if_neg htest]
    simp only [Option.bind_eq_bind, Option.bind_some, List.map_flatMap, List.map_map]
    rfl

theorem startSenders_eq (a : Args) (test : Test) :
    startSenders a test (testDir a.dir test) =
      some ((List.range a.nruns).flatMap (runEvents a test)) := by
  have hrun : ∀ r : ℕ, (do
      let outputDir ← format "%s/f%s-r%d".toList [.str (testDir a.dir test), .int a.nflows, .int r]
      let flows ← startRun a test outputDir r
      some (Event.ensureDir outputDir :: flows)) = some (runEvents a test r) := by
    intro r
    rw [format_runDir]
    change ((startRun a test (runDir a.dir test a.nflows r) r).bind _) = _
    rw [startRun_eq]
    rfl
  rw [startSenders, mapM_eq_some _ hrun]
  rfl

theorem runTest_eq (a : Args) (test : Test) : runTest a test = some (testEvents a test) := by
  rw [runTest, format_slash, ← testDir]
  simp only [Option.bind_eq_bind, Option.bind_some, format_serverOutput, startSenders_eq,
    testEvents]

theorem experiment_eq (dir : Text) (n nruns : ℕ) (loads : List ℕ) :
    experiment dir n nruns loads =
      some (loads.flatMap fun nflows => mainEvents ⟨dir, n, nflows, nruns⟩) := by
  have hmain : ∀ a, main a = some (mainEvents a) := by
    intro a
    rw [main, mapM_eq_some _ (runTest_eq a)]
    rfl
  rw [experiment, mapM_eq_some _ fun nflows => hmain ⟨dir, n, nflows, nruns⟩]
  rfl

theorem mem_mainEvents {a : Args} {e : Event} :
    e ∈ mainEvents a ↔ e = .ensureDir a.dir ∨ ∃ test, e = .ensureDir (testDir a.dir test) ∨
      e = .server (testDir a.dir test ++ '/' :: "iperf_server.txt".toList) ∨
      ∃ r < a.nruns, e = .ensureDir (runDir a.dir test a.nflows r) ∨
        ∃ id ∈ runFlows a test r, e = .client id (flowCommand a.dir id) := by
  have hall : ∀ test, test ∈ Test.all := by
    intro test
    cases test <;> decide
  simp only [mainEvents, testEvents, runEvents, List.mem_cons, List.mem_flatMap, List.mem_map,
    List.mem_range, hall, true_and, eq_comm]

/-! ## The flows of an experiment -/

def flows (dir : Text) (n nruns : ℕ) (loads : List ℕ) : List FlowId :=
  loads.flatMap fun nflows => Test.all.flatMap fun test => (List.range nruns).flatMap fun r =>
    runFlows ⟨dir, n, nflows, nruns⟩ test r

theorem clients_cons_client (id : FlowId) (c : ClientCommand) (es : List Event) :
    clients (.client id c :: es) = (id, c) :: clients es := rfl

theorem clients_flatMap {α : Type*} (l : List α) (f : α → List Event) :
    clients (l.flatMap f) = l.flatMap fun x => clients (f x) :=
  List.filterMap_flatMap

theorem clients_runEvents (a : Args) (test : Test) (r : ℕ) :
    clients (runEvents a test r) =
      (runFlows a test r).map fun id => (id, flowCommand a.dir id) := by
  change clients ((runFlows a test r).map fun id => .client id (flowCommand a.dir id)) = _
  induction runFlows a test r with
  | nil => rfl
  | cons id ids ih => rw [List.map_cons, clients_cons_client, ih, List.map_cons]

theorem clients_experiment (dir : Text) (n nruns : ℕ) (loads : List ℕ) :
    clients (loads.flatMap fun nflows => mainEvents ⟨dir, n, nflows, nruns⟩) =
      (flows dir n nruns loads).map fun id => (id, flowCommand dir id) := by
  have htest : ∀ a test, clients (testEvents a test) =
      (List.range a.nruns).flatMap fun r => clients (runEvents a test r) := fun a test =>
    clients_flatMap _ _
  have hmain : ∀ a, clients (mainEvents a) = Test.all.flatMap fun test =>
      clients (testEvents a test) := fun a => clients_flatMap _ _
  simp only [clients_flatMap, hmain, htest, clients_runEvents, flows, List.map_flatMap]

theorem mem_runFlows {a : Args} {test : Test} {r : ℕ} {id : FlowId} :
    id ∈ runFlows a test r ↔ id.test = test ∧ id.nflows = a.nflows ∧ id.run = r ∧
      if test = .baseline then id.host = 0 ∧ id.flow < numFlowSizeBuckets
      else id.host < a.n - 1 ∧ id.flow < a.nflows := by
  obtain ⟨test', nflows, run, host, flow⟩ := id
  by_cases htest : test = .baseline
  · subst htest
    simp only [runFlows, if_pos, List.mem_map, List.mem_range, FlowId.mk.injEq]
    constructor
    · rintro ⟨i, hi, rfl, rfl, rfl, rfl, rfl⟩
      exact ⟨rfl, rfl, rfl, rfl, hi⟩
    · rintro ⟨rfl, rfl, rfl, rfl, hi⟩
      exact ⟨flow, hi, rfl, rfl, rfl, rfl, rfl⟩
  · simp only [runFlows, if_neg htest, List.mem_flatMap, List.mem_map, List.mem_range,
      FlowId.mk.injEq]
    constructor
    · rintro ⟨i, hi, j, hj, rfl, rfl, rfl, rfl, rfl⟩
      exact ⟨rfl, rfl, rfl, hi, hj⟩
    · rintro ⟨rfl, rfl, rfl, hi, hj⟩
      exact ⟨host, hi, flow, hj, rfl, rfl, rfl, rfl, rfl⟩

theorem mem_flows {dir : Text} {n nruns : ℕ} {loads : List ℕ} {id : FlowId} :
    id ∈ flows dir n nruns loads ↔ ∃ k ∈ loads, id.nflows = k ∧ id.run < nruns ∧
      if id.test = .baseline then id.host = 0 ∧ id.flow < numFlowSizeBuckets
      else id.host < n - 1 ∧ id.flow < k := by
  have hall : id.test ∈ Test.all := by
    cases id.test <;> decide
  simp only [flows, List.mem_flatMap, List.mem_range, mem_runFlows]
  constructor
  · rintro ⟨k, hk, test, -, r, hr, rfl, hnflows, rfl, hflow⟩
    exact ⟨k, hk, hnflows, hr, hflow⟩
  · rintro ⟨k, hk, hnflows, hr, hflow⟩
    exact ⟨k, hk, id.test, hall, id.run, hr, rfl, hnflows, rfl, hflow⟩

/-- Lists that can be told apart by a key of their elements have no element in
common. -/
theorem nodup_flatMap_of_key {α β : Type*} {l : List α} {f : α → List β} (key : β → α)
    (hl : l.Nodup) (hf : ∀ x ∈ l, (f x).Nodup) (hkey : ∀ x, ∀ y ∈ f x, key y = x) :
    (l.flatMap f).Nodup := by
  refine List.nodup_flatMap.mpr ⟨hf, hl.imp ?_⟩
  intro x x' hne y hy hy'
  exact hne ((hkey x y hy).symm.trans (hkey x' y hy'))

theorem nodup_runFlows (a : Args) (test : Test) (r : ℕ) : (runFlows a test r).Nodup := by
  have hmap : ∀ (l : ℕ) (t : Test) (host : ℕ), ((List.range l).map fun j =>
      (⟨t, a.nflows, r, host, j⟩ : FlowId)).Nodup := fun l t host =>
    (List.nodup_map_iff fun j j' h => congrArg FlowId.flow h).mpr List.nodup_range
  by_cases htest : test = .baseline
  · rw [runFlows, if_pos htest]
    exact hmap _ _ _
  · rw [runFlows, if_neg htest]
    refine nodup_flatMap_of_key FlowId.host List.nodup_range (fun i _ => hmap _ _ _) ?_
    intro i id hid
    obtain ⟨j, -, rfl⟩ := List.mem_map.mp hid
    rfl

theorem nodup_flows (dir : Text) (n nruns : ℕ) {loads : List ℕ} (hloads : loads.Nodup) :
    (flows dir n nruns loads).Nodup := by
  refine nodup_flatMap_of_key (fun id => id.nflows.toNat) hloads (fun k _ => ?_) ?_
  · refine nodup_flatMap_of_key FlowId.test (by decide) (fun test _ => ?_) ?_
    · refine nodup_flatMap_of_key FlowId.run List.nodup_range (fun r _ => nodup_runFlows _ _ _) ?_
      intro r id hid
      exact (mem_runFlows.mp hid).2.2.1
    · intro test id hid
      obtain ⟨r, -, hid⟩ := List.mem_flatMap.mp hid
      exact (mem_runFlows.mp hid).1
  · intro k id hid
    obtain ⟨test, -, hid⟩ := List.mem_flatMap.mp hid
    obtain ⟨r, -, hid⟩ := List.mem_flatMap.mp hid
    rw [(mem_runFlows.mp hid).2.1]
    rfl

/-! ## The paths of the flows -/

theorem isName_test (test : Test) : IsName test.name := by
  cases test <;> exact ⟨by decide, by decide⟩

theorem slash_notMem_ofInt (k : ℤ) : '/' ∉ ofInt k := by
  cases k with
  | ofNat k => exact notMem_decimal rfl
  | negSucc k =>
      intro h
      exact notMem_decimal rfl (List.mem_of_ne_of_mem (by decide) h)

theorem isName_runName (k : ℤ) (r : ℕ) : IsName (runName k r) where
  ne_nil := List.cons_ne_nil _ _
  noSlash := by
    have hk := slash_notMem_ofInt k
    have hr : '/' ∉ decimal r := notMem_decimal rfl
    simp [runName, hk, hr]

theorem isName_fileName (test : Test) (host flow : ℕ) : IsName (fileName test host flow) := by
  have hd : ∀ k, '/' ∉ decimal k := fun k => notMem_decimal rfl
  by_cases htest : test = .baseline
  · refine ⟨by simp [fileName, htest], ?_⟩
    simp [fileName, htest, hd]
  · refine ⟨by simp [fileName, htest], ?_⟩
    simp [fileName, htest, hd]

theorem testDir_ne_nil {dir : Text} (test : Test) : testDir dir test ≠ [] := by
  simp [testDir]

theorem ofText_runDir {dir : Text} (hdir : dir ≠ []) (test : Test) (k : ℤ) (r : ℕ) :
    Path.ofText (runDir dir test k r) =
      ((Path.ofText dir).child test.name).child (runName k r) := by
  rw [runDir, Path.ofText_slash (testDir_ne_nil test) (isName_runName k r), testDir,
    Path.ofText_slash hdir (isName_test test)]

theorem ofText_flowPath {dir : Text} (hdir : dir ≠ []) (id : FlowId) :
    Path.ofText (flowPath dir id) = (((Path.ofText dir).child id.test.name).child
      (runName id.nflows id.run)).child (fileName id.test id.host id.flow) := by
  rw [flowPath, Path.ofText_slash (by simp [runDir]) (isName_fileName _ _ _),
    ofText_runDir hdir]

theorem runName_injective {j k q r : ℕ} (h : runName j q = runName k r) : j = k ∧ q = r := by
  have hpieces : pieces "f%s-r%d".toList =
      some [.lit 'f', .str, .lit '-', .lit 'r', .int] := rfl
  have heq := format_counts_injective hpieces rfl (format_runName j q) (h ▸ format_runName k r)
  simpa using heq

theorem fileName_injective {test : Test} {host host' flow flow' : ℕ}
    (h : fileName test host flow = fileName test host' flow') :
    flow = flow' ∧ (test ≠ .baseline → host = host') := by
  by_cases htest : test = .baseline
  · subst htest
    have hpieces : ∃ ps, pieces iperfBaselineOutput = some ps ∧ separated ps := ⟨_, rfl, rfl⟩
    obtain ⟨ps, hps, hsep⟩ := hpieces
    have heq := format_counts_injective hps hsep (format_iperfBaselineOutput host flow)
      (h ▸ format_iperfBaselineOutput host' flow')
    exact ⟨by simpa using heq, fun hne => absurd rfl hne⟩
  · have hpieces : ∃ ps, pieces iperfSearchOutput = some ps ∧ separated ps := ⟨_, rfl, rfl⟩
    obtain ⟨ps, hps, hsep⟩ := hpieces
    have heq := format_counts_injective hps hsep (format_iperfSearchOutput htest host flow)
      (h ▸ format_iperfSearchOutput htest host' flow')
    simp only [List.cons.injEq, and_true] at heq
    exact ⟨heq.2.2, fun _ => heq.1⟩

theorem test_name_injective : Function.Injective Test.name := by
  intro t t' h
  cases t <;> cases t' <;> first | rfl | exact absurd h (by decide)

/-- The path tells which flow of the experiment it belongs to. -/
theorem flowPath_injective {dir : Text} (hdir : dir ≠ []) {n nruns : ℕ} {loads : List ℕ}
    {id id' : FlowId} (hid : id ∈ flows dir n nruns loads) (hid' : id' ∈ flows dir n nruns loads)
    (h : flowPath dir id = flowPath dir id') : id = id' := by
  have hpath := congrArg Path.ofText h
  rw [ofText_flowPath hdir, ofText_flowPath hdir, Path.child_inj, Path.child_inj,
    Path.child_inj] at hpath
  obtain ⟨⟨⟨-, htest⟩, hrun⟩, hfile⟩ := hpath
  obtain ⟨k, -, hk, -, hhost⟩ := mem_flows.mp hid
  obtain ⟨k', -, hk', -, hhost'⟩ := mem_flows.mp hid'
  obtain ⟨test, nflows, run, host, flow⟩ := id
  obtain ⟨test', nflows', run', host', flow'⟩ := id'
  dsimp only at *
  obtain rfl := test_name_injective htest
  subst hk hk'
  obtain ⟨rfl, rfl⟩ := runName_injective hrun
  obtain ⟨rfl, hne⟩ := fileName_injective hfile
  by_cases hbaseline : test = .baseline
  · rw [if_pos hbaseline] at hhost hhost'
    rw [hhost.1, hhost'.1]
  · rw [hne hbaseline]

end Experiment
end PFabric
