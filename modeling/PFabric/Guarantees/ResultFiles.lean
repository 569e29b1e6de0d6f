import PFabric.Experiment.Evaluation

/-!
# Runner and evaluation agree on the result files

`pfabric.py` names the directories and files it makes through nested templates;
`eval_utils.py` finds the loads in the names of the directories and names the files
again through a template that is formatted twice.  Here the two are put together
over a directory tree in which nothing exists below the result directory when the
experiment starts.
-/

namespace PFabric
namespace Experiment

open Text

/-! ## Directories and files below the result directory -/

section Tree

variable {dir : Text} {n nruns : ℕ} {loads : List ℕ}

/-- The effects of the whole experiment. -/
def effects (dir : Text) (n nruns : ℕ) (loads : List ℕ) : List FileTree.Effect :=
  (loads.flatMap fun nflows => mainEvents ⟨dir, n, nflows, nruns⟩).map Event.effect

theorem mem_effects {e : FileTree.Effect} :
    e ∈ effects dir n nruns loads ↔
      ∃ k ∈ loads, ∃ ev ∈ mainEvents ⟨dir, n, k, nruns⟩, ev.effect = e := by
  simp only [effects, List.mem_map, List.mem_flatMap]
  constructor
  · rintro ⟨ev, ⟨k, hk, hev⟩, rfl⟩
    exact ⟨k, hk, ev, hev, rfl⟩
  · rintro ⟨k, hk, ev, hev, rfl⟩
    exact ⟨ev, ⟨k, hk, hev⟩, rfl⟩

/-- The path of a test within the result directory. -/
def testPath (dir : Text) (test : Test) : Path := (Path.ofText dir).child test.name

theorem ofText_testDir (hdir : dir ≠ []) (test : Test) :
    Path.ofText (testDir dir test) = testPath dir test :=
  Path.ofText_slash hdir (isName_test test)

theorem ofText_baselineDir (hdir : dir ≠ []) :
    Path.ofText (joinPath dir "baseline".toList) = testPath dir .baseline :=
  Path.ofText_joinPath hdir (isName_test .baseline)

/-- The directories that are made. -/
theorem ensureDir_mem_effects (hdir : dir ≠ []) {q : Path}
    (h : .ensureDir q ∈ effects dir n nruns loads) :
    q = Path.ofText dir ∨ (∃ test, q = testPath dir test) ∨
      ∃ test, ∃ k ∈ loads, ∃ r < nruns, q = (testPath dir test).child (runName k r) := by
  obtain ⟨k, hk, ev, hev, heffect⟩ := mem_effects.mp h
  rcases mem_mainEvents.mp hev with rfl | ⟨test, rfl | rfl | ⟨r, hr, rfl | ⟨id, -, rfl⟩⟩⟩
  · obtain rfl := FileTree.Effect.ensureDir.inj heffect
    exact Or.inl rfl
  · obtain rfl := FileTree.Effect.ensureDir.inj heffect
    exact Or.inr (Or.inl ⟨test, ofText_testDir hdir test⟩)
  · exact absurd heffect (by simp [Event.effect])
  · obtain rfl := FileTree.Effect.ensureDir.inj heffect
    exact Or.inr (Or.inr ⟨test, k, hk, r, hr, ofText_runDir hdir test k r⟩)
  · exact absurd heffect (by simp [Event.effect])

/-- The files that are written. -/
theorem write_mem_effects (hdir : dir ≠ []) {q : Path}
    (h : .write q ∈ effects dir n nruns loads) :
    (∃ test, q = (testPath dir test).child "iperf_server.txt".toList) ∨
      ∃ test name file, q = ((testPath dir test).child name).child file := by
  obtain ⟨k, hk, ev, hev, heffect⟩ := mem_effects.mp h
  rcases mem_mainEvents.mp hev with rfl | ⟨test, rfl | rfl | ⟨r, hr, rfl | ⟨id, -, rfl⟩⟩⟩
  · exact absurd heffect (by simp [Event.effect])
  · exact absurd heffect (by simp [Event.effect])
  · obtain rfl := FileTree.Effect.write.inj heffect
    have hname : IsName "iperf_server.txt".toList := ⟨by decide, by decide⟩
    refine Or.inl ⟨test, ?_⟩
    rw [Path.ofText_slash (testDir_ne_nil test) hname, ofText_testDir hdir]
  · exact absurd heffect (by simp [Event.effect])
  · obtain rfl := FileTree.Effect.write.inj heffect
    exact Or.inr ⟨id.test, _, _, ofText_flowPath hdir id⟩

/-- Below the result directory there is only what the experiment has made. -/
theorem not_mem_of_emptyBelow {tree : FileTree} (hempty : tree.EmptyBelow (Path.ofText dir))
    (test : Test) (name : Text) :
    (testPath dir test).child name ∉ tree.dirs ∧ (testPath dir test).child name ∉ tree.files := by
  have hbelow : ((testPath dir test).child name).parts ≠ (Path.ofText dir).parts := by
    intro h
    have hlength := congrArg List.length h
    simp [testPath, Path.child] at hlength
  have hprefix : (Path.ofText dir).parts <+: ((testPath dir test).child name).parts :=
    ⟨[test.name, name], by simp [testPath, Path.child]⟩
  constructor
  · exact fun h => hbelow (hempty _ (Or.inl h) rfl hprefix)
  · exact fun h => hbelow (hempty _ (Or.inr h) rfl hprefix)

/-- The directories in that of a test are those of the runs. -/
theorem child_mem_dirs_iff (hdir : dir ≠ []) {tree : FileTree}
    (hempty : tree.EmptyBelow (Path.ofText dir)) (test : Test) {name : Text} :
    (testPath dir test).child name ∈ (tree.run (effects dir n nruns loads)).dirs ↔
      ∃ k ∈ loads, ∃ r < nruns, name = runName k r := by
  constructor
  · intro h
    rcases FileTree.mem_dirs_run h with h | ⟨q, hq, h⟩
    · exact absurd h (not_mem_of_emptyBelow hempty test name).1
    · obtain ⟨-, hprefix⟩ := Path.mem_ancestors.mp h
      rcases ensureDir_mem_effects hdir hq with rfl | ⟨test', rfl⟩ | ⟨test', k, hk, r, hr, rfl⟩
      · have hlength := hprefix.length_le
        simp only [testPath, Path.child, List.length_append, List.length_singleton] at hlength
        omega
      · have hlength := hprefix.length_le
        simp [testPath, Path.child] at hlength
      · have heq := hprefix.eq_of_length (by simp [testPath, Path.child])
        simp only [testPath, Path.child, List.append_assoc, List.append_cancel_left_eq,
          List.singleton_append, List.cons.injEq, and_true] at heq
        exact ⟨k, hk, r, hr, heq.2⟩
  · rintro ⟨k, hk, r, hr, rfl⟩
    apply FileTree.mem_dirs_run_of_ensureDir
    · refine mem_effects.mpr ⟨k, hk, .ensureDir (runDir dir test k r), ?_, ?_⟩
      · exact mem_mainEvents.mpr (Or.inr ⟨test, Or.inr (Or.inr ⟨r, hr, Or.inl rfl⟩)⟩)
      · rw [Event.effect, ofText_runDir hdir, testPath]
    · exact (not_mem_of_emptyBelow hempty test _).2
    · intro h
      -- the only file there is the output of the server
      rcases write_mem_effects hdir h with ⟨test', h⟩ | ⟨test', name, file, h⟩
      · have hname := (Path.child_inj.mp h).2
        exact absurd hname (by simp [runName])
      · have hlength := congrArg (fun p : Path => p.parts.length) h
        simp [testPath, Path.child] at hlength

theorem name_eq_of_child_mem_files (hdir : dir ≠ []) {tree : FileTree}
    (hempty : tree.EmptyBelow (Path.ofText dir)) {test : Test} {name : Text}
    (h : (testPath dir test).child name ∈ (tree.run (effects dir n nruns loads)).files) :
    name = "iperf_server.txt".toList := by
  rcases FileTree.mem_files_run h with h | h
  · exact absurd h (not_mem_of_emptyBelow hempty test name).2
  · rcases write_mem_effects hdir h with ⟨test', h⟩ | ⟨test', name', file, h⟩
    · exact (Path.child_inj.mp h).2
    · have hlength := congrArg (fun p : Path => p.parts.length) h
      simp [testPath, Path.child] at hlength

end Tree

/-! ## Loads -/

/-- The name of a run's directory is read back. -/
theorem loadOfName_runName (k r : ℕ) : loadOfName (runName k r) = some (k : ℤ) := by
  have hf : 'f' ∉ decimal k ++ ("-r".toList ++ decimal r) := by
    have hd : ∀ m, 'f' ∉ decimal m := fun m => notMem_decimal rfl
    simp [hd]
  have hrest : split "f".toList (runName k r) =
      [[], decimal k ++ ("-r".toList ++ decimal r)] := by
    have happend : split "f".toList (runName k r) =
        [] :: split "f".toList (decimal k ++ ("-r".toList ++ decimal r)) :=
      split_append List.not_mem_nil _
    rw [happend]
    exact congrArg _ (split_of_notMem hf)
  have hcount : split "-r".toList (decimal k ++ ("-r".toList ++ decimal r)) =
      decimal k :: split "-r".toList (decimal r) :=
    split_append (notMem_decimal rfl) (decimal r)
  rw [loadOfName, hrest]
  change ((split "-r".toList (decimal k ++ ("-r".toList ++ decimal r)))[0]?.bind parseInt) = _
  rw [hcount]
  exact parseInt_decimal k

section Loads

variable {dir : Text} {n nruns : ℕ} {loads : List ℕ}

theorem mem_listing_filter_iff (hdir : dir ≠ []) {tree : FileTree}
    (hempty : tree.EmptyBelow (Path.ofText dir)) {listing : List Text}
    (hlisting : (tree.run (effects dir n nruns loads)).IsListing (testPath dir .baseline) listing)
    {x : Text} :
    (x ∈ listing ∧ Path.ofText (joinPath (joinPath dir "baseline".toList) x) ∈
      (tree.run (effects dir n nruns loads)).dirs ∧ x.head? = some 'f') ↔
      ∃ k ∈ loads, ∃ r < nruns, x = runName k r := by
  constructor
  · rintro ⟨hx, -, hhead⟩
    rcases (hlisting.mem_iff x).mp hx with hx | hx
    · exact (child_mem_dirs_iff hdir hempty .baseline).mp hx
    · rw [name_eq_of_child_mem_files hdir hempty hx] at hhead
      exact absurd hhead (by decide)
  · intro hx
    have hdirs := (child_mem_dirs_iff (n := n) hdir hempty .baseline).mpr hx
    obtain ⟨k, hk, r, hr, rfl⟩ := hx
    have hjoin : Path.ofText (joinPath (joinPath dir "baseline".toList) (runName k r)) =
        (testPath dir .baseline).child (runName k r) := by
      have hne : joinPath dir "baseline".toList ≠ [] := by
        rw [joinPath]
        split_ifs <;> simp
      rw [Path.ofText_joinPath hne (isName_runName k r), ofText_baselineDir hdir]
    exact ⟨(hlisting.mem_iff _).mpr (Or.inl hdirs), hjoin ▸ hdirs, rfl⟩

/-- Sorting a set of numbers gives them in order, each once. -/
theorem pairwise_lt_insertionSort_dedup (d : List ℤ) :
    (d.dedup.insertionSort (· ≤ ·)).Pairwise (· < ·) := by
  have hsorted := List.pairwise_insertionSort (· ≤ ·) d.dedup
  have hnodup : (d.dedup.insertionSort (· ≤ ·)).Nodup :=
    (List.perm_insertionSort _ _).nodup_iff.mpr (List.nodup_dedup _)
  exact (hsorted.and hnodup).imp fun h => lt_of_le_of_ne h.1 h.2

/-- The evaluation finds the loads of the experiment, in order. -/
theorem sortedLoads_eq (hdir : dir ≠ []) (hruns : 0 < nruns) {tree : FileTree}
    (hempty : tree.EmptyBelow (Path.ofText dir)) {listing : List Text}
    (hlisting : (tree.run (effects dir n nruns loads)).IsListing (testPath dir .baseline) listing) :
    ∃ evaluated, sortedLoads (tree.run (effects dir n nruns loads)) listing dir = some evaluated ∧
      evaluated.Pairwise (· < ·) ∧ ∀ z : ℤ, z ∈ evaluated ↔ ∃ k ∈ loads, z = k := by
  set tree' := tree.run (effects dir n nruns loads)
  set d := listing.filter fun x =>
    Path.ofText (joinPath (joinPath dir "baseline".toList) x) ∈ tree'.dirs ∧ x.head? = some 'f'
  have hd : ∀ x, x ∈ d ↔ ∃ k ∈ loads, ∃ r < nruns, x = runName k r := by
    intro x
    rw [List.mem_filter, decide_eq_true_eq]
    exact mem_listing_filter_iff hdir hempty hlisting
  have hread : d.mapM loadOfName = some (d.map fun x => (loadOfName x).getD 0) := by
    refine Comprehension.mapM_eq_some_of_mem fun x hx => ?_
    obtain ⟨k, -, r, -, rfl⟩ := (hd x).mp hx
    rw [loadOfName_runName]
    rfl
  refine ⟨_, ?_, pairwise_lt_insertionSort_dedup (d.map fun x => (loadOfName x).getD 0), ?_⟩
  · have hlist : getLoadsList tree' listing dir =
        some ((d.map fun x => (loadOfName x).getD 0).dedup) := by
      rw [getLoadsList]
      change (d.mapM loadOfName).bind _ = _
      rw [hread]
      rfl
    rw [sortedLoads, hlist, Option.map_some]
  · intro z
    rw [(List.perm_insertionSort _ _).mem_iff, List.mem_dedup, List.mem_map]
    constructor
    · rintro ⟨x, hx, rfl⟩
      obtain ⟨k, hk, r, -, rfl⟩ := (hd x).mp hx
      exact ⟨k, hk, by rw [loadOfName_runName]; rfl⟩
    · rintro ⟨k, hk, rfl⟩
      exact ⟨runName k 0, (hd _).mpr ⟨k, hk, 0, hruns, rfl⟩, by rw [loadOfName_runName]; rfl⟩

/-! ## Files -/

/-- The flows whose files are to be opened: for every load and iteration those of all
hosts in the two schemes, and one of the baseline for each bucket that is in use. -/
def Evaluated (n nruns : ℕ) (loads : List ℕ) (id : FlowId) : Prop :=
  ∃ k ∈ loads, ∃ i < nruns,
    (∃ scheme, (scheme = .tcpDroptail ∨ scheme = .pfabric) ∧
      ∃ host < n - 1, ∃ flow < k, id = ⟨scheme, k, i, host, flow⟩) ∨
    ∃ bucket < min k 8, id = ⟨.baseline, k, i, 0, bucket⟩

theorem mem_hostFlows
    {numHosts k i : ℕ} {scheme : Test} {id : FlowId} :
    id ∈ hostFlows numHosts scheme k i ↔
      ∃ host < numHosts, ∃ flow < k, id = ⟨scheme, k, i, host, flow⟩ := by
  simp only [hostFlows, List.mem_flatMap, List.mem_map, List.mem_range,
    Int.toNat_natCast, eq_comm]

/-- The buckets in use are the first ones. -/
theorem mem_baselineFlows {k i : ℕ} {id : FlowId} :
    id ∈ baselineFlows k i ↔
      ∃ bucket < min k 8, id = ⟨.baseline, k, i, 0, bucket⟩ := by
  simp only [baselineFlows, List.mem_map, List.mem_range, Int.toNat_natCast, numBuckets]
  constructor
  · rintro ⟨flow, hflow, rfl⟩
    have hle : flow % 8 ≤ flow := Nat.mod_le flow 8
    have hlt : flow % 8 < 8 := Nat.mod_lt flow (by decide)
    exact ⟨flow % 8, lt_min (hle.trans_lt hflow) hlt, rfl⟩
  · rintro ⟨bucket, hbucket, rfl⟩
    obtain ⟨hflow, hlt⟩ := lt_min_iff.mp hbucket
    exact ⟨bucket, hflow, by rw [Nat.mod_eq_of_lt hlt]⟩

/-- The evaluation leaves out none of these flows and adds no other. -/
theorem mem_evaluatedFlows_iff
    {evaluated : List ℤ}
    (hevaluated : ∀ z : ℤ, z ∈ evaluated ↔ ∃ k ∈ loads, z = k) {id : FlowId} :
    id ∈ evaluatedFlows (n - 1) nruns schemes evaluated ↔
      Evaluated n nruns loads id := by
  simp only [evaluatedFlows, List.mem_flatMap, List.mem_append, List.mem_range]
  constructor
  · rintro ⟨scheme, hscheme, i, hi, load, hload, hid⟩
    obtain ⟨k, hk, rfl⟩ := (hevaluated load).mp hload
    rcases hid with hid | hid
    · exact ⟨k, hk, i, hi, Or.inr (mem_baselineFlows.mp hid)⟩
    · rw [schemes, List.mem_pair] at hscheme
      exact ⟨k, hk, i, hi, Or.inl ⟨scheme, hscheme, mem_hostFlows.mp hid⟩⟩
  · rintro ⟨k, hk, i, hi, ⟨scheme, hscheme, hid⟩ | hid⟩
    · exact ⟨scheme, List.mem_pair.mpr hscheme, i, hi, k, (hevaluated k).mpr ⟨k, hk, rfl⟩,
        Or.inr (mem_hostFlows.mpr hid)⟩
    · exact ⟨.pfabric, by decide, i, hi, k, (hevaluated k).mpr ⟨k, hk, rfl⟩,
        Or.inl (mem_baselineFlows.mpr hid)⟩

/-- Every flow that is evaluated is one of the experiment. -/
theorem mem_flows_of_evaluated
    {id : FlowId} (h : Evaluated n nruns loads id) :
    id ∈ flows dir n nruns loads := by
  obtain ⟨k, hk, i, hi, ⟨scheme, hscheme, host, hhost, flow, hflow, rfl⟩ |
    ⟨bucket, hbucket, rfl⟩⟩ := h
  · have hne : scheme ≠ .baseline := by
      rintro rfl
      exact absurd hscheme (by decide)
    refine mem_flows.mpr ⟨k, hk, rfl, hi, ?_⟩
    rw [if_neg hne]
    exact ⟨hhost, hflow⟩
  · exact mem_flows.mpr ⟨k, hk, rfl, hi, rfl, (lt_min_iff.mp hbucket).2⟩

theorem mem_clients {id : FlowId} {c : ClientCommand} :
    (id, c) ∈ clients (loads.flatMap fun nflows => mainEvents ⟨dir, n, nflows, nruns⟩) ↔
      id ∈ flows dir n nruns loads ∧ c = flowCommand dir id := by
  rw [clients_experiment, List.mem_map]
  constructor
  · rintro ⟨id', hid', heq⟩
    obtain ⟨rfl, rfl⟩ := Prod.mk.inj heq
    exact ⟨hid', rfl⟩
  · rintro ⟨hid, rfl⟩
    exact ⟨id, hid, rfl⟩

theorem nodup_outputPaths (hdir : dir ≠ []) (hloads : loads.Nodup) :
    ((clients (loads.flatMap fun nflows => mainEvents ⟨dir, n, nflows, nruns⟩)).map
      fun c => c.2.outputPath).Nodup := by
  rw [clients_experiment, List.map_map]
  exact (nodup_flows dir n nruns hloads).map_on fun id hid id' hid' h =>
    flowPath_injective hdir hid hid' h

end Loads

/-- The evaluation finds exactly the loads of the experiment and opens a file for
exactly those flows that are to be evaluated; every file it opens is the output of
one client command, the one for the same flow, and no two commands have the same
output. -/
theorem result_files_agree
    (dir : Text) (hdir : dir ≠ []) (hpercent : '%' ∉ dir) (n nruns : ℕ)
    (hruns : 1 ≤ nruns) (loads : List ℕ) (hloads : loads.Nodup) (tree : FileTree)
    (hempty : tree.EmptyBelow (Path.ofText dir)) :
    ∃ events, experiment dir n nruns loads = some events ∧
      ((clients events).map fun c => c.2.outputPath).Nodup ∧
      ∀ listing, (tree.run (events.map Event.effect)).IsListing
          (Path.ofText (joinPath dir "baseline".toList)) listing →
        ∃ evaluated opened,
          sortedLoads (tree.run (events.map Event.effect)) listing dir =
            some evaluated ∧
          evaluated.Pairwise (· < ·) ∧
          (∀ z : ℤ, z ∈ evaluated ↔ ∃ k ∈ loads, z = k) ∧
          openedByAll dir (n - 1) nruns schemes evaluated = some opened ∧
          (∀ id, (∃ path, (id, path) ∈ opened) ↔ Evaluated n nruns loads id) ∧
          ∀ id path, (id, path) ∈ opened →
            ∃ c, (id, c) ∈ clients events ∧ c.outputPath = path ∧
              c.nBytes = bucketSize id.flow ∧
              ∀ id' c', (id', c') ∈ clients events → c'.outputPath = path →
                id' = id ∧ c' = c := by
  refine ⟨_, experiment_eq dir n nruns loads, nodup_outputPaths hdir hloads, ?_⟩
  intro listing hlisting
  rw [ofText_baselineDir hdir] at hlisting
  obtain ⟨evaluated, hsorted, hlt, hmem⟩ := sortedLoads_eq hdir hruns hempty hlisting
  refine ⟨evaluated, _, hsorted, hlt, hmem,
    openedByAll_eq hpercent (by decide) _ _ _, ?_, ?_⟩
  · intro id
    rw [← mem_evaluatedFlows_iff hmem]
    constructor
    · rintro ⟨path, hopened⟩
      obtain ⟨id', hid, heq⟩ := List.mem_map.mp hopened
      exact (Prod.mk.inj heq).1 ▸ hid
    · intro hid
      exact ⟨flowPath dir id, List.mem_map_of_mem hid⟩
  · intro id path hopened
    obtain ⟨id, hid, heq⟩ := List.mem_map.mp hopened
    obtain ⟨rfl, rfl⟩ := Prod.mk.inj heq
    have hflow : id ∈ flows dir n nruns loads :=
      mem_flows_of_evaluated ((mem_evaluatedFlows_iff hmem).mp hid)
    refine ⟨flowCommand dir id, mem_clients.mpr ⟨hflow, rfl⟩, rfl, rfl, ?_⟩
    intro id' c' hc' hpath
    obtain ⟨hflow', rfl⟩ := mem_clients.mp hc'
    obtain rfl := flowPath_injective hdir hflow' hflow hpath
    exact ⟨rfl, rfl⟩

/-- Two loads, three nodes and one run in a tree with no entry at all.  The file of the
last flow of the second host is opened, and a client has written it. -/
theorem result_files_agree_two_loads :
    ∃ events, experiment "results".toList 3 1 [2, 1] = some events ∧
      ∃ evaluated opened, sortedLoads (FileTree.run ⟨[], []⟩ (events.map Event.effect))
          (FileTree.entries (FileTree.run ⟨[], []⟩ (events.map Event.effect))
            (Path.ofText (joinPath "results".toList "baseline".toList)))
          "results".toList = some evaluated ∧
        evaluated.Pairwise (· < ·) ∧ (∀ z : ℤ, z ∈ evaluated ↔ ∃ k ∈ [2, 1], z = (k : ℕ)) ∧
        openedByAll "results".toList 2 1 schemes evaluated = some opened ∧
        ∃ path c, (⟨.pfabric, 2, 0, 1, 1⟩, path) ∈ opened ∧
          (⟨.pfabric, 2, 0, 1, 1⟩, c) ∈ clients events ∧ c.outputPath = path := by
  have hempty : FileTree.EmptyBelow ⟨[], []⟩ (Path.ofText "results".toList) := by
    intro p hp
    simp at hp
  obtain ⟨events, hevents, -, hlisting⟩ := result_files_agree "results".toList (by decide)
    (by decide) 3 1 le_rfl [2, 1] (by decide) ⟨[], []⟩ hempty
  obtain ⟨evaluated, opened, hsorted, hlt, hmem, hopened, hcover, hclient⟩ :=
    hlisting _ (FileTree.entries_isListing _ _)
  have hflow : Evaluated 3 1 [2, 1] ⟨.pfabric, 2, 0, 1, 1⟩ :=
    ⟨2, by decide, 0, by decide,
      Or.inl ⟨.pfabric, Or.inr rfl, 1, by decide, 1, by decide, rfl⟩⟩
  obtain ⟨path, hpath⟩ := (hcover _).mpr hflow
  obtain ⟨c, hc, hout, -⟩ := hclient _ path hpath
  exact ⟨events, hevents, evaluated, opened, hsorted, hlt, hmem, hopened, path, c, hpath,
    hc, hout⟩

end Experiment
end PFabric
