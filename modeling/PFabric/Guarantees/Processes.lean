import PFabric.Experiment.Processes

/-!
# One run at a time

`start_senders` starts the clients of a run in the background and then waits for the
process ids in its dictionary.  The dictionary outlives the run, and whether stale ids
or those of another host are waited for is a matter of how its entries are replaced.
They always are the ids of the present run, so the clients of two runs, of two tests or
of two loads never share the link.
-/

namespace PFabric
namespace Experiment

open Jobs

variable {pidOf : FlowId → ℕ} {order : ItemOrder} {a : Args} {test : Test}

/-- The clients outstanding together belong to one run, and in the baseline test there
is only one at a time. -/
def OneRun (ids : List FlowId) : Prop :=
  ∀ id ∈ ids, ∀ id' ∈ ids, id.test = id'.test ∧ id.nflows = id'.nflows ∧ id.run = id'.run ∧
    (id.test = .baseline → id = id')

theorem oneRun_nil : OneRun [] := by simp [OneRun]

theorem oneRun_of_subset {r : ℕ} {ids : List FlowId} (htest : test ≠ .baseline)
    (h : ids ⊆ runFlows a test r) : OneRun ids := by
  intro id hid id' hid'
  obtain ⟨htest₁, hload, hrun, -⟩ := mem_runFlows.mp (h hid)
  obtain ⟨htest₂, hload', hrun', -⟩ := mem_runFlows.mp (h hid')
  exact ⟨htest₁.trans htest₂.symm, hload.trans hload'.symm, hrun.trans hrun'.symm,
    fun hbase => absurd (htest₁.symm.trans hbase) htest⟩

/-! ## The tests with several hosts -/

theorem orderly_run (htest : test ≠ .baseline) {r : ℕ} {es : List ProcEvent}
    (h : RunsAndWaits pidOf a test r es) :
    Orderly FlowId.host pidOf OneRun es ∧ started es = runFlows a test r := by
  obtain ⟨waits, rfl, hwaits⟩ := h
  exact ⟨orderly_batch hwaits fun ids hids => oneRun_of_subset htest hids.subset,
    started_batch _ _⟩

/-- `BaseTest.start_senders`: every run finds the dictionary as the one before it has left
it. -/
theorem orderly_sendersOfRuns (pidOf : FlowId → ℕ) (order : ItemOrder) (htest : test ≠ .baseline)
    (runs : List ℕ) {s : Senders} (hs : s.Fits a) :
    ∃ es, (sendersOfRuns pidOf order a test runs s).events = s.events ++ es ∧
      Orderly FlowId.host pidOf OneRun es ∧ started es = runs.flatMap (runFlows a test) := by
  induction runs generalizing s with
  | nil => exact ⟨[], by simp [sendersOfRuns], orderly_nil oneRun_nil, rfl⟩
  | cons r runs ih =>
      obtain ⟨es, hevents, hrun, hfits⟩ := runsAndWaits_run pidOf order htest r hs
      obtain ⟨hes, hstarted⟩ := orderly_run htest hrun
      obtain ⟨fs, hrest, hfs, hstarted'⟩ := ih hfits
      refine ⟨es ++ fs, ?_, hes.append hfs, ?_⟩
      · rw [sendersOfRuns, List.foldl_cons, ← sendersOfRuns, hrest, hevents, List.append_assoc]
      · rw [started_append, hstarted, hstarted', List.flatMap_cons]

/-! ## The baseline test -/

/-- A client of the baseline test is waited for before the next one is started. -/
theorem orderly_baselineRun (r : ℕ) :
    Orderly FlowId.host pidOf OneRun (baselineRun pidOf a r) := by
  refine orderly_flatMap oneRun_nil _ fun i => ?_
  have hone : ∀ id : FlowId, id.host = 0 → Orderly FlowId.host pidOf OneRun
      ([id].map .start ++ [(0, pidOf id)].map fun w => .wait w.1 w.2) := by
    intro id hhost
    refine orderly_batch (by simp [hhost, eq_comm]) fun ids hids x hx x' hx' => ?_
    rw [List.mem_singleton.mp (hids.subset hx), List.mem_singleton.mp (hids.subset hx')]
    exact ⟨rfl, rfl, rfl, fun _ => rfl⟩
  exact hone _ rfl

theorem started_baselineRun (r : ℕ) :
    started (baselineRun pidOf a r) = runFlows a .baseline r := by
  rw [baselineRun, started_flatMap, runFlows, if_pos rfl, List.map_eq_flatMap]
  rfl

/-! ## The experiment -/

theorem orderly_senderEvents (pidOf : FlowId → ℕ) (order : ItemOrder) (a : Args) (test : Test) :
    Orderly FlowId.host pidOf OneRun (senderEvents pidOf order a test) ∧
      started (senderEvents pidOf order a test) =
        (List.range a.nruns).flatMap (runFlows a test) := by
  by_cases htest : test = .baseline
  · subst htest
    rw [senderEvents, if_pos rfl]
    refine ⟨orderly_flatMap oneRun_nil _ orderly_baselineRun, ?_⟩
    simp only [started_flatMap, started_baselineRun]
  · obtain ⟨es, hevents, hes⟩ := orderly_sendersOfRuns pidOf order htest
      (List.range a.nruns) (s := ⟨∅, []⟩) fun i _ => AList.lookup_empty i
    rw [senderEvents, if_neg htest, hevents]
    exact hes

/-- Whatever process ids the kernel chooses, and in whatever order the dictionary is
listed, the experiment starts its flows in order, all of them have ended when it is over,
at every moment only clients of one run are outstanding (and only one client of the
baseline test), and no `wait` is for a process that the shell it is done in has not
started. -/
theorem one_run_at_a_time (pidOf : FlowId → ℕ) (order : ItemOrder) (dir : Text) (n nruns : ℕ)
    (loads : List ℕ) :
    let es := experimentEvents pidOf order dir n nruns loads
    started es = flows dir n nruns loads ∧ outstanding FlowId.host pidOf es = [] ∧
      (∀ ks, ks <+: es → OneRun (outstanding FlowId.host pidOf ks)) ∧
      ∀ ks host pid rest, es = ks ++ .wait host pid :: rest →
        ∃ id ∈ started ks, id.host = host ∧ pidOf id = pid := by
  intro es
  have hes : Orderly FlowId.host pidOf OneRun es :=
    orderly_flatMap oneRun_nil _ fun nflows => orderly_flatMap oneRun_nil _ fun test =>
      (orderly_senderEvents pidOf order ⟨dir, n, nflows, nruns⟩ test).1
  have hstarted : started es = flows dir n nruns loads := by
    simp only [es, experimentEvents, started_flatMap, (orderly_senderEvents _ _ _ _).2, flows]
  exact ⟨hstarted, hes.complete, hes.confined, hes.grounded⟩

end Experiment
end PFabric
