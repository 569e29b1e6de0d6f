import Mathlib.Data.List.AList
import PFabric.Experiment.Runner
import PFabric.Support.Jobs

/-!
# The clients of an experiment as processes

The model of `start_senders` in `pfabric.py` as far as processes go: which clients
are started in the background of which host's shell, and which process ids are
waited for there.  The process ids are the kernel's choice, and so is the order of
`clients.items()`; both are parameters.  The nodes which the dictionary has as keys
are represented by their numbers.
-/

namespace PFabric
namespace Experiment

open Jobs

/-- `clients`: the process ids of a run, by host. -/
abbrev Clients := AList fun _ : ℕ => List ℕ

/-- An order in which `items` lists a dictionary. -/
structure ItemOrder where
  items : Clients → List (Sigma fun _ : ℕ => List ℕ)
  perm : ∀ clients, (items clients).Perm clients.entries

/-- A client is started, or waited for in the shell of a host. -/
abbrev ProcEvent := Jobs.Event FlowId ℕ ℕ

/-- The variables of `start_senders` and what it has done so far. -/
structure Senders where
  clients : Clients
  events : List ProcEvent

section Source

variable (pidOf : FlowId → ℕ) (order : ItemOrder) (a : Args) (test : Test)

/-- The innermost loop, over the flows of one host.  `pids` is entered into the
dictionary at every turn. -/
def startFlows (r i : ℕ) : List ℕ → List ℕ → Senders → Senders
  | [], _, s => s
  | j :: js, pids, s =>
      let id : FlowId := ⟨test, a.nflows, r, i, j⟩
      let pids := pids ++ [pidOf id]
      startFlows r i js pids ⟨s.clients.insert i pids, s.events ++ [.start id]⟩

/-- The loop over the hosts. -/
def startClients (r : ℕ) (s : Senders) : Senders :=
  (List.range (a.n - 1)).foldl
    (fun s i => startFlows pidOf a test r i (List.range a.nflows) [] s) s

/-- The process ids waited for, each with the host in whose shell this is done. -/
def waitedFor (clients : Clients) : List (ℕ × ℕ) :=
  (order.items clients).flatMap fun item => item.2.map fun pid => (item.1, pid)

/-- The loop over `clients.items()`. -/
def waitClients (s : Senders) : Senders :=
  { s with events := s.events ++ (waitedFor order s.clients).map fun w => .wait w.1 w.2 }

/-- `BaseTest.start_senders`: the dictionary outlives the runs. -/
def sendersOfRuns (runs : List ℕ) (s : Senders) : Senders :=
  runs.foldl (fun s r => waitClients order (startClients pidOf a test r s)) s

/-- `BaselineTest.start_senders`, one run. -/
def baselineRun (r : ℕ) : List ProcEvent :=
  (List.range numFlowSizeBuckets).flatMap fun i =>
    let id : FlowId := ⟨.baseline, a.nflows, r, 0, i⟩
    [.start id, .wait 0 (pidOf id)]

/-- `start_senders` of both classes. -/
def senderEvents : List ProcEvent :=
  if test = .baseline then (List.range a.nruns).flatMap (baselineRun pidOf a)
  else (sendersOfRuns pidOf order a test (List.range a.nruns) ⟨∅, []⟩).events

/-- The script is executed for each number of flows, with its tests in order. -/
def experimentEvents (dir : Text) (n nruns : ℕ) (loads : List ℕ) : List ProcEvent :=
  loads.flatMap fun nflows =>
    Test.all.flatMap fun test => senderEvents pidOf order ⟨dir, n, nflows, nruns⟩ test

end Source

/-! ## One run -/

variable {pidOf : FlowId → ℕ} {order : ItemOrder} {a : Args} {test : Test}

/-- The process ids of the clients of one host in one run. -/
def pidsOf (pidOf : FlowId → ℕ) (a : Args) (test : Test) (r i : ℕ) : List ℕ :=
  (List.range a.nflows).map fun j => pidOf ⟨test, a.nflows, r, i, j⟩

theorem startFlows_eq (r i : ℕ) (js pids : List ℕ) (s : Senders) :
    startFlows pidOf a test r i js pids s =
      ⟨if js = [] then s.clients
        else s.clients.insert i (pids ++ js.map fun j => pidOf ⟨test, a.nflows, r, i, j⟩),
        s.events ++ js.map fun j => .start ⟨test, a.nflows, r, i, j⟩⟩ := by
  induction js generalizing pids s with
  | nil => simp [startFlows]
  | cons j js ih =>
      rw [startFlows, ih]
      by_cases hjs : js = []
      · simp [hjs]
      · simp [hjs, AList.insert_insert]

/-- The hosts' entries are replaced one after the other. -/
theorem foldl_startFlows (pidOf : FlowId → ℕ) (a : Args) (test : Test) (r : ℕ) (hosts : List ℕ)
    (s : Senders) :
    let t := hosts.foldl (fun s i => startFlows pidOf a test r i (List.range a.nflows) [] s) s
    t.events = s.events ++ (hosts.flatMap fun i =>
        (List.range a.nflows).map fun j => ⟨test, a.nflows, r, i, j⟩).map .start ∧
      ∀ i, t.clients.lookup i =
        if i ∈ hosts ∧ a.nflows ≠ 0 then some (pidsOf pidOf a test r i)
        else s.clients.lookup i := by
  induction hosts generalizing s with
  | nil => simp
  | cons h hosts ih =>
      obtain ⟨hevents, hlookup⟩ :=
        ih (startFlows pidOf a test r h (List.range a.nflows) [] s)
      rw [startFlows_eq] at hevents hlookup
      simp only [List.foldl_cons, startFlows_eq] at hevents hlookup ⊢
      refine ⟨?_, fun i => ?_⟩
      · rw [hevents]
        simp
      · rw [hlookup]
        by_cases hflows : a.nflows = 0
        · simp [hflows]
        · by_cases hi : i ∈ hosts
          · simp [hi, hflows]
          · by_cases hih : i = h
            · subst hih
              simp [hi, hflows, pidsOf]
            · simp [hi, hih, hflows]

/-- Only hosts that send have an entry. -/
def Senders.Fits (s : Senders) (a : Args) : Prop :=
  ∀ i, a.nflows = 0 ∨ a.n - 1 ≤ i → s.clients.lookup i = none

theorem mem_waitedFor {clients : Clients} {h p : ℕ} :
    (h, p) ∈ waitedFor order clients ↔ ∃ pids, clients.lookup h = some pids ∧ p ∈ pids := by
  have hitem : ∀ i pids, (⟨i, pids⟩ : Sigma fun _ : ℕ => List ℕ) ∈ order.items clients ↔
      clients.lookup i = some pids := by
    intro i pids
    rw [(order.perm clients).mem_iff, ← AList.mem_lookup_iff, Option.mem_def]
  simp only [waitedFor, List.mem_flatMap, List.mem_map, Prod.mk.injEq, Sigma.exists, hitem]
  constructor
  · rintro ⟨i, pids, hlookup, pid, hpid, rfl, rfl⟩
    exact ⟨pids, hlookup, hpid⟩
  · rintro ⟨pids, hlookup, hp⟩
    exact ⟨h, pids, hlookup, p, hp, rfl, rfl⟩

/-- A sequence of events that starts the clients of a run and then waits for exactly
these. -/
def RunsAndWaits (pidOf : FlowId → ℕ) (a : Args) (test : Test) (r : ℕ) (es : List ProcEvent) :
    Prop :=
  ∃ waits : List (ℕ × ℕ),
    es = (runFlows a test r).map .start ++ waits.map (fun w => .wait w.1 w.2) ∧
      ∀ h p, (h, p) ∈ waits ↔ ∃ id ∈ runFlows a test r, id.host = h ∧ pidOf id = p

/-- One run of `BaseTest.start_senders`. -/
theorem runsAndWaits_run (pidOf : FlowId → ℕ) (order : ItemOrder) (htest : test ≠ .baseline)
    (r : ℕ) {s : Senders} (hs : s.Fits a) :
    ∃ es, (waitClients order (startClients pidOf a test r s)).events = s.events ++ es ∧
      RunsAndWaits pidOf a test r es ∧
      (waitClients order (startClients pidOf a test r s)).Fits a := by
  obtain ⟨hevents, hlookup⟩ := foldl_startFlows pidOf a test r (List.range (a.n - 1)) s
  have hflows : runFlows a test r = (List.range (a.n - 1)).flatMap fun i =>
      (List.range a.nflows).map fun j => ⟨test, a.nflows, r, i, j⟩ := by
    rw [runFlows, if_neg htest]
  rw [← hflows] at hevents
  have hentry : ∀ i, (startClients pidOf a test r s).clients.lookup i =
      if i < a.n - 1 ∧ a.nflows ≠ 0 then some (pidsOf pidOf a test r i) else none := by
    intro i
    rw [startClients, hlookup]
    simp only [List.mem_range]
    by_cases hi : i < a.n - 1 ∧ a.nflows ≠ 0
    · rw [if_pos hi, if_pos hi]
    · rw [if_neg hi, if_neg hi]
      exact hs i (by omega)
  refine ⟨_, ?_, ⟨waitedFor order (startClients pidOf a test r s).clients, rfl, ?_⟩, ?_⟩
  · rw [waitClients, startClients, hevents, List.append_assoc]
  · intro h p
    rw [mem_waitedFor, hentry]
    constructor
    · rintro ⟨pids, hpids, hp⟩
      obtain ⟨⟨hh, -⟩, rfl⟩ := Option.ite_some_none_eq_some.mp hpids
      obtain ⟨j, hj, rfl⟩ := List.mem_map.mp hp
      refine ⟨⟨test, a.nflows, r, h, j⟩, mem_runFlows.mpr ?_, rfl, rfl⟩
      rw [if_neg htest]
      exact ⟨rfl, rfl, rfl, hh, List.mem_range.mp hj⟩
    · rintro ⟨⟨test', nflows, run, host, flow⟩, hid, rfl, rfl⟩
      obtain ⟨rfl, rfl, rfl, hhost⟩ := mem_runFlows.mp hid
      rw [if_neg htest] at hhost
      refine ⟨pidsOf pidOf a test' run host, if_pos ⟨hhost.1, by omega⟩, ?_⟩
      exact List.mem_map.mpr ⟨flow, List.mem_range.mpr hhost.2, rfl⟩
  · intro i hi
    change (startClients pidOf a test r s).clients.lookup i = none
    rw [hentry, if_neg (by omega)]

end Experiment
end PFabric
