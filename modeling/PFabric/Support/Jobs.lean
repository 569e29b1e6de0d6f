import Mathlib.Data.List.Infix

/-!
# Background jobs

A script starts jobs in the background of one of several shells and waits for them
by their process ids.  A `wait` returns when the job of that shell with that id has
ended, so a job counts as outstanding from its start to the first `wait` for it.

A script made of batches, each of which waits for all it has started, has the jobs
of at most one batch outstanding at any time.
-/

namespace PFabric
namespace Jobs

open scoped List

/-- What a script does with jobs. -/
inductive Event (ι σ π : Type*)
  | start (job : ι)
  | wait (shell : σ) (pid : π)

variable {ι σ π : Type*} [DecidableEq σ] [DecidableEq π] (shell : ι → σ) (pid : ι → π)

/-- One event, from the jobs outstanding before it. -/
def step (running : List ι) : Event ι σ π → List ι
  | .start job => running ++ [job]
  | .wait s p => running.filter fun job => ¬ (shell job = s ∧ pid job = p)

/-- The jobs outstanding after a sequence of events. -/
def outstanding (events : List (Event ι σ π)) : List ι := events.foldl (step shell pid) []

/-- The jobs started in a sequence of events. -/
def started (events : List (Event ι σ π)) : List ι :=
  events.filterMap fun
    | .start job => some job
    | .wait _ _ => none

omit [DecidableEq σ] [DecidableEq π] in
theorem started_append (es fs : List (Event ι σ π)) :
    started (es ++ fs) = started es ++ started fs :=
  List.filterMap_append

omit [DecidableEq σ] [DecidableEq π] in
theorem started_starts (jobs : List ι) :
    started (jobs.map (Event.start : ι → Event ι σ π)) = jobs := by
  rw [started, List.filterMap_map]
  exact List.filterMap_some

omit [DecidableEq σ] [DecidableEq π] in
theorem started_waits (waits : List (σ × π)) :
    started (waits.map fun w => (Event.wait w.1 w.2 : Event ι σ π)) = [] := by
  rw [started, List.filterMap_map]
  exact List.filterMap_eq_nil_iff.mpr fun _ _ => rfl

omit [DecidableEq σ] [DecidableEq π] in
theorem started_batch (jobs : List ι) (waits : List (σ × π)) :
    started (jobs.map .start ++ waits.map fun w => .wait w.1 w.2) = jobs := by
  rw [started_append, started_starts, started_waits, List.append_nil]

omit [DecidableEq σ] [DecidableEq π] in
theorem started_flatMap {α : Type*} (l : List α) (f : α → List (Event ι σ π)) :
    started (l.flatMap f) = l.flatMap fun x => started (f x) :=
  List.filterMap_flatMap

theorem foldl_starts (running jobs : List ι) :
    (jobs.map Event.start).foldl (step shell pid) running = running ++ jobs := by
  induction jobs generalizing running with
  | nil => simp
  | cons job jobs ih => simp [step, ih]

theorem foldl_waits (running : List ι) (waits : List (σ × π)) :
    (waits.map fun w => Event.wait w.1 w.2).foldl (step shell pid) running =
      running.filter fun job => (shell job, pid job) ∉ waits := by
  induction waits generalizing running with
  | nil => simp
  | cons w waits ih =>
      rw [List.map_cons, List.foldl_cons, ih, step, List.filter_filter]
      refine List.filter_congr fun job _ => ?_
      simp only [List.mem_cons, Prod.ext_iff, not_or, Bool.decide_and]
      rw [Bool.and_comm]

theorem outstanding_append (es fs : List (Event ι σ π)) :
    outstanding shell pid (es ++ fs) =
      fs.foldl (step shell pid) (outstanding shell pid es) :=
  List.foldl_append

/-- Jobs are outstanding in the order in which they were started. -/
theorem outstanding_sublist (es : List (Event ι σ π)) :
    outstanding shell pid es <+ started es := by
  suffices hfrom : ∀ running : List ι,
      es.foldl (step shell pid) running <+ running ++ started es by
    exact hfrom []
  induction es with
  | nil =>
      intro running
      simp [started]
  | cons e es ih =>
      intro running
      refine (ih (step shell pid running e)).trans ?_
      cases e with
      | start job => simp [step, started]
      | wait s p => exact List.filter_sublist.append_right _

variable {shell pid}

/-- A batch that waits for all it has started. -/
theorem outstanding_batch {jobs : List ι} {waits : List (σ × π)}
    (h : ∀ job ∈ jobs, (shell job, pid job) ∈ waits) :
    outstanding shell pid (jobs.map .start ++ waits.map fun w => .wait w.1 w.2) = [] := by
  rw [outstanding_append, foldl_waits, outstanding, foldl_starts, List.nil_append,
    List.filter_eq_nil_iff]
  intro job hjob
  simp [h job hjob]

/-! ## Sequences of batches -/

/-- `P` holds of the jobs outstanding at any time of the script. -/
def Confined
    (shell : ι → σ) (pid : ι → π)
    (P : List ι → Prop) (es : List (Event ι σ π)) : Prop :=
  ∀ ks, ks <+: es → P (outstanding shell pid ks)

variable {P : List ι → Prop} {es fs : List (Event ι σ π)}

theorem confined_of_sublist
    (h : ∀ jobs, jobs <+ started es → P jobs) :
    Confined shell pid P es := by
  rintro ks ⟨rest, rfl⟩
  refine h _ ((outstanding_sublist shell pid ks).trans ?_)
  rw [started_append]
  exact List.sublist_append_left _ _

/-- Nothing is left of what has been waited for. -/
theorem outstanding_append_of_eq_nil (hes : outstanding shell pid es = []) :
    outstanding shell pid (es ++ fs) = outstanding shell pid fs := by
  rw [outstanding_append, hes, outstanding]

theorem Confined.append
    (hnil : outstanding shell pid es = [])
    (hes : Confined shell pid P es) (hfs : Confined shell pid P fs) :
    Confined shell pid P (es ++ fs) := by
  intro ks hks
  rcases List.prefix_or_prefix_of_prefix hks (List.prefix_append es fs) with hks | ⟨ls, rfl⟩
  · exact hes ks hks
  · rw [outstanding_append_of_eq_nil hnil]
    exact hfs ls ((List.prefix_append_right_inj es).mp hks)

/-- Every `wait` is for a job that was started before, in the shell it is done in. -/
def Grounded (shell : ι → σ) (pid : ι → π) (es : List (Event ι σ π)) : Prop :=
  ∀ ks s p rest, es = ks ++ .wait s p :: rest →
    ∃ job ∈ started ks, shell job = s ∧ pid job = p

omit [DecidableEq σ] [DecidableEq π] in
theorem Grounded.append (hes : Grounded shell pid es) (hfs : Grounded shell pid fs) :
    Grounded shell pid (es ++ fs) := by
  intro ks s p rest heq
  rcases List.append_eq_append_iff.mp heq with ⟨bs, rfl, hbs⟩ | ⟨bs, rfl, hbs⟩
  · obtain ⟨job, hjob, hspec⟩ := hfs bs s p rest hbs
    refine ⟨job, ?_, hspec⟩
    rw [started_append]
    exact List.mem_append_right _ hjob
  · cases bs with
    | nil =>
        obtain ⟨job, hjob, -⟩ := hfs [] s p rest hbs.symm
        exact absurd hjob List.not_mem_nil
    | cons b bs =>
        obtain ⟨rfl, -⟩ := List.cons.inj hbs
        exact hes ks s p bs rfl

omit [DecidableEq σ] [DecidableEq π] in
/-- A batch that waits for nothing else than what it has started. -/
theorem grounded_batch {jobs : List ι} {waits : List (σ × π)}
    (h : ∀ s p, (s, p) ∈ waits → ∃ job ∈ jobs, shell job = s ∧ pid job = p) :
    Grounded shell pid (jobs.map .start ++ waits.map fun w => .wait w.1 w.2) := by
  intro ks s p rest heq
  -- the starts come first, so the `wait` is one of the batch
  obtain ⟨bs, rfl, hbs⟩ : ∃ bs, ks = jobs.map .start ++ bs ∧
      (waits.map fun w => (.wait w.1 w.2 : Event ι σ π)) = bs ++ .wait s p :: rest := by
    rcases List.append_eq_append_iff.mp heq with hks | ⟨bs, hjobs, hbs⟩
    · exact hks
    · cases bs with
      | nil => exact ⟨[], by simpa using hjobs.symm, hbs.symm⟩
      | cons b bs =>
          obtain ⟨rfl, -⟩ := List.cons.inj hbs
          have hmem : Event.wait s p ∈ jobs.map (Event.start : ι → Event ι σ π) := by
            simp [hjobs]
          simp at hmem
  have hmem : Event.wait s p ∈ waits.map fun w => (.wait w.1 w.2 : Event ι σ π) := by
    simp [hbs]
  obtain ⟨w, hw, heq⟩ := List.mem_map.mp hmem
  obtain ⟨rfl, rfl⟩ := Event.wait.inj heq
  obtain ⟨job, hjob, hspec⟩ := h w.1 w.2 hw
  refine ⟨job, ?_, hspec⟩
  rw [started_append, started_starts]
  exact List.mem_append_left _ hjob

/-- A script in which every job is waited for, no other one is, and `P` holds of the
jobs outstanding at any time. -/
structure Orderly
    (shell : ι → σ) (pid : ι → π)
    (P : List ι → Prop) (es : List (Event ι σ π)) : Prop where
  complete : outstanding shell pid es = []
  confined : Confined shell pid P es
  grounded : Grounded shell pid es

/-- A batch that waits for exactly what it has started. -/
theorem orderly_batch {jobs : List ι} {waits : List (σ × π)}
    (hwaits : ∀ s p, (s, p) ∈ waits ↔ ∃ job ∈ jobs, shell job = s ∧ pid job = p)
    (hP : ∀ l, l <+ jobs → P l) :
    Orderly shell pid P (jobs.map .start ++ waits.map fun w => .wait w.1 w.2) where
  complete := outstanding_batch fun job hjob => (hwaits _ _).mpr ⟨job, hjob, rfl, rfl⟩
  confined := by
    refine confined_of_sublist fun l hl => hP l ?_
    rwa [started_batch] at hl
  grounded := grounded_batch fun s p => (hwaits s p).mp

theorem orderly_nil (hP : P []) : Orderly shell pid P ([] : List (Event ι σ π)) where
  complete := rfl
  confined := fun ks hks => by
    rw [List.prefix_nil.mp hks]
    exact hP
  grounded := fun ks s p rest heq => by simp at heq

theorem Orderly.append (hes : Orderly shell pid P es) (hfs : Orderly shell pid P fs) :
    Orderly shell pid P (es ++ fs) where
  complete := (outstanding_append_of_eq_nil hes.complete).trans hfs.complete
  confined := hes.confined.append hes.complete hfs.confined
  grounded := hes.grounded.append hfs.grounded

/-- Orderly scripts one after the other. -/
theorem orderly_flatMap (hP : P []) {α : Type*} (l : List α) {f : α → List (Event ι σ π)}
    (h : ∀ x, Orderly shell pid P (f x)) : Orderly shell pid P (l.flatMap f) := by
  induction l with
  | nil => exact orderly_nil hP
  | cons x l ih => exact (h x).append ih

end Jobs
end PFabric
