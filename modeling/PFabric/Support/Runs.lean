import Mathlib.Algebra.GroupWithZero.Nat
import Mathlib.Data.List.Infix

/-!
# Machines, runs and the rules for reasoning about them

A machine answers every input with one output and moves to the next state.
This module fixes what a run of such a machine is and supplies the induction
rules the rest of the development uses: invariants, conditions met by every
step of a run, properties held in every state of a run, quantities observed
along a run, refinement by a view of the state, lock-step simulation, and the
projection of a run onto one component.

Nothing here mentions a particular machine.
-/

namespace PFabric

/-- A deterministic machine with an output for every input. -/
structure Machine (σ ι ο : Type*) where
  step : σ → ι → ο × σ

namespace Machine

variable {σ τ ι ο π γ : Type*} (M : Machine σ ι ο) (N : Machine τ ι π)

/-- The output of one step. -/
def out (s : σ) (i : ι) : ο := (M.step s i).1

/-- The state reached by one step. -/
def next (s : σ) (i : ι) : σ := (M.step s i).2

/-- The state reached by a run. -/
def exec : σ → List ι → σ
  | s, [] => s
  | s, i :: is => exec (M.next s i) is

/-- The outputs of a run, in order. -/
def trace : σ → List ι → List ο
  | _, [] => []
  | s, i :: is => M.out s i :: trace (M.next s i) is

@[simp] theorem exec_nil (s : σ) : M.exec s [] = s := rfl

@[simp] theorem exec_cons (s : σ) (i : ι) (is : List ι) :
    M.exec s (i :: is) = M.exec (M.next s i) is := rfl

theorem exec_append (s : σ) (is js : List ι) :
    M.exec s (is ++ js) = M.exec (M.exec s is) js := by
  induction is generalizing s with
  | nil => rfl
  | cons i is ih => exact ih (M.next s i)

/-! ## Invariants -/

variable {M}

/-- A property that every step preserves holds at the end of every run. -/
theorem exec_invariant {I : σ → Prop}
    (hstep : ∀ s i, I s → I (M.next s i))
    {s : σ} (hs : I s) (is : List ι) : I (M.exec s is) := by
  induction is generalizing s with
  | nil => exact hs
  | cons i is ih => exact ih (hstep s i hs)

variable (M)

/-! ## Conditions met by every step -/

/-- Every step of the run meets `C` in the state it starts from. -/
def Meets (C : σ → ι → Prop) : σ → List ι → Prop
  | _, [] => True
  | s, i :: is => C s i ∧ Meets C (M.next s i) is

@[simp] theorem meets_nil (C : σ → ι → Prop) (s : σ) : M.Meets C s [] ↔ True :=
  Iff.rfl

@[simp] theorem meets_cons (C : σ → ι → Prop) (s : σ) (i : ι) (is : List ι) :
    M.Meets C s (i :: is) ↔ C s i ∧ M.Meets C (M.next s i) is :=
  Iff.rfl

variable {M} in
theorem meets_append {C : σ → ι → Prop} {s : σ} {is js : List ι} :
    M.Meets C s (is ++ js) ↔ M.Meets C s is ∧ M.Meets C (M.exec s is) js := by
  induction is generalizing s with
  | nil => simp
  | cons i is ih => rw [List.cons_append, meets_cons, meets_cons, ih, exec_cons, and_assoc]

instance decidableMeets (C : σ → ι → Prop) [∀ s i, Decidable (C s i)] :
    ∀ s is, Decidable (M.Meets C s is)
  | _, [] => isTrue trivial
  | s, i :: is =>
      have := decidableMeets C (M.next s i) is
      inferInstanceAs (Decidable (C s i ∧ M.Meets C (M.next s i) is))

/-- `P` holds in every state the run passes through, its ends included. -/
def Always (P : σ → Prop) (s : σ) (is : List ι) : Prop :=
  ∀ js, js <+: is → P (M.exec s js)

theorem always_nil (P : σ → Prop) (s : σ) : M.Always P s [] ↔ P s := by
  constructor
  · intro h
    exact h [] (List.prefix_refl [])
  · intro h js hjs
    rw [List.prefix_nil.mp hjs]
    exact h

theorem always_cons (P : σ → Prop) (s : σ) (i : ι) (is : List ι) :
    M.Always P s (i :: is) ↔ P s ∧ M.Always P (M.next s i) is := by
  constructor
  · intro h
    refine ⟨h [] List.nil_prefix, ?_⟩
    intro js hjs
    exact h (i :: js) (List.cons_prefix_cons.mpr ⟨rfl, hjs⟩)
  · rintro ⟨hs, hrest⟩ js hjs
    cases js with
    | nil => exact hs
    | cons j js =>
        obtain ⟨rfl, htail⟩ := List.cons_prefix_cons.mp hjs
        exact hrest js htail

variable {M}

theorem Meets.and {C D : σ → ι → Prop} {s : σ} {is : List ι} (hC : M.Meets C s is)
    (hD : M.Meets D s is) : M.Meets (fun s i => C s i ∧ D s i) s is := by
  induction is generalizing s with
  | nil => trivial
  | cons i is ih => exact ⟨⟨hC.1, hD.1⟩, ih hC.2 hD.2⟩

theorem Always.last {P : σ → Prop} {s : σ} {is : List ι} (h : M.Always P s is) :
    P (M.exec s is) :=
  h is (List.prefix_refl is)

theorem Always.meets {P : σ → Prop} {s : σ} {is : List ι} (h : M.Always P s is) :
    M.Meets (fun s _ => P s) s is := by
  induction is generalizing s with
  | nil => trivial
  | cons i is ih =>
      rw [always_cons] at h
      exact ⟨h.1, ih h.2⟩

/-- A property preserved by the steps that meet `C` holds in every state of a
run whose steps all meet `C`. -/
theorem always_of_meets {C : σ → ι → Prop} {I : σ → Prop}
    (hstep : ∀ s i, I s → C s i → I (M.next s i))
    {s : σ} (hs : I s) {is : List ι} (hC : M.Meets C s is) :
    M.Always I s is := by
  induction is generalizing s with
  | nil => exact (M.always_nil I s).mpr hs
  | cons i is ih =>
      rw [always_cons]
      exact ⟨hs, ih (hstep s i hs hC.1) hC.2⟩

/-- Exactness rule for states, along the runs whose steps meet `L`.  If such a
step from a state with `P` reaches a state with `P` exactly when it meets `C`,
then the runs that stay in `P` are exactly those whose steps all meet `C`. -/
theorem always_iff_meets_of_meets {L C : σ → ι → Prop} {P : σ → Prop}
    (hstep : ∀ s i, P s → L s i → (P (M.next s i) ↔ C s i))
    {s : σ} (hs : P s) {is : List ι} (hL : M.Meets L s is) :
    M.Always P s is ↔ M.Meets C s is := by
  induction is generalizing s with
  | nil => simp [always_nil, hs]
  | cons i is ih =>
      rw [always_cons, meets_cons]
      constructor
      · rintro ⟨_, hrest⟩
        have hnext : P (M.next s i) := hrest [] List.nil_prefix
        exact ⟨(hstep s i hs hL.1).mp hnext, (ih hnext hL.2).mp hrest⟩
      · rintro ⟨hC, hrest⟩
        exact ⟨hs, (ih ((hstep s i hs hL.1).mpr hC) hL.2).mpr hrest⟩

/-- A condition on the inputs alone is met by a run when all inputs meet it. -/
theorem meets_const {C : ι → Prop} {s : σ} {is : List ι} :
    M.Meets (fun _ i => C i) s is ↔ ∀ i ∈ is, C i := by
  induction is generalizing s with
  | nil => simp
  | cons i is ih => rw [meets_cons, ih, List.forall_mem_cons]

/-- Exactness rule for states, along all runs. -/
theorem always_iff_meets {C : σ → ι → Prop} {P : σ → Prop}
    (hstep : ∀ s i, P s → (P (M.next s i) ↔ C s i))
    {s : σ} (hs : P s) (is : List ι) :
    M.Always P s is ↔ M.Meets C s is :=
  always_iff_meets_of_meets (fun s i h _ => hstep s i h) hs
    (meets_const.mpr fun _ _ => trivial)

/-- Exactness rule for a property carried by an invariant.  If a step from `J`
either meets `C` and keeps `J` or fails `C` and breaks `P`, then the runs from `J`
that stay in `P` are exactly those whose steps all meet `C`. -/
theorem always_iff_meets_of_invariant {C : σ → ι → Prop} {J P : σ → Prop}
    (hJP : ∀ s, J s → P s)
    (hstep : ∀ s i, J s → C s i ∧ J (M.next s i) ∨ ¬ C s i ∧ ¬ P (M.next s i))
    {s : σ} (hs : J s) (is : List ι) : M.Always P s is ↔ M.Meets C s is := by
  induction is generalizing s with
  | nil => simp [always_nil, hJP s hs]
  | cons i is ih =>
      rw [always_cons, meets_cons]
      rcases hstep s i hs with ⟨hC, hJ⟩ | ⟨hC, hP⟩
      · rw [ih hJ]
        exact and_congr_left fun _ => iff_of_true (hJP s hs) hC
      · exact iff_of_false (fun h => hP (h.2 [] List.nil_prefix)) fun h => hC h.1

/-- Exactness rule for steps.  Two step conditions select the same runs when
they agree wherever `J` holds and steps meeting them keep `J`. -/
theorem meets_congr {B C : σ → ι → Prop} {J : σ → Prop}
    (hBC : ∀ s i, J s → (B s i ↔ C s i))
    (hJ : ∀ s i, J s → C s i → J (M.next s i))
    {s : σ} (hs : J s) (is : List ι) :
    M.Meets B s is ↔ M.Meets C s is := by
  induction is generalizing s with
  | nil => rfl
  | cons i is ih =>
      rw [meets_cons, meets_cons, hBC s i hs]
      exact and_congr_right fun hC => ih (hJ s i hs hC)

/-! ## Quantities observed along a run -/

variable (M)

/-- Fold the inputs and outputs of a run into an observed quantity. -/
def observe (f : γ → ι → ο → γ) : γ → σ → List ι → γ
  | g, _, [] => g
  | g, s, i :: is => observe f (f g i (M.out s i)) (M.next s i) is

variable {M}

/-- A relation between the inputs read so far, the observed quantity and the
state which every step preserves holds at the end of every run. -/
theorem observe_invariant {f : γ → ι → ο → γ} {J : List ι → γ → σ → Prop}
    (hstep : ∀ js g s i, J js g s →
      J (js ++ [i]) (f g i (M.out s i)) (M.next s i))
    {g : γ} {s : σ} (hs : J [] g s) (is : List ι) :
    J is (M.observe f g s is) (M.exec s is) := by
  suffices hrun : ∀ js g s, J js g s → J (js ++ is) (M.observe f g s is) (M.exec s is) by
    exact hrun [] g s hs
  clear hs
  induction is with
  | nil =>
      intro js g s hJ
      rw [List.append_nil]
      exact hJ
  | cons i is ih =>
      intro js g s hJ
      have hrun := ih (js ++ [i]) _ _ (hstep js g s i hJ)
      rw [List.append_assoc, List.singleton_append] at hrun
      exact hrun

variable (M)

/-- Fold the states and inputs of a run into a quantity. -/
def track (f : γ → σ → ι → γ) : γ → σ → List ι → γ
  | g, _, [] => g
  | g, s, i :: is => track f (f g s i) (M.next s i) is

variable {M} in
/-- A relation between the quantity and the state which every step preserves holds
at the end of every run. -/
theorem track_invariant {f : γ → σ → ι → γ} {J : γ → σ → Prop}
    (hstep : ∀ g s i, J g s → J (f g s i) (M.next s i))
    {g : γ} {s : σ} (hs : J g s) (is : List ι) : J (M.track f g s is) (M.exec s is) := by
  induction is generalizing g s with
  | nil => exact hs
  | cons i is ih => exact ih (hstep g s i hs)

/-- A list collected along a run grows behind what it starts with. -/
theorem observe_append_eq {α : Type*} (f : ι → ο → List α) (l : List α) (s : σ) (is : List ι) :
    M.observe (fun l i o => l ++ f i o) l s is =
      l ++ M.observe (fun l i o => l ++ f i o) [] s is := by
  induction is generalizing l s with
  | nil => exact (List.append_nil l).symm
  | cons i is ih =>
      rw [observe, observe, ih, ih ([] ++ _), List.nil_append, List.append_assoc]

/-- The machine that carries the observed quantity along in its state. -/
def observed (f : γ → ι → ο → γ) : Machine (σ × γ) ι ο where
  step s i := (M.out s.1 i, M.next s.1 i, f s.2 i (M.out s.1 i))

theorem exec_observed (f : γ → ι → ο → γ) (s : σ) (g : γ) (is : List ι) :
    (M.observed f).exec (s, g) is = (M.exec s is, M.observe f g s is) := by
  induction is generalizing s g with
  | nil => rfl
  | cons i is ih => exact ih (M.next s i) (f g i (M.out s i))

theorem meets_observed (f : γ → ι → ο → γ) (C : σ → ι → Prop) (s : σ) (g : γ)
    (is : List ι) :
    (M.observed f).Meets (fun s i => C s.1 i) (s, g) is ↔ M.Meets C s is := by
  induction is generalizing s g with
  | nil => rfl
  | cons i is ih => exact and_congr_right fun _ => ih (M.next s i) (f g i (M.out s i))

variable {M}

/-- Exactness rule for a relation between the state and an observed quantity. -/
theorem always_observe_iff_meets {f : γ → ι → ο → γ} {C : σ → ι → Prop}
    {P : σ → γ → Prop}
    (hstep : ∀ s g i, P s g → (P (M.next s i) (f g i (M.out s i)) ↔ C s i))
    {s : σ} {g : γ} (hs : P s g) (is : List ι) :
    (∀ js, js <+: is → P (M.exec s js) (M.observe f g s js)) ↔ M.Meets C s is := by
  rw [← meets_observed M f C s g is,
    ← always_iff_meets (P := fun s => P s.1 s.2) (fun s i h => hstep s.1 s.2 i h) hs is]
  refine forall_congr' fun js => ?_
  rw [exec_observed]

/-! ## Refinement and simulation -/

/-- `M` refines `N` through a view of its states and of `N`'s outputs: both
machines move alike, and `M` shows what `N`'s output prescribes. -/
structure Refines (M : Machine σ ι ο) (N : Machine τ ι π)
    (view : σ → τ) (obs : π → ο) : Prop where
  out_eq : ∀ s i, M.out s i = obs (N.out (view s) i)
  next_eq : ∀ s i, view (M.next s i) = N.next (view s) i

namespace Refines

variable {M : Machine σ ι ο} {N : Machine τ ι π} {view : σ → τ} {obs : π → ο}

theorem exec_eq (h : Refines M N view obs) (s : σ) (is : List ι) :
    view (M.exec s is) = N.exec (view s) is := by
  induction is generalizing s with
  | nil => rfl
  | cons i is ih => rw [exec_cons, exec_cons, ih, h.next_eq]

theorem trace_eq (h : Refines M N view obs) (s : σ) (is : List ι) :
    M.trace s is = (N.trace (view s) is).map obs := by
  induction is generalizing s with
  | nil => rfl
  | cons i is ih => simp only [trace, List.map_cons, ih, h.next_eq, h.out_eq]

end Refines

/-- Lock-step simulation along the runs whose steps meet `C`. -/
theorem trace_eq_of_simulation {M : Machine σ ι ο} {N : Machine τ ι ο}
    {C : σ → ι → Prop} {R : σ → τ → Prop}
    (hstep : ∀ s t i, R s t → C s i →
      M.out s i = N.out t i ∧ R (M.next s i) (N.next t i))
    {s : σ} {t : τ} (hR : R s t) {is : List ι} (hC : M.Meets C s is) :
    M.trace s is = N.trace t is ∧ R (M.exec s is) (N.exec t is) := by
  induction is generalizing s t with
  | nil => exact ⟨rfl, hR⟩
  | cons i is ih =>
      obtain ⟨hout, hnext⟩ := hstep s t i hR hC.1
      obtain ⟨htrace, hend⟩ := ih hnext hC.2
      exact ⟨by rw [trace, trace, hout, htrace], hend⟩

/-- Two runs of one machine.  If greater states under greater inputs have no smaller outputs
and stay greater, a run has no smaller sum of outputs. -/
theorem sum_trace_le_of_mono {M : Machine σ ι ℕ} {R : σ → σ → Prop} {I : ι → ι → Prop}
    (hstep : ∀ s s' i i', R s s' → I i i' →
      M.out s i ≤ M.out s' i' ∧ R (M.next s i) (M.next s' i'))
    {s s' : σ} (hR : R s s') {is is' : List ι} (hI : List.Forall₂ I is is') :
    (M.trace s is).sum ≤ (M.trace s' is').sum ∧ R (M.exec s is) (M.exec s' is') := by
  induction hI generalizing s s' with
  | nil => exact ⟨le_refl _, hR⟩
  | cons hi _ ih =>
      obtain ⟨hout, hnext⟩ := hstep _ _ _ _ hR hi
      obtain ⟨hsum, hend⟩ := ih hnext
      refine ⟨?_, hend⟩
      rw [trace, trace, List.sum_cons, List.sum_cons]
      exact Nat.add_le_add hout hsum

/-! ## Projection onto one component -/

section Projection

variable {κ : Type*} (M : Machine σ ι ο) (own : ι → Option κ)

/-- The outputs of those steps of a run whose inputs `own` selects. -/
def traceOf : σ → List ι → List ο
  | _, [] => []
  | s, i :: is =>
      if (own i).isSome then M.out s i :: traceOf (M.next s i) is
      else traceOf (M.next s i) is

variable {M own} {N : Machine τ κ π}

/-- Projection rule.  A component of `M` moves as `N` does on the inputs that
`own` selects for it and is left alone by all other inputs; then its part of a
run of `M` is `N`'s run on its own inputs. -/
theorem project_of_simulation {obs : π → ο} {R : σ → τ → Prop} {L : ι → Prop}
    (hown : ∀ s t i k, R s t → L i → own i = some k →
      M.out s i = obs (N.out t k) ∧ R (M.next s i) (N.next t k))
    (hother : ∀ s t i, R s t → L i → own i = none → R (M.next s i) t)
    {s : σ} {t : τ} (hR : R s t) {is : List ι} (hL : ∀ i ∈ is, L i) :
    M.traceOf own s is = (N.trace t (is.filterMap own)).map obs ∧
      R (M.exec s is) (N.exec t (is.filterMap own)) := by
  induction is generalizing s t with
  | nil => exact ⟨rfl, hR⟩
  | cons i is ih =>
      obtain ⟨hi, his⟩ := List.forall_mem_cons.mp hL
      cases hk : own i with
      | none =>
          obtain ⟨htrace, hend⟩ := ih (hother s t i hR hi hk) his
          rw [List.filterMap_cons_none hk]
          exact ⟨by simp [traceOf, hk, htrace], hend⟩
      | some k =>
          obtain ⟨hout, hnext⟩ := hown s t i k hR hi hk
          obtain ⟨htrace, hend⟩ := ih hnext his
          rw [List.filterMap_cons_some hk]
          exact ⟨by simp [traceOf, trace, hk, hout, htrace], hend⟩

end Projection

end Machine
end PFabric
