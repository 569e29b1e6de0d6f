import Mathlib.Data.List.Basic

/-!
# Comprehensions that can fail

`List.mapM` in `Option` is a list comprehension whose expression may raise an error.
The results are those of the expressions, if none of them raises one.
-/

namespace PFabric
namespace Comprehension

variable {α β γ : Type*}

/-- A comprehension that fails for no element. -/
theorem mapM_eq_some_of_mem
    {f : α → Option β} {g : α → β} {l : List α}
    (h : ∀ x ∈ l, f x = some (g x)) : l.mapM f = some (l.map g) := by
  induction l with
  | nil => rfl
  | cons x l ih =>
      have hrest := ih fun y hy => h y (List.mem_cons_of_mem x hy)
      rw [List.mapM_cons, h x List.mem_cons_self, hrest]
      rfl

theorem mapM_eq_some
    {f : α → Option β} {g : α → β} (l : List α)
    (h : ∀ x, f x = some (g x)) : l.mapM f = some (l.map g) :=
  mapM_eq_some_of_mem fun x _ => h x

/-- Of two comprehensions, the second runs over the results of the first. -/
theorem mapM_bind_mapM
    {f : α → Option β} {g : β → Option γ} {v : α → γ} {l : List α}
    (h : ∀ x ∈ l, (f x).bind g = some (v x)) :
    ((l.mapM f).bind fun ys => ys.mapM g) = some (l.map v) := by
  induction l with
  | nil => rfl
  | cons x l ih =>
      obtain ⟨y, hy, hv⟩ := Option.bind_eq_some_iff.mp (h x List.mem_cons_self)
      obtain ⟨ys, hys, hvs⟩ :=
        Option.bind_eq_some_iff.mp (ih fun z hz => h z (List.mem_cons_of_mem x hz))
      rw [List.mapM_cons, hy, hys]
      change (y :: ys).mapM g = _
      rw [List.mapM_cons, hv, hvs]
      rfl

end Comprehension
end PFabric
