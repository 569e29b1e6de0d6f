import Mathlib.Algebra.BigOperators.Fin
import Mathlib.Algebra.BigOperators.Group.Finset.Piecewise
import Mathlib.Algebra.Order.BigOperators.Group.Finset
import Mathlib.Data.List.FinRange

/-!
# Families of first-in first-out lanes

A bank of queues is a function from lane indices to lists.  Elements enter a
lane at its tail and leave it at its head.  `flat` lists a finite bank lane by
lane; it is the order in which a strict-priority server would empty the bank.
-/

namespace PFabric
namespace Lanes

open scoped List

section Bank

variable {α β : Type*} [DecidableEq β] (q : β → List α) (b : β)

/-- Append an element to one lane. -/
def push (a : α) : β → List α := Function.update q b (q b ++ [a])

/-- Remove the head of one lane; an empty lane stays as it is. -/
def pop : β → List α := Function.update q b (q b).tail

@[simp] theorem push_self (a : α) : push q b a b = q b ++ [a] := by
  simp [push]

theorem push_of_ne {b' : β} (h : b' ≠ b) (a : α) : push q b a b' = q b' := by
  simp [push, h]

@[simp] theorem pop_self : pop q b b = (q b).tail := by
  simp [pop]

theorem pop_of_ne {b' : β} (h : b' ≠ b) : pop q b b' = q b' := by
  simp [pop, h]

variable {q b}

theorem pop_of_eq_nil (h : q b = []) : pop q b = q := by
  rw [pop, h, List.tail_nil, ← h, Function.update_eq_self]

theorem mem_push {a x : α} {b' : β} :
    x ∈ push q b a b' ↔ x ∈ q b' ∨ (b' = b ∧ x = a) := by
  by_cases h : b' = b
  · subst h
    simp
  · simp [push_of_ne q b h, h]

variable (q b) in
theorem pop_sublist (b' : β) : pop q b b' <+ q b' := by
  by_cases hb : b' = b
  · subst hb
    rw [pop_self]
    exact List.tail_sublist (q b')
  · rw [pop_of_ne q b hb]

variable (q b) in
theorem push_sublist (a : α) (b' : β) : push q b a b' <+ q b' ++ [a] := by
  by_cases hb : b' = b
  · subst hb
    rw [push_self]
  · rw [push_of_ne q b hb]
    exact List.sublist_append_left (q b') [a]

variable (q b) in
theorem sublist_push (a : α) (b' : β) : q b' <+ push q b a b' := by
  by_cases hb : b' = b
  · subst hb
    rw [push_self]
    exact List.sublist_append_left (q b') [a]
  · rw [push_of_ne q b hb]

section Included

variable {q' : β → List α} (h : ∀ x, q x <+ q' x)
include h

theorem push_sublist_push (a : α) (x : β) : push q b a x <+ push q' b a x := by
  by_cases hx : x = b
  · subst hx
    rw [push_self, push_self]
    exact (h x).append_right [a]
  · rw [push_of_ne q b hx, push_of_ne q' b hx]
    exact h x

/-- Pops keep one bank inside the other if they are of the same lane, or if the greater bank
gives up what the smaller one does not have. -/
theorem pop_sublist_pop {b' : β} (hb : b' = b ∨ q b' = []) (x : β) :
    pop q b x <+ pop q' b' x := by
  by_cases hx : x = b'
  · subst hx
    rcases hb with rfl | hnil
    · rw [pop_self, pop_self]
      exact (h x).tail
    · have hle := pop_sublist q b x
      rw [hnil, List.sublist_nil] at hle
      rw [hle]
      exact List.nil_sublist _
  · rw [pop_of_ne q' b' hx]
    exact (pop_sublist q b x).trans (h x)

end Included

theorem mem_of_mem_pop {x : α} {b' : β} (h : x ∈ pop q b b') : x ∈ q b' :=
  (pop_sublist q b b').subset h

theorem ne_nil_of_pop_ne_nil {b' : β} (h : pop q b b' ≠ []) : q b' ≠ [] := by
  obtain ⟨x, hx⟩ := List.exists_mem_of_ne_nil _ h
  exact List.ne_nil_of_mem (mem_of_mem_pop hx)

/-- Two banks that differ in one lane hold the same in the others. -/
theorem flatMap_perm_of_eq_off {q' : β → List α} {bs : List β} (hbs : bs.Nodup) (hb : b ∈ bs)
    (h : ∀ x, b ≠ x → q' x = q x) : bs.flatMap q' ++ q b ~ bs.flatMap q ++ q' b := by
  have hsplit : ∀ p : β → List α, bs.flatMap p ~ p b ++ (bs.erase b).flatMap p :=
    fun p => (List.perm_cons_erase hb).flatMap_right p
  have hrest : (bs.erase b).flatMap q' = (bs.erase b).flatMap q := by
    refine List.flatMap_congr fun x hx => h x ?_
    rintro rfl
    exact hbs.not_mem_erase hx
  calc bs.flatMap q' ++ q b
      _ ~ (q' b ++ (bs.erase b).flatMap q') ++ q b := (hsplit q').append_right _
      _ = q' b ++ ((bs.erase b).flatMap q ++ q b) := by rw [hrest, List.append_assoc]
      _ ~ ((bs.erase b).flatMap q ++ q b) ++ q' b := List.perm_append_comm
      _ ~ bs.flatMap q ++ q' b :=
        (List.perm_append_comm.trans (hsplit q).symm).append_right _

variable [Fintype β]

variable (q) in
/-- The number of elements in the whole bank. -/
def total : ℕ := ∑ b, (q b).length

variable (q b) in
theorem total_update (l : List α) :
    total (Function.update q b l) + (q b).length = total q + l.length := by
  have hcomp : ∀ b', (Function.update q b l b').length =
      Function.update (fun b' => (q b').length) b l.length b' := by
    intro b'
    by_cases h : b' = b
    · subst h
      simp
    · simp [h]
  simp only [total, hcomp]
  rw [Finset.sum_update_of_mem (Finset.mem_univ b),
    ← Finset.add_sum_erase Finset.univ _ (Finset.mem_univ b), Finset.sdiff_singleton_eq_erase]
  omega

variable (q b) in
theorem total_push (a : α) : total (push q b a) = total q + 1 := by
  have h := total_update q b (q b ++ [a])
  rw [List.length_append, List.length_singleton] at h
  rw [push]
  omega

theorem total_pop (h : q b ≠ []) : total (pop q b) + 1 = total q := by
  have hup := total_update q b (q b).tail
  have hpos := List.length_pos_of_ne_nil h
  rw [List.length_tail] at hup
  rw [pop]
  omega

omit [DecidableEq β] in
theorem total_eq_zero_iff : total q = 0 ↔ ∀ b, q b = [] := by
  simp [total, Finset.sum_eq_zero_iff]

end Bank

/-! ## Some of the lanes -/

section Keep

variable {α β : Type*} (p : β → Prop) [DecidablePred p] (q : β → List α)

/-- The bank with all other lanes emptied. -/
def keep : β → List α := fun b => if p b then q b else []

variable {p q}

theorem keep_of {b : β} (h : p b) : keep p q b = q b := if_pos h

theorem keep_of_not {b : β} (h : ¬ p b) : keep p q b = [] := if_neg h

theorem keep_eq_self (h : ∀ b, ¬ p b → q b = []) : keep p q = q := by
  funext b
  by_cases hb : p b
  · exact keep_of hb
  · rw [keep_of_not hb, h b hb]

theorem keep_update_of [DecidableEq β] {b : β} (h : p b) (l : List α) :
    keep p (Function.update q b l) = Function.update (keep p q) b l := by
  funext b'
  by_cases hb : b' = b
  · subst hb
    simp [keep, h]
  · simp [keep, hb]

theorem keep_update_of_not [DecidableEq β] {b : β} (h : ¬ p b) (l : List α) :
    keep p (Function.update q b l) = keep p q := by
  funext b'
  by_cases hb : b' = b
  · subst hb
    simp [keep, h]
  · simp [keep, hb]

theorem keep_push_of [DecidableEq β] {b : β} (h : p b) (a : α) :
    keep p (push q b a) = push (keep p q) b a := by
  rw [push, keep_update_of h, push, keep_of h]

theorem keep_pop_of [DecidableEq β] {b : β} (h : p b) : keep p (pop q b) = pop (keep p q) b := by
  rw [pop, keep_update_of h, pop, keep_of h]

theorem length_keep_le (b : β) : (keep p q b).length ≤ (q b).length := by
  by_cases hb : p b
  · rw [keep_of hb]
  · rw [keep_of_not hb]
    exact Nat.zero_le _

variable [Fintype β]

theorem total_keep_le : total (keep p q) ≤ total q :=
  Finset.sum_le_sum fun b _ => length_keep_le b

theorem total_keep_lt {b : β} (hb : ¬ p b) (h : q b ≠ []) : total (keep p q) < total q := by
  refine Finset.sum_lt_sum (fun b' _ => length_keep_le b') ⟨b, Finset.mem_univ b, ?_⟩
  rw [keep_of_not hb]
  exact List.length_pos_of_ne_nil h

end Keep

/-! ## Listing a bank lane by lane -/

section Flat

variable {α : Type*} {n : ℕ} (q : Fin n → List α)

/-- The elements of the bank, lane after lane. -/
def flat : List α := (List.finRange n).flatMap q

theorem exists_split_finRange (b : Fin n) :
    ∃ before after, List.finRange n = before ++ b :: after ∧
      (∀ x ∈ before, x < b) ∧ ∀ x ∈ after, b < x := by
  obtain ⟨before, after, hsplit⟩ := List.append_of_mem (List.mem_finRange b)
  have hlt := List.pairwise_lt_finRange n
  rw [hsplit, List.pairwise_append] at hlt
  refine ⟨before, after, hsplit, ?_, ?_⟩
  · intro x hx
    exact hlt.2.2 x hx b (by simp)
  · intro x hx
    exact List.rel_of_pairwise_cons hlt.2.1 hx

/-- Cut the listing around one lane, uniformly in that lane's contents. -/
theorem exists_flat_update (b : Fin n) :
    ∃ before after : List (Fin n),
      (∀ x ∈ before, x < b) ∧ (∀ x ∈ after, b < x) ∧
        flat q = before.flatMap q ++ (q b ++ after.flatMap q) ∧
        ∀ l, flat (Function.update q b l) =
          before.flatMap q ++ (l ++ after.flatMap q) := by
  obtain ⟨before, after, hsplit, hbefore, hafter⟩ := exists_split_finRange b
  refine ⟨before, after, hbefore, hafter, by simp [flat, hsplit], ?_⟩
  intro l
  have hb : before.flatMap (Function.update q b l) = before.flatMap q :=
    List.flatMap_congr fun x hx => Function.update_of_ne (ne_of_lt (hbefore x hx)) _ _
  have ha : after.flatMap (Function.update q b l) = after.flatMap q :=
    List.flatMap_congr fun x hx => Function.update_of_ne (ne_of_gt (hafter x hx)) _ _
  rw [flat, hsplit, List.flatMap_append, List.flatMap_cons, Function.update_self, hb, ha]

theorem flat_push_perm (b : Fin n) (a : α) :
    (flat (push q b a)).Perm (flat q ++ [a]) := by
  obtain ⟨before, after, _, _, hflat, hupdate⟩ := exists_flat_update q b
  rw [push, hupdate, hflat]
  simp only [List.append_assoc]
  refine List.Perm.append_left _ (List.Perm.append_left _ ?_)
  exact List.perm_append_comm

variable {q}

theorem flat_pop_perm {b : Fin n} {a : α} {rest : List α} (h : q b = a :: rest) :
    (flat q).Perm (a :: flat (pop q b)) := by
  obtain ⟨before, after, _, _, hflat, hupdate⟩ := exists_flat_update q b
  rw [pop, hupdate, hflat, h, List.tail_cons, List.cons_append]
  exact List.perm_middle

variable (q) in
/-- Popping a lane takes its head, if any, out of the listing. -/
theorem flat_pop_head?_perm (b : Fin n) :
    (flat (pop q b) ++ (q b).head?.toList).Perm (flat q) := by
  cases h : q b with
  | nil => simp [pop_of_eq_nil h]
  | cons a rest =>
      rw [List.head?_cons, Option.toList_some]
      exact List.perm_append_comm.trans (flat_pop_perm h).symm

/-- The head of the first non-empty lane is the head of the listing. -/
theorem flat_eq_cons {b : Fin n} {a : α} {rest : List α}
    (hfirst : ∀ b' < b, q b' = []) (h : q b = a :: rest) :
    flat q = a :: flat (pop q b) := by
  obtain ⟨before, after, hbefore, _, hflat, hupdate⟩ := exists_flat_update q b
  have hnil : before.flatMap q = [] :=
    List.flatMap_eq_nil_iff.mpr fun x hx => hfirst x (hbefore x hx)
  rw [pop, hupdate, hflat, h, hnil, List.tail_cons]
  rfl

theorem flat_eq_nil_iff : flat q = [] ↔ ∀ b, q b = [] := by
  simp [flat]

theorem flat_keep {p : Fin n → Prop} [DecidablePred p] {P : α → Bool}
    (h : ∀ b, ∀ x ∈ q b, P x = true ↔ p b) : flat (keep p q) = (flat q).filter P := by
  rw [flat, flat, List.filter_flatMap]
  refine List.flatMap_congr fun b _ => ?_
  by_cases hb : p b
  · rw [keep_of hb, List.filter_eq_self.mpr fun x hx => (h b x hx).mpr hb]
  · rw [keep_of_not hb, List.filter_eq_nil_iff.mpr fun x hx => fun hP => hb ((h b x hx).mp hP)]

theorem length_flat : (flat q).length = total q := by
  rw [flat, List.length_flatMap, total, Fin.sum_univ_def]

end Flat

end Lanes
end PFabric
