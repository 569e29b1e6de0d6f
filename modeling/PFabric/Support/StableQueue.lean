import Mathlib.Data.List.Sort
import Mathlib.Data.Prod.Lex
import PFabric.Support.Lanes

/-!
# Stable priority queues

A stable priority queue serves the element with the least key, and among
elements with one key the one that arrived first.  The reference implementation
stamps every element on arrival and keeps the entries sorted by key and stamp.
The structure carries both facts, so an unsorted queue cannot be built.

A bank of first-in first-out lanes, one per key, listed lane by lane, behaves
like such a queue; the last section says so operation by operation.
-/

namespace PFabric

variable {α κ : Type*} [LinearOrder κ] (key : α → κ)

/-- The place of a stamped element in the order of service. -/
def rank (x : ℕ × α) : κ ×ₗ ℕ := toLex (key x.2, x.1)

/-- A stable priority queue: stamped elements, sorted by key and stamp. -/
structure StableQueue where
  entries : List (ℕ × α)
  clock : ℕ
  sorted : entries.Pairwise (Order.Preimage (rank key) (· ≤ ·))
  stamped : ∀ x ∈ entries, x.1 < clock

namespace StableQueue

variable {key} (Q : StableQueue key)

/-- The elements in the order of service. -/
def toList : List α := Q.entries.map Prod.snd

/-- A queue with no element. -/
def empty : StableQueue key := ⟨[], 0, List.Pairwise.nil, by simp⟩

/-- The element to be served next. -/
def min? : Option α := Q.toList.head?

/-- Add an element, stamped with the current time. -/
def insert (a : α) : StableQueue key where
  entries := Q.entries.orderedInsert (Order.Preimage (rank key) (· ≤ ·)) (Q.clock, a)
  clock := Q.clock + 1
  sorted := Q.sorted.orderedInsert _ _
  stamped := by
    intro x hx
    rcases (List.mem_orderedInsert _).mp hx with rfl | hx
    · exact Nat.lt_succ_self _
    · exact Nat.lt_succ_of_lt (Q.stamped x hx)

/-- Remove the element served next. -/
def popMin : StableQueue key where
  entries := Q.entries.tail
  clock := Q.clock
  sorted := Q.sorted.tail
  stamped x hx := Q.stamped x (List.mem_of_mem_tail hx)

@[simp] theorem toList_popMin : Q.popMin.toList = Q.toList.tail :=
  List.map_tail

/-- A newcomer goes before the elements with a greater key, and only these. -/
theorem rank_le_iff {clock : ℕ} {a : α} {x : ℕ × α} (hx : x.1 < clock) :
    rank key (clock, a) ≤ rank key x ↔ key a < key x.2 := by
  rw [rank, rank, Prod.Lex.toLex_le_toLex]
  apply or_iff_left
  rintro ⟨_, hle⟩
  exact absurd hle (not_le.mpr hx)

theorem map_orderedInsert_eq {clock : ℕ} {l : List (ℕ × α)}
    (hl : ∀ x ∈ l, x.1 < clock) (a : α) :
    (l.orderedInsert (Order.Preimage (rank key) (· ≤ ·)) (clock, a)).map Prod.snd =
      (l.map Prod.snd).takeWhile (fun x => key x ≤ key a) ++
        a :: (l.map Prod.snd).dropWhile (fun x => key x ≤ key a) := by
  induction l with
  | nil => rfl
  | cons x l ih =>
      obtain ⟨hx, hrest⟩ := List.forall_mem_cons.mp hl
      by_cases hle : key x.2 ≤ key a
      · have hbehind : ¬ Order.Preimage (rank key) (· ≤ ·) (clock, a) x := by
          rw [Order.Preimage, rank_le_iff hx]
          exact not_lt.mpr hle
        rw [List.orderedInsert_of_not_le _ _ hbehind]
        simp [hle, ih hrest]
      · have hbefore : Order.Preimage (rank key) (· ≤ ·) (clock, a) x := by
          rw [Order.Preimage, rank_le_iff hx]
          exact not_le.mp hle
        rw [List.orderedInsert_cons_of_le _ _ hbefore]
        simp [hle]

/-- An insertion places the newcomer behind all elements whose key is at most
its own. -/
theorem toList_insert (a : α) :
    (Q.insert a).toList =
      Q.toList.takeWhile (fun x => key x ≤ key a) ++
        a :: Q.toList.dropWhile (fun x => key x ≤ key a) :=
  map_orderedInsert_eq Q.stamped a

/-- Remove, among the elements with the greatest key, the one that arrived first. -/
def evictMax : StableQueue key where
  entries := Q.entries.eraseP fun x => ∀ y ∈ Q.toList, key y ≤ key x.2
  clock := Q.clock
  sorted := Q.sorted.sublist List.eraseP_sublist
  stamped x hx := Q.stamped x (List.eraseP_sublist.subset hx)

theorem toList_evictMax :
    Q.evictMax.toList = Q.toList.eraseP fun x => ∀ y ∈ Q.toList, key y ≤ key x := by
  conv_rhs => rw [toList, List.eraseP_map]
  rfl

end StableQueue

/-! ## Sorted lists by counting -/

section Counting

variable {l l' : List κ}

/-- Up to any bound, the first `n` elements of a sorted list are as many as there
can be. -/
theorem countP_le_take (h : l.Pairwise (· ≤ ·)) (n : ℕ) (x : κ) :
    (l.take n).countP (· ≤ x) = min n (l.countP (· ≤ x)) := by
  induction l generalizing n with
  | nil => simp
  | cons a l ih =>
      obtain ⟨ha, hl⟩ := List.pairwise_cons.mp h
      cases n with
      | zero => simp
      | succ n =>
          rw [List.take_succ_cons, List.countP_cons, List.countP_cons, ih hl]
          by_cases hax : a ≤ x
          · simp [hax]
          · have hzero : l.countP (· ≤ x) = 0 :=
              List.countP_eq_zero.mpr fun y hy hyx => hax ((ha y hy).trans (of_decide_eq_true hyx))
            simp [hax, hzero]

/-- A sorted list is determined by how many of its elements lie up to each bound. -/
theorem eq_of_countP_le_eq (h : l.Pairwise (· ≤ ·)) (h' : l'.Pairwise (· ≤ ·))
    (heq : ∀ x, l.countP (· ≤ x) = l'.countP (· ≤ x)) : l = l' := by
  induction l generalizing l' with
  | nil =>
      cases l' with
      | nil => rfl
      | cons a' l' => simpa using heq a'
  | cons a l ih =>
      cases l' with
      | nil => simpa using heq a
      | cons a' l' =>
          obtain ⟨ha, hl⟩ := List.pairwise_cons.mp h
          obtain ⟨ha', hl'⟩ := List.pairwise_cons.mp h'
          have hmem : ∀ {b b' : κ} {k k' : List κ}, (∀ y ∈ k', b' ≤ y) →
              (b :: k).countP (· ≤ b) = (b' :: k').countP (· ≤ b) → b' ≤ b := by
            intro b b' k k' hk' hcount
            by_contra hlt
            have hzero : (b' :: k').countP (· ≤ b) = 0 := by
              refine List.countP_eq_zero.mpr fun y hy hyb => hlt ?_
              rcases List.mem_cons.mp hy with rfl | hy
              · exact of_decide_eq_true hyb
              · exact (hk' y hy).trans (of_decide_eq_true hyb)
            rw [hzero] at hcount
            simp at hcount
          obtain rfl : a = a' := le_antisymm (hmem ha (heq a').symm) (hmem ha' (heq a))
          refine congrArg (a :: ·) (ih hl hl' fun x => ?_)
          have hx := heq x
          rw [List.countP_cons, List.countP_cons] at hx
          exact Nat.add_right_cancel hx

/-- Of a list of `n + 1` elements, all but a greatest one: up to any bound, as many
as `n` elements can be. -/
theorem countP_le_of_perm_cons {m : κ} (hperm : (m :: l).Perm l') (hmax : ∀ y ∈ l, y ≤ m)
    (x : κ) : l.countP (· ≤ x) = min l.length (l'.countP (· ≤ x)) := by
  rw [← hperm.countP_eq, List.countP_cons]
  by_cases hm : m ≤ x
  · have hall : l.countP (· ≤ x) = l.length :=
      List.countP_eq_length.mpr fun y hy => decide_eq_true ((hmax y hy).trans hm)
    simp [hm, hall]
  · have hle := List.countP_le_length (p := (· ≤ x)) (l := l)
    simp [hm, hle]

end Counting

/-! ## Lanes as a stable queue -/

namespace Lanes

variable {n : ℕ} {q : Fin n → List α} {key : α → ℕ}

/-- Appending to a lane inserts behind all elements of that and earlier lanes. -/
theorem flat_push_eq (hkey : ∀ b, ∀ x ∈ q b, key x = (b : ℕ)) (b : Fin n) (a : α) :
    flat (push q b a) =
      (flat q).takeWhile (fun x => key x ≤ (b : ℕ)) ++
        a :: (flat q).dropWhile (fun x => key x ≤ (b : ℕ)) := by
  obtain ⟨before, after, hbefore, hafter, hflat, hupdate⟩ := exists_flat_update q b
  have hfirst : ∀ x ∈ before.flatMap q ++ q b, decide (key x ≤ (b : ℕ)) = true := by
    intro x hx
    rw [decide_eq_true_iff]
    rcases List.mem_append.mp hx with hx | hx
    · obtain ⟨b', hb', hx⟩ := List.mem_flatMap.mp hx
      rw [hkey b' x hx]
      exact le_of_lt (hbefore b' hb')
    · exact le_of_eq (hkey b x hx)
  have hlast : ∀ x ∈ after.flatMap q, ¬ key x ≤ (b : ℕ) := by
    intro x hx
    obtain ⟨b', hb', hx⟩ := List.mem_flatMap.mp hx
    rw [hkey b' x hx]
    exact not_le.mpr (hafter b' hb')
  rw [← List.append_assoc] at hflat
  rw [push, hupdate, hflat, List.takeWhile_append_of_pos hfirst,
    List.dropWhile_append_of_pos hfirst]
  cases hrest : after.flatMap q with
  | nil => simp
  | cons x rest =>
      have hx := hlast x (by simp [hrest])
      simp [hx]

/-- A push into the lane of its key is an insertion. -/
theorem flat_push_eq_insert {Q : StableQueue key} (hq : flat q = Q.toList)
    (hkey : ∀ b, ∀ x ∈ q b, key x = (b : ℕ)) {b : Fin n} {a : α} (ha : key a = (b : ℕ)) :
    flat (push q b a) = (Q.insert a).toList := by
  rw [StableQueue.toList_insert, flat_push_eq hkey, hq, ha]

/-- A pop of the first non-empty lane serves the queue. -/
theorem flat_pop_eq_popMin {Q : StableQueue key} (hq : flat q = Q.toList) {b : Fin n}
    {a : α} (hfirst : ∀ b' < b, q b' = []) (h : (q b).head? = some a) :
    Q.min? = some a ∧ flat (pop q b) = Q.popMin.toList := by
  have hcons := flat_eq_cons hfirst (List.cons_head?_tail h).symm
  rw [StableQueue.min?, StableQueue.toList_popMin, ← hq, hcons]
  exact ⟨rfl, rfl⟩

/-- The elements listed, up to each bound, come in the order of their lanes. -/
theorem pairwise_flat (hkey : ∀ b, ∀ x ∈ q b, key x = (b : ℕ)) :
    ((flat q).map key).Pairwise (· ≤ ·) := by
  rw [List.pairwise_map, flat, List.pairwise_flatMap]
  refine ⟨fun b _ => List.pairwise_of_forall_mem_list fun x hx y hy => ?_, ?_⟩
  · rw [hkey b x hx, hkey b y hy]
  · refine (List.pairwise_lt_finRange n).imp fun {b b'} hlt x hx y hy => ?_
    rw [hkey b x hx, hkey b' y hy]
    exact le_of_lt hlt

/-- A pop of the last non-empty lane evicts from the queue. -/
theorem flat_pop_eq_evictMax {Q : StableQueue key} (hq : flat q = Q.toList)
    (hkey : ∀ b, ∀ x ∈ q b, key x = (b : ℕ)) {b : Fin n} (hne : q b ≠ [])
    (hlast : ∀ b', b < b' → q b' = []) : flat (pop q b) = Q.evictMax.toList := by
  obtain ⟨before, after, hbefore, hafter, hflat, hupdate⟩ := exists_flat_update q b
  have hnil : after.flatMap q = [] :=
    List.flatMap_eq_nil_iff.mpr fun x hx => hlast x (hafter x hx)
  obtain ⟨a, rest, hcons⟩ := List.exists_cons_of_ne_nil hne
  have ha : key a = (b : ℕ) := hkey b a (by simp [hcons])
  rw [hnil, hcons, List.append_nil] at hflat
  have hsmall : ∀ x ∈ before.flatMap q, key x < (b : ℕ) := by
    intro x hx
    obtain ⟨b', hb', hx⟩ := List.mem_flatMap.mp hx
    rw [hkey b' x hx]
    exact hbefore b' hb'
  have hgreatest : ∀ x ∈ flat q, key x ≤ key a := by
    intro x hx
    rw [hflat, ← hcons] at hx
    rw [ha]
    rcases List.mem_append.mp hx with hx | hx
    · exact le_of_lt (hsmall x hx)
    · exact le_of_eq (hkey b x hx)
  have herase : ∀ p : α → Bool, p a = true → (∀ x ∈ before.flatMap q, ¬ p x = true) →
      (flat q).eraseP p = before.flatMap q ++ rest := by
    intro p hpa hp
    rw [hflat, List.eraseP_append_right _ hp, List.eraseP_cons_of_pos hpa]
  rw [StableQueue.toList_evictMax, ← hq, pop, hupdate, hnil, hcons, List.append_nil,
    herase _ (decide_eq_true hgreatest)]
  · rfl
  · intro x hx hmax
    refine absurd (of_decide_eq_true hmax a ?_) (not_le.mpr (ha ▸ hsmall x hx))
    rw [hflat]
    simp

end Lanes
end PFabric
