import Mathlib.Algebra.Order.BigOperators.Group.Finset
import Mathlib.Data.BitVec
import PFabric.Guarantees.Counter
import PFabric.Guarantees.Order

/-!
# Beyond the limit

What happens once an eviction has left a mark on an empty band.  `pfab_drop` looks
for its victim behind that mark, finds none and decrements the counter all the
same.  The number of such calls is the distance between the counter and the number
of packets held, modulo 2^32, until the next reset.

Arrivals in front of a mark are never turned away and never evicted.  A mark that no
packet stands behind therefore opens the buffer to all of them, whatever the limit.
-/

namespace PFabric

/-! ## Evictions that free nothing -/

/-- The call runs `pfab_drop` on a band whose list is empty. -/
def EvictsNothing (c : Ctx) : Op → Prop
  | .enqueue skb =>
      Admits c skb ∧ c.sch.priv.limit < c.sch.qlen + 1 ∧
        0 ≤ bitmapLowPrio c.sch.priv.bitmap ∧
        c.sch.priv.queues (band2list (bitmapLowPrio c.sch.priv.bitmap)) = []
  | _ => False

instance (c : Ctx) : ∀ op, Decidable (EvictsNothing c op)
  | .enqueue _ => inferInstanceAs (Decidable (_ ∧ _ ∧ _ ∧ _ = []))
  | .reset | .dequeue | .peek | .change _ => isFalse id

/-- One more call. -/
def countMissed (n : ℕ) (c : Ctx) : Op → ℕ
  | .reset => 0
  | op => if EvictsNothing c op then n + 1 else n

/-- The evictions of a run that freed nothing, since its last reset. -/
def missedEvictions (c : Ctx) (ops : List Op) : ℕ := qdisc.track countMissed 0 c ops

theorem evictsNothing_iff {c : Ctx} {skb : SkBuff} (hl : Legal skb)
    (hr : ¬ (view c).Rejects hl.band) (hover : c.sch.priv.limit < c.sch.qlen + 1) :
    EvictsNothing c (.enqueue skb) ↔
      Lanes.push (view c).queues hl.band (classified skb) ((view c).victim hl.band) = [] := by
  have hadm := (admits_iff hl).mpr hr
  simp only [EvictsNothing, hadm, hover, true_and]
  rcases bitmapLowPrio_of_full hr (limit_le_of_lt_succ hover) with ⟨hlow, _, hv⟩ | ⟨hlow, _, hlt⟩
  · rw [hlow, hv]
    simp
  · rw [hlow, band2list_natCast, Lanes.push_of_ne _ _ (ne_of_gt hlt)]
    simp

/-- The counter falls behind the lists by one with every eviction that frees
nothing, and by nothing else. -/
theorem Buffer.Step.total_eq {c : Ctx} {op : Op} {e : Effect} {B' : Buffer} {n : ℕ}
    (hstep : Buffer.Step (view c) op e B')
    (h : BitVec.ofNat 32 (held c) = c.sch.qlen + BitVec.ofNat 32 n) :
    BitVec.ofNat 32 (Lanes.total B'.queues) =
      B'.qlen + BitVec.ofNat 32 (countMissed n c op) := by
  have hkeep : ∀ {skb : SkBuff}, ¬ EvictsNothing c (.enqueue skb) →
      countMissed n c (.enqueue skb) = n := fun hno => if_neg hno
  cases hstep with
  | illegal hl =>
      rw [hkeep fun h => hl h.1.1]
      exact h
  | reject hl hr =>
      rw [hkeep fun h => (admits_iff hl).mp h.1 hr]
      exact h
  | @store skb hl hr hroom =>
      rw [hkeep fun h => hroom h.2.1]
      change BitVec.ofNat 32 (Lanes.total (Lanes.push (view c).queues _ _)) = c.sch.qlen + 1 + _
      rw [Lanes.total_push, total_view, BitVec.ofNat_add, h]
      bv_omega
  | @evict skb hl hr hover =>
      rw [Buffer.qlen_store_evict, qlen_view]
      by_cases hnil : Lanes.push (view c).queues hl.band (classified skb)
          ((view c).victim hl.band) = []
      · have hmiss : countMissed n c (.enqueue skb) = n + 1 :=
          if_pos ((evictsNothing_iff hl hr hover).mpr hnil)
        rw [hmiss, Buffer.total_evict_of_eq_nil hnil, total_view, BitVec.ofNat_add,
          BitVec.ofNat_add, h, BitVec.add_assoc]
      · rw [hkeep fun h => hnil ((evictsNothing_iff hl hr hover).mp h),
          Buffer.total_evict hnil, total_view, h]
  | refuse | peek | malformed | change => exact h
  | @take m _ _ _ _ hhead =>
      have hpop := Lanes.total_pop (List.ne_nil_of_mem (List.mem_of_mem_head? hhead))
      rw [total_view] at hpop
      change BitVec.ofNat 32 (Lanes.total (Lanes.pop (view c).queues m)) =
        c.sch.qlen - 1 + BitVec.ofNat 32 n
      rw [← hpop, BitVec.ofNat_add] at h
      bv_omega
  | reset =>
      rw [Lanes.total_eq_zero_iff.mpr fun _ => rfl]
      rfl

/-- In every run from `pfab_init`, the number of packets held is the counter plus
the number of calls of `pfab_drop` since the last reset that found their band
empty, modulo 2^32. -/
theorem held_eq_qlen_add_missed {c : Ctx} (h : Started c) (ops : List Op) :
    BitVec.ofNat 32 (held (qdisc.exec c ops)) =
      (qdisc.exec c ops).sch.qlen + BitVec.ofNat 32 (missedEvictions c ops) := by
  refine Machine.track_invariant (M := qdisc)
    (J := fun n c => BitVec.ofNat 32 (held c) = c.sch.qlen + BitVec.ofNat 32 n) ?_ ?_ ops
  · intro n c op hheld
    obtain ⟨_, hstep, _⟩ := step_qdisc c op
    exact hstep.total_eq hheld
  · obtain ⟨hqlen, _, hqueues⟩ := h.fresh.1
    rw [← total_view, hqueues, Lanes.total_eq_zero_iff.mpr fun _ => rfl, ← qlen_view, hqlen]
    rfl

/-- One eviction frees nothing.  Once the lists have been drained the counter has
wrapped around. -/
theorem held_eq_qlen_add_missed_drained :
    BitVec.ofNat 32 0 =
      (qdisc.exec setup
        [configure 1 0, .enqueue (allocIpSkb 0 5), .enqueue (allocIpSkb 1 3),
          .enqueue (allocIpSkb 2 2), .dequeue, .dequeue]).sch.qlen + BitVec.ofNat 32 1 :=
  held_eq_qlen_add_missed setup_started
    [configure 1 0, .enqueue (allocIpSkb 0 5), .enqueue (allocIpSkb 1 3),
      .enqueue (allocIpSkb 2 2), .dequeue, .dequeue]

/-! ## Arrivals in front of a mark -/

namespace Buffer

variable {B B' : Buffer} {e : Effect} {skb : SkBuff} {l b : Band}

/-- An arrival in front of a marked band is stored, and no packet in front of that
band is lost for it. -/
theorem Step.before_mark (hstep : Step B (.enqueue skb) e B') (hmark : l ∈ B.marked)
    (hl : Legal skb) (hlt : hl.band < l) :
    l ∈ B'.marked ∧
      ∀ b < l, B'.queues b = B.queues b ++ ofBand b [classified skb] := by
  have hpush : ∀ b, Lanes.push B.queues hl.band (classified skb) b =
      B.queues b ++ ofBand b [classified skb] := by
    intro b
    by_cases hb : b = hl.band
    · subst hb
      have hof : ofBand hl.band [classified skb] = [classified skb] := by
        simp [ofBand, toNat_priority_classified, Legal.band]
      rw [Lanes.push_self, hof]
    · have hof : ofBand b [classified skb] = [] := by
        have hne : bandOf skb ≠ (b : ℕ) := fun heq => hb (Fin.ext heq.symm)
        simp [ofBand, toNat_priority_classified, hne]
      rw [Lanes.push_of_ne _ _ hb, hof, List.append_nil]
  cases hstep with
  | illegal h => exact absurd hl h
  | reject _ hr => exact absurd (hr.2.2 l hmark) (not_le.mpr hlt)
  | store => exact ⟨Finset.mem_insert_of_mem hmark, fun b _ => hpush b⟩
  | evict =>
      refine ⟨Finset.mem_insert_of_mem hmark, fun b hb => ?_⟩
      have hvictim : l ≤ B.victim hl.band := B.le_victim (Finset.mem_insert_of_mem hmark)
      change Lanes.pop (Lanes.push B.queues hl.band (classified skb)) (B.victim hl.band) b = _
      rw [Lanes.pop_of_ne _ _ (ne_of_lt (hb.trans_le hvictim))]
      exact hpush b

end Buffer

theorem length_ofBand_cons (b : Band) (skb : SkBuff) (skbs : List SkBuff) :
    (ofBand b (skb :: skbs)).length =
      (if skb.priority.toNat = (b : ℕ) then 1 else 0) + (ofBand b skbs).length := by
  rw [ofBand, List.filter_cons]
  by_cases h : skb.priority.toNat = (b : ℕ)
  · simp [h, ofBand, Nat.add_comm]
  · simp [h, ofBand]

/-- Every packet of legal priority belongs to one band. -/
theorem sum_length_ofBand {skbs : List SkBuff}
    (h : ∀ skb ∈ skbs, skb.priority.toNat < numBands) :
    ∑ b : Band, (ofBand b skbs).length = skbs.length := by
  induction skbs with
  | nil => simp [ofBand]
  | cons skb skbs ih =>
      obtain ⟨hskb, hskbs⟩ := List.forall_mem_cons.mp h
      have hone : ∑ b : Band, (if skb.priority.toNat = (b : ℕ) then 1 else 0) = 1 := by
        rw [Finset.sum_eq_single (⟨_, hskb⟩ : Band)]
        · exact if_pos rfl
        · intro b _ hb
          exact if_neg fun heq => hb (Fin.ext heq.symm)
        · simp
      simp only [length_ofBand_cons]
      rw [Finset.sum_add_distrib, hone, ih hskbs, List.length_cons, Nat.add_comm]

theorem queues_before_mark {c : Ctx} {l : Band} (hmark : l ∈ (view c).marked)
    {skbs : List SkBuff} (hskbs : ∀ skb ∈ skbs, bandOf skb < (l : ℕ)) {b : Band} (hb : b < l) :
    (qdisc.exec c (skbs.map .enqueue)).sch.priv.queues b =
      c.sch.priv.queues b ++ ofBand b (skbs.map classified) := by
  induction skbs generalizing c with
  | nil => simp [ofBand]
  | cons skb skbs ih =>
      obtain ⟨hskb, hrest⟩ := List.forall_mem_cons.mp hskbs
      have hl : Legal skb := hskb.trans l.isLt
      obtain ⟨_, hstep, _⟩ := step_qdisc c (.enqueue skb)
      obtain ⟨hmark', hqueue⟩ := hstep.before_mark hmark hl hskb
      rw [List.map_cons, Machine.exec_cons, ih hmark' hrest, ← queues_view, hqueue b hb,
        List.append_assoc, ofBand, ofBand, ← List.filter_append]
      rfl

/-- From any context, arrivals that are all more urgent than some marked band are
all kept: the bands in front of the mark grow by exactly their arrivals, in order,
and the packets held are at least as many as the arrivals, whatever the limit. -/
theorem kept_before_mark {c : Ctx} {l : Band} (hmark : bandBit c.sch.priv.bitmap l = true)
    (skbs : List SkBuff) (hskbs : ∀ skb ∈ skbs, bandOf skb < (l : ℕ)) :
    (∀ b < l, (qdisc.exec c (skbs.map .enqueue)).sch.priv.queues b =
        c.sch.priv.queues b ++ ofBand b (skbs.map classified)) ∧
      skbs.length ≤ held (qdisc.exec c (skbs.map .enqueue)) := by
  have hmarked : l ∈ (view c).marked := (mem_markedBands c.sch.priv.bitmap).mpr hmark
  refine ⟨fun b hb => queues_before_mark hmarked hskbs hb, ?_⟩
  have hband : ∀ skb ∈ skbs.map classified, skb.priority.toNat < (l : ℕ) := by
    intro skb hskb
    obtain ⟨skb, hmem, rfl⟩ := List.mem_map.mp hskb
    rw [toNat_priority_classified]
    exact hskbs skb hmem
  have hlane : ∀ b : Band, (ofBand b (skbs.map classified)).length ≤
      ((qdisc.exec c (skbs.map .enqueue)).sch.priv.queues b).length := by
    intro b
    by_cases hb : b < l
    · rw [queues_before_mark hmarked hskbs hb, List.length_append]
      exact Nat.le_add_left _ _
    · have hnil : ofBand b (skbs.map classified) = [] := by
        refine List.filter_eq_nil_iff.mpr fun skb hskb heq => hb ?_
        exact Fin.lt_def.mpr (of_decide_eq_true heq ▸ hband skb hskb)
      rw [hnil]
      exact Nat.zero_le _
  calc skbs.length
      = ∑ b : Band, (ofBand b (skbs.map classified)).length := by
        rw [sum_length_ofBand fun skb hskb => (hband skb hskb).trans l.isLt, List.length_map]
    _ ≤ held (qdisc.exec c (skbs.map .enqueue)) := Finset.sum_le_sum fun b _ => hlane b

/-- With room for one packet, a mark of band 5 lets three more urgent packets in. -/
theorem kept_before_mark_three :
    3 ≤ held (qdisc.exec (qdisc.exec setup [configure 1 0, .enqueue (allocIpSkb 0 5)])
      ([allocIpSkb 1 3, allocIpSkb 2 0, allocIpSkb 3 3].map .enqueue)) :=
  (kept_before_mark (l := 5) (c := qdisc.exec setup [configure 1 0, .enqueue (allocIpSkb 0 5)])
    (by decide) [allocIpSkb 1 3, allocIpSkb 2 0, allocIpSkb 3 3] (by decide)).2

end PFabric
