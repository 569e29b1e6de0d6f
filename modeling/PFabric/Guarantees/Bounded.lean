import PFabric.Guarantees.Conservation
import PFabric.Guarantees.Reference

/-!
# At the limit, the qdisc is a bounded priority queue

The lock-step with a stable priority queue, carried on past the limit.  A full
reference turns an arrival away when nothing it holds is less urgent, and otherwise
takes it in and gives up the oldest packet of the least urgent band.  The qdisc
answers every call as this reference does in the runs whose calls all keep the
bitmap and the counter exact.

What a burst of arrivals leaves behind does then not depend on its order: the bands
kept are the least ones, as many as the limit allows.
-/

namespace PFabric

/-! ## The bounded reference -/

/-- A stable priority queue with a dequeue switch and a limit. -/
structure BoundedReference where
  limit : BitVec 32
  plain : Reference

namespace BoundedReference

/-- The queue has reached the limit. -/
def Full (t : BoundedReference) : Prop := t.limit.toNat ≤ t.plain.queue.toList.length

instance (t : BoundedReference) : Decidable t.Full := inferInstanceAs (Decidable (_ ≤ _))

/-- Nothing in the queue is less urgent than the arrival. -/
def Outranks (t : BoundedReference) (skb : SkBuff) : Prop :=
  t.plain.queue.toList ≠ [] ∧ ∀ p ∈ t.plain.queue.toList, bandKey p ≤ bandOf skb

instance (t : BoundedReference) (skb : SkBuff) : Decidable (t.Outranks skb) :=
  inferInstanceAs (Decidable (_ ≠ [] ∧ ∀ _ ∈ _, _))

/-- The reference of a qdisc that holds no packet. -/
def start (c : Ctx) : BoundedReference := ⟨c.sch.priv.limit, .start c⟩

end BoundedReference

/-- The limit after a call. -/
def limitAfter (limit : BitVec 32) (op : Op) : BitVec 32 :=
  op.sets.elim limit TcPfabricQopt.limit

/-- The machine of the bounded reference.  It differs from the plain one in the
arrivals of legal priority that find it full. -/
def boundedReference : Machine BoundedReference Op Ret where
  step t op :=
    match op with
    | .enqueue skb =>
        if Legal skb ∧ t.Full then
          if t.Outranks skb then (.xmit .drop, t)
          else
            (.xmit .cn,
              { t with plain.queue := (t.plain.queue.insert (classified skb)).evictMax })
        else (reference.out t.plain op, { t with plain := reference.next t.plain op })
    | op => (reference.out t.plain op, ⟨limitAfter t.limit op, reference.next t.plain op⟩)

/-! ## One step -/

section Step

variable {c : Ctx} {t : BoundedReference} {op : Op} {e : Effect} {B' : Buffer}

theorem boundedReference_step_eq (hroom : ∀ skb, op = .enqueue skb → ¬ (Legal skb ∧ t.Full)) :
    boundedReference.out t op = reference.out t.plain op ∧
      boundedReference.next t op = ⟨limitAfter t.limit op, reference.next t.plain op⟩ := by
  cases op with
  | enqueue skb =>
      simp only [Machine.out, Machine.next, boundedReference, if_neg (hroom skb rfl)]
      exact ⟨trivial, rfl⟩
  | dequeue | peek | change | reset => exact ⟨rfl, rfl⟩

theorem Simulates.full_iff (h : Simulates c t.plain) (hlimit : c.sch.priv.limit = t.limit) :
    c.sch.priv.limit ≤ c.sch.qlen ↔ t.Full := by
  have hqlen : c.sch.qlen.toNat = Lanes.total c.sch.priv.queues := h.counted
  rw [BoundedReference.Full, ← h.queue_eq, Lanes.length_flat, ← hqlen, ← hlimit]
  exact BitVec.le_def

/-- With exact marks, the full-buffer test of `pfab_enqueue` compares the arrival
with the packets held. -/
theorem Simulates.rejects_iff (h : Simulates c t.plain) (hlimit : c.sch.priv.limit = t.limit)
    {skb : SkBuff} (hl : Legal skb) :
    (view c).Rejects hl.band ↔ t.Full ∧ t.Outranks skb := by
  have hmem : ∀ p, p ∈ t.plain.queue.toList ↔ ∃ b : Band, p ∈ c.sch.priv.queues b := by
    intro p
    simp [← h.queue_eq, Lanes.flat]
  refine and_congr (h.full_iff hlimit) (and_congr ?_ ?_)
  · rw [← h.queue_eq, ne_eq, Lanes.flat_eq_nil_iff, not_forall]
    exact exists_congr h.exact
  · constructor
    · intro hle p hp
      obtain ⟨b, hb⟩ := (hmem p).mp hp
      rw [bandKey, h.banded b p hb]
      exact hle b ((h.exact b).mpr (List.ne_nil_of_mem hb))
    · intro hle b hb
      obtain ⟨p, hp⟩ := List.exists_mem_of_ne_nil _ ((h.exact b).mp hb)
      have hkey := hle p ((hmem p).mpr ⟨b, hp⟩)
      rw [bandKey, h.banded b p hp] at hkey
      exact hkey

theorem Buffer.Step.limit_eq_limitAfter (hstep : Buffer.Step (view c) op e B') :
    B'.limit = limitAfter c.sch.priv.limit op := by
  have hlimit := congrArg TcPfabricQopt.limit hstep.options_eq
  rw [limitAfter]
  cases hsets : op.sets with
  | none =>
      rw [hsets] at hlimit
      exact hlimit
  | some qopt =>
      rw [hsets] at hlimit
      exact hlimit

/-- An eviction that keeps the marks exact gives up what the full reference does. -/
theorem Simulates.evict_eq (h : Simulates c t.plain) {skb : SkBuff} (hl : Legal skb)
    (hr : ¬ (view c).Rejects hl.band) (hfull : c.sch.priv.limit ≤ c.sch.qlen)
    (hexact : (((view c).store hl.band (classified skb)).evict
      ((view c).victim hl.band)).Exact) :
    Lanes.flat (Lanes.pop (Lanes.push c.sch.priv.queues hl.band (classified skb))
        ((view c).victim hl.band)) =
      (t.plain.queue.insert (classified skb)).evictMax.toList := by
  obtain ⟨hlt, hlen⟩ := (h.exact.evict_iff hr hfull).mp hexact
  have hpush := Lanes.flat_push_eq_insert h.queue_eq h.banded (b := hl.band)
    (toNat_priority_classified skb)
  refine Lanes.flat_pop_eq_evictMax hpush (h.banded.store hl) ?_ ?_
  · rw [Lanes.push_of_ne _ _ (ne_of_gt hlt)]
    exact List.ne_nil_of_length_pos (Nat.lt_of_lt_of_le Nat.two_pos hlen)
  · intro b hb
    by_contra hne
    have hmark := h.exact.covered.store hl.band (classified skb) b hne
    exact absurd ((view c).le_victim hmark) (not_le.mpr hb)

/-- A full buffer stores without evicting only when the counter wraps around. -/
theorem not_full_of_store {skb : SkBuff} (hl : Legal skb) (hr : ¬ (view c).Rejects hl.band)
    (hroom : ¬ c.sch.priv.limit < c.sch.qlen + 1) (hevicts : EvictsPacket c (.enqueue skb)) :
    ¬ c.sch.priv.limit ≤ c.sch.qlen := by
  intro hfull
  have hwrap := ((evictsPacket_iff hl hr hfull).mp hevicts).1
  bv_omega

/-- A step that keeps marks and counter exact is a step of the bounded reference. -/
theorem Buffer.Step.bounded_step (hstep : Buffer.Step (view c) op e B')
    (h : Simulates c t.plain) (hlimit : c.sch.priv.limit = t.limit) (hexact : B'.Exact)
    (hevicts : EvictsPacket c op) :
    e.ret = boundedReference.out t op ∧
      Lanes.flat B'.queues = (boundedReference.next t op).plain.queue.toList ∧
      B'.disableDequeue = (boundedReference.next t op).plain.disableDequeue ∧
      B'.limit = (boundedReference.next t op).limit := by
  by_cases hreset : op = .reset
  · subst hreset
    cases hstep
    exact ⟨rfl, Lanes.flat_eq_nil_iff.mpr fun _ => rfl, h.disableDequeue_eq, hlimit⟩
  by_cases hfull : ∃ skb, op = .enqueue skb ∧ Legal skb ∧ t.Full
  · obtain ⟨skb, rfl, hl, hfull⟩ := hfull
    have hfull' := (h.full_iff hlimit).mpr hfull
    simp only [Machine.out, Machine.next, boundedReference, if_pos (And.intro hl hfull)]
    cases hstep with
    | illegal hill => exact absurd hl hill
    | reject _ hr =>
        rw [if_pos ((h.rejects_iff hlimit hl).mp hr).2]
        exact ⟨rfl, h.queue_eq, h.disableDequeue_eq, hlimit⟩
    | store _ hr hroom => exact absurd hfull' (not_full_of_store hl hr hroom hevicts)
    | evict _ hr =>
        rw [if_neg fun hout => hr ((h.rejects_iff hlimit hl).mpr ⟨hfull, hout⟩)]
        exact ⟨rfl, h.evict_eq hl hr hfull' hexact, h.disableDequeue_eq, hlimit⟩
  · have hroom : ∀ skb, op = .enqueue skb → ¬ (Legal skb ∧ t.Full) :=
      fun skb hop hboth => hfull ⟨skb, hop, hboth⟩
    obtain ⟨hout, hnext⟩ := boundedReference_step_eq hroom
    obtain ⟨hret, hqueue, hswitch⟩ := hstep.reference_step h.exact h.banded h.queue_eq
      h.disableDequeue_eq (fun skb hop hl hf => hroom skb hop ⟨hl, (h.full_iff hlimit).mp hf⟩)
      hreset
    rw [hout, hnext, ← hlimit]
    exact ⟨hret, hqueue, hswitch, hstep.limit_eq_limitAfter⟩

theorem Simulates.bounded_step (h : Simulates c t.plain) (hlimit : c.sch.priv.limit = t.limit)
    (hkeeps : KeepsBandsExact c op) (hevicts : EvictsPacket c op) :
    qdisc.out c op = boundedReference.out t op ∧
      Simulates (qdisc.next c op) (boundedReference.next t op).plain ∧
      (qdisc.next c op).sch.priv.limit = (boundedReference.next t op).limit := by
  obtain ⟨_, hstep, _⟩ := step_qdisc c op
  have hexact := (hstep.exact_iff h.exact).mpr hkeeps
  obtain ⟨hret, hqueue, hswitch, hlimit'⟩ := hstep.bounded_step h hlimit hexact hevicts
  refine ⟨hret, ?_, hlimit'⟩
  exact {
    exact := hexact
    counted := (hstep.counted_iff h.counted).mpr hevicts
    banded := hstep.banded h.banded
    queue_eq := hqueue
    disableDequeue_eq := hswitch }

end Step

/-! ## Whole runs -/

/-- From `pfab_init`, in every run whose calls all keep the bitmap and the counter
exact, the qdisc answers every call as the bounded reference does, and its lists
are the reference's queue. -/
theorem lockstep_bounded_queue {c : Ctx} (h : Started c) (ops : List Op)
    (hkeeps : qdisc.Meets KeepsBandsExact c ops) (hevicts : qdisc.Meets EvictsPacket c ops) :
    qdisc.trace c ops = boundedReference.trace (.start c) ops ∧
      Lanes.flat (qdisc.exec c ops).sch.priv.queues =
        (boundedReference.exec (.start c) ops).plain.queue.toList := by
  obtain ⟨htrace, hend, _⟩ := Machine.trace_eq_of_simulation (M := qdisc) (N := boundedReference)
    (R := fun c t => Simulates c t.plain ∧ c.sch.priv.limit = t.limit)
    (fun _ _ _ hsim hC => hsim.1.bounded_step hsim.2 hC.1 hC.2)
    (t := .start c) ⟨h.simulates, rfl⟩ (hkeeps.and hevicts)
  exact ⟨htrace, hend.queue_eq⟩

/-- With room for three packets: an eviction that leaves a packet of its band, a
rejection, and what is left in order. -/
theorem lockstep_bounded_queue_at_limit :
    qdisc.trace setup
        [configure 3 0, .enqueue (allocIpSkb 0 5), .enqueue (allocIpSkb 1 5),
          .enqueue (allocIpSkb 2 4), .enqueue (allocIpSkb 3 3), .enqueue (allocIpSkb 4 5),
          .dequeue, .dequeue, .dequeue, .reset, .dequeue] =
      boundedReference.trace (.start setup)
        [configure 3 0, .enqueue (allocIpSkb 0 5), .enqueue (allocIpSkb 1 5),
          .enqueue (allocIpSkb 2 4), .enqueue (allocIpSkb 3 3), .enqueue (allocIpSkb 4 5),
          .dequeue, .dequeue, .dequeue, .reset, .dequeue] :=
  (lockstep_bounded_queue setup_started _ (by decide) (by decide)).1

/-! ## Bursts -/

/-- The bands of the packets held, in the order of service. -/
def heldBands (c : Ctx) : List ℕ := (Lanes.flat c.sch.priv.queues).map bandKey

/-- The bands of the arrivals of legal priority. -/
def legalBands (skbs : List SkBuff) : List ℕ := (skbs.filter (Legal ·)).map bandOf

theorem legalBands_cons (skb : SkBuff) (skbs : List SkBuff) :
    legalBands (skb :: skbs) = legalBands [skb] ++ legalBands skbs := by
  rw [legalBands, legalBands, legalBands, ← List.map_append, ← List.filter_append]
  rfl

theorem legalBands_of_legal {skb : SkBuff} (hl : Legal skb) :
    legalBands [skb] = [bandKey (classified skb)] := by
  simp [legalBands, hl, bandKey, toNat_priority_classified]

theorem countP_heldBands_le (c : Ctx) (x : ℕ) : (heldBands c).countP (· ≤ x) ≤ held c := by
  refine List.countP_le_length.trans (le_of_eq ?_)
  rw [heldBands, List.length_map, Lanes.length_flat]
  rfl

/-- Up to each band, an arrival that costs no packet adds itself. -/
theorem countP_of_store {c : Ctx} {skb : SkBuff} (hl : Legal skb) {n : ℕ}
    (hroom : Lanes.total (Lanes.push (view c).queues hl.band (classified skb)) ≤ n) (x : ℕ) :
    ((Lanes.flat (Lanes.push (view c).queues hl.band (classified skb))).map bandKey).countP
        (· ≤ x) =
      min n ((heldBands c).countP (· ≤ x) + (legalBands [skb]).countP (· ≤ x)) := by
  have hperm := (Lanes.flat_push_perm (view c).queues hl.band (classified skb)).map bandKey
  have hcount := hperm.countP_eq (· ≤ x)
  rw [List.map_append, List.countP_append] at hcount
  have hle := List.countP_le_length (p := (· ≤ x))
    (l := (Lanes.flat (Lanes.push (view c).queues hl.band (classified skb))).map bandKey)
  rw [List.length_map, Lanes.length_flat] at hle
  rw [legalBands_of_legal hl, hcount]
  exact (min_eq_right (hcount ▸ hle.trans hroom)).symm

/-- Up to each band, an arrival that costs a packet leaves as many as it can. -/
theorem Buffer.Step.countP_of_loss {c : Ctx} {skb y : SkBuff} {e : Effect} {B' : Buffer}
    (hstep : Buffer.Step (view c) (.enqueue skb) e B') (hl : Legal skb)
    (hcov : (view c).Covered) (hband : (view c).Banded) (hfreed : e.freed = [y]) (x : ℕ) :
    ((Lanes.flat B'.queues).map bandKey).countP (· ≤ x) =
      min (Lanes.total B'.queues)
        ((heldBands c).countP (· ≤ x) + (legalBands [skb]).countP (· ≤ x)) := by
  have hperm : (bandKey y :: (Lanes.flat B'.queues).map bandKey).Perm
      (heldBands c ++ legalBands [skb]) := by
    have hconserves := hstep.conserves.map bandKey
    simp only [hfreed, List.map_append] at hconserves
    rw [legalBands_of_legal hl]
    exact List.perm_append_comm.trans hconserves
  have hmax : ∀ k ∈ (Lanes.flat B'.queues).map bandKey, k ≤ bandKey y := by
    intro k hk
    obtain ⟨p, hp, rfl⟩ := List.mem_map.mp hk
    obtain ⟨b, _, hb⟩ := List.mem_flatMap.mp hp
    rw [bandKey, hstep.banded hband b p hb]
    exact (hstep.loss hl hcov hband hfreed).1 b (List.ne_nil_of_mem hb)
  rw [countP_le_of_perm_cons hperm hmax, List.length_map, Lanes.length_flat, List.countP_append]

/-- Up to each band, an arrival leaves as many packets as the limit allows. -/
theorem Buffer.Step.countP_heldBands {c : Ctx} {skb : SkBuff} {e : Effect} {B' : Buffer}
    (hstep : Buffer.Step (view c) (.enqueue skb) e B') (hcov : (view c).Covered)
    (hband : (view c).Banded) (hcounted : (view c).Counted) (hwithin : WithinLimit c)
    (hevicts : EvictsPacket c (.enqueue skb)) (x : ℕ) :
    ((Lanes.flat B'.queues).map bandKey).countP (· ≤ x) =
      min c.sch.priv.limit.toNat
        ((heldBands c).countP (· ≤ x) + (legalBands [skb]).countP (· ≤ x)) := by
  have hqlen : c.sch.qlen.toNat = held c := hcounted
  have hheld : held c ≤ c.sch.priv.limit.toNat := hwithin
  have hfullsize : c.sch.priv.limit ≤ c.sch.qlen → held c = c.sch.priv.limit.toNat := by
    intro hfull
    have hfull' := BitVec.le_def.mp hfull
    omega
  have hloss := fun y hl hfreed => hstep.countP_of_loss (y := y) hl hcov hband hfreed x
  cases hstep with
  | illegal hl =>
      have hle := (countP_heldBands_le c x).trans hheld
      have hnone : legalBands [skb] = [] := by simp [legalBands, hl]
      rw [hnone, List.countP_nil, Nat.add_zero, min_eq_right hle]
      rfl
  | reject hl hr =>
      rw [hloss _ hl rfl, total_view, hfullsize hr.1]
  | store hl hr hroom =>
      refine countP_of_store hl ?_ x
      have hlt := BitVec.lt_def.mp (BitVec.not_le.mp (not_full_of_store hl hr hroom hevicts))
      rw [Lanes.total_push, total_view]
      omega
  | evict hl hr hover =>
      have hfull := limit_le_of_lt_succ hover
      have hne := ((evictsPacket_iff hl hr hfull).mp hevicts).2
      obtain ⟨y, rest, hcons⟩ := List.exists_cons_of_ne_nil hne
      have hfreed : (Lanes.push (view c).queues hl.band (classified skb)
          ((view c).victim hl.band)).head?.toList = [y] := by
        rw [hcons]
        rfl
      rw [hloss y hl hfreed, Buffer.total_evict hne, total_view, hfullsize hfull]

/-- After a burst from a state with an exact counter, up to each band. -/
theorem countP_heldBands_burst {c : Ctx} (hcov : (view c).Covered) (hband : (view c).Banded)
    (hcounted : (view c).Counted) (hwithin : WithinLimit c) {skbs : List SkBuff}
    (hevicts : qdisc.Meets EvictsPacket c (skbs.map .enqueue)) (x : ℕ) :
    (heldBands (qdisc.exec c (skbs.map .enqueue))).countP (· ≤ x) =
      min c.sch.priv.limit.toNat
        ((heldBands c).countP (· ≤ x) + (legalBands skbs).countP (· ≤ x)) := by
  induction skbs generalizing c with
  | nil =>
      have hle := (countP_heldBands_le c x).trans hwithin
      exact (min_eq_right hle).symm
  | cons skb skbs ih =>
      obtain ⟨hevict, hrest⟩ := hevicts
      obtain ⟨_, hstep, _⟩ := step_qdisc c (.enqueue skb)
      have hlimit : (qdisc.next c (.enqueue skb)).sch.priv.limit = c.sch.priv.limit :=
        hstep.limit_eq (by simp)
      have hone : (heldBands (qdisc.next c (.enqueue skb))).countP (· ≤ x) = _ :=
        hstep.countP_heldBands hcov hband hcounted hwithin hevict x
      rw [List.map_cons, Machine.exec_cons, ih (hstep.covered hcov) (hstep.banded hband)
        ((hstep.counted_iff hcounted).mpr hevict)
        (withinLimit_next hcounted hwithin hevict trivial) hrest, hone, hlimit,
        legalBands_cons skb skbs, List.countP_append]
      omega

/-- A burst of arrivals, in any order and of any length, leaves the most urgent of
the packets held before and the arrivals of legal priority, as many as the limit
allows, provided the counter stays exact. -/
theorem heldBands_burst {c : Ctx} (h : Started c) (ops : List Op)
    (hwithin : WithinLimit (qdisc.exec c ops)) (skbs : List SkBuff)
    (hevicts : qdisc.Meets EvictsPacket c (ops ++ skbs.map .enqueue)) :
    heldBands (qdisc.exec c (ops ++ skbs.map .enqueue)) =
      ((heldBands (qdisc.exec c ops) ++ legalBands skbs).insertionSort (· ≤ ·)).take
        (qdisc.exec c ops).sch.priv.limit.toNat := by
  obtain ⟨hops, hburst⟩ := Machine.meets_append.mp hevicts
  have hcounted : (view (qdisc.exec c ops)).Counted := by
    refine (Machine.always_of_meets (I := fun c => (view c).Counted) ?_ h.fresh.1.counted hops).last
    intro c op hc hevict
    obtain ⟨_, hstep, _⟩ := step_qdisc c op
    exact (hstep.counted_iff hc).mpr hevict
  refine eq_of_countP_le_eq (Lanes.pairwise_flat (h.banded _))
    ((List.pairwise_insertionSort _ _).sublist (List.take_sublist _ _)) fun x => ?_
  rw [countP_le_take (List.pairwise_insertionSort _ _), (List.perm_insertionSort _ _).countP_eq,
    List.countP_append, Machine.exec_append]
  exact countP_heldBands_burst (h.covered ops) (h.banded ops) hcounted hwithin hburst x

/-- Five arrivals for three places, the least urgent ones first. -/
theorem heldBands_burst_five :
    heldBands (qdisc.exec setup ([configure 3 0] ++
        [allocIpSkb 0 7, allocIpSkb 1 7, allocIpSkb 2 4, allocIpSkb 3 40,
          allocIpSkb 4 2].map .enqueue)) =
      [2, 4, 7] :=
  heldBands_burst setup_started [configure 3 0] (by rw [WithinLimit]; decide)
    [allocIpSkb 0 7, allocIpSkb 1 7, allocIpSkb 2 4, allocIpSkb 3 40, allocIpSkb 4 2] (by decide)

end PFabric
