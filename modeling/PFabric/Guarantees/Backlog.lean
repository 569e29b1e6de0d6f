import PFabric.Buffer.Steps

/-!
# The byte backlog

The list helpers keep `sch->qstats.backlog` by adding the length of a packet
they link in and subtracting that of a packet they take out.  `pfab_reset` sets
it to 0 by hand.  It is the number of bytes held, up to the wrap of its 32 bits.
-/

namespace PFabric

/-- The number of bytes in a bank of packet lists. -/
def bytesIn (queues : Band → List SkBuff) : ℕ :=
  ((Lanes.flat queues).map fun skb => skb.pktLen.toNat).sum

theorem bytesIn_eq_sum (queues : Band → List SkBuff) :
    bytesIn queues = ∑ b : Band, ((queues b).map fun skb => skb.pktLen.toNat).sum := by
  rw [bytesIn, Lanes.flat, List.map_flatMap, List.flatMap, List.sum_flatten, List.map_map,
    Fin.sum_univ_def]
  rfl

theorem bytesIn_push (queues : Band → List SkBuff) (list : Band) (skb : SkBuff) :
    bytesIn (Lanes.push queues list skb) = bytesIn queues + skb.pktLen.toNat := by
  have hperm := Lanes.flat_push_perm queues list skb
  have hsum := (hperm.map fun skb => skb.pktLen.toNat).sum_eq
  rw [List.map_append, List.sum_append, List.map_singleton, List.sum_singleton] at hsum
  exact hsum

theorem bytesIn_pop {queues : Band → List SkBuff} {list : Band} {skb : SkBuff}
    {rest : List SkBuff} (h : queues list = skb :: rest) :
    bytesIn queues = skb.pktLen.toNat + bytesIn (Lanes.pop queues list) := by
  have hsum := ((Lanes.flat_pop_perm h).map fun skb => skb.pktLen.toNat).sum_eq
  rw [List.map_cons, List.sum_cons] at hsum
  exact hsum

theorem bytesIn_nil : bytesIn (fun _ => []) = 0 := by
  have hflat : Lanes.flat (fun _ : Band => ([] : List SkBuff)) = [] :=
    Lanes.flat_eq_nil_iff.mpr fun _ => rfl
  rw [bytesIn, hflat]
  rfl

/-- The backlog is the number of bytes held in all band lists, modulo the size
of the counter. -/
def BacklogExact (c : Ctx) : Prop :=
  c.sch.qstats.backlog.toNat = bytesIn c.sch.priv.queues % 2 ^ 32

variable {c : Ctx}

/-! ## What each function does to the backlog -/

theorem BacklogExact.qdiscEnqueueTail (h : BacklogExact c) (skb : SkBuff) (list : Band) :
    BacklogExact (qdiscEnqueueTail skb list c) := by
  have hpush := bytesIn_push c.sch.priv.queues list skb
  change (c.sch.qstats.backlog + skb.pktLen).toNat =
    bytesIn (Lanes.push c.sch.priv.queues list skb) % 2 ^ 32
  rw [hpush, BitVec.toNat_add, h, Nat.mod_add_mod]

/-- Taking a packet out gives back what linking it in has added. -/
theorem toNat_backlog_sub (h : BacklogExact c) {list : Band} {skb : SkBuff}
    {rest : List SkBuff} (hlist : c.sch.priv.queues list = skb :: rest) :
    (c.sch.qstats.backlog - skb.pktLen).toNat =
      bytesIn (Function.update c.sch.priv.queues list rest) % 2 ^ 32 := by
  have hpop := bytesIn_pop hlist
  rw [Lanes.pop, hlist, List.tail_cons] at hpop
  have hbacklog : c.sch.qstats.backlog.toNat = bytesIn c.sch.priv.queues % 2 ^ 32 := h
  bv_omega

theorem BacklogExact.qdiscDequeueHead (h : BacklogExact c) (list : Band) :
    BacklogExact (qdiscDequeueHead list c).2 := by
  unfold PFabric.qdiscDequeueHead
  split
  · exact h
  · next skb rest hlist => exact toNat_backlog_sub h hlist

theorem BacklogExact.qdiscQueueDropHead (h : BacklogExact c) (list : Band) :
    BacklogExact (qdiscQueueDropHead list c).2 := by
  unfold PFabric.qdiscQueueDropHead
  split
  · exact h
  · next skb rest hlist => exact toNat_backlog_sub h hlist

theorem BacklogExact.pfabDrop (h : BacklogExact c) : BacklogExact (pfabDrop c).2 := by
  unfold PFabric.pfabDrop
  dsimp only
  split_ifs
  · exact h
  · exact h.qdiscQueueDropHead _

theorem BacklogExact.acceptSkb (h : BacklogExact c) (skb : SkBuff) :
    BacklogExact (acceptSkb skb c).2 := by
  have hstore : BacklogExact (storeSkb skb c) := BacklogExact.qdiscEnqueueTail h skb _
  rcases acceptSkb_cases skb c with heq | heq
  · rw [heq]
    exact hstore
  · rw [heq]
    exact hstore.pfabDrop

theorem BacklogExact.countNonIp (h : BacklogExact c) (skb : SkBuff) :
    BacklogExact (countNonIp skb c) := by
  rw [BacklogExact, countNonIp_sch]
  exact h

theorem BacklogExact.pfabEnqueue (h : BacklogExact c) (skb : SkBuff) :
    BacklogExact (pfabEnqueue skb c).2 := by
  have hcount := h.countNonIp skb
  rcases pfabEnqueue_cases skb c with ⟨-, heq⟩ | ⟨hl, ⟨-, heq⟩ | ⟨-, heq⟩⟩
  · rw [heq]
    exact hcount
  · rw [heq]
    exact hcount
  · rw [heq]
    exact BacklogExact.acceptSkb (c := countBand _ _) hcount _

theorem BacklogExact.pfabDequeue (h : BacklogExact c) : BacklogExact (pfabDequeue c).2 := by
  rcases pfabDequeue_cases c with heq | ⟨band, skb, heq⟩
  · rw [heq]
    exact h
  · obtain ⟨_, _, _, hdepart⟩ :=
      exists_departSkb_eq band (PFabric.qdiscDequeueHead (band2list band) c).2
    rw [heq, hdepart]
    exact h.qdiscDequeueHead (band2list band)

theorem BacklogExact.pfabChange (h : BacklogExact c) (opt : Option Nlattr) :
    BacklogExact (pfabChange opt c).2 := by
  rcases pfabChange_cases opt c with heq | ⟨qopt, heq⟩
  · rw [heq]
    exact h
  · rw [heq]
    exact h

theorem backlogExact_pfabReset (c : Ctx) : BacklogExact (pfabReset c) := by
  have hqueues : (pfabReset c).sch.priv.queues = fun _ => [] :=
    congrArg Buffer.queues (realizes_pfabReset c).view_eq
  rw [BacklogExact, hqueues, bytesIn_nil]
  rfl

/-! ## Every run -/

theorem BacklogExact.next (h : BacklogExact c) (op : Op) :
    BacklogExact (qdisc.next c op) := by
  cases op with
  | enqueue skb => exact h.pfabEnqueue skb
  | dequeue => exact h.pfabDequeue
  | peek => exact h
  | change opt => exact h.pfabChange opt
  | reset => exact backlogExact_pfabReset c

theorem Started.backlogExact (h : Started c) : BacklogExact c := by
  refine h.rule (fun c opt hc => hc.pfabChange opt) (fun c kern _ _ hc => hc) ?_
  intro kern
  have hqueues : (cleared ⟨Qdisc.alloc, kern⟩).sch.priv.queues = fun _ => [] := rfl
  rw [BacklogExact, hqueues, bytesIn_nil]
  rfl

/-- In every reachable state the backlog is the number of bytes held, modulo
`2 ^ 32`. -/
theorem backlog_eq_bytes_held (h : Started c) (ops : List Op) :
    (qdisc.exec c ops).sch.qstats.backlog.toNat =
      (∑ b : Band, (((qdisc.exec c ops).sch.priv.queues b).map
        fun skb => skb.pktLen.toNat).sum) % 2 ^ 32 := by
  have hexact : BacklogExact (qdisc.exec c ops) := by
    refine Machine.exec_invariant (M := qdisc) ?_ h.backlogExact ops
    intro c op hc
    exact hc.next op
  rw [hexact, bytesIn_eq_sum]

theorem backlog_after_eviction :
    (qdisc.exec setup [configure 1 0, .enqueue (allocIpSkb 0 3),
        .enqueue (allocIpSkb 1 2)]).sch.qstats.backlog.toNat =
      (∑ b : Band, (((qdisc.exec setup [configure 1 0, .enqueue (allocIpSkb 0 3),
        .enqueue (allocIpSkb 1 2)]).sch.priv.queues b).map
          fun skb => skb.pktLen.toNat).sum) % 2 ^ 32 :=
  backlog_eq_bytes_held setup_started _

end PFabric
