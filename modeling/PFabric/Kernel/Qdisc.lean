import PFabric.Kernel.Bitmap
import PFabric.Kernel.Stats

/-!
# The operations of the pFabric qdisc

The functions of `sch_pfab.c`, with the list helpers of `net/sch_generic.h`
they call.  A pointer to a band list is the index of that list, and every
function takes and returns the whole context it runs in.
-/

namespace PFabric

/-! ## Kernel helpers -/

/-- `kfree_skb`. -/
def kfreeSkb (skb : SkBuff) (c : Ctx) : Ctx :=
  { c with kern.freed := c.kern.freed ++ [skb] }

/-- `qdisc_drop`: free the packet and count it. -/
def qdiscDrop (skb : SkBuff) (c : Ctx) : NetXmit × Ctx :=
  let c := kfreeSkb skb c
  (.drop, { c with sch.qstats.drops := c.sch.qstats.drops + 1 })

/-- Replace one band list. -/
def setQueue (list : Band) (skbs : List SkBuff) (c : Ctx) : Ctx :=
  { c with sch.priv.queues := Function.update c.sch.priv.queues list skbs }

/-- `__qdisc_enqueue_tail`. -/
def qdiscEnqueueTail (skb : SkBuff) (list : Band) (c : Ctx) : Ctx :=
  let c := setQueue list (c.sch.priv.queues list ++ [skb]) c
  { c with sch.qstats.backlog := c.sch.qstats.backlog + skb.pktLen }

/-- `__qdisc_dequeue_head`. -/
def qdiscDequeueHead (list : Band) (c : Ctx) : Option SkBuff × Ctx :=
  match c.sch.priv.queues list with
  | [] => (none, c)
  | skb :: rest =>
      let c := setQueue list rest c
      (some skb, { c with sch.qstats.backlog := c.sch.qstats.backlog - skb.pktLen })

theorem exists_qdiscDequeueHead_eq (list : Band) (c : Ctx) :
    ∃ queues backlog, (qdiscDequeueHead list c).2 =
      { c with sch.priv.queues := queues, sch.qstats.backlog := backlog } := by
  unfold qdiscDequeueHead
  split
  · exact ⟨_, _, rfl⟩
  · exact ⟨_, _, rfl⟩

theorem qdiscDequeueHead_of_none {list : Band} {c : Ctx} (h : (qdiscDequeueHead list c).1 = none) :
    (qdiscDequeueHead list c).2 = c := by
  unfold qdiscDequeueHead at h ⊢
  split at h
  · rfl
  · exact absurd h (Option.some_ne_none _)

/-- `__qdisc_queue_drop_head`: the length of the freed packet, 0 if there is
none. -/
def qdiscQueueDropHead (list : Band) (c : Ctx) : BitVec 32 × Ctx :=
  match c.sch.priv.queues list with
  | [] => (0, c)
  | skb :: rest =>
      let c := setQueue list rest c
      let c := { c with sch.qstats.backlog := c.sch.qstats.backlog - skb.pktLen }
      (skb.pktLen, kfreeSkb skb c)

theorem exists_qdiscQueueDropHead_eq (list : Band) (c : Ctx) :
    ∃ queues backlog freed, (qdiscQueueDropHead list c).2 =
      { c with
        sch.priv.queues := queues
        sch.qstats.backlog := backlog
        kern.freed := freed } := by
  unfold qdiscQueueDropHead
  split
  · exact ⟨_, _, _, rfl⟩
  · exact ⟨_, _, _, rfl⟩

/-- `__qdisc_reset_queue` and `skb_queue_purge`: free a whole list. -/
def skbQueuePurge (list : Band) (c : Ctx) : Ctx :=
  let purged := c.sch.priv.queues list
  let c := setQueue list [] c
  { c with kern.freed := c.kern.freed ++ purged }

/-- Purging a duplicate-free sequence of lists empties exactly these and frees
their packets in order. -/
theorem foldl_skbQueuePurge (lists : List Band) (hnodup : lists.Nodup) (c : Ctx) :
    lists.foldl (fun c prio => skbQueuePurge prio c) c =
      { c with
        sch.priv.queues := fun b => if b ∈ lists then [] else c.sch.priv.queues b
        kern.freed := c.kern.freed ++ lists.flatMap c.sch.priv.queues } := by
  induction lists generalizing c with
  | nil => simp
  | cons l lists ih =>
      obtain ⟨hl, hrest⟩ := List.nodup_cons.mp hnodup
      have hothers : lists.flatMap (skbQueuePurge l c).sch.priv.queues =
          lists.flatMap c.sch.priv.queues :=
        List.flatMap_congr fun b hb =>
          Function.update_of_ne (ne_of_mem_of_not_mem hb hl) _ _
      have hqueues : (fun b => if b ∈ lists then [] else (skbQueuePurge l c).sch.priv.queues b) =
          fun b => if b ∈ l :: lists then [] else c.sch.priv.queues b := by
        funext b
        by_cases hbl : b = l
        · subst hbl
          simp [hl, skbQueuePurge, setQueue]
        · simp [hbl, skbQueuePurge, setQueue]
      rw [List.foldl_cons, ih hrest, hqueues, hothers]
      simp [skbQueuePurge, setQueue]

/-- The loop over all lists, as `pfab_reset` and `pfab_destroy` have it. -/
theorem purgeAll_eq (c : Ctx) :
    (List.finRange numBands).foldl (fun c prio => skbQueuePurge prio c) c =
      { c with
        sch.priv.queues := fun _ => []
        kern.freed := c.kern.freed ++ (List.finRange numBands).flatMap c.sch.priv.queues } := by
  rw [foldl_skbQueuePurge _ (List.nodup_finRange numBands)]
  simp only [List.mem_finRange, if_true]

/-! ## Classification -/

/-- `get_skb_priority`: the TOS byte, or `-1` for a frame too short to be IP. -/
def getSkbPriority (skb : SkBuff) : ℤ :=
  if skb.len < ethHeaderLen + ipHeaderLen then -1 else skb.tos.toNat

/-- The band `pfab_enqueue` assigns: all other types are let through in 0. -/
def skbBand (skb : SkBuff) : ℤ :=
  if getSkbPriority skb < 0 then 0 else getSkbPriority skb

/-- The packet with `skb->priority` set to its band. -/
def classified (skb : SkBuff) : SkBuff :=
  { skb with priority := BitVec.ofInt 32 (skbBand skb) }

/-- `band2list`.  Only bands below `NUM_BANDS` are ever passed; the reduction
modulo the array size makes the index total. -/
def band2list (band : ℤ) : Band := Fin.ofNat numBands band.toNat

/-! ## Enqueue -/

/-- Count a frame that is not an IP packet. -/
def countNonIp (skb : SkBuff) (c : Ctx) : Ctx :=
  if getSkbPriority skb < 0 then
    { c with
      kern.pfabStats.nonIpPacketCounter :=
        c.kern.pfabStats.nonIpPacketCounter + 1 }
  else c

theorem exists_countNonIp_eq (skb : SkBuff) (c : Ctx) :
    ∃ counter, countNonIp skb c = { c with kern.pfabStats.nonIpPacketCounter := counter } := by
  unfold countNonIp
  split_ifs
  · exact ⟨_, rfl⟩
  · exact ⟨_, rfl⟩

@[simp] theorem countNonIp_sch (skb : SkBuff) (c : Ctx) : (countNonIp skb c).sch = c.sch := by
  obtain ⟨counter, heq⟩ := exists_countNonIp_eq skb c
  rw [heq]

/-- `++pfab_stats.illegal_prio_occurance`. -/
def countIllegalPrio (c : Ctx) : Ctx :=
  { c with
    kern.pfabStats.illegalPrioOccurance :=
      c.kern.pfabStats.illegalPrioOccurance + 1 }

/-- `++pfab_stats.per_band_packet_counter[band]`. -/
def countBand (band : Band) (c : Ctx) : Ctx :=
  let counter := c.kern.pfabStats.perBandPacketCounter
  { c with
    kern.pfabStats.perBandPacketCounter :=
      Function.update counter band (counter band + 1) }

@[simp] theorem countBand_sch (band : Band) (c : Ctx) : (countBand band c).sch = c.sch :=
  rfl

/-- The part of `pfab_enqueue` that appends the packet to its band: mark the
band, count the packet, link it in. -/
def storeSkb (skb : SkBuff) (c : Ctx) : Ctx :=
  let band := skb.priority.toInt
  let maps := bitmapAddBand c.sch.priv.bitmap c.kern.pfabStats.bitmap band
  let c := { c with sch.priv.bitmap := maps.1, kern.pfabStats.bitmap := maps.2 }
  let c := { c with sch.qlen := c.sch.qlen + 1 }
  let c := { c with
    kern.pfabStats.tcStats.bytes :=
      c.kern.pfabStats.tcStats.bytes + BitVec.ofNat 64 skb.len
    kern.pfabStats.tcStats.packets := c.kern.pfabStats.tcStats.packets + 1 }
  qdiscEnqueueTail skb (band2list band) c

/-- `pfab_drop`: evict the head of the least urgent marked band.  The failure
value `-1` is returned as an `unsigned int`. -/
def pfabDrop (c : Ctx) : BitVec 32 × Ctx :=
  let band := bitmapLowPrio c.sch.priv.bitmap
  if band < 0 then (-1, c)
  else
    let r := qdiscQueueDropHead (band2list band) c
    let c := r.2
    let c := { c with
      sch.qlen := c.sch.qlen - 1
      sch.qstats.drops := c.sch.qstats.drops + 1
      kern.pfabStats.tcStats.drops := c.kern.pfabStats.tcStats.drops + 1 }
    (r.1, c)

/-- All that `pfab_drop` writes to. -/
theorem exists_pfabDrop_eq (c : Ctx) :
    ∃ queues qlen qstats freed drops, (pfabDrop c).2 =
      { c with
        sch.priv.queues := queues
        sch.qlen := qlen
        sch.qstats := qstats
        kern.freed := freed
        kern.pfabStats.tcStats.drops := drops } := by
  unfold pfabDrop
  dsimp only
  split_ifs
  · exact ⟨_, _, _, _, _, rfl⟩
  · obtain ⟨queues, backlog, freed, heq⟩ :=
      exists_qdiscQueueDropHead_eq (band2list (bitmapLowPrio c.sch.priv.bitmap)) c
    rw [heq]
    exact ⟨_, _, _, _, _, rfl⟩

/-- The second half of `pfab_enqueue`: append the packet, then drop one if the
buffer limit is exceeded. -/
def acceptSkb (skb : SkBuff) (c : Ctx) : NetXmit × Ctx :=
  let c := storeSkb skb c
  if c.sch.priv.limit < c.sch.qlen then
    let r := pfabDrop c
    -- the returned length is stored in an `int` and tested for failure
    if r.1.toInt < 0 then (.success, r.2) else (.cn, r.2)
  else (.success, c)

theorem acceptSkb_cases (skb : SkBuff) (c : Ctx) :
    (acceptSkb skb c).2 = storeSkb skb c ∨ (acceptSkb skb c).2 = (pfabDrop (storeSkb skb c)).2 := by
  unfold acceptSkb
  dsimp only
  split_ifs
  · exact Or.inr rfl
  · exact Or.inr rfl
  · exact Or.inl rfl

/-- What may differ after the packet has been appended. -/
theorem exists_acceptSkb_eq (skb : SkBuff) (c : Ctx) :
    ∃ queues qlen qstats freed drops, (acceptSkb skb c).2 =
      { storeSkb skb c with
        sch.priv.queues := queues
        sch.qlen := qlen
        sch.qstats := qstats
        kern.freed := freed
        kern.pfabStats.tcStats.drops := drops } := by
  rcases acceptSkb_cases skb c with heq | heq
  · rw [heq]
    exact ⟨_, _, _, _, _, rfl⟩
  · rw [heq]
    exact exists_pfabDrop_eq _

/-- `pfab_enqueue`. -/
def pfabEnqueue (skb : SkBuff) (c : Ctx) : NetXmit × Ctx :=
  let c := countNonIp skb c
  let skb := classified skb
  -- the source also tests `skb->priority < 0`, which no unsigned value meets
  if numBands ≤ skb.priority.toNat then
    qdiscDrop skb (countIllegalPrio c)
  else
    let c := countBand (band2list skb.priority.toInt) c
    let band := bitmapLowPrio c.sch.priv.bitmap
    if c.sch.priv.limit ≤ c.sch.qlen ∧ 0 ≤ band ∧ band ≤ skb.priority.toNat then
      qdiscDrop skb c
    else acceptSkb skb c

/-! ## Dequeue and peek -/

/-- The end of `pfab_dequeue`, after a packet has left the list of `band`:
count it out and unmark the band if the list has become empty. -/
def departSkb (band : ℤ) (c : Ctx) : Ctx :=
  let c := { c with sch.qlen := c.sch.qlen - 1 }
  if c.sch.priv.queues (band2list band) = [] then
    let maps := bitmapRemoveBand c.sch.priv.bitmap c.kern.pfabStats.bitmap band
    { c with sch.priv.bitmap := maps.1, kern.pfabStats.bitmap := maps.2 }
  else c

theorem exists_departSkb_eq (band : ℤ) (c : Ctx) :
    ∃ qlen bitmap shown, departSkb band c =
      { c with
        sch.qlen := qlen
        sch.priv.bitmap := bitmap
        kern.pfabStats.bitmap := shown } := by
  unfold departSkb
  dsimp only
  split_ifs
  · exact ⟨_, _, _, rfl⟩
  · exact ⟨_, _, _, rfl⟩

/-- `pfab_dequeue`. -/
def pfabDequeue (c : Ctx) : Option SkBuff × Ctx :=
  if c.sch.priv.disableDequeue ≠ 0 then (none, c)
  else
    let band := bitmapHighPrio c.sch.priv.bitmap
    if band < 0 then (none, c)
    else
      let r := qdiscDequeueHead (band2list band) c
      match r.1 with
      | none => (none, r.2)
      | some skb => (some skb, departSkb band r.2)

/-- A departure returns no packet and changes nothing, or takes one out. -/
theorem pfabDequeue_cases (c : Ctx) :
    pfabDequeue c = (none, c) ∨
      ∃ band skb, pfabDequeue c =
        (some skb, departSkb band (qdiscDequeueHead (band2list band) c).2) := by
  unfold pfabDequeue
  dsimp only
  split_ifs
  · exact Or.inl rfl
  · exact Or.inl rfl
  · split
    · next hnone => exact Or.inl (congrArg _ (qdiscDequeueHead_of_none hnone))
    · exact Or.inr ⟨_, _, rfl⟩

/-- All that `pfab_dequeue` writes to. -/
theorem exists_pfabDequeue_eq (c : Ctx) :
    ∃ queues backlog qlen bitmap shown, (pfabDequeue c).2 =
      { c with
        sch.priv.queues := queues
        sch.qstats.backlog := backlog
        sch.qlen := qlen
        sch.priv.bitmap := bitmap
        kern.pfabStats.bitmap := shown } := by
  rcases pfabDequeue_cases c with heq | ⟨band, skb, heq⟩
  · rw [heq]
    exact ⟨_, _, _, _, _, rfl⟩
  · obtain ⟨queues, backlog, hhead⟩ := exists_qdiscDequeueHead_eq (band2list band) c
    obtain ⟨qlen, bitmap, shown, hdepart⟩ :=
      exists_departSkb_eq band (qdiscDequeueHead (band2list band) c).2
    rw [heq, hdepart, hhead]
    exact ⟨_, _, _, _, _, rfl⟩

/-- `pfab_peek`. -/
def pfabPeek (c : Ctx) : Option SkBuff :=
  let band := bitmapHighPrio c.sch.priv.bitmap
  if band < 0 then none
  else (c.sch.priv.queues (band2list band)).head?

/-! ## Configuration and life cycle -/

/-- `pfab_change`. -/
def pfabChange (opt : Option Nlattr) (c : Ctx) : ℤ × Ctx :=
  match opt with
  | none => (-einval, c)
  | some opt =>
      if opt.payload.length < sizeofQopt then (-einval, c)
      else
        (0, { c with
          sch.priv.limit := opt.qopt.limit
          sch.priv.disableDequeue := opt.qopt.disableDequeue
          kern.pfabStats.limit := opt.qopt.limit
          kern.pfabStats.disableDequeue := opt.qopt.disableDequeue })

theorem pfabChange_cases (opt : Option Nlattr) (c : Ctx) :
    (pfabChange opt c).2 = c ∨
      ∃ qopt : TcPfabricQopt, (pfabChange opt c).2 =
        { c with
          sch.priv.limit := qopt.limit
          sch.priv.disableDequeue := qopt.disableDequeue
          kern.pfabStats.limit := qopt.limit
          kern.pfabStats.disableDequeue := qopt.disableDequeue } := by
  unfold pfabChange
  split
  · exact Or.inl rfl
  · split_ifs
    · exact Or.inl rfl
    · exact Or.inr ⟨_, rfl⟩

/-- The statistics as `pfab_init` and `pfab_reset` leave them. -/
def initialStats : PfabStatData :=
  { PfabStatData.zero with limit := defaultLimit, disableDequeue := 0 }

/-- `pfab_init` on the device `dev`; `created` is as in `pfabStatsInit`. -/
def pfabInit (opt : Option Nlattr) (dev : String) (created : String → Bool)
    (c : Ctx) : ℤ × Ctx :=
  let c := (List.finRange numBands).foldl (fun c i => setQueue i [] c) c
  let c := { c with
    sch.priv.bitmap := fun _ => 0
    sch.priv.limit := defaultLimit
    sch.priv.disableDequeue := 0
    kern.pfabStats := initialStats }
  let r := if opt.isSome then pfabChange opt c else (0, c)
  if r.1 < 0 then r
  else
    let s := pfabStatsInit dev created r.2.kern
    (s.1, { r.2 with kern := s.2 })

/-- `pfab_reset`. -/
def pfabReset (c : Ctx) : Ctx :=
  let c := (List.finRange numBands).foldl (fun c prio => skbQueuePurge prio c) c
  { c with
    sch.qstats.backlog := 0
    sch.qlen := 0
    kern.pfabStats := initialStats }

/-- `pfab_destroy` on the device `dev`. -/
def pfabDestroy (dev : String) (c : Ctx) : Ctx :=
  let c := (List.finRange numBands).foldl (fun c prio => skbQueuePurge prio c) c
  { c with kern := pfabStatsExit dev c.kern }

end PFabric
