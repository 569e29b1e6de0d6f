import PFabric.Guarantees.Classification
import PFabric.Guarantees.CsvReport
import PFabric.Guarantees.Diagnostics
import PFabric.Kernel.Module

/-!
# What the shared statistics mean

There is one `pfab_stats` for all qdiscs.  Its numbers are what an outsider would
count who sees the requests to the module and its answers, on all devices together,
and who starts over at every `pfab_init`, failed ones included, and at every
`pfab_reset`.  The shown limit and switch are those last set on any device since
then, or the defaults.
-/

namespace PFabric

/-! ## The outsider's count -/

/-- What an outsider counts. -/
structure Ledger where
  limit : BitVec 32
  disableDequeue : BitVec 32
  stored : ℕ
  bytes : ℕ
  evictions : ℕ
  perBand : Band → ℕ
  nonIp : ℕ
  illegal : ℕ

namespace Ledger

/-- Nothing counted yet, under the given options. -/
def fresh (qopt : TcPfabricQopt) : Ledger :=
  ⟨qopt.limit, qopt.disableDequeue, 0, 0, 0, fun _ => 0, 0, 0⟩

/-- An arrival and its verdict. -/
def arrive (l : Ledger) (skb : SkBuff) (verdict : NetXmit) : Ledger :=
  { l with
    stored := l.stored + if verdict = .drop then 0 else 1
    bytes := l.bytes + if verdict = .drop then 0 else skb.len
    evictions := l.evictions + if verdict = .cn then 1 else 0
    perBand := fun band => l.perBand band + if (band : ℕ) = bandOf skb then 1 else 0
    nonIp := l.nonIp + if skb.len < ethHeaderLen + ipHeaderLen then 1 else 0
    illegal := l.illegal + if Legal skb then 0 else 1 }

/-- One request and its answer. -/
def record (l : Ledger) : Request → Answer → Ledger
  | .init _ opt _, _ => fresh (initialOptions opt)
  | .call _ (.enqueue skb), .call (.xmit verdict) => l.arrive skb verdict
  | .call _ (.change (some attr)), .call (.code errno) =>
      if errno = 0 then
        { l with limit := attr.qopt.limit, disableDequeue := attr.qopt.disableDequeue }
      else l
  | .call _ .reset, .call _ => fresh ⟨defaultLimit, 0⟩
  | _, _ => l

/-- The statistics an outsider would expect, around the bitmap shown. -/
def stats (l : Ledger) (bitmap : Fin bitmapSize → BitVec 32) : PfabStatData where
  limit := l.limit
  disableDequeue := l.disableDequeue
  bitmap := bitmap
  tcStats := ⟨BitVec.ofNat 64 l.bytes, BitVec.ofNat 32 l.stored, BitVec.ofNat 32 l.evictions⟩
  perBandPacketCounter := fun band => BitVec.ofNat 32 (l.perBand band)
  nonIpPacketCounter := BitVec.ofNat 32 l.nonIp
  illegalPrioOccurance := BitVec.ofNat 32 l.illegal

/-- The statistics show what has been counted. -/
def Shown (l : Ledger) (kern : Kernel) : Prop :=
  kern.pfabStats = l.stats kern.pfabStats.bitmap

theorem shown_iff {l : Ledger} {kern : Kernel} :
    l.Shown kern ↔
      (kern.pfabStats.limit = l.limit ∧ kern.pfabStats.disableDequeue = l.disableDequeue) ∧
        (kern.pfabStats.tcStats.packets = BitVec.ofNat 32 l.stored ∧
          kern.pfabStats.tcStats.bytes = BitVec.ofNat 64 l.bytes ∧
          kern.pfabStats.tcStats.drops = BitVec.ofNat 32 l.evictions) ∧
        classCounters kern.pfabStats =
          (BitVec.ofNat 32 l.nonIp, BitVec.ofNat 32 l.illegal,
            fun band => BitVec.ofNat 32 (l.perBand band)) := by
  obtain ⟨⟨limit, switch, bitmap, ⟨bytes, packets, drops⟩, perBand, nonIp, illegal⟩, _, _⟩ := kern
  simp only [Shown, stats, classCounters, PfabStatData.mk.injEq, TcStats.mk.injEq, Prod.mk.injEq]
  tauto

end Ledger

/-! ## Arrivals -/

section Arrival

variable {l : Ledger} {c : Ctx}

/-- What the verdict on an arrival says. -/
theorem pfabEnqueue_verdict (skb : SkBuff) (c : Ctx) :
    ((pfabEnqueue skb c).1 = .drop ↔ ¬ Admits c skb) ∧
      ((pfabEnqueue skb c).1 = .cn ↔ Admits c skb ∧ c.sch.priv.limit < c.sch.qlen + 1) := by
  obtain ⟨_, hstep, _⟩ := step_qdisc c (.enqueue skb)
  have hout : qdisc.out c (.enqueue skb) = .xmit (pfabEnqueue skb c).1 := rfl
  rw [hout] at hstep
  generalize (pfabEnqueue skb c).1 = verdict at hstep ⊢
  generalize view (qdisc.next c (.enqueue skb)) = B' at hstep
  cases hstep with
  | illegal hl =>
      have hadm : ¬ Admits c skb := fun hadm => hl hadm.1
      exact ⟨iff_of_true rfl hadm, iff_of_false (by simp) fun h => hadm h.1⟩
  | reject hl hr =>
      have hadm : ¬ Admits c skb := fun hadm => (admits_iff hl).mp hadm hr
      exact ⟨iff_of_true rfl hadm, iff_of_false (by simp) fun h => hadm h.1⟩
  | store hl hr hroom =>
      have hadm := (admits_iff hl).mpr hr
      exact ⟨iff_of_false (by simp) (not_not.mpr hadm), iff_of_false (by simp) fun h => hroom h.2⟩
  | evict hl hr hover =>
      have hadm := (admits_iff hl).mpr hr
      exact ⟨iff_of_false (by simp) (not_not.mpr hadm), iff_of_true rfl ⟨hadm, hover⟩⟩

theorem disableDequeue_pfabEnqueue (skb : SkBuff) (c : Ctx) :
    (pfabEnqueue skb c).2.kern.pfabStats.disableDequeue = c.kern.pfabStats.disableDequeue := by
  obtain ⟨_, hnonIp⟩ := exists_countNonIp_eq skb c
  rcases pfabEnqueue_cases skb c with ⟨_, heq⟩ | ⟨hl, ⟨_, heq⟩ | ⟨_, heq⟩⟩
  · rw [heq, hnonIp]
    rfl
  · rw [heq, hnonIp]
    rfl
  · obtain ⟨_, _, _, _, _, haccept⟩ :=
      exists_acceptSkb_eq (classified skb) (countBand hl.band (countNonIp skb c))
    rw [heq, haccept, hnonIp]
    rfl

theorem ofNat_add_ite {w : ℕ} (n j k : ℕ) (p : Prop) [Decidable p] :
    BitVec.ofNat w (n + if p then j else k) =
      BitVec.ofNat w n + if p then BitVec.ofNat w j else BitVec.ofNat w k := by
  rw [BitVec.ofNat_add]
  split
  · rfl
  · rfl

theorem Ledger.Shown.pfabEnqueue (h : l.Shown c.kern) (skb : SkBuff) :
    (l.arrive skb (pfabEnqueue skb c).1).Shown (pfabEnqueue skb c).2.kern := by
  obtain ⟨⟨hlimit, hswitch⟩, ⟨hpackets, hbytes, hdrops⟩, hclass⟩ := shown_iff.mp h
  obtain ⟨hdrop, hcn⟩ := pfabEnqueue_verdict skb c
  simp only [classCounters, Prod.mk.injEq] at hclass
  obtain ⟨hnonIp, hillegal, hperBand⟩ := hclass
  have hreported : (PFabric.pfabEnqueue skb c).2.kern.pfabStats.limit = l.limit ∧
      (PFabric.pfabEnqueue skb c).2.kern.pfabStats.tcStats.packets =
        BitVec.ofNat 32 (l.arrive skb (PFabric.pfabEnqueue skb c).1).stored ∧
      (PFabric.pfabEnqueue skb c).2.kern.pfabStats.tcStats.bytes =
        BitVec.ofNat 64 (l.arrive skb (PFabric.pfabEnqueue skb c).1).bytes := by
    simp only [Ledger.arrive, ofNat_add_ite, ← hlimit, ← hpackets, ← hbytes]
    rcases reported_pfabEnqueue skb c with ⟨_, hverdict, hsame⟩ | ⟨_, hverdict, hmoved⟩
    · simp only [reported, Prod.mk.injEq] at hsame
      simp [hverdict, hsame]
    · simp only [reported, Prod.mk.injEq] at hmoved
      simp [hverdict, hmoved]
  refine shown_iff.mpr ⟨⟨hreported.1, ?_⟩, ⟨hreported.2.1, hreported.2.2, ?_⟩, ?_⟩
  · rw [disableDequeue_pfabEnqueue]
    exact hswitch
  · simp only [Ledger.arrive, ofNat_add_ite, (tally_pfabEnqueue skb c).2, hcn, hdrops]
    rfl
  · rw [classCounters_pfabEnqueue]
    simp only [Ledger.arrive, ofNat_add_ite, hnonIp, hillegal, hperBand,
      getSkbPriority_neg_iff]
    rfl

end Arrival

/-! ## The other requests -/

section Requests

variable {l : Ledger} {c : Ctx} {kern kern' : Kernel}

/-- Nothing but the bitmap shown has changed. -/
theorem Ledger.Shown.of_bitmap (h : l.Shown kern) {bitmap : Fin bitmapSize → BitVec 32}
    (heq : kern'.pfabStats = { kern.pfabStats with bitmap := bitmap }) : l.Shown kern' := by
  rw [Ledger.Shown] at h ⊢
  rw [heq, h]
  rfl

theorem Ledger.shown_fresh (qopt : TcPfabricQopt)
    (heq : kern.pfabStats =
      { PfabStatData.zero with limit := qopt.limit, disableDequeue := qopt.disableDequeue }) :
    (Ledger.fresh qopt).Shown kern := by
  rw [Ledger.Shown, heq]
  rfl

theorem Ledger.Shown.pfabDequeue (h : l.Shown c.kern) : l.Shown (pfabDequeue c).2.kern := by
  obtain ⟨_, _, _, _, _, heq⟩ := exists_pfabDequeue_eq c
  exact h.of_bitmap (congrArg (fun c => c.kern.pfabStats) heq)

/-- A failed `pfab_init` has reset the statistics all the same. -/
theorem pfabStats_pfabInit (opt : Option Nlattr) (dev : String) (created : String → Bool)
    (c : Ctx) :
    (pfabInit opt dev created c).2.kern.pfabStats =
      { PfabStatData.zero with
        limit := (initialOptions opt).limit
        disableDequeue := (initialOptions opt).disableDequeue } := by
  unfold pfabInit
  dsimp only
  cases opt with
  | none => exact (pfabStatsInit_frame _ _ _).1
  | some attr =>
      simp only [Option.isSome_some, if_true, pfabChange, initialOptions, Option.bind_some]
      by_cases hshort : attr.payload.length < sizeofQopt
      · simp only [hshort, if_true, Nlattr.qopt?_of_lt hshort]
        rfl
      · simp only [hshort, if_false, Nlattr.qopt?_of_le (not_lt.mp hshort)]
        exact (pfabStatsInit_frame _ _ _).1

theorem pfabStats_pfabDestroy (dev : String) (c : Ctx) :
    (pfabDestroy dev c).kern.pfabStats = c.kern.pfabStats := by
  rw [pfabDestroy, purgeAll_eq]
  rfl

theorem Ledger.record_absent (l : Ledger) (dev : String) (op : Op) :
    l.record (.call dev op) .absent = l := by
  cases op with
  | enqueue | dequeue | peek | reset => rfl
  | change opt =>
      cases opt with
      | none => rfl
      | some attr => rfl

/-- One call on a live qdisc. -/
theorem Ledger.Shown.call (h : l.Shown c.kern) (dev : String) (op : Op) :
    (l.record (.call dev op) (.call (qdisc.out c op))).Shown (qdisc.next c op).kern := by
  cases op with
  | enqueue skb => exact h.pfabEnqueue skb
  | dequeue => exact h.pfabDequeue
  | peek => exact h
  | change opt =>
      have hout : qdisc.out c (.change opt) = .code (pfabChange opt c).1 := rfl
      have hnext : qdisc.next c (.change opt) = (pfabChange opt c).2 := rfl
      rw [hout, hnext]
      cases opt with
      | none => exact h
      | some attr =>
          simp only [pfabChange, Ledger.record]
          by_cases hshort : attr.payload.length < sizeofQopt
          · simp only [hshort, if_true]
            exact h
          · simp only [hshort, if_false, if_true]
            obtain ⟨_, hcounts, hclass⟩ := Ledger.shown_iff.mp h
            exact Ledger.shown_iff.mpr ⟨⟨rfl, rfl⟩, hcounts, hclass⟩
  | reset => exact Ledger.shown_fresh ⟨defaultLimit, 0⟩ rfl

/-- One request. -/
theorem Ledger.Shown.next {m : Module} (h : l.Shown m.kern) (request : Request) :
    (l.record request (pfabModule.out m request)).Shown (pfabModule.next m request).kern := by
  cases request with
  | init dev opt created =>
      refine Ledger.shown_fresh (initialOptions opt) ?_
      rw [← pfabStats_pfabInit opt dev created ⟨Qdisc.alloc, m.kern⟩]
      by_cases hinit : (pfabInit opt dev created ⟨Qdisc.alloc, m.kern⟩).1 = 0
      · rw [serve_init_of_eq_zero hinit]
      · rw [serve_init_of_ne_zero hinit]
  | call dev op =>
      cases hdev : m.qdiscs dev with
      | none =>
          have hout : pfabModule.out m (.call dev op) = .absent := by
            simp only [Machine.out, pfabModule, serve, hdev]
          rw [serve_call_absent hdev, hout, Ledger.record_absent]
          exact h
      | some sch =>
          rw [Machine.out, Machine.next, serve_call hdev]
          exact h.call (c := ⟨sch, m.kern⟩) dev op
  | destroy dev =>
      cases hdev : m.qdiscs dev with
      | none =>
          simp only [Machine.out, Machine.next, pfabModule, serve, hdev]
          exact h
      | some sch =>
          rw [serve_destroy hdev]
          exact h.of_bitmap (pfabStats_pfabDestroy dev ⟨sch, m.kern⟩)

end Requests

/-! ## Whole runs -/

/-- In every run of the module from its loading, on any number of devices, the
shared statistics, the bitmap shown apart, are what an outsider counts from the
requests and the answers. -/
theorem shared_statistics_eq_ledger (requests : List Request) :
    (pfabModule.exec .loaded requests).kern.pfabStats =
      (pfabModule.observe Ledger.record (.fresh ⟨0, 0⟩) .loaded requests).stats
        (pfabModule.exec .loaded requests).kern.pfabStats.bitmap := by
  refine Machine.observe_invariant (M := pfabModule) (f := Ledger.record)
    (J := fun _ l m => l.Shown m.kern) ?_ ?_ requests
  · intro _ l m request h
    exact h.next request
  · exact Ledger.shown_fresh ⟨0, 0⟩ rfl

end PFabric
