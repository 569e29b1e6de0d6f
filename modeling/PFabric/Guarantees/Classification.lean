import Mathlib.Data.BitVec
import PFabric.Guarantees.Conservation

/-!
# How frames are classified

`get_skb_priority` takes every frame that is long enough for an Ethernet and an
IP header for an IP packet.  What `pfab_enqueue` does with a frame is compared
here with what its EtherType asks for.
-/

namespace PFabric

/-! ## Frames -/

/-- The EtherType: the last two bytes of the Ethernet header. -/
def SkBuff.etherType (skb : SkBuff) : BitVec 16 :=
  skb.frame.getD 12 0 ++ skb.frame.getD 13 0

/-- `ETH_P_IP`. -/
def ethPIp : BitVec 16 := 0x0800

/-- The TOS byte of an IPv4 frame. -/
def SkBuff.tosByte (skb : SkBuff) : BitVec 8 := skb.frame.getD (ethHeaderLen + 1) 0

/-! ## What `pfab_enqueue` makes of a frame -/

/-- The packet goes on, into a list or to `kfree_skb`, with `b` as its priority,
and the counter of band `b`, if there is one, goes up. -/
structure AssignsBand (c : Ctx) (skb : SkBuff) (b : ℕ) : Prop where
  packet : (Lanes.flat (pfabEnqueue skb c).2.sch.priv.queues ++
      (pfabEnqueue skb c).2.kern.freed).Perm
    (Lanes.flat c.sch.priv.queues ++ c.kern.freed ++
      [{ skb with priority := BitVec.ofNat 32 b }])
  counter : ∀ band : Band,
    (pfabEnqueue skb c).2.kern.pfabStats.perBandPacketCounter band =
      c.kern.pfabStats.perBandPacketCounter band + if (band : ℕ) = b then 1 else 0

def CountsNonIp (c : Ctx) (skb : SkBuff) : Prop :=
  (pfabEnqueue skb c).2.kern.pfabStats.nonIpPacketCounter =
    c.kern.pfabStats.nonIpPacketCounter + 1

/-- The packet is dropped and counted as one of illegal priority. -/
def DiscardsIllegal (c : Ctx) (skb : SkBuff) : Prop :=
  (pfabEnqueue skb c).1 = .drop ∧
    (pfabEnqueue skb c).2.kern.pfabStats.illegalPrioOccurance =
      c.kern.pfabStats.illegalPrioOccurance + 1

/-- IPv4 frames with a complete header go by their TOS byte, and all other types
are let through. -/
structure ClassifiesByType (c : Ctx) (skb : SkBuff) : Prop where
  other : skb.etherType ≠ ethPIp →
    AssignsBand c skb 0 ∧ CountsNonIp c skb ∧ ¬ DiscardsIllegal c skb
  ipv4 : skb.etherType = ethPIp → ethHeaderLen + ipHeaderLen ≤ skb.len →
    AssignsBand c skb skb.tosByte.toNat ∧
      (DiscardsIllegal c skb ↔ 32 ≤ skb.tosByte.toNat)

/-! ## The counters -/

/-- The counters of the classification. -/
def classCounters (stats : PfabStatData) : BitVec 32 × BitVec 32 × (Band → BitVec 32) :=
  (stats.nonIpPacketCounter, stats.illegalPrioOccurance, stats.perBandPacketCounter)

theorem classCounters_acceptSkb (skb : SkBuff) (c : Ctx) :
    classCounters (acceptSkb skb c).2.kern.pfabStats = classCounters c.kern.pfabStats := by
  obtain ⟨_, _, _, _, _, heq⟩ := exists_acceptSkb_eq skb c
  rw [heq]
  rfl

theorem classCounters_countNonIp (skb : SkBuff) (c : Ctx) :
    classCounters (countNonIp skb c).kern.pfabStats =
      (c.kern.pfabStats.nonIpPacketCounter + if getSkbPriority skb < 0 then 1 else 0,
        c.kern.pfabStats.illegalPrioOccurance, c.kern.pfabStats.perBandPacketCounter) := by
  unfold countNonIp
  split_ifs
  · rfl
  · simp only [classCounters, add_zero]

theorem perBandPacketCounter_countBand {skb : SkBuff} (h : Legal skb) (c : Ctx) :
    (countBand h.band c).kern.pfabStats.perBandPacketCounter =
      fun band => c.kern.pfabStats.perBandPacketCounter band +
        if (band : ℕ) = bandOf skb then 1 else 0 := by
  funext band
  by_cases hband : band = h.band
  · have heq : (band : ℕ) = bandOf skb := congrArg Fin.val hband
    rw [if_pos heq, hband]
    exact Function.update_self _ _ _
  · have hne : (band : ℕ) ≠ bandOf skb := fun heq => hband (Fin.ext heq)
    rw [if_neg hne, add_zero]
    exact Function.update_of_ne hband _ _

/-- All that these counters record of an arrival. -/
theorem classCounters_pfabEnqueue (skb : SkBuff) (c : Ctx) :
    classCounters (pfabEnqueue skb c).2.kern.pfabStats =
      (c.kern.pfabStats.nonIpPacketCounter + (if getSkbPriority skb < 0 then 1 else 0),
        c.kern.pfabStats.illegalPrioOccurance + (if Legal skb then 0 else 1),
        fun band => c.kern.pfabStats.perBandPacketCounter band +
          if (band : ℕ) = bandOf skb then 1 else 0) := by
  have hcount := classCounters_countNonIp skb c
  simp only [classCounters, Prod.mk.injEq] at hcount
  obtain ⟨hnonIp, hillegal, hperBand⟩ := hcount
  by_cases hlegal : Legal skb
  · -- an arrival that is legal is counted before its fate is decided
    have hcounters : classCounters (pfabEnqueue skb c).2.kern.pfabStats =
        classCounters (countBand hlegal.band (countNonIp skb c)).kern.pfabStats := by
      rcases pfabEnqueue_cases skb c with ⟨hnot, -⟩ | ⟨h, ⟨-, heq⟩ | ⟨-, heq⟩⟩
      · exact absurd hlegal hnot
      · rw [heq]
        rfl
      · rw [heq, classCounters_acceptSkb]
    rw [hcounters, classCounters, perBandPacketCounter_countBand, hperBand, if_pos hlegal,
      add_zero, ← hnonIp, ← hillegal]
    rfl
  · have hnone : ∀ band : Band, ¬ (band : ℕ) = bandOf skb := fun band hband =>
      hlegal (hband.symm.trans_lt band.isLt)
    have heq : pfabEnqueue skb c =
        qdiscDrop (classified skb) (countIllegalPrio (countNonIp skb c)) := by
      rcases pfabEnqueue_cases skb c with ⟨-, heq⟩ | ⟨h, -⟩
      · exact heq
      · exact absurd h hlegal
    simp only [heq, qdiscDrop, kfreeSkb, classCounters, countIllegalPrio, hnonIp, hillegal,
      hperBand, hlegal, hnone, if_false, add_zero]

/-! ## Counters and verdict of an arrival -/

theorem add_ite_one_eq_iff (x : BitVec 32) (p : Prop) [Decidable p] :
    (x + if p then 1 else 0) = x + 1 ↔ p := by
  by_cases hp : p
  · simp [hp]
  · simp [hp]

theorem countsNonIp_iff (c : Ctx) (skb : SkBuff) :
    CountsNonIp c skb ↔ getSkbPriority skb < 0 := by
  have hcount := congrArg Prod.fst (classCounters_pfabEnqueue skb c)
  simp only [classCounters] at hcount
  rw [CountsNonIp, hcount, add_ite_one_eq_iff]

theorem discardsIllegal_iff (c : Ctx) (skb : SkBuff) : DiscardsIllegal c skb ↔ ¬ Legal skb := by
  have hcount := congrArg (fun counters => counters.2.1) (classCounters_pfabEnqueue skb c)
  simp only [classCounters, ← ite_not (Legal skb)] at hcount
  rw [DiscardsIllegal, hcount, add_ite_one_eq_iff, and_iff_right_iff_imp]
  intro hlegal
  rcases pfabEnqueue_cases skb c with ⟨-, heq⟩ | ⟨h, -⟩
  · rw [heq]
    rfl
  · exact absurd h hlegal

theorem classified_eq (skb : SkBuff) :
    classified skb = { skb with priority := BitVec.ofNat 32 (bandOf skb) } := by
  rw [classified, skbBand_eq, BitVec.ofInt_natCast]

theorem assignsBand_bandOf (c : Ctx) (skb : SkBuff) : AssignsBand c skb (bandOf skb) := by
  constructor
  · obtain ⟨freed, hstep, hlog⟩ := step_qdisc c (.enqueue skb)
    have hconserves : (Lanes.flat (pfabEnqueue skb c).2.sch.priv.queues ++ freed).Perm
        (Lanes.flat c.sch.priv.queues ++ [classified skb]) := hstep.conserves
    have hfreed : (pfabEnqueue skb c).2.kern.freed = c.kern.freed ++ freed := hlog
    rw [hfreed, ← classified_eq]
    rw [List.perm_iff_count] at hconserves ⊢
    intro x
    have hx := hconserves x
    simp only [List.count_append] at hx ⊢
    omega
  · intro band
    exact congrArg (fun counters => counters.2.2 band) (classCounters_pfabEnqueue skb c)

/-! ## Length and type -/

theorem getSkbPriority_neg_iff (skb : SkBuff) :
    getSkbPriority skb < 0 ↔ skb.len < ethHeaderLen + ipHeaderLen := by
  unfold getSkbPriority
  split_ifs with hlen
  · exact iff_of_true (by decide) hlen
  · exact iff_of_false (by omega) hlen

theorem bandOf_of_short {skb : SkBuff} (h : skb.len < ethHeaderLen + ipHeaderLen) :
    bandOf skb = 0 := by
  rw [bandOf, skbBand, if_pos ((getSkbPriority_neg_iff skb).mpr h)]
  rfl

theorem bandOf_of_long {skb : SkBuff} (h : ethHeaderLen + ipHeaderLen ≤ skb.len) :
    bandOf skb = skb.tos.toNat := by
  have hnot : ¬ skb.len < ethHeaderLen + ipHeaderLen := not_lt.mpr h
  rw [bandOf, skbBand, if_neg fun hneg => hnot ((getSkbPriority_neg_iff skb).mp hneg),
    getSkbPriority, if_neg hnot, Int.toNat_natCast]

theorem len_lt_of_classifiesByType {c : Ctx} {skb : SkBuff} (h : ClassifiesByType c skb)
    (htype : skb.etherType ≠ ethPIp) : skb.len < ethHeaderLen + ipHeaderLen :=
  (getSkbPriority_neg_iff skb).mp ((countsNonIp_iff c skb).mp (h.other htype).2.1)

/-- A frame is classified by its type exactly if it is IPv4 or too short for an IP
header; `hnet` says that the header of an IPv4 frame follows the Ethernet
header. -/
theorem classifiesByType_iff (c : Ctx) {skb : SkBuff}
    (hnet : skb.etherType = ethPIp → skb.networkHeader = ethHeaderLen) :
    ClassifiesByType c skb ↔
      skb.etherType = ethPIp ∨ skb.len < ethHeaderLen + ipHeaderLen := by
  constructor
  · intro h
    by_cases htype : skb.etherType = ethPIp
    · exact Or.inl htype
    · exact Or.inr (len_lt_of_classifiesByType h htype)
  · intro h
    have hassigns := assignsBand_bandOf c skb
    constructor
    · intro htype
      have hshort := h.resolve_left htype
      have hlegal : Legal skb := by
        rw [Legal, bandOf_of_short hshort]
        decide
      rw [bandOf_of_short hshort] at hassigns
      refine ⟨hassigns, (countsNonIp_iff c skb).mpr ((getSkbPriority_neg_iff skb).mpr hshort), ?_⟩
      rw [discardsIllegal_iff]
      exact not_not.mpr hlegal
    · intro htype hlong
      have htos : skb.tosByte = skb.tos := by rw [SkBuff.tosByte, SkBuff.tos, hnet htype]
      rw [bandOf_of_long hlong] at hassigns
      rw [htos, discardsIllegal_iff, Legal, bandOf_of_long hlong, not_lt]
      exact ⟨hassigns, Iff.rfl⟩

/-- An Ethernet frame of 60 bytes with an IPv4 header and a TOS byte of 40. -/
def ipv4Skb : SkBuff where
  id := 0
  frame := List.replicate 12 0#8 ++ [0x08#8, 0x00#8, 0x45#8, 40#8] ++ List.replicate 44 0#8
  networkHeader := ethHeaderLen
  pktLen := 60
  priority := 0
  frame_lt := by decide
  pktLen_lt := by decide

theorem classifiesByType_ipv4 : ClassifiesByType setup ipv4Skb :=
  (classifiesByType_iff setup fun _ => rfl).mpr (Or.inl (by decide))

/-- An IPv6 header with the ECN field set to ECT(0), behind an Ethernet header. -/
def ipv6EctSkb : SkBuff where
  id := 0
  frame := List.replicate 12 0#8 ++ [0x86#8, 0xdd#8, 0x60#8, 0x20#8] ++ List.replicate 38 0#8
  networkHeader := ethHeaderLen
  pktLen := 54
  priority := 0
  frame_lt := by decide
  pktLen_lt := by decide

/-- The second byte of the IPv6 header is taken for a TOS byte of 32, and the
packet is discarded. -/
theorem not_classifiesByType_ipv6 :
    Started setup ∧ DiscardsIllegal setup ipv6EctSkb ∧ ¬ ClassifiesByType setup ipv6EctSkb :=
  ⟨setup_started, (discardsIllegal_iff _ _).mpr (by decide), fun h =>
    absurd (len_lt_of_classifiesByType h (by decide)) (by decide)⟩

end PFabric
