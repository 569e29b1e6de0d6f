import Mathlib.Algebra.BigOperators.Fin
import Mathlib.Data.Fin.Basic
import Mathlib.Data.Finset.Basic
import Mathlib.Data.Fintype.Basic

/-!
# Data of the pFabric queueing discipline

The records of `sch_pfab.h`, the parts of `struct sk_buff`, `struct Qdisc` and
`struct nlattr` that the module reads or writes, and the kernel state shared by
all its qdiscs.  Unsigned counters keep their C width as bit vectors.

Three things are not C data but bookkeeping of the model: the `id` of a packet,
which stands for the address of its buffer, the log of the buffers handed to
`kfree_skb`, and the set of registered proc entries.
-/

namespace PFabric

/-! ## Sizes and defaults -/

/-- `BANDS_IN_BITMAP`: one band for each bit of a `u32`. -/
abbrev bandsInBitmap : ℕ := 32

/-- `NUM_BANDS`. -/
abbrev numBands : ℕ := 32

/-- `BITMAP_SIZE`: the number of bitmap words. -/
abbrev bitmapSize : ℕ := numBands / bandsInBitmap

/-- A valid index of the `queues` array. -/
abbrev Band := Fin numBands

/-- `DEFAULT_LIMIT`. -/
def defaultLimit : BitVec 32 := 150

/-- `ETH_HEADER_LEN`. -/
def ethHeaderLen : ℕ := 14

/-- `IP_HEADER_LEN`. -/
def ipHeaderLen : ℕ := 20

/-! ## Packets -/

/-- The part of a socket buffer that the qdisc uses.  `frame` holds the bytes
from the Ethernet header on and `networkHeader` is an offset into it; `pktLen`
is `qdisc_pkt_len`.  The kernel computes packet lengths as `int`, so neither
length reaches `2 ^ 31`. -/
structure SkBuff where
  id : ℕ
  frame : List (BitVec 8)
  networkHeader : ℕ
  pktLen : BitVec 32
  priority : BitVec 32
  frame_lt : frame.length < 2 ^ 31
  pktLen_lt : pktLen.toNat < 2 ^ 31
deriving DecidableEq

namespace SkBuff

/-- `skb->len`. -/
def len (skb : SkBuff) : ℕ := skb.frame.length

/-- `ip_hdr(skb)->tos`: the second byte of the network header. -/
def tos (skb : SkBuff) : BitVec 8 :=
  skb.frame.getD (skb.networkHeader + 1) 0

end SkBuff

/-! ## Netlink options -/

/-- A netlink attribute: `nla_data` is `payload` and `nla_len` its length. -/
structure Nlattr where
  payload : List (BitVec 8)
deriving DecidableEq

/-- `struct tc_pfabric_qopt`. -/
structure TcPfabricQopt where
  limit : BitVec 32
  disableDequeue : BitVec 32
deriving DecidableEq

/-- `sizeof(struct tc_pfabric_qopt)`. -/
def sizeofQopt : ℕ := 8

/-- The `u32` stored at an offset, in the byte order of the x86 target. -/
def u32At (bytes : List (BitVec 8)) (offset : ℕ) : BitVec 32 :=
  bytes.getD (offset + 3) 0 ++ bytes.getD (offset + 2) 0 ++
    bytes.getD (offset + 1) 0 ++ bytes.getD offset 0

/-- The four bytes of a `u32`, least significant first. -/
def u32Bytes (v : BitVec 32) : List (BitVec 8) :=
  [v.extractLsb' 0 8, v.extractLsb' 8 8, v.extractLsb' 16 8, v.extractLsb' 24 8]

/-- The options structure found at the start of an attribute's payload. -/
def Nlattr.qopt (opt : Nlattr) : TcPfabricQopt where
  limit := u32At opt.payload 0
  disableDequeue := u32At opt.payload 4

/-- The options an attribute holds, if it is long enough for them. -/
def Nlattr.qopt? (opt : Nlattr) : Option TcPfabricQopt :=
  if opt.payload.length < sizeofQopt then none else some opt.qopt

theorem Nlattr.qopt?_of_lt {opt : Nlattr} (h : opt.payload.length < sizeofQopt) :
    opt.qopt? = none := if_pos h

theorem Nlattr.qopt?_of_le {opt : Nlattr} (h : sizeofQopt ≤ opt.payload.length) :
    opt.qopt? = some opt.qopt := if_neg (not_lt.mpr h)

/-- The attribute that carries the given options. -/
def TcPfabricQopt.nlattr (qopt : TcPfabricQopt) : Nlattr where
  payload := u32Bytes qopt.limit ++ u32Bytes qopt.disableDequeue

theorem u32Bytes_append (v : BitVec 32) :
    v.extractLsb' 24 8 ++ v.extractLsb' 16 8 ++
      v.extractLsb' 8 8 ++ v.extractLsb' 0 8 = v := by
  apply BitVec.eq_of_getLsbD_eq
  intro i hi
  simp only [BitVec.getLsbD_append, BitVec.getLsbD_extractLsb']
  split_ifs with h0 h1 h2
  · simp [h0]
  · have h : 8 + (i - 8) = i := by omega
    simp [h, h1]
  · have h : 16 + (i - 8 - 8) = i := by omega
    simp [h, h2]
  · have h : 24 + (i - 8 - 8 - 8) = i := by omega
    have hlt : i - 8 - 8 - 8 < 8 := by omega
    simp [h, hlt]

/-- Options survive the trip through an attribute. -/
@[simp] theorem TcPfabricQopt.qopt_nlattr (qopt : TcPfabricQopt) :
    qopt.nlattr.qopt = qopt := by
  cases qopt with
  | mk limit disable =>
      simp [TcPfabricQopt.nlattr, Nlattr.qopt, u32At, u32Bytes, u32Bytes_append]

theorem TcPfabricQopt.length_nlattr (qopt : TcPfabricQopt) :
    qopt.nlattr.payload.length = sizeofQopt := rfl

theorem TcPfabricQopt.qopt?_nlattr (qopt : TcPfabricQopt) :
    qopt.nlattr.qopt? = some qopt := by
  rw [Nlattr.qopt?_of_le qopt.length_nlattr.ge, qopt.qopt_nlattr]

/-! ## The qdisc and the kernel around it -/

/-- The counters of `struct tc_stats` that the module maintains. -/
structure TcStats where
  bytes : BitVec 64
  packets : BitVec 32
  drops : BitVec 32
deriving DecidableEq

/-- `struct pfab_stat_data`. -/
structure PfabStatData where
  limit : BitVec 32
  disableDequeue : BitVec 32
  bitmap : Fin bitmapSize → BitVec 32
  tcStats : TcStats
  perBandPacketCounter : Band → BitVec 32
  nonIpPacketCounter : BitVec 32
  illegalPrioOccurance : BitVec 32
deriving DecidableEq

/-- The statistics after `memset(&pfab_stats, 0, sizeof(pfab_stats))`. -/
def PfabStatData.zero : PfabStatData where
  limit := 0
  disableDequeue := 0
  bitmap := fun _ => 0
  tcStats := ⟨0, 0, 0⟩
  perBandPacketCounter := fun _ => 0
  nonIpPacketCounter := 0
  illegalPrioOccurance := 0

/-- `struct pfab_sched_data`, the private data of one qdisc. -/
structure PfabSchedData where
  limit : BitVec 32
  bitmap : Fin bitmapSize → BitVec 32
  queues : Band → List SkBuff
  disableDequeue : BitVec 32
deriving DecidableEq

/-- The members of `sch->qstats` that are maintained. -/
structure Qstats where
  backlog : BitVec 32
  drops : BitVec 32
deriving DecidableEq

/-- `struct Qdisc`: `qlen` is `sch->q.qlen` and `priv` is `qdisc_priv(sch)`. -/
structure Qdisc where
  qlen : BitVec 32
  qstats : Qstats
  priv : PfabSchedData
deriving DecidableEq

/-- A qdisc as `qdisc_alloc` hands it to `pfab_init`: all zero. -/
def Qdisc.alloc : Qdisc where
  qlen := 0
  qstats := ⟨0, 0⟩
  priv := ⟨0, fun _ => 0, fun _ => [], 0⟩

/-- The kernel state that all pFabric qdiscs share. -/
structure Kernel where
  pfabStats : PfabStatData
  freed : List SkBuff
  procEntries : Finset String
deriving DecidableEq

/-- What a call on one qdisc can see: that qdisc and the kernel. -/
structure Ctx where
  sch : Qdisc
  kern : Kernel
deriving DecidableEq

/-- The verdicts a qdisc's `enqueue` returns. -/
inductive NetXmit
  | success
  | drop
  | cn
deriving DecidableEq

/-- `EINVAL`. -/
def einval : ℤ := 22

end PFabric
