import PFabric.Kernel.Qdisc
import PFabric.Tc.Options

/-!
# Dumping the options

`pfab_dump` appends the options of a qdisc to a netlink message of the kernel.  It is
compiled only with `CONFIG_RTLENTLINK`.  The functions of the kernel that it calls are
parameters; what is assumed of them is stated beside them.
-/

namespace PFabric

open Attributes

/-- The `sk_buff` of a netlink message under construction. -/
structure DumpSkb where
  data : List (BitVec 8)
  tailroom : ℕ
deriving DecidableEq

/-- What `pfab_dump` calls.  A pointer into the message is its distance from the
first byte. -/
structure NetlinkCalls where
  /-- `nla_put`. -/
  nlaPut : DumpSkb → BitVec 16 → List (BitVec 8) → ℤ × DumpSkb
  /-- `nla_nest_end`. -/
  nlaNestEnd : DumpSkb → ℕ → ℤ × DumpSkb
  /-- `nlmsg_trim`. -/
  nlmsgTrim : DumpSkb → ℕ → DumpSkb

section Source

variable (calls : NetlinkCalls)

/-- `pfab_dump`. -/
def pfabDump (c : Ctx) (skb : DumpSkb) : ℤ × DumpSkb :=
  let nla := skb.data.length
  let qopt : TcPfabricQopt := ⟨c.sch.priv.limit, c.sch.priv.disableDequeue⟩
  let r := calls.nlaPut skb tcaOptions qopt.nlattr.payload
  if r.1 ≠ 0 then (-1, calls.nlmsgTrim r.2 nla)
  else calls.nlaNestEnd r.2 nla

/-- What the kernel promises of the three functions. -/
structure NetlinkCalls.Lawful : Prop where
  /-- An attribute that fits is appended with its padding. -/
  put_of_fits : ∀ skb (attr : Attr), align attr.len ≤ skb.tailroom →
    ∃ padding, padding.length = align attr.len - attr.len ∧
      calls.nlaPut skb attr.type attr.payload =
        (0, ⟨skb.data ++ (attr.bytes ++ padding), skb.tailroom - align attr.len⟩)
  /-- One that does not fit is an error, and the message stays as it is. -/
  put_of_exceeds : ∀ skb (attr : Attr), skb.tailroom < align attr.len →
    (calls.nlaPut skb attr.type attr.payload).1 ≠ 0 ∧
      (calls.nlaPut skb attr.type attr.payload).2 = skb
  /-- The attribute at `start` is given the length of all behind it, and the length
  of the message is returned. -/
  nest_end : ∀ skb start, start + 2 ≤ skb.data.length →
    calls.nlaNestEnd skb start =
      ((skb.data.length : ℤ), { skb with data := skb.data.take start ++
        (u16Bytes (BitVec.ofNat 16 (skb.data.length - start)) ++
          skb.data.drop (start + 2)) })
  /-- The message is cut off at the mark. -/
  trim : ∀ skb mark, mark ≤ skb.data.length →
    calls.nlmsgTrim skb mark =
      ⟨skb.data.take mark, skb.tailroom + (skb.data.length - mark)⟩

end Source

/-! ## What it appends -/

section Append

variable {calls : NetlinkCalls} (hcalls : calls.Lawful)
include hcalls

/-- The length stored at the end is the one that is there. -/
theorem nlaNestEnd_append (data : List (BitVec 8)) (attr : Attr) (room : ℕ) :
    calls.nlaNestEnd ⟨data ++ attr.bytes, room⟩ data.length =
      (((data.length + attr.len : ℕ) : ℤ), ⟨data ++ attr.bytes, room⟩) := by
  have hlen : (data ++ attr.bytes).length = data.length + attr.len := by
    rw [List.length_append, attr.length_bytes]
  have hheader : 2 ≤ attr.len := by
    rw [Attr.len]
    omega
  have hdrop : (data ++ attr.bytes).drop (data.length + 2) = attr.bytes.drop 2 := by
    rw [List.drop_append, List.drop_eq_nil_of_le (Nat.le_add_right _ _),
      Nat.add_sub_cancel_left, List.nil_append]
  have hbytes : u16Bytes (BitVec.ofNat 16 attr.len) ++ attr.bytes.drop 2 = attr.bytes := by
    rw [Attr.bytes, List.append_assoc]
    rfl
  rw [hcalls.nest_end _ _ (by simp only [hlen]; omega)]
  simp only [hlen, Nat.add_sub_cancel_left, hdrop, List.take_left, hbytes]

/-- Either the attribute is appended, or there is no room and nothing changes. -/
theorem pfabDump_eq (c : Ctx) (skb : DumpSkb) :
    pfabDump calls c skb =
      if skb.tailroom < 12 then ((-1 : ℤ), skb)
      else (((skb.data.length + 12 : ℕ) : ℤ),
        ⟨skb.data ++ (optionsAttr ⟨c.sch.priv.limit, c.sch.priv.disableDequeue⟩).bytes,
          skb.tailroom - 12⟩) := by
  set attr := optionsAttr ⟨c.sch.priv.limit, c.sch.priv.disableDequeue⟩
  have hlen : attr.len = 12 := len_optionsAttr _
  have halign : align attr.len = 12 := by
    rw [hlen]
    rfl
  have hput : pfabDump calls c skb =
      if (calls.nlaPut skb attr.type attr.payload).1 ≠ 0 then
        (-1, calls.nlmsgTrim (calls.nlaPut skb attr.type attr.payload).2 skb.data.length)
      else calls.nlaNestEnd (calls.nlaPut skb attr.type attr.payload).2 skb.data.length := rfl
  rw [hput]
  by_cases hroom : skb.tailroom < 12
  · obtain ⟨hcode, hskb⟩ := hcalls.put_of_exceeds skb attr (halign ▸ hroom)
    rw [if_pos hcode, if_pos hroom, hskb, hcalls.trim skb _ le_rfl, List.take_length,
      Nat.sub_self, Nat.add_zero]
  · obtain ⟨padding, hpadding, hfits⟩ :=
      hcalls.put_of_fits skb attr (halign ▸ not_lt.mp hroom)
    rw [halign, hlen, Nat.sub_self, List.length_eq_zero_iff] at hpadding
    rw [hfits, hpadding, List.append_nil, if_neg (not_not_intro rfl), if_neg hroom,
      nlaNestEnd_append hcalls, halign, hlen]

end Append

end PFabric
