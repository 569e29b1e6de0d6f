import PFabric.Kernel.Data
import PFabric.Support.Attributes
import PFabric.Support.Memory

/-!
# Building netlink requests

The part of `libnetlink` with which tc appends attributes to a request.  A
request is the memory from its `struct nlmsghdr` on, whose first member is the
length of the message.
-/

namespace PFabric

open Attributes

/-- `n->nlmsg_len`. -/
def nlmsgLen (n : Memory) : BitVec 32 := u32At (n.slice 0 4) 0

/-- `NLMSG_ALIGN`, in unsigned 32-bit arithmetic. -/
def nlmsgAlign (len : BitVec 32) : BitVec 32 := (len + 3) &&& ~~~3#32

/-- `NLMSG_TAIL(n)`, as an offset from `n`. -/
def nlmsgTail (n : Memory) : ℕ := (nlmsgAlign (nlmsgLen n)).toNat

/-- `RTA_LENGTH`. -/
def rtaLength (len : ℕ) : ℕ := align 4 + len

/-- `addattr_l`; `RTA_ALIGN` is `align`. -/
def addattrL (n : Memory) (maxlen : ℕ) (type : BitVec 16) (data : List (BitVec 8)) :
    ℤ × Memory :=
  let len := rtaLength data.length
  if BitVec.ofNat 32 maxlen < nlmsgAlign (nlmsgLen n) + BitVec.ofNat 32 (align len) then
    (-1, n)
  else
    let rta := nlmsgTail n
    let n := n.poke (rta + 2) (u16Bytes type)
    let n := n.poke rta (u16Bytes (BitVec.ofNat 16 len))
    let n := n.poke (rta + 4) data
    (0, n.poke 0 (u32Bytes (nlmsgAlign (nlmsgLen n) + BitVec.ofNat 32 (align len))))

/-- The offset of the first attribute of a tc request, behind `struct nlmsghdr`
and `struct tcmsg`. -/
def tcmsgLen : ℕ := 36

/-- A tc request: the length counts the headers, and the message is smaller
than 2 GiB, as every object of the x86 target is. -/
structure TcRequest where
  mem : Memory
  header_le : tcmsgLen ≤ (nlmsgLen mem).toNat
  len_lt : (nlmsgLen mem).toNat < 2 ^ 31

/-- What a walk over the attributes of a message finds. -/
def attributes (n : Memory) : List Attr × List (BitVec 8) :=
  walk (n.slice tcmsgLen (nlmsgLen n).toNat)

/-! ## Alignment in 32 bits -/

theorem and_not_three (v : BitVec 32) : v &&& ~~~3#32 = (v >>> 2) <<< 2 := by
  apply BitVec.eq_of_getLsbD_eq
  intro i hi
  have hmask : ∀ i < 32, (~~~3#32).getLsbD i = decide (2 ≤ i) := by decide
  rw [BitVec.getLsbD_and, hmask i hi, BitVec.getLsbD_shiftLeft, BitVec.getLsbD_ushiftRight]
  by_cases h : i < 2
  · have hle : ¬ 2 ≤ i := by omega
    simp [h, hle]
  · have hle : 2 ≤ i := by omega
    have hsub : 2 + (i - 2) = i := by omega
    simp [h, hi, hle, hsub]

theorem toNat_nlmsgAlign {len : BitVec 32} (h : len.toNat < 2 ^ 31) :
    (nlmsgAlign len).toNat = align len.toNat := by
  have hadd : (len + 3).toNat = len.toNat + 3 := by bv_omega
  rw [nlmsgAlign, and_not_three, BitVec.toNat_shiftLeft, BitVec.toNat_ushiftRight, hadd,
    Nat.shiftRight_eq_div_pow, Nat.shiftLeft_eq, align]
  exact Nat.mod_eq_of_lt (by omega)

theorem u32At_u32Bytes (v : BitVec 32) : u32At (u32Bytes v) 0 = v := by
  simp [u32At, u32Bytes, u32Bytes_append]

/-! ## Appending an attribute -/

namespace TcRequest

variable (n : TcRequest)

/-- The offset at which the next attribute goes. -/
theorem tail_eq : nlmsgTail n.mem = align (nlmsgLen n.mem).toNat :=
  toNat_nlmsgAlign n.len_lt

theorem tcmsgLen_le_tail : tcmsgLen ≤ nlmsgTail n.mem := by
  have hheader := n.header_le
  rw [tail_eq, align]
  omega

end TcRequest

/-- The memory after the stores with which `addattr_l` writes an attribute. -/
def storeAttr (n : Memory) (rta : ℕ) (attr : Attr) : Memory :=
  ((n.poke (rta + 2) (u16Bytes attr.type)).poke rta
    (u16Bytes (BitVec.ofNat 16 attr.len))).poke (rta + 4) attr.payload

theorem slice_storeAttr (n : Memory) (rta : ℕ) (attr : Attr) :
    (storeAttr n rta attr).slice rta (rta + attr.len) = attr.bytes := by
  have hlen : rta + attr.len = rta + 4 + attr.payload.length := by
    rw [Attr.len]
    omega
  have hstated : (storeAttr n rta attr).slice rta (rta + 2) =
      u16Bytes (BitVec.ofNat 16 attr.len) := by
    rw [storeAttr, Memory.slice_poke_of_le (by omega)]
    exact Memory.slice_poke
  have htype : (storeAttr n rta attr).slice (rta + 2) (rta + 4) = u16Bytes attr.type := by
    have hafter : rta + (u16Bytes (BitVec.ofNat 16 attr.len)).length ≤ rta + 2 := le_refl _
    rw [storeAttr, Memory.slice_poke_of_le (le_refl _), Memory.slice_poke_of_ge hafter]
    exact Memory.slice_poke
  have hpayload : (storeAttr n rta attr).slice (rta + 4) (rta + attr.len) = attr.payload := by
    rw [storeAttr, hlen, Memory.slice_poke]
  rw [Memory.slice_append (rta + 4) (by omega) (by omega),
    Memory.slice_append (rta + 2) (by omega) (by omega), hstated, htype, hpayload]
  rfl

theorem storeAttr_of_lt {n : Memory} {rta i : ℕ} {attr : Attr} (h : i < rta) :
    storeAttr n rta attr i = n i := by
  rw [storeAttr, Memory.poke_of_lt (by omega), Memory.poke_of_lt h,
    Memory.poke_of_lt (by omega)]

theorem addattrL_eq (n : Memory) (maxlen : ℕ) (attr : Attr) :
    addattrL n maxlen attr.type attr.payload =
      if BitVec.ofNat 32 maxlen <
          nlmsgAlign (nlmsgLen n) + BitVec.ofNat 32 (align attr.len) then (-1, n)
      else
        (0, (storeAttr n (nlmsgTail n) attr).poke 0
          (u32Bytes (nlmsgAlign (nlmsgLen (storeAttr n (nlmsgTail n) attr)) +
            BitVec.ofNat 32 (align attr.len)))) :=
  rfl

/-- What `addattr_l` does with an attribute of whole words: it refuses it if the
message would grow beyond the bound; otherwise it writes the attribute at the
tail and counts it, and keeps the message before it. -/
theorem addattrL_spec (n : TcRequest) (maxlen : ℕ) (hmax : maxlen < 2 ^ 31)
    (attr : Attr) (hlen : attr.len < 2 ^ 16) (hwords : attr.len % 4 = 0) :
    (maxlen < nlmsgTail n.mem + attr.len ∧
        addattrL n.mem maxlen attr.type attr.payload = (-1, n.mem)) ∨
      (nlmsgTail n.mem + attr.len ≤ maxlen ∧
        ∃ mem, addattrL n.mem maxlen attr.type attr.payload = (0, mem) ∧
          (nlmsgLen mem).toNat = nlmsgTail n.mem + attr.len ∧
          mem.slice (nlmsgTail n.mem) (nlmsgTail n.mem + attr.len) = attr.bytes ∧
          ∀ i, 4 ≤ i → i < nlmsgTail n.mem → mem i = n.mem i) := by
  have halign : align attr.len = attr.len := by
    simp only [align]
    omega
  have htail : nlmsgTail n.mem < 2 ^ 31 + 4 := by
    have hlt := n.len_lt
    rw [n.tail_eq, align]
    omega
  have hsum : (nlmsgAlign (nlmsgLen n.mem) + BitVec.ofNat 32 attr.len).toNat =
      nlmsgTail n.mem + attr.len := by
    rw [BitVec.toNat_add, BitVec.toNat_ofNat]
    change (nlmsgTail n.mem + attr.len % 2 ^ 32) % 2 ^ 32 = _
    omega
  have hexceeds : BitVec.ofNat 32 maxlen <
      nlmsgAlign (nlmsgLen n.mem) + BitVec.ofNat 32 attr.len ↔
        maxlen < nlmsgTail n.mem + attr.len := by
    rw [BitVec.lt_def, hsum, BitVec.toNat_ofNat, Nat.mod_eq_of_lt (by omega)]
  have hheader : 36 ≤ nlmsgTail n.mem := n.tcmsgLen_le_tail
  have hstored : nlmsgLen (storeAttr n.mem (nlmsgTail n.mem) attr) = nlmsgLen n.mem := by
    rw [nlmsgLen, nlmsgLen, Memory.slice_congr fun i _ hi => storeAttr_of_lt (by omega)]
  rw [addattrL_eq, halign, hstored]
  by_cases hover : maxlen < nlmsgTail n.mem + attr.len
  · rw [if_pos (hexceeds.mpr hover)]
    exact Or.inl ⟨hover, rfl⟩
  · rw [if_neg (fun h => hover (hexceeds.mp h))]
    refine Or.inr ⟨Nat.le_of_not_lt hover, _, rfl, ?_, ?_, ?_⟩
    · rw [← hsum, nlmsgLen]
      exact congrArg BitVec.toNat
        ((congrArg (u32At · 0) Memory.slice_poke).trans (u32At_u32Bytes _))
    · rw [Memory.slice_poke_of_ge (show 4 ≤ nlmsgTail n.mem by omega)]
      exact slice_storeAttr n.mem (nlmsgTail n.mem) attr
    · intro i hi hlt
      rw [Memory.poke_of_le hi, storeAttr_of_lt hlt]

/-- A message that has taken an attribute of whole words: the walk finds the old
attributes and then the new one. -/
theorem attributes_of_appended (n : TcRequest) (hwf : (attributes n.mem).2 = [])
    {attr : Attr} (hlen : attr.len < 2 ^ 16) {mem : Memory}
    (hnlmsg : (nlmsgLen mem).toNat = nlmsgTail n.mem + attr.len)
    (hattr : mem.slice (nlmsgTail n.mem) (nlmsgTail n.mem + attr.len) = attr.bytes)
    (hold : ∀ i, 4 ≤ i → i < nlmsgTail n.mem → mem i = n.mem i) :
    attributes mem = ((attributes n.mem).1 ++ [attr], []) := by
  have hheader : 36 ≤ (nlmsgLen n.mem).toNat := n.header_le
  have htail := n.tail_eq
  have hle : (nlmsgLen n.mem).toNat ≤ nlmsgTail n.mem := by
    rw [htail, align]
    omega
  have hkept : mem.slice 36 (nlmsgLen n.mem).toNat = n.mem.slice 36 (nlmsgLen n.mem).toNat :=
    Memory.slice_congr fun i hi hlt => hold i (by omega) (by omega)
  have hpad : (n.mem.slice 36 (nlmsgLen n.mem).toNat).length +
      (mem.slice (nlmsgLen n.mem).toNat (nlmsgTail n.mem)).length =
        align (n.mem.slice 36 (nlmsgLen n.mem).toNat).length := by
    rw [Memory.length_slice, Memory.length_slice, htail]
    simp only [align]
    omega
  have hbytes : mem.slice tcmsgLen (nlmsgLen mem).toNat =
      n.mem.slice 36 (nlmsgLen n.mem).toNat ++
        (mem.slice (nlmsgLen n.mem).toNat (nlmsgTail n.mem) ++ attr.bytes) := by
    rw [hnlmsg, tcmsgLen, Memory.slice_append (nlmsgLen n.mem).toNat hheader (by omega),
      Memory.slice_append (nlmsgTail n.mem) hle (by omega), hkept, hattr]
  rw [attributes, hbytes]
  exact walk_append hlen hwf hpad

end PFabric
