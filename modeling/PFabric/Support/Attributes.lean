import Mathlib.Data.List.Basic
import Mathlib.Data.BitVec

/-!
# Streams of aligned attributes

A stream is a sequence of records, each made of a 16-bit length, a 16-bit type
and a payload.  The length counts the four header bytes; a record is followed
by padding up to the next multiple of four, which may be missing at the end of
the stream.  `walk` reads the records of a stream and returns what it could not
read; a stream is well formed when nothing is left.

The main result is that a record appended at the aligned end of a well-formed
stream is read after all others.
-/

namespace PFabric
namespace Attributes

/-- Round a length up to a multiple of four. -/
def align (len : ℕ) : ℕ := (len + 3) / 4 * 4

/-- The 16-bit number stored at an offset, least significant byte first. -/
def u16At (bytes : List (BitVec 8)) (offset : ℕ) : BitVec 16 :=
  bytes.getD (offset + 1) 0 ++ bytes.getD offset 0

/-- The two bytes of a 16-bit number, least significant first. -/
def u16Bytes (v : BitVec 16) : List (BitVec 8) :=
  [v.extractLsb' 0 8, v.extractLsb' 8 8]

theorem u16At_u16Bytes (v : BitVec 16) (rest : List (BitVec 8)) :
    u16At (u16Bytes v ++ rest) 0 = v := by
  apply BitVec.eq_of_getLsbD_eq
  intro i hi
  simp only [u16At, u16Bytes, List.cons_append, List.nil_append, Nat.zero_add,
    List.getD_cons_zero, List.getD_cons_succ, BitVec.getLsbD_append,
    BitVec.getLsbD_extractLsb']
  split_ifs with h
  · simp [h]
  · have hsub : 8 + (i - 8) = i := by omega
    have hlt : i - 8 < 8 := by omega
    simp [hsub, hlt]

theorem u16At_append {bytes : List (BitVec 8)} {offset : ℕ}
    (h : offset + 2 ≤ bytes.length) (rest : List (BitVec 8)) :
    u16At (bytes ++ rest) offset = u16At bytes offset := by
  have hbyte : ∀ i < bytes.length, (bytes ++ rest).getD i 0 = bytes.getD i 0 := by
    intro i hi
    rw [List.getD_eq_getElem?_getD, List.getD_eq_getElem?_getD, List.getElem?_append_left hi]
  rw [u16At, u16At, hbyte _ (by omega), hbyte _ (by omega)]

/-- A record of a stream. -/
structure Attr where
  type : BitVec 16
  payload : List (BitVec 8)
deriving DecidableEq

/-- The length a record's header states. -/
def Attr.len (attr : Attr) : ℕ := 4 + attr.payload.length

/-- The bytes of a record. -/
def Attr.bytes (attr : Attr) : List (BitVec 8) :=
  u16Bytes (BitVec.ofNat 16 attr.len) ++ u16Bytes attr.type ++ attr.payload

/-- The length stated at the start of the stream. -/
def statedLen (bytes : List (BitVec 8)) : ℕ := (u16At bytes 0).toNat

/-- The stream starts with a whole record. -/
def Readable (bytes : List (BitVec 8)) : Prop :=
  4 ≤ bytes.length ∧ 4 ≤ statedLen bytes ∧ statedLen bytes ≤ bytes.length

instance (bytes : List (BitVec 8)) : Decidable (Readable bytes) :=
  inferInstanceAs (Decidable (_ ∧ _ ∧ _))

/-- The record at the start of a stream. -/
def first (bytes : List (BitVec 8)) : Attr where
  type := u16At bytes 2
  payload := (bytes.take (statedLen bytes)).drop 4

theorem length_sub_lt {bytes : List (BitVec 8)} (h : Readable bytes) :
    bytes.length - align (statedLen bytes) < bytes.length := by
  obtain ⟨hlength, hstated, _⟩ := h
  rw [align]
  omega

/-- The records of a stream, and what is left when no further one can be read. -/
def walk (bytes : List (BitVec 8)) : List Attr × List (BitVec 8) :=
  if h : Readable bytes then
    have := length_sub_lt h
    let r := walk (bytes.drop (align (statedLen bytes)))
    (first bytes :: r.1, r.2)
  else ([], bytes)
termination_by bytes.length

theorem walk_of_readable {bytes : List (BitVec 8)} (h : Readable bytes) :
    walk bytes =
      (first bytes :: (walk (bytes.drop (align (statedLen bytes)))).1,
        (walk (bytes.drop (align (statedLen bytes)))).2) := by
  rw [walk, dif_pos h]

theorem walk_of_not_readable {bytes : List (BitVec 8)} (h : ¬ Readable bytes) :
    walk bytes = ([], bytes) := by
  rw [walk, dif_neg h]

@[simp] theorem walk_nil : walk [] = ([], []) :=
  walk_of_not_readable fun h => absurd h.1 (by decide)

/-- Nothing is left over. -/
def WellFormed (bytes : List (BitVec 8)) : Prop := (walk bytes).2 = []

/-! ## One record -/

theorem Attr.length_bytes (attr : Attr) : attr.bytes.length = attr.len := by
  simp [Attr.bytes, Attr.len, u16Bytes]
  omega

theorem Attr.statedLen_bytes {attr : Attr} (h : attr.len < 2 ^ 16) :
    statedLen attr.bytes = attr.len := by
  rw [statedLen, Attr.bytes, List.append_assoc, u16At_u16Bytes, BitVec.toNat_ofNat]
  exact Nat.mod_eq_of_lt h

theorem Attr.first_bytes {attr : Attr} (h : attr.len < 2 ^ 16) : first attr.bytes = attr := by
  have htype : u16At attr.bytes 2 = attr.type := by
    have hshift : u16At attr.bytes 2 = u16At (attr.bytes.drop 2) 0 := by
      simp [u16At, List.getD_eq_getElem?_getD, List.getElem?_drop]
    rw [hshift, Attr.bytes, List.append_assoc]
    exact u16At_u16Bytes attr.type attr.payload
  have hpayload : (attr.bytes.take (statedLen attr.bytes)).drop 4 = attr.payload := by
    rw [Attr.statedLen_bytes h, ← attr.length_bytes, List.take_length]
    rfl
  rw [first, htype, hpayload]

/-- A record is a well-formed stream of itself. -/
theorem walk_bytes {attr : Attr} (h : attr.len < 2 ^ 16) : walk attr.bytes = ([attr], []) := by
  have hstated := Attr.statedLen_bytes h
  have hlength := attr.length_bytes
  have hreadable : Readable attr.bytes := by
    refine ⟨?_, ?_, ?_⟩
    · rw [hlength, Attr.len]
      omega
    · rw [hstated, Attr.len]
      omega
    · rw [hstated, hlength]
  have hrest : attr.bytes.drop (align (statedLen attr.bytes)) = [] := by
    rw [List.drop_eq_nil_iff, hstated, hlength, align]
    omega
  rw [walk_of_readable hreadable, hrest, walk_nil, Attr.first_bytes h]

/-! ## Appending a record -/

theorem align_mono {m n : ℕ} (h : m ≤ n) : align m ≤ align n := by
  simp only [align]
  omega

variable {bytes : List (BitVec 8)}

theorem statedLen_append (h : 4 ≤ bytes.length) (rest : List (BitVec 8)) :
    statedLen (bytes ++ rest) = statedLen bytes := by
  rw [statedLen, u16At_append (by omega), statedLen]

theorem Readable.append (h : Readable bytes) (rest : List (BitVec 8)) :
    Readable (bytes ++ rest) := by
  obtain ⟨hlength, hstated, hle⟩ := h
  rw [Readable, statedLen_append hlength, List.length_append]
  omega

theorem first_append (h : Readable bytes) (rest : List (BitVec 8)) :
    first (bytes ++ rest) = first bytes := by
  rw [first, first, u16At_append h.1, statedLen_append h.1,
    List.take_append_of_le_length h.2.2]

/-- Reading on past a record of the old part leaves the appended part in place,
together with as much padding as the rest of the old part needs. -/
theorem drop_align_append {len : ℕ} {pad : List (BitVec 8)} (hlen : len ≤ bytes.length)
    (hpad : bytes.length + pad.length = align bytes.length) (rest : List (BitVec 8)) :
    ∃ pad', (bytes ++ (pad ++ rest)).drop (align len) = bytes.drop (align len) ++ (pad' ++ rest) ∧
      (bytes.drop (align len)).length + pad'.length =
        align (bytes.drop (align len)).length := by
  refine ⟨pad.drop (align len - bytes.length), ?_, ?_⟩
  · have hle := align_mono hlen
    rw [List.drop_append, List.drop_append_of_le_length (by omega)]
  · rw [List.length_drop, List.length_drop]
    simp only [align] at hpad ⊢
    omega

/-- A record appended to a well-formed stream, after padding to its aligned
end, is read after all others. -/
theorem walk_append {pad : List (BitVec 8)} {attr : Attr} (hattr : attr.len < 2 ^ 16)
    (hbytes : WellFormed bytes) (hpad : bytes.length + pad.length = align bytes.length) :
    walk (bytes ++ (pad ++ attr.bytes)) = ((walk bytes).1 ++ [attr], []) := by
  induction bytes using walk.induct generalizing pad with
  | case1 bytes h _ ih =>
      rw [WellFormed, walk_of_readable h] at hbytes
      obtain ⟨pad', hdrop, hpad'⟩ := drop_align_append h.2.2 hpad attr.bytes
      rw [walk_of_readable (h.append _), first_append h, statedLen_append h.1, hdrop,
        ih hbytes hpad', walk_of_readable h]
      rfl
  | case2 bytes h =>
      rw [WellFormed, walk_of_not_readable h] at hbytes
      have hnil : bytes = [] := hbytes
      subst hnil
      have hpad' : pad = [] := by
        rw [← List.length_eq_zero_iff]
        simpa [align] using hpad
      rw [hpad', List.nil_append, List.nil_append, walk_bytes hattr, walk_nil]
      rfl

end Attributes
end PFabric
