import Mathlib.Data.List.Basic
import Mathlib.Data.List.Range

/-!
# Flat byte memory

A memory maps offsets from some base address to bytes.  `poke` stores a string
of bytes and `slice` reads one back.
-/

namespace PFabric

/-- The bytes at the offsets from a base address. -/
abbrev Memory := ℕ → BitVec 8

namespace Memory

variable (mem : Memory)

/-- Store bytes at an offset. -/
def poke (offset : ℕ) (bytes : List (BitVec 8)) : Memory := fun i =>
  if offset ≤ i then bytes.getD (i - offset) (mem i) else mem i

/-- The bytes from `start` up to but not including `stop`. -/
def slice (start stop : ℕ) : List (BitVec 8) :=
  (List.range' start (stop - start)).map mem

variable {mem} {offset start stop : ℕ} {bytes : List (BitVec 8)}

theorem poke_of_lt {i : ℕ} (h : i < offset) : mem.poke offset bytes i = mem i :=
  if_neg (Nat.not_le_of_lt h)

theorem poke_of_le {i : ℕ} (h : offset + bytes.length ≤ i) :
    mem.poke offset bytes i = mem i := by
  rw [poke, if_pos (by omega), List.getD_eq_getElem?_getD,
    List.getElem?_eq_none (by omega), Option.getD_none]

@[simp] theorem length_slice : (mem.slice start stop).length = stop - start := by
  simp [slice]

theorem slice_congr {mem' : Memory} (h : ∀ i, start ≤ i → i < stop → mem' i = mem i) :
    mem'.slice start stop = mem.slice start stop := by
  apply List.map_congr_left
  intro i hi
  rw [List.mem_range'_1] at hi
  exact h i hi.1 (by omega)

theorem slice_append (mid : ℕ) (hstart : start ≤ mid) (hstop : mid ≤ stop) :
    mem.slice start stop = mem.slice start mid ++ mem.slice mid stop := by
  have hmid : start + (mid - start) = mid := by omega
  have hlen : stop - start = mid - start + (stop - mid) := by omega
  rw [slice, slice, slice, ← List.map_append, hlen, ← List.range'_append_1, hmid]

theorem slice_poke_of_le (h : stop ≤ offset) :
    (mem.poke offset bytes).slice start stop = mem.slice start stop :=
  slice_congr fun _ _ hi => poke_of_lt (by omega)

theorem slice_poke_of_ge (h : offset + bytes.length ≤ start) :
    (mem.poke offset bytes).slice start stop = mem.slice start stop :=
  slice_congr fun _ hi _ => poke_of_le (by omega)

theorem slice_poke : (mem.poke offset bytes).slice offset (offset + bytes.length) = bytes := by
  apply List.ext_getElem
  · simp
  · intro i hi hi'
    simp [slice, poke, hi']

end Memory
end PFabric
