import PFabric.Support.Numerals

/-!
# Handles of qdiscs and classes

The functions of `tc_util.c` which read and print the identifiers of qdiscs and classes:
two numbers of 16 bits, written in hexadecimal with a colon between them.  A `long` has
64 bits and is cut to 32 before its range is checked.
-/

namespace PFabric

open Numerals

/-! ## The source -/

/-- `TC_H_UNSPEC`. -/
def tcHUnspec : BitVec 32 := 0#32

/-- `TC_H_ROOT`. -/
def tcHRoot : BitVec 32 := 0xFFFFFFFF#32

/-- `TC_H_MAJ`. -/
def tcHMaj (h : BitVec 32) : BitVec 32 := h &&& 0xFFFF0000#32

/-- `TC_H_MIN`. -/
def tcHMin (h : BitVec 32) : BitVec 32 := h &&& 0x0000FFFF#32

/-- `get_qdisc_handle`; there is no result where it returns -1. -/
def getQdiscHandle (str : Text) : Option (BitVec 32) :=
  if str = "none".toList then some tcHUnspec
  else
    let (maj, p) := strtoul 16 str
    if p = str then none
    else
      let maj := maj.setWidth 32 <<< 16
      if p.head? ≠ some ':' ∧ p ≠ [] then none else some maj

/-- `get_tc_classid`. -/
def getTcClassid (str : Text) : Option (BitVec 32) :=
  if str = "root".toList then some tcHRoot
  else if str = "none".toList then some tcHUnspec
  else
    let (maj, p) := strtoul 16 str
    let maj := if p = str then 0#32 else maj.setWidth 32
    if p = str ∧ p.head? ≠ some ':' then none
    else
      match p with
      | [] => some maj
      | c :: str =>
          if c ≠ ':' then none
          else if 0x10000#32 ≤ maj then none
          else
            let maj := maj <<< 16
            let (min, p) := strtoul 16 str
            let min := min.setWidth 32
            if p ≠ [] then none
            else if 0x10000#32 ≤ min then none
            else some (maj ||| min)

/-- `%x`. -/
def hex (v : BitVec 32) : Text := Nat.toDigits 16 v.toNat

/-- `snprintf` cuts what it prints. -/
def snprintf (len : ℕ) (t : Text) : Text := t.take (len - 1)

/-- `print_tc_classid`: what is in `buf` afterwards. -/
def printTcClassid (len : ℕ) (h : BitVec 32) : Text :=
  if h = tcHRoot then "root".toList
  else if h = tcHUnspec then snprintf len "none".toList
  else if tcHMaj h = 0#32 then snprintf len (':' :: hex (tcHMin h))
  else if tcHMin h = 0#32 then snprintf len (hex (tcHMaj h >>> 16) ++ [':'])
  else snprintf len (hex (tcHMaj h >>> 16) ++ ':' :: hex (tcHMin h))

/-- `print_qdisc_handle`. -/
def printQdiscHandle (len : ℕ) (h : BitVec 32) : Text :=
  snprintf len (hex (tcHMaj h >>> 16) ++ [':'])

end PFabric
