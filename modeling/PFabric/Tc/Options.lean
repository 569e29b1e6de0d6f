import PFabric.Support.Printf
import PFabric.Tc.Netlink

/-!
# The tc front end of the qdisc

`q_pfabric.c` turns the arguments of a `tc qdisc` command into the options
attribute of the request, and prints such an attribute.  `get_size`, which reads
a number with an optional unit, is a parameter: any partial function from
strings to 32-bit values.
-/

namespace PFabric

open Attributes

/-! ## Messages -/

/-- What `explain` prints. -/
def explain : String :=
  "Usage: ... pfabric [ limit PACKETS ] \n" ++
    "\t\t\t\t\t[ disable_dequeue ] \n" ++
    "\t\t\t\t\t[ enable_dequeue ] \n"

/-- What `explain1` prints. -/
def explain1 (arg : String) : String := "Illegal \"" ++ arg ++ "\"\n"

/-- What is printed about an argument that is no keyword. -/
def whatIs (arg : String) : String := "What is \"" ++ arg ++ "\"?\n" ++ explain

/-- What `incomplete_command` prints. -/
def incompleteCommand : String :=
  "Command line is not complete. Try option \"help\"\n"

/-- What is printed when the attribute does not fit. -/
def addattrFailed : String :=
  "addattr_l ERROR: message exceeded bound of 1024\n" ++ "q_pfabric: addattr_l failed\n"

/-! ## The arguments -/

/-- `matches(cmd, pattern) == 0`: the argument abbreviates the keyword. -/
def matchesKeyword (cmd pattern : String) : Bool :=
  cmd.toList.isPrefixOf pattern.toList

/-- How the argument loop of `pfabric_parse_opt` ends: with options, with a
`return -1`, or with the exit of the process. -/
inductive LoopEnd
  | options (opt : TcPfabricQopt)
  | illegal (stderr : String)
  | exit (stderr : String)
deriving DecidableEq

/-- The options before any argument is read. -/
def defaultQopt : TcPfabricQopt := ⟨150, 0⟩

section Parse

variable (getSize : String → Option (BitVec 32))

/-- The argument loop of `pfabric_parse_opt`.  `NEXT_ARG` steps to the next
argument and leaves the process if there is none. -/
def parseArgs (opt : TcPfabricQopt) : List String → LoopEnd
  | [] => .options opt
  | arg :: rest =>
      if matchesKeyword arg "limit" then
        match rest with
        | [] => .exit incompleteCommand
        | value :: rest =>
            match getSize value with
            | none => .illegal (explain1 "limit")
            | some limit => parseArgs { opt with limit := limit } rest
      else if matchesKeyword arg "disable_dequeue" then
        match rest with
        | [] => .exit incompleteCommand
        | _ :: rest => parseArgs { opt with disableDequeue := 1 } rest
      else if matchesKeyword arg "enable_dequeue" then
        match rest with
        | [] => .exit incompleteCommand
        | _ :: rest => parseArgs { opt with disableDequeue := 0 } rest
      else .illegal (whatIs arg)

/-! ## The request -/

/-- How `pfabric_parse_opt` ends: it returns a code and leaves the request as
given, or the process exits. -/
inductive ParseEnd
  | ret (code : ℤ) (n : Memory) (stderr : String)
  | exit (stderr : String)

/-- `TCA_OPTIONS`. -/
def tcaOptions : BitVec 16 := 2

/-- The end of `pfabric_parse_opt`: the attribute is appended, and the length of
an attribute at the new tail is set to the distance of the tail from itself. -/
def sendOptions (opt : TcPfabricQopt) (n : Memory) : ParseEnd :=
  let r := addattrL n 1024 tcaOptions opt.nlattr.payload
  if r.1 < 0 then .ret (-1) r.2 addattrFailed
  else
    let n := r.2
    let tail := nlmsgTail n
    .ret 0 (n.poke tail (u16Bytes (BitVec.ofNat 16 (nlmsgTail n - tail)))) ""

/-- `pfabric_parse_opt`. -/
def pfabricParseOpt (argv : List String) (n : Memory) : ParseEnd :=
  match parseArgs getSize defaultQopt argv with
  | .options opt => sendOptions opt n
  | .illegal stderr => .ret (-1) n stderr
  | .exit stderr => .exit stderr

end Parse

/-! ## What is sent -/

/-- The attribute that carries the options. -/
def optionsAttr (opt : TcPfabricQopt) : Attr := ⟨tcaOptions, opt.nlattr.payload⟩

/-- `pfabric_print_opt`: the code it returns, and what it writes to `f` and to
`stderr`.  The attribute is not `NULL`; the source reads its length before it
tests for that. -/
def pfabricPrintOpt (opt : Attr) : ℤ × Text × String :=
  let len : ℤ := opt.payload.length - sizeofQopt
  if len < 0 then (-1, [], "options size error\n")
  else
    let qopt := (Nlattr.mk opt.payload).qopt
    (0, Printf.printf [.lit "limit ", .conv .d] [Printf.u32 qopt.limit] ++
      Printf.printf [.lit "disable_dequeue ", .conv .d] [Printf.u32 qopt.disableDequeue], "")

theorem len_optionsAttr (opt : TcPfabricQopt) : (optionsAttr opt).len = 12 := rfl

theorem len_optionsAttr_lt (opt : TcPfabricQopt) : (optionsAttr opt).len < 2 ^ 16 := by
  rw [len_optionsAttr]
  decide

/-- The store behind the new tail leaves the message as it is. -/
theorem attributes_poke_tail (n : Memory) (tail : ℕ) (htail : (nlmsgLen n).toNat ≤ tail)
    (hlen : 4 ≤ tail) (bytes : List (BitVec 8)) :
    nlmsgLen (n.poke tail bytes) = nlmsgLen n ∧
      attributes (n.poke tail bytes) = attributes n := by
  have hnlmsg : nlmsgLen (n.poke tail bytes) = nlmsgLen n := by
    rw [nlmsgLen, nlmsgLen, Memory.slice_poke_of_le hlen]
  exact ⟨hnlmsg, by rw [attributes, attributes, hnlmsg, Memory.slice_poke_of_le htail]⟩

/-- What `pfabric_parse_opt` does with the options it has read: if they fit, it
returns 0, and the old attributes are followed by the options; if not, it
returns -1 with the request untouched. -/
theorem sendOptions_spec (opt : TcPfabricQopt) (n : TcRequest)
    (hwf : (attributes n.mem).2 = []) :
    (1024 < nlmsgTail n.mem + 12 ∧ sendOptions opt n.mem = .ret (-1) n.mem addattrFailed) ∨
      (nlmsgTail n.mem + 12 ≤ 1024 ∧
        ∃ sent, sendOptions opt n.mem = .ret 0 sent "" ∧
          attributes sent = ((attributes n.mem).1 ++ [optionsAttr opt], []) ∧
          ∀ i < (nlmsgLen sent).toNat,
            sent i = (addattrL n.mem 1024 tcaOptions opt.nlattr.payload).2 i) := by
  have hspec := addattrL_spec n 1024 (by decide) (optionsAttr opt)
    (len_optionsAttr_lt opt) (by simp [len_optionsAttr])
  rw [len_optionsAttr] at hspec
  rcases hspec with ⟨hover, heq⟩ | ⟨hfits, mem, heq, hlen, hattr, hold⟩
  · have hfail : addattrL n.mem 1024 tcaOptions opt.nlattr.payload = (-1, n.mem) := heq
    refine Or.inl ⟨hover, ?_⟩
    simp only [sendOptions, hfail]
    rfl
  · have hdone : addattrL n.mem 1024 tcaOptions opt.nlattr.payload = (0, mem) := heq
    -- the new length is a multiple of four, so the new tail is the message's end
    have htail : nlmsgTail mem = (nlmsgLen mem).toNat := by
      rw [nlmsgTail, toNat_nlmsgAlign (by omega), hlen, n.tail_eq]
      simp only [align]
      omega
    have hsent := attributes_poke_tail mem (nlmsgTail mem) (by omega) (by omega)
      (u16Bytes (BitVec.ofNat 16 (nlmsgTail mem - nlmsgTail mem)))
    have hend : sendOptions opt n.mem = .ret 0 (mem.poke (nlmsgTail mem)
        (u16Bytes (BitVec.ofNat 16 (nlmsgTail mem - nlmsgTail mem)))) "" := by
      simp only [sendOptions, hdone]
      rfl
    refine Or.inr ⟨hfits, _, hend, ?_, ?_⟩
    · rw [hsent.2]
      exact attributes_of_appended n hwf (len_optionsAttr_lt opt) hlen hattr hold
    · intro i hi
      rw [hsent.1] at hi
      rw [hdone, Memory.poke_of_lt (by omega)]

end PFabric
