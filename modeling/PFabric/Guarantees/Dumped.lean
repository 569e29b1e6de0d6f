import PFabric.Buffer.Steps
import PFabric.Guarantees.FrontEnd
import PFabric.Kernel.Dump

/-!
# Dumped options

What `pfab_dump` reports of a qdisc is what it was last told: the options of its
creation or of the last change that was accepted since.  A reset does not count, although
it puts the defaults into the statistics.  The dumped attribute sets up a new qdisc with
the same options.
-/

namespace PFabric

open Attributes

/-! ## The options told -/

/-- The options after a call. -/
def TcPfabricQopt.told (qopt : TcPfabricQopt) (op : Op) : TcPfabricQopt :=
  op.sets.getD qopt

/-- The options in force. -/
def options (c : Ctx) : TcPfabricQopt := (view c).options

theorem options_next (c : Ctx) (op : Op) :
    options (qdisc.next c op) = (options c).told op := by
  obtain ⟨freed, hstep, -⟩ := step_qdisc c op
  exact hstep.options_eq

theorem options_exec (c : Ctx) (ops : List Op) :
    options (qdisc.exec c ops) = ops.foldl TcPfabricQopt.told (options c) := by
  induction ops generalizing c with
  | nil => rfl
  | cons op ops ih => rw [Machine.exec_cons, ih, options_next, List.foldl_cons]

/-- A new qdisc has the options of its creation, unless these are malformed. -/
theorem options_pfabInit
    {opt : Option Nlattr} (hopt : ∀ attr ∈ opt, sizeofQopt ≤ attr.payload.length)
    (dev : String) (created : String → Bool) (c : Ctx) :
    options (pfabInit opt dev created c).2 = initialOptions opt := by
  rw [pfabInit_eq]
  cases opt with
  | none => rfl
  | some attr =>
      have hlen : ¬ attr.payload.length < sizeofQopt := not_lt.mpr (hopt attr rfl)
      simp only [Option.isSome_some, if_true, pfabChange, hlen, if_false, initialOptions,
        Option.bind_some, Nlattr.qopt?_of_le (hopt attr rfl)]
      rfl

/-- A qdisc that was created has been given no malformed options. -/
theorem le_length_of_pfabInit {opt : Option Nlattr} {dev : String} {created : String → Bool}
    {c c' : Ctx} (h : pfabInit opt dev created c = (0, c')) :
    ∀ attr ∈ opt, sizeofQopt ≤ attr.payload.length := by
  rintro attr rfl
  by_contra hlt
  have hlen : attr.payload.length < sizeofQopt := not_le.mp hlt
  have hcode : (pfabInit (some attr) dev created c).1 = -einval := by
    rw [pfabInit_eq]
    simp only [Option.isSome_some, if_true, pfabChange, hlen]
    rfl
  have hzero : (0 : ℤ) = -einval := by rwa [h] at hcode
  exact absurd hzero (by decide)

theorem options_pfabInit_optionsAttr
    (qopt : TcPfabricQopt) (dev : String) (created : String → Bool) (c : Ctx) :
    options (pfabInit (some ⟨(optionsAttr qopt).payload⟩) dev created c).2 = qopt := by
  rw [options_pfabInit]
  · exact congrArg (Option.getD · _) qopt.qopt?_nlattr
  · rintro attr hattr
    obtain rfl := Option.some.inj hattr
    exact qopt.length_nlattr.ge

/-! ## What is dumped -/

section Dump

variable {calls : NetlinkCalls} (hcalls : calls.Lawful)
include hcalls

/-- A message with whole attributes takes the options as its last attribute, or has no
room for them and stays as it is. -/
theorem walk_pfabDump
    (c : Ctx) {skb : DumpSkb} (hheader : tcmsgLen ≤ skb.data.length)
    (halign : skb.data.length % 4 = 0) (hwf : WellFormed (skb.data.drop tcmsgLen))
    (hroom : 12 ≤ skb.tailroom) :
    (pfabDump calls c skb).1 = (pfabDump calls c skb).2.data.length ∧
      walk ((pfabDump calls c skb).2.data.drop tcmsgLen) =
        ((walk (skb.data.drop tcmsgLen)).1 ++ [optionsAttr (options c)], []) := by
  rw [pfabDump_eq hcalls, if_neg (not_lt.mpr hroom)]
  refine ⟨?_, ?_⟩
  · rw [List.length_append, Attr.length_bytes, len_optionsAttr]
  · have hpad : (skb.data.drop tcmsgLen).length + ([] : List (BitVec 8)).length =
        align (skb.data.drop tcmsgLen).length := by
      rw [List.length_drop, List.length_nil, align]
      change 36 ≤ skb.data.length at hheader
      change skb.data.length - 36 + 0 = (skb.data.length - 36 + 3) / 4 * 4
      omega
    have hwalk := walk_append (len_optionsAttr_lt (options c)) hwf hpad
    rw [List.nil_append] at hwalk
    rw [List.drop_append_of_le_length hheader]
    exact hwalk

/-- In every state a qdisc can reach, a dump into a message with room appends one attribute,
which holds the options it was last told, sets up any new qdisc with these, and changes
any other one to them.  Without room the dump fails and leaves the message as it is. -/
theorem dumped_options
    {opt : Option Nlattr} {dev : String} {created : String → Bool}
    {kern : Kernel} {c : Ctx}
    (hinit : pfabInit opt dev created ⟨Qdisc.alloc, kern⟩ = (0, c))
    (ops : List Op) (skb : DumpSkb) (hheader : tcmsgLen ≤ skb.data.length)
    (halign : skb.data.length % 4 = 0)
    (hwf : WellFormed (skb.data.drop tcmsgLen)) :
    (12 ≤ skb.tailroom → ∃ attr,
        (pfabDump calls (qdisc.exec c ops) skb).1 =
          (pfabDump calls (qdisc.exec c ops) skb).2.data.length ∧
        walk ((pfabDump calls (qdisc.exec c ops) skb).2.data.drop tcmsgLen) =
          ((walk (skb.data.drop tcmsgLen)).1 ++ [attr], []) ∧
        attr.type = tcaOptions ∧
        ∀ dev created c',
          options (pfabInit (some ⟨attr.payload⟩) dev created c').2 =
              ops.foldl TcPfabricQopt.told (initialOptions opt) ∧
            options (pfabChange (some ⟨attr.payload⟩) c').2 =
              ops.foldl TcPfabricQopt.told (initialOptions opt)) ∧
      (¬ 12 ≤ skb.tailroom → pfabDump calls (qdisc.exec c ops) skb = (-1, skb)) := by
  have htold : options (qdisc.exec c ops) =
      ops.foldl TcPfabricQopt.told (initialOptions opt) := by
    have hcreated := options_pfabInit (le_length_of_pfabInit hinit) dev created
      ⟨Qdisc.alloc, kern⟩
    rw [hinit] at hcreated
    rw [options_exec, hcreated]
  refine ⟨fun hroom => ?_, fun hroom => ?_⟩
  · obtain ⟨hlen, hwalk⟩ :=
      walk_pfabDump hcalls (qdisc.exec c ops) hheader halign hwf hroom
    refine ⟨_, hlen, hwalk, rfl, fun dev created c' => ⟨?_, ?_⟩⟩
    · rw [options_pfabInit_optionsAttr, htold]
    · obtain ⟨-, hlimit, hdisable⟩ := pfabChange_optionsAttr (options (qdisc.exec c ops)) c'
      rw [← htold]
      exact congrArg₂ TcPfabricQopt.mk hlimit hdisable
  · rw [pfabDump_eq hcalls, if_pos (not_le.mp hroom)]

end Dump

/-- Calls that meet what is promised of them: the padding is zero, and the code of an
error is that of a message too long. -/
def plainCalls : NetlinkCalls where
  nlaPut skb type payload :=
    let attr : Attr := ⟨type, payload⟩
    let padding := List.replicate (align attr.len - attr.len) 0
    if skb.tailroom < align attr.len then (-90, skb)
    else (0, ⟨skb.data ++ (attr.bytes ++ padding), skb.tailroom - align attr.len⟩)
  nlaNestEnd skb start :=
    (skb.data.length, { skb with data := skb.data.take start ++
      (u16Bytes (BitVec.ofNat 16 (skb.data.length - start)) ++ skb.data.drop (start + 2)) })
  nlmsgTrim skb mark :=
    ⟨skb.data.take mark, skb.tailroom + (skb.data.length - mark)⟩

theorem plainCalls_lawful : plainCalls.Lawful where
  put_of_fits skb attr hfits :=
    ⟨_, List.length_replicate, if_neg (not_lt.mpr hfits)⟩
  put_of_exceeds skb attr hexceeds := by
    have hput : plainCalls.nlaPut skb attr.type attr.payload = (-90, skb) :=
      if_pos hexceeds
    rw [hput]
    exact ⟨show (-90 : ℤ) ≠ 0 by decide, rfl⟩
  nest_end _ _ _ := rfl
  trim _ _ _ := rfl

/-- A message that names the kind takes the options of a qdisc which has been changed, reset
and then sent a request that is too short. -/
theorem dumped_options_after_reset :
    ∃ attr, walk ((pfabDump plainCalls
        (qdisc.exec setup [configure 7 1, .reset, .change (some ⟨[]⟩)])
        ⟨List.replicate tcmsgLen 0 ++ kindAttr.bytes, 12⟩).2.data.drop tcmsgLen) =
          ([kindAttr] ++ [attr], []) ∧
      ∀ dev created c',
        options (pfabInit (some ⟨attr.payload⟩) dev created c').2 = ⟨7, 1⟩ := by
  have hdrop : (List.replicate tcmsgLen 0 ++ kindAttr.bytes).drop tcmsgLen =
      kindAttr.bytes := by decide
  have hwalk : walk kindAttr.bytes = ([kindAttr], []) := walk_bytes (by decide)
  have hinit : pfabInit none "lo" (fun _ => true) ⟨Qdisc.alloc, ⟨.zero, [], ∅⟩⟩ =
      (0, setup) := rfl
  obtain ⟨attr, -, hattrs, -, hnew⟩ := (dumped_options plainCalls_lawful hinit
    [configure 7 1, .reset, .change (some ⟨[]⟩)]
    ⟨List.replicate tcmsgLen 0 ++ kindAttr.bytes, 12⟩ (by decide) (by decide)
    (by rw [hdrop, WellFormed, hwalk])).1 (le_refl 12)
  rw [hdrop, hwalk] at hattrs
  refine ⟨attr, hattrs, fun dev created c' => ?_⟩
  rw [(hnew dev created c').1]
  decide

end PFabric
