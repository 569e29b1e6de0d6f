import PFabric.Kernel.Qdisc
import PFabric.Tc.Options

/-!
# From the tc command line to the kernel

Two questions about `q_pfabric.c`: whether the options it has read arrive in the
kernel unchanged, and whether it reads what its usage text promises.  They do
arrive.  The text promises dequeue keywords without a value, but the loop steps
over one more argument after each of them.
-/

namespace PFabric

open Attributes

/-- The attribute with which tc names the kind of the qdisc. -/
def kindAttr : Attr := ⟨1, [0x70, 0x66, 0x61, 0x62, 0x72, 0x69, 0x63, 0x00]⟩

/-- A request as `pfabric_parse_opt` gets it: two headers and the kind. -/
def kindRequest : TcRequest where
  mem := fun i => (u32Bytes 48 ++ List.replicate 32 0 ++ kindAttr.bytes).getD i 0
  header_le := by decide
  len_lt := by decide

theorem attributes_kindRequest : attributes kindRequest.mem = ([kindAttr], []) := by
  have hslice : kindRequest.mem.slice tcmsgLen (nlmsgLen kindRequest.mem).toNat =
      kindAttr.bytes := by decide
  rw [attributes, hslice, walk_bytes (by decide)]

/-! ## Transport -/

section Transport

variable (getSize : String → Option (BitVec 32)) {argv : List String}
  {opt : TcPfabricQopt}

theorem pfabricParseOpt_of_options (h : parseArgs getSize defaultQopt argv = .options opt)
    (n : Memory) : pfabricParseOpt getSize argv n = sendOptions opt n := by
  rw [pfabricParseOpt, h]

/-- The kernel accepts the options attribute and takes over both options. -/
theorem pfabChange_optionsAttr (opt : TcPfabricQopt) (c : Ctx) :
    (pfabChange (some ⟨(optionsAttr opt).payload⟩) c).1 = 0 ∧
      (pfabChange (some ⟨(optionsAttr opt).payload⟩) c).2.sch.priv.limit = opt.limit ∧
      (pfabChange (some ⟨(optionsAttr opt).payload⟩) c).2.sch.priv.disableDequeue =
        opt.disableDequeue := by
  have hqopt := TcPfabricQopt.qopt_nlattr opt
  have hlen : ¬ opt.nlattr.payload.length < sizeofQopt := by
    rw [TcPfabricQopt.length_nlattr]
    exact lt_irrefl _
  change (pfabChange (some opt.nlattr) c).1 = 0 ∧
    (pfabChange (some opt.nlattr) c).2.sch.priv.limit = opt.limit ∧
    (pfabChange (some opt.nlattr) c).2.sch.priv.disableDequeue = opt.disableDequeue
  simp only [pfabChange, hlen, if_false, hqopt, and_self]

/-- Options that fit in the message reach the kernel unchanged, behind the old
attributes; the last store falls behind the message.  Options that do not fit
leave the request as it was. -/
theorem options_transported (hargs : parseArgs getSize defaultQopt argv = .options opt)
    (n : TcRequest) (hwf : (attributes n.mem).2 = []) :
    (nlmsgTail n.mem + 12 ≤ 1024 →
        ∃ sent attr, pfabricParseOpt getSize argv n.mem = .ret 0 sent "" ∧
          attributes sent = ((attributes n.mem).1 ++ [attr], []) ∧
          attr.type = tcaOptions ∧
          (∀ c, (pfabChange (some ⟨attr.payload⟩) c).1 = 0 ∧
            (pfabChange (some ⟨attr.payload⟩) c).2.sch.priv.limit = opt.limit ∧
            (pfabChange (some ⟨attr.payload⟩) c).2.sch.priv.disableDequeue =
              opt.disableDequeue) ∧
          ∀ i < (nlmsgLen sent).toNat,
            sent i = (addattrL n.mem 1024 tcaOptions opt.nlattr.payload).2 i) ∧
      (¬ nlmsgTail n.mem + 12 ≤ 1024 →
        pfabricParseOpt getSize argv n.mem = .ret (-1) n.mem addattrFailed) := by
  rw [pfabricParseOpt_of_options getSize hargs]
  rcases sendOptions_spec opt n hwf with ⟨hover, hsend⟩ | ⟨hfits, sent, hsend, hattrs, hkept⟩
  · exact ⟨fun hfits => absurd hfits (Nat.not_le_of_lt hover), fun _ => hsend⟩
  · exact ⟨fun _ => ⟨sent, optionsAttr opt, hsend, hattrs, rfl, pfabChange_optionsAttr opt, hkept⟩,
      fun hover => absurd hfits hover⟩

end Transport

/-- Arguments in abbreviated form, with a unit that stands for 1024. -/
theorem options_transported_kindRequest :
    ∃ sent attr,
      pfabricParseOpt (fun value => if value = "1k" then some 1024 else none) ["lim", "1k"]
          kindRequest.mem = .ret 0 sent "" ∧
        attributes sent = ([kindAttr] ++ [attr], []) ∧
        (pfabChange (some ⟨attr.payload⟩) ⟨Qdisc.alloc, ⟨.zero, [], ∅⟩⟩).2.sch.priv.limit =
          1024 := by
  obtain ⟨sent, attr, hret, hattrs, _, hkernel, _⟩ := (@options_transported
    (fun value => if value = "1k" then some 1024 else none) ["lim", "1k"] ⟨1024, 0⟩
    (by decide) kindRequest (by rw [attributes_kindRequest])).1 (by decide)
  rw [attributes_kindRequest] at hattrs
  exact ⟨sent, attr, hret, hattrs, (hkernel _).2.1⟩

/-! ## The usage grammar -/

/-- The keywords of the usage text: `limit`, and the two that set the dequeue
switch to a value. -/
inductive Keyword
  | limit
  | dequeue (disable : BitVec 32)
deriving DecidableEq

/-- The keyword an argument abbreviates, the first in order if several. -/
def keyword? (arg : String) : Option Keyword :=
  if matchesKeyword arg "limit" then some .limit
  else if matchesKeyword arg "disable_dequeue" then some (.dequeue 1)
  else if matchesKeyword arg "enable_dequeue" then some (.dequeue 0)
  else none

/-- What one group of arguments asks for. -/
inductive Setting
  | limit (packets : BitVec 32)
  | dequeue (disable : BitVec 32)

/-- Override the options by one setting. -/
def Setting.apply (opt : TcPfabricQopt) : Setting → TcPfabricQopt
  | .limit packets => { opt with limit := packets }
  | .dequeue disable => { opt with disableDequeue := disable }

section Grammar

variable (getSize : String → Option (BitVec 32))

/-- A group of the usage text: `limit PACKETS`, `disable_dequeue` or
`enable_dequeue`. -/
inductive Group : List String → Setting → Prop
  | limit {kw value : String} {packets : BitVec 32} (hkw : keyword? kw = some .limit)
      (hvalue : getSize value = some packets) : Group [kw, value] (.limit packets)
  | dequeue {kw : String} {disable : BitVec 32} (hkw : keyword? kw = some (.dequeue disable)) :
      Group [kw] (.dequeue disable)

/-- The argument lists of the usage text: groups in any number and order. -/
inductive Usage : List String → List Setting → Prop
  | nil : Usage [] []
  | cons {group rest : List String} {setting : Setting} {settings : List Setting}
      (hgroup : Group getSize group setting) (hrest : Usage rest settings) :
      Usage (group ++ rest) (setting :: settings)

/-- By the usage text, the arguments turn the options `opt₀` into `opt`. -/
def MeansFrom (opt₀ : TcPfabricQopt) (argv : List String) (opt : TcPfabricQopt) : Prop :=
  ∃ settings, Usage getSize argv settings ∧ opt = settings.foldl Setting.apply opt₀

variable {getSize} {opt₀ opt : TcPfabricQopt} {arg : String} {rest : List String}

theorem meansFrom_nil : MeansFrom getSize opt₀ [] opt ↔ opt = opt₀ := by
  constructor
  · rintro ⟨settings, husage, rfl⟩
    generalize hargv : ([] : List String) = argv at husage
    cases husage with
    | nil => rfl
    | cons hgroup => cases hgroup <;> cases hargv
  · rintro rfl
    exact ⟨[], Usage.nil, rfl⟩

/-- A group in front overrides the options first. -/
theorem MeansFrom.group {group : List String} {setting : Setting}
    (hgroup : Group getSize group setting)
    (h : MeansFrom getSize (setting.apply opt₀) rest opt) :
    MeansFrom getSize opt₀ (group ++ rest) opt := by
  obtain ⟨settings, husage, rfl⟩ := h
  exact ⟨setting :: settings, Usage.cons hgroup husage, rfl⟩

/-- An argument list that has a meaning starts with a group. -/
theorem MeansFrom.exists_group (h : MeansFrom getSize opt₀ (arg :: rest) opt) :
    ∃ group setting tail, arg :: rest = group ++ tail ∧ Group getSize group setting ∧
      MeansFrom getSize (setting.apply opt₀) tail opt := by
  obtain ⟨settings, husage, rfl⟩ := h
  generalize hargv : arg :: rest = argv at husage
  cases husage with
  | nil => cases hargv
  | cons hgroup hrest => exact ⟨_, _, _, rfl, hgroup, _, hrest, rfl⟩

theorem meansFrom_limit (hkw : keyword? arg = some .limit) :
    MeansFrom getSize opt₀ (arg :: rest) opt ↔
      ∃ value tail packets, rest = value :: tail ∧ getSize value = some packets ∧
        MeansFrom getSize { opt₀ with limit := packets } tail opt := by
  constructor
  · intro h
    obtain ⟨group, setting, tail, hargv, hgroup, hmeans⟩ := h.exists_group
    cases hgroup with
    | limit _ hvalue =>
        obtain ⟨rfl, rfl⟩ := List.cons.inj hargv
        exact ⟨_, tail, _, rfl, hvalue, hmeans⟩
    | dequeue hkw' =>
        obtain ⟨rfl, -⟩ := List.cons.inj hargv
        rw [hkw] at hkw'
        cases hkw'
  · rintro ⟨value, tail, packets, rfl, hvalue, hmeans⟩
    exact hmeans.group (Group.limit hkw hvalue)

theorem meansFrom_dequeue {disable : BitVec 32} (hkw : keyword? arg = some (.dequeue disable)) :
    MeansFrom getSize opt₀ (arg :: rest) opt ↔
      MeansFrom getSize { opt₀ with disableDequeue := disable } rest opt := by
  constructor
  · intro h
    obtain ⟨group, setting, tail, hargv, hgroup, hmeans⟩ := h.exists_group
    cases hgroup with
    | limit hkw' =>
        obtain ⟨rfl, -⟩ := List.cons.inj hargv
        rw [hkw] at hkw'
        cases hkw'
    | dequeue hkw' =>
        obtain ⟨rfl, rfl⟩ := List.cons.inj hargv
        rw [hkw] at hkw'
        cases hkw'
        exact hmeans
  · intro h
    exact MeansFrom.group (Group.dequeue hkw) h

theorem not_meansFrom_of_unknown (hkw : keyword? arg = none) :
    ¬ MeansFrom getSize opt₀ (arg :: rest) opt := by
  intro h
  obtain ⟨group, setting, tail, hargv, hgroup, _⟩ := h.exists_group
  cases hgroup with
  | limit hkw' | dequeue hkw' =>
      obtain ⟨rfl, -⟩ := List.cons.inj hargv
      rw [hkw] at hkw'
      cases hkw'

/-! ## Where the loop departs from the usage text -/

/-- Groups `limit PACKETS`, argument by argument. -/
def limitArgs (groups : List (String × String)) : List String :=
  groups.flatMap fun group => [group.1, group.2]

/-- The arguments do not begin with groups `limit PACKETS`, in any number, and a
dequeue keyword behind them: the loop reads no dequeue keyword. -/
def NoDequeueRead
    (getSize : String → Option (BitVec 32)) (argv : List String) : Prop :=
  ∀ groups arg rest, argv = limitArgs groups ++ arg :: rest →
    (∀ group ∈ groups,
      keyword? group.1 = some .limit ∧ getSize group.2 ≠ none) →
    ∀ disable, keyword? arg ≠ some (.dequeue disable)

theorem noDequeueRead_nil : NoDequeueRead getSize [] := by
  intro groups arg rest hargv
  exact absurd hargv.symm (List.append_ne_nil_of_right_ne_nil _ (by simp))

theorem NoDequeueRead.head
    (h : NoDequeueRead getSize (arg :: rest)) (disable : BitVec 32) :
    keyword? arg ≠ some (.dequeue disable) :=
  h [] arg rest rfl (by simp) disable

/-- Behind a group `limit PACKETS` the loop reads on. -/
theorem noDequeueRead_limit
    {value : String} {packets : BitVec 32}
    (hkw : keyword? arg = some .limit) (hvalue : getSize value = some packets) :
    NoDequeueRead getSize (arg :: value :: rest) ↔ NoDequeueRead getSize rest := by
  constructor
  · intro h groups arg' rest' hargv hgroups
    refine h ((arg, value) :: groups) arg' rest' (by rw [hargv]; rfl) ?_
    rw [List.forall_mem_cons]
    exact ⟨⟨hkw, by simp [hvalue]⟩, hgroups⟩
  · intro h groups arg' rest' hargv hgroups disable
    cases groups with
    | nil =>
        obtain ⟨rfl, -⟩ := List.cons.inj hargv
        simp [hkw]
    | cons group groups =>
        obtain ⟨-, htail⟩ := List.cons.inj hargv
        obtain ⟨-, htail⟩ := List.cons.inj htail
        rw [List.forall_mem_cons] at hgroups
        exact h groups arg' rest' htail hgroups.2 disable

/-- A shorter list leaves out keywords only. -/
theorem NoDequeueRead.of_prefix
    {front argv : List String} (h : NoDequeueRead getSize argv)
    (hfront : front <+: argv) : NoDequeueRead getSize front := by
  obtain ⟨back, rfl⟩ := hfront
  intro groups arg rest hargv
  refine h groups arg (rest ++ back) ?_
  rw [hargv, List.append_assoc, List.cons_append]

/-- One turn of the loop, by the keyword it reads. -/
theorem parseArgs_cons (arg : String) (rest : List String) :
    parseArgs getSize opt₀ (arg :: rest) =
      match keyword? arg, rest with
      | some _, [] => .exit incompleteCommand
      | some .limit, value :: rest =>
          match getSize value with
          | none => .illegal (explain1 "limit")
          | some limit => parseArgs getSize { opt₀ with limit := limit } rest
      | some (.dequeue disable), _ :: rest =>
          parseArgs getSize { opt₀ with disableDequeue := disable } rest
      | none, _ => .illegal (whatIs arg) := by
  rw [keyword?]
  cases rest with
  | nil =>
      rw [parseArgs]
      split_ifs <;> rfl
  | cons value rest =>
      rw [parseArgs]
      split_ifs <;> rfl

/-- Where no dequeue keyword is read, the loop gives the arguments the meaning of
the usage text. -/
theorem parseArgs_eq_options_iff
    {argv : List String} (h : NoDequeueRead getSize argv) :
    parseArgs getSize opt₀ argv = .options opt ↔ MeansFrom getSize opt₀ argv opt := by
  induction argv using List.twoStepInduction generalizing opt₀ with
  | nil => simp [parseArgs, meansFrom_nil, eq_comm]
  | singleton arg =>
      cases hkw : keyword? arg with
      | none => simp [parseArgs_cons, hkw, not_meansFrom_of_unknown hkw]
      | some kw =>
          cases kw with
          | limit => simp [parseArgs_cons, hkw, meansFrom_limit hkw]
          | dequeue disable => exact absurd hkw (h.head disable)
  | cons_cons arg value rest ih _ =>
      cases hkw : keyword? arg with
      | none => simp [parseArgs_cons, hkw, not_meansFrom_of_unknown hkw]
      | some kw =>
          cases kw with
          | dequeue disable => exact absurd hkw (h.head disable)
          | limit =>
              cases hsize : getSize value with
              | none => simp [parseArgs_cons, hkw, meansFrom_limit hkw, hsize]
              | some packets =>
                  rw [noDequeueRead_limit hkw hsize] at h
                  simp [parseArgs_cons, hkw, meansFrom_limit hkw, hsize, ih h]

/-- Arguments that end in a dequeue keyword behind groups `limit PACKETS` have a
meaning by the usage text, but the loop wants one more. -/
theorem parseArgs_dequeue_last
    {groups : List (String × String)} {disable : BitVec 32}
    (hgroups : ∀ group ∈ groups,
      keyword? group.1 = some .limit ∧ getSize group.2 ≠ none)
    (hkw : keyword? arg = some (.dequeue disable)) (opt₀ : TcPfabricQopt) :
    parseArgs getSize opt₀ (limitArgs groups ++ [arg]) = .exit incompleteCommand ∧
      ∃ opt, MeansFrom getSize opt₀ (limitArgs groups ++ [arg]) opt := by
  induction groups generalizing opt₀ with
  | nil =>
      refine ⟨by simp [limitArgs, parseArgs_cons, hkw],
        { opt₀ with disableDequeue := disable }, ?_⟩
      exact (meansFrom_dequeue hkw).mpr (meansFrom_nil.mpr rfl)
  | cons group groups ih =>
      rw [List.forall_mem_cons] at hgroups
      obtain ⟨⟨hlimit, hsize⟩, hgroups⟩ := hgroups
      obtain ⟨packets, hpackets⟩ := Option.ne_none_iff_exists'.mp hsize
      obtain ⟨hexit, opt, hmeans⟩ := ih hgroups { opt₀ with limit := packets }
      have hcons : limitArgs (group :: groups) ++ [arg] =
          group.1 :: group.2 :: (limitArgs groups ++ [arg]) := rfl
      rw [hcons]
      refine ⟨?_, opt, ?_⟩
      · rw [parseArgs_cons, hlimit]
        simp only [hpackets, hexit]
      · exact (meansFrom_limit hlimit).mpr ⟨_, _, packets, rfl, hpackets, hmeans⟩

/-- `pfabric_parse_opt` succeeds and appends these options to the request. -/
def Encodes (getSize : String → Option (BitVec 32)) (argv : List String) (n : TcRequest)
    (opt : TcPfabricQopt) : Prop :=
  ∃ sent, pfabricParseOpt getSize argv n.mem = .ret 0 sent "" ∧
    attributes sent = ((attributes n.mem).1 ++ [optionsAttr opt], [])

theorem optionsAttr_inj {opt opt' : TcPfabricQopt} (h : optionsAttr opt = optionsAttr opt') :
    opt = opt' := by
  have hpayload : opt.nlattr.payload = opt'.nlattr.payload := congrArg Attr.payload h
  have hnlattr : opt.nlattr = opt'.nlattr := congrArg Nlattr.mk hpayload
  rw [← opt.qopt_nlattr, hnlattr, opt'.qopt_nlattr]

/-- In a request with room, exactly the options the loop has read are sent. -/
theorem encodes_iff {argv : List String} {n : TcRequest} (hwf : (attributes n.mem).2 = [])
    (hroom : nlmsgTail n.mem + 12 ≤ 1024) :
    Encodes getSize argv n opt ↔ parseArgs getSize defaultQopt argv = .options opt := by
  cases hargs : parseArgs getSize defaultQopt argv with
  | options read =>
      obtain ⟨hover, _⟩ | ⟨_, sent, hsend, hattrs, _⟩ := sendOptions_spec read n hwf
      · exact absurd hroom (Nat.not_le_of_lt hover)
      · rw [Encodes, pfabricParseOpt_of_options getSize hargs, hsend]
        constructor
        · rintro ⟨sent', heq, hattrs'⟩
          cases heq
          rw [hattrs] at hattrs'
          have hlast := List.append_cancel_left (Prod.mk.inj hattrs').1
          rw [optionsAttr_inj (List.cons.inj hlast).1]
        · intro heq
          cases heq
          exact ⟨sent, rfl, hattrs⟩
  | illegal stderr => simp [Encodes, pfabricParseOpt, hargs]
  | exit stderr => simp [Encodes, pfabricParseOpt, hargs]

/-- The front end accepts an argument list and every list it begins with, and
encodes their options, as the usage text says exactly when no dequeue keyword
stands where the loop reads keywords. -/
theorem encodes_usage_iff
    (getSize : String → Option (BitVec 32)) (argv : List String)
    (n : TcRequest) (hwf : (attributes n.mem).2 = [])
    (hroom : nlmsgTail n.mem + 12 ≤ 1024) :
    (∀ front, front <+: argv → ∀ opt,
        Encodes getSize front n opt ↔ MeansFrom getSize defaultQopt front opt) ↔
      NoDequeueRead getSize argv := by
  constructor
  · rintro h groups arg rest rfl hgroups disable hkw
    obtain ⟨hexit, opt, hmeans⟩ := parseArgs_dequeue_last hgroups hkw defaultQopt
    have hfront : limitArgs groups ++ [arg] <+: limitArgs groups ++ arg :: rest :=
      ⟨rest, by simp⟩
    have hread := (encodes_iff hwf hroom).mp ((h _ hfront opt).mpr hmeans)
    rw [hexit] at hread
    cases hread
  · intro h front hfront opt
    rw [encodes_iff hwf hroom, parseArgs_eq_options_iff (h.of_prefix hfront)]

end Grammar

/-- Limits alone are read as the usage text says, the last one winning, also where
the value of one abbreviates a dequeue keyword. -/
theorem encodes_two_limits :
    Encodes (fun value => some (BitVec.ofNat 32 value.length))
        ["limit", "abc", "l", "di"] kindRequest ⟨2, 0⟩ ↔
      MeansFrom (fun value => some (BitVec.ofNat 32 value.length)) defaultQopt
        ["limit", "abc", "l", "di"] ⟨2, 0⟩ := by
  have hread : NoDequeueRead (fun value => some (BitVec.ofNat 32 value.length))
      ["limit", "abc", "l", "di"] :=
    (noDequeueRead_limit (by decide) rfl).mpr
      ((noDequeueRead_limit (by decide) rfl).mpr noDequeueRead_nil)
  exact (encodes_usage_iff _ _ kindRequest (by rw [attributes_kindRequest])
    (by decide)).mpr hread _ (List.prefix_refl _) ⟨2, 0⟩

/-- The usage text allows `disable_dequeue` on its own; the loop wants one more
argument and leaves the process. -/
theorem disable_dequeue_refused :
    (attributes kindRequest.mem).2 = [] ∧ nlmsgTail kindRequest.mem + 12 ≤ 1024 ∧
      ¬ ∀ opt, Encodes (fun _ => none) ["disable_dequeue"] kindRequest opt ↔
        MeansFrom (fun _ => none) defaultQopt ["disable_dequeue"] opt := by
  refine ⟨by rw [attributes_kindRequest], by decide, fun h => ?_⟩
  have husage : Usage (fun _ => none) ["disable_dequeue"] [.dequeue 1] :=
    Usage.cons (Group.dequeue (by decide)) Usage.nil
  obtain ⟨sent, hret, _⟩ := (h ⟨150, 1⟩).mpr ⟨_, husage, rfl⟩
  have hexit : parseArgs (fun _ => none) defaultQopt ["disable_dequeue"] =
      .exit incompleteCommand := by decide
  simp [pfabricParseOpt, hexit] at hret

end PFabric
