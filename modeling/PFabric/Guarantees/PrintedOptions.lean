import PFabric.Guarantees.FrontEnd

/-!
# Printed options as arguments

`pfabric_print_opt` writes options in what looks like the form in which
`pfabric_parse_opt` takes them.  The first number runs into the keyword behind
it, and the second one, which the loop would have to step over, is read as a
keyword of its own.
-/

namespace PFabric

open Text

/-- What is printed for the options, split at white space. -/
def printedArgs (opt : TcPfabricQopt) : List String :=
  (words (pfabricPrintOpt (optionsAttr opt)).2.1).map String.ofList

/-- Printed options are accepted as arguments and mean the same. -/
def ParsesBack (getSize : String → Option (BitVec 32)) (n : TcRequest)
    (opt : TcPfabricQopt) : Prop :=
  Encodes getSize (printedArgs opt) n opt

/-- `get_size` reads decimal numerals. -/
def ReadsDecimals (getSize : String → Option (BitVec 32)) : Prop :=
  ∀ k < 2 ^ 32, getSize (String.ofList (decimal k)) = some (BitVec.ofNat 32 k)

/-! ## What is printed -/

theorem pfabricPrintOpt_optionsAttr (opt : TcPfabricQopt) :
    pfabricPrintOpt (optionsAttr opt) =
      (0, "limit ".toList ++ ofInt opt.limit.toInt ++
        ("disable_dequeue ".toList ++ ofInt opt.disableDequeue.toInt), "") := by
  have hqopt : (Nlattr.mk (optionsAttr opt).payload).qopt = opt := opt.qopt_nlattr
  have hlen : (optionsAttr opt).payload.length = sizeofQopt := opt.length_nlattr
  simp only [pfabricPrintOpt, hlen, sub_self, lt_irrefl, if_false, hqopt, Printf.printf,
    Printf.print_d_u32, List.append_nil]

theorem words_ofInt (k : ℤ) : words (ofInt k) = [ofInt k] :=
  words_of_word (ofInt_ne_nil k) fun _ => not_isWhitespace_of_mem_ofInt

/-- Nothing separates the limit from the keyword behind it. -/
theorem printedArgs_eq (opt : TcPfabricQopt) :
    printedArgs opt =
      ["limit", String.ofList (ofInt opt.limit.toInt ++ "disable_dequeue".toList),
        String.ofList (ofInt opt.disableDequeue.toInt)] := by
  have htext : (pfabricPrintOpt (optionsAttr opt)).2.1 =
      "limit".toList ++ ' ' :: (ofInt opt.limit.toInt ++ "disable_dequeue".toList ++
        ' ' :: ofInt opt.disableDequeue.toInt) := by
    rw [pfabricPrintOpt_optionsAttr]
    simp
  have hlimit : words "limit".toList = ["limit".toList] :=
    words_of_word (by decide) (not_isWhitespace_of_any (by decide))
  have hvalue : words (ofInt opt.limit.toInt ++ "disable_dequeue".toList) =
      [ofInt opt.limit.toInt ++ "disable_dequeue".toList] := by
    refine words_of_word (List.append_ne_nil_of_left_ne_nil (ofInt_ne_nil _) _) fun c hc => ?_
    rcases List.mem_append.mp hc with hc | hc
    · exact not_isWhitespace_of_mem_ofInt hc
    · exact not_isWhitespace_of_any (t := "disable_dequeue".toList) (by decide) c hc
  rw [printedArgs, htext, words_append_cons rfl, words_append_cons rfl, hlimit, hvalue, words_ofInt]
  rfl

/-! ## How it is read -/

/-- A number abbreviates no keyword. -/
theorem keyword?_ofInt (k : ℤ) : keyword? (String.ofList (ofInt k)) = none := by
  obtain ⟨c, t, hk⟩ := List.exists_cons_of_ne_nil (ofInt_ne_nil k)
  have hc : c = '-' ∨ c.isDigit = true := mem_ofInt (hk ▸ List.mem_cons_self)
  have hfirst : ∀ (pattern : String) (d : Char) (ds : Text), pattern.toList = d :: ds →
      d ≠ '-' → d.isDigit = false →
        matchesKeyword (String.ofList (c :: t)) pattern = false := by
    intro pattern d ds hpattern hminus hdigit
    have hcd : c ≠ d := by
      rintro rfl
      rcases hc with hc | hc
      · exact hminus hc
      · exact Bool.false_ne_true (hdigit.symm.trans hc)
    simp [matchesKeyword, hpattern, List.isPrefixOf, hcd]
  have hlimit := hfirst "limit" 'l' "imit".toList (by decide) (by decide) (by decide)
  have hdisable :=
    hfirst "disable_dequeue" 'd' "isable_dequeue".toList (by decide) (by decide) (by decide)
  have henable :=
    hfirst "enable_dequeue" 'e' "nable_dequeue".toList (by decide) (by decide) (by decide)
  simp only [hk, keyword?, hlimit, hdisable, henable, Bool.false_eq_true, if_false]

/-- The loop never gets to the end of printed options. -/
theorem parseArgs_printedArgs (getSize : String → Option (BitVec 32)) (opt : TcPfabricQopt) :
    ∃ stderr, parseArgs getSize defaultQopt (printedArgs opt) = .illegal stderr := by
  have hlimit : keyword? "limit" = some .limit := by decide
  simp only [printedArgs_eq, parseArgs_cons, hlimit, keyword?_ofInt]
  cases getSize (String.ofList (ofInt opt.limit.toInt ++ "disable_dequeue".toList)) with
  | none => exact ⟨_, rfl⟩
  | some limit => exact ⟨_, rfl⟩

theorem pfabricParseOpt_printedArgs (getSize : String → Option (BitVec 32)) (n : Memory)
    (opt : TcPfabricQopt) :
    ∃ stderr, pfabricParseOpt getSize (printedArgs opt) n = .ret (-1) n stderr := by
  obtain ⟨stderr, hargs⟩ := parseArgs_printedArgs getSize opt
  exact ⟨stderr, by rw [pfabricParseOpt, hargs]⟩

theorem refuses_printedArgs {getSize : String → Option (BitVec 32)} {n : TcRequest}
    {opt opt' : TcPfabricQopt} : ¬ Encodes getSize (printedArgs opt) n opt' := by
  rintro ⟨sent, hret, -⟩
  obtain ⟨stderr, hrefused⟩ := pfabricParseOpt_printedArgs getSize n.mem opt
  rw [hrefused] at hret
  cases hret

/-- Printed options are never accepted as arguments, whatever the options, the
request and `get_size`. -/
theorem not_parsesBack (getSize : String → Option (BitVec 32)) (n : TcRequest)
    (opt : TcPfabricQopt) : ¬ ParsesBack getSize n opt :=
  refuses_printedArgs

/-- A `get_size` that knows decimal numerals only. -/
def decimalSize (value : String) : Option (BitVec 32) :=
  (parseDigits value.toList).map (BitVec.ofNat 32)

theorem readsDecimals_decimalSize : ReadsDecimals decimalSize := by
  intro k _
  rw [decimalSize, String.toList_ofList, parseDigits_decimal]
  rfl

/-- The default options, printed as `limit 150disable_dequeue 0`. -/
theorem not_parsesBack_default :
    ReadsDecimals decimalSize ∧
      printedArgs defaultQopt = ["limit", "150disable_dequeue", "0"] ∧
      ¬ ParsesBack decimalSize kindRequest defaultQopt :=
  ⟨readsDecimals_decimalSize, printedArgs_eq defaultQopt, refuses_printedArgs⟩

end PFabric
