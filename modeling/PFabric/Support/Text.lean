import Mathlib.Data.Int.Notation
import Mathlib.Data.List.Basic

/-!
# Texts, decimals, templates and splitting

Texts are lists of characters.  `Template.format` is the `%` operator of Python
for the conversions `%s` and `%d`; `Text.split` is `str.split` with a separator,
and `Text.column` reads a table with a heading line.  A template in which every
conversion is followed by a character that is not a digit loses no number that is
put into it.
-/

namespace PFabric

abbrev Text := List Char

namespace Text

/-- Two texts with a stop behind them, which a character outside their alphabet is, can
be told from what follows. -/
theorem append_inj_of_stop {p : Char → Bool} {t u v w : Text} (ht : ∀ c ∈ t, p c = true)
    (hu : ∀ c ∈ u, p c = true) (hv : ∀ c ∈ v.head?, p c = false)
    (hw : ∀ c ∈ w.head?, p c = false) (h : t ++ v = u ++ w) : t = u ∧ v = w := by
  have hnil : ∀ x : Text, (∀ c ∈ x.head?, p c = false) → x.takeWhile p = [] := by
    intro x hx
    cases x with
    | nil => rfl
    | cons c x => simp [hx c rfl]
  have halphabet := congrArg (List.takeWhile p) h
  rw [List.takeWhile_append_of_pos ht, List.takeWhile_append_of_pos hu, hnil v hv, hnil w hw,
    List.append_nil, List.append_nil] at halphabet
  subst halphabet
  exact ⟨rfl, List.append_cancel_left h⟩

/-! ## Decimals -/

def decimal (k : ℕ) : Text := Nat.toDigits 10 k

theorem isDigit_of_mem_decimal {k : ℕ} {c : Char} (h : c ∈ decimal k) : c.isDigit = true :=
  Nat.isDigit_of_mem_toDigits (by decide) (by decide) h

theorem notMem_decimal {k : ℕ} {c : Char} (h : c.isDigit = false) : c ∉ decimal k := fun hmem =>
  absurd (isDigit_of_mem_decimal hmem) (by simp [h])

theorem decimal_ne_nil (k : ℕ) : decimal k ≠ [] := Nat.toDigits_ne_nil

theorem decimal_injective : Function.Injective decimal := by
  intro j k h
  have hvalue := congrArg (fun ds => Nat.ofDigitChars 10 ds 0) h
  simpa [decimal, Nat.ofDigitChars_ten_toDigits] using hvalue

/-- Where no digit follows, a decimal ends where the digits end. -/
theorem decimal_append_inj {j k : ℕ} {t u : Text} (ht : ∀ c ∈ t.head?, c.isDigit = false)
    (hu : ∀ c ∈ u.head?, c.isDigit = false) (h : decimal j ++ t = decimal k ++ u) :
    j = k ∧ t = u := by
  obtain ⟨hdigits, hrest⟩ := append_inj_of_stop
    (fun _ => isDigit_of_mem_decimal) (fun _ => isDigit_of_mem_decimal) ht hu h
  exact ⟨decimal_injective hdigits, hrest⟩

/-- The text of an integer, as `str` and `%d` give it. -/
def ofInt : ℤ → Text
  | .ofNat k => decimal k
  | .negSucc k => '-' :: decimal (k + 1)

@[simp] theorem ofInt_natCast (k : ℕ) : ofInt k = decimal k := rfl

theorem ofInt_ne_nil (k : ℤ) : ofInt k ≠ [] := by
  cases k with
  | ofNat k => exact decimal_ne_nil k
  | negSucc k => exact List.cons_ne_nil _ _

theorem mem_ofInt {k : ℤ} {c : Char} (h : c ∈ ofInt k) : c = '-' ∨ c.isDigit = true := by
  cases k with
  | ofNat k => exact Or.inr (isDigit_of_mem_decimal h)
  | negSucc k => exact (List.mem_cons.mp h).imp_right isDigit_of_mem_decimal

theorem decimal_ne_minus (k : ℕ) (t : Text) : decimal k ≠ '-' :: t := fun h =>
  notMem_decimal (by decide) (h ▸ List.mem_cons_self)

theorem ofInt_injective : Function.Injective ofInt := by
  intro j k h
  cases j with
  | ofNat j =>
      cases k with
      | ofNat k => rw [decimal_injective h]
      | negSucc k => exact absurd h (decimal_ne_minus j _)
  | negSucc j =>
      cases k with
      | ofNat k => exact absurd h.symm (decimal_ne_minus k _)
      | negSucc k => rw [Nat.succ.inj (decimal_injective (List.cons.inj h).2)]

/-! ## Reading numbers -/

def strip (t : Text) : Text :=
  ((t.dropWhile Char.isWhitespace).reverse.dropWhile Char.isWhitespace).reverse

def parseDigits (t : Text) : Option ℕ :=
  if t ≠ [] ∧ t.all Char.isDigit then some (Nat.ofDigitChars 10 t 0) else none

/-- `int`: white space around the number is dropped, a sign may stand before it. -/
def parseInt (t : Text) : Option ℤ :=
  match strip t with
  | [] => none
  | c :: t =>
      if c = '-' then (parseDigits t).map fun k => -(k : ℤ)
      else if c = '+' then (parseDigits t).map fun k => (k : ℤ)
      else (parseDigits (c :: t)).map fun k => (k : ℤ)

theorem not_isWhitespace_of_isDigit {c : Char} (h : c.isDigit = true) :
    c.isWhitespace = false := by
  rw [Char.isDigit, Bool.and_eq_true] at h
  simp only [Char.isWhitespace, Bool.or_eq_false_iff, decide_eq_false_iff_not]
  refine ⟨⟨⟨?_, ?_⟩, ?_⟩, ?_⟩ <;> rintro rfl <;> simp at h

theorem not_isWhitespace_of_any {t : Text} (h : t.any Char.isWhitespace = false) :
    ∀ c ∈ t, c.isWhitespace = false := by
  simpa using h

theorem not_isWhitespace_of_mem_ofInt {k : ℤ} {c : Char} (h : c ∈ ofInt k) :
    c.isWhitespace = false := by
  rcases mem_ofInt h with rfl | h
  · rfl
  · exact not_isWhitespace_of_isDigit h

theorem dropWhile_isWhitespace_of_digits {t : Text} (h : ∀ c ∈ t, c.isDigit = true) :
    t.dropWhile Char.isWhitespace = t := by
  cases t with
  | nil => rfl
  | cons c t => simp [not_isWhitespace_of_isDigit (h c List.mem_cons_self)]

theorem strip_decimal (k : ℕ) : strip (decimal k) = decimal k := by
  rw [strip, dropWhile_isWhitespace_of_digits fun _ => isDigit_of_mem_decimal,
    dropWhile_isWhitespace_of_digits fun _ hc => isDigit_of_mem_decimal (List.mem_reverse.mp hc),
    List.reverse_reverse]

theorem strip_append_decimal {blanks : Text} (h : ∀ c ∈ blanks, c.isWhitespace = true) (k : ℕ) :
    strip (blanks ++ decimal k) = decimal k := by
  rw [strip, List.dropWhile_append_of_pos h, ← strip, strip_decimal]

theorem parseDigits_decimal (k : ℕ) : parseDigits (decimal k) = some k := by
  rw [parseDigits, if_pos ⟨decimal_ne_nil k, List.all_eq_true.mpr fun _ => isDigit_of_mem_decimal⟩,
    decimal, Nat.ofDigitChars_ten_toDigits]

theorem parseInt_decimal (k : ℕ) : parseInt (decimal k) = some (k : ℤ) := by
  have hdigits := parseDigits_decimal k
  obtain ⟨c, t, hk⟩ := List.exists_cons_of_ne_nil (decimal_ne_nil k)
  have hc : c.isDigit = true := isDigit_of_mem_decimal (hk ▸ List.mem_cons_self)
  have hminus : c ≠ '-' := by
    rintro rfl
    exact absurd hc (by decide)
  have hplus : c ≠ '+' := by
    rintro rfl
    exact absurd hc (by decide)
  rw [parseInt, strip_decimal]
  rw [hk] at hdigits ⊢
  simp [hminus, hplus, hdigits]

/-! ## Splitting -/

/-- `skip` characters of a separator are left to be passed over; `piece` is the
piece read so far. -/
def splitFrom (sep : Text) : ℕ → Text → Text → List Text
  | _, piece, [] => [piece]
  | skip + 1, piece, _ :: t => splitFrom sep skip piece t
  | 0, piece, c :: t =>
      if sep.isPrefixOf (c :: t) then piece :: splitFrom sep (sep.length - 1) [] t
      else splitFrom sep 0 (piece ++ [c]) t

/-- `str.split` with a separator. -/
def split (sep t : Text) : List Text := splitFrom sep 0 [] t

theorem splitFrom_append_of_notMem {d : Char} {ds u : Text} (h : d ∉ u) (piece t : Text) :
    splitFrom (d :: ds) 0 piece (u ++ t) = splitFrom (d :: ds) 0 (piece ++ u) t := by
  induction u generalizing piece with
  | nil => rw [List.nil_append, List.append_nil]
  | cons c u ih =>
      have hne : d ≠ c := fun heq => h (heq ▸ List.mem_cons_self)
      have hnot : (d :: ds).isPrefixOf (c :: (u ++ t)) = false := by
        simp [List.isPrefixOf, hne]
      rw [List.cons_append, splitFrom, hnot, if_neg Bool.false_ne_true,
        ih fun hmem => h (List.mem_cons_of_mem c hmem), List.append_assoc, List.singleton_append]

theorem splitFrom_skip (sep piece u t : Text) :
    splitFrom sep u.length piece (u ++ t) = splitFrom sep 0 piece t := by
  induction u with
  | nil => rfl
  | cons c u ih => rw [List.cons_append, List.length_cons, splitFrom, ih]

theorem split_of_notMem {d : Char} {ds u : Text} (h : d ∉ u) : split (d :: ds) u = [u] := by
  have hsplit : splitFrom (d :: ds) 0 [] (u ++ []) = splitFrom (d :: ds) 0 ([] ++ u) [] :=
    splitFrom_append_of_notMem h [] []
  rw [List.append_nil, List.nil_append] at hsplit
  rw [split, hsplit, splitFrom]

/-- A piece ends at the separator that follows it. -/
theorem split_append {d : Char} {ds u : Text} (h : d ∉ u) (t : Text) :
    split (d :: ds) (u ++ (d :: ds ++ t)) = u :: split (d :: ds) t := by
  have hfound : (d :: ds).isPrefixOf (d :: (ds ++ t)) = true := by
    rw [List.isPrefixOf_iff_prefix]
    exact List.prefix_append (d :: ds) t
  rw [split, splitFrom_append_of_notMem h, List.nil_append, List.cons_append, splitFrom, hfound,
    if_pos rfl, List.length_cons, Nat.add_sub_cancel, splitFrom_skip, split]

/-- Splitting at a single character goes on independently behind it. -/
theorem split_singleton_append (d : Char) (t u : Text) :
    split [d] (t ++ d :: u) = split [d] t ++ split [d] u := by
  have hfrom : ∀ piece : Text,
      splitFrom [d] 0 piece (t ++ d :: u) = splitFrom [d] 0 piece t ++ splitFrom [d] 0 [] u := by
    induction t with
    | nil => simp [splitFrom]
    | cons c t ih =>
        intro piece
        by_cases hc : d = c
        · subst hc
          simp [splitFrom, List.isPrefixOf, ih]
        · simp [splitFrom, List.isPrefixOf, hc, ih]
  exact hfrom []

/-- The words of a text: what stands between white space. -/
def words (t : Text) : List Text := (t.splitOnP Char.isWhitespace).filter (· ≠ [])

/-- White space separates the words before it from those behind it. -/
theorem words_append_cons {d : Char} (hd : d.isWhitespace = true) (t u : Text) :
    words (t ++ d :: u) = words t ++ words u := by
  rw [words, words, words, List.splitOnP_append_cons t u hd, List.filter_append]

theorem words_of_word {t : Text} (hne : t ≠ []) (h : ∀ c ∈ t, c.isWhitespace = false) :
    words t = [t] := by
  rw [words, List.splitOnP_eq_singleton h]
  simp [hne]

/-- Pieces that can be told from what follows, one for each element of a list. -/
theorem flatMap_append_inj {α : Type*} {f g : α → Text} {P : α → Prop} {l : List α}
    (h : ∀ x v w, f x ++ v = g x ++ w → P x ∧ v = w) {v w : Text}
    (heq : l.flatMap f ++ v = l.flatMap g ++ w) : (∀ x ∈ l, P x) ∧ v = w := by
  induction l with
  | nil => exact ⟨fun x hx => absurd hx List.not_mem_nil, heq⟩
  | cons x l ih =>
      rw [List.flatMap_cons, List.flatMap_cons, List.append_assoc, List.append_assoc] at heq
      obtain ⟨hx, hrest⟩ := h x _ _ heq
      obtain ⟨hl, hvw⟩ := ih hrest
      exact ⟨List.forall_mem_cons.mpr ⟨hx, hl⟩, hvw⟩

/-! ## Tables -/

/-- The cells of a line with commas. -/
def cells (line : Text) : List Text := (split [','] line).map strip

/-- What the second line of a table has where its first line has `heading`. -/
def column (heading report : Text) : Option Text :=
  match split ['\n'] report with
  | head :: row :: _ => ((cells head).idxOf? heading).bind fun i => (cells row)[i]?
  | _ => none

theorem cells_append {u : Text} (h : ',' ∉ u) (t : Text) :
    cells (u ++ ',' :: t) = strip u :: cells t := by
  have hsplit : split [','] (u ++ ',' :: t) = u :: split [','] t := split_append h t
  rw [cells, hsplit, List.map_cons, cells]

theorem column_append {head row : Text} (hhead : '\n' ∉ head) (hrow : '\n' ∉ row)
    (heading rest : Text) :
    column heading (head ++ '\n' :: (row ++ '\n' :: rest)) =
      ((cells head).idxOf? heading).bind fun i => (cells row)[i]? := by
  have hlines : split ['\n'] (head ++ '\n' :: (row ++ '\n' :: rest)) =
      head :: row :: split ['\n'] rest := by
    have hfirst : split ['\n'] (head ++ '\n' :: (row ++ '\n' :: rest)) =
        head :: split ['\n'] (row ++ '\n' :: rest) := split_append hhead _
    have hsecond : split ['\n'] (row ++ '\n' :: rest) = row :: split ['\n'] rest :=
      split_append hrow rest
    rw [hfirst, hsecond]
  rw [column, hlines]

end Text

/-! ## Templates -/

namespace Template

open Text

/-- What stands behind the `%` operator. -/
inductive Arg where
  | str (t : Text)
  | int (k : ℤ)

def Arg.text : Arg → Text
  | .str t => t
  | .int k => ofInt k

inductive Piece where
  | lit (c : Char)
  | str
  | int
  deriving DecidableEq

/-- The character behind a `%`. -/
def conversion (c : Char) : Option Piece :=
  if c = 's' then some .str
  else if c = 'd' then some .int
  else if c = '%' then some (.lit '%')
  else none

def pieces : Text → Option (List Piece)
  | [] => some []
  | [c] => if c = '%' then none else some [.lit c]
  | c :: d :: t =>
      if c = '%' then (conversion d).bind fun p => (pieces t).map (p :: ·)
      else (pieces (d :: t)).map (.lit c :: ·)

/-- The arguments are taken in turn; there must be neither too few nor too many,
and `%d` needs a number. -/
def fill : List Piece → List Arg → Option Text
  | [], [] => some []
  | [], _ :: _ => none
  | .lit c :: ps, args => (fill ps args).map (c :: ·)
  | .str :: ps, arg :: args => (fill ps args).map (arg.text ++ ·)
  | .int :: ps, .int k :: args => (fill ps args).map (ofInt k ++ ·)
  | .int :: _, .str _ :: _ => none
  | .str :: _, [] => none
  | .int :: _, [] => none

/-- `template % args`. -/
def format (template : Text) (args : List Arg) : Option Text :=
  (pieces template).bind (fill · args)

/-! ## Formatting again -/

theorem pieces_cons_of_ne {c : Char} (h : c ≠ '%') (t : Text) :
    pieces (c :: t) = (pieces t).map (.lit c :: ·) := by
  cases t with
  | nil => simp [pieces, h]
  | cons d t => rw [pieces, if_neg h]

theorem pieces_append_of_notMem {t : Text} (h : '%' ∉ t) (template : Text) :
    pieces (t ++ template) = (pieces template).map (t.map .lit ++ ·) := by
  induction t with
  | nil => simp
  | cons c t ih =>
      have hc : c ≠ '%' := fun heq => h (heq ▸ List.mem_cons_self)
      rw [List.cons_append, pieces_cons_of_ne hc, ih fun hmem => h (List.mem_cons_of_mem c hmem),
        Option.map_map]
      rfl

theorem fill_lit_append (t : Text) (ps : List Piece) (args : List Arg) :
    fill (t.map .lit ++ ps) args = (fill ps args).map (t ++ ·) := by
  induction t with
  | nil => simp
  | cons c t ih =>
      rw [List.map_cons, List.cons_append, fill, ih, Option.map_map]
      rfl

/-- A text without `%` in front of a template is passed on. -/
theorem format_append_of_notMem {t : Text} (h : '%' ∉ t) (template : Text) (args : List Arg) :
    format (t ++ template) args = (format template args).map (t ++ ·) := by
  rw [format, format, pieces_append_of_notMem h]
  cases pieces template with
  | none => rfl
  | some ps => exact fill_lit_append t ps args

/-! ## Numbers in a template -/

/-- What follows a conversion does not begin with a digit or another conversion. -/
def endsConversion : List Piece → Bool
  | [] => true
  | .lit c :: _ => !c.isDigit
  | _ :: _ => false

/-- No conversion is followed by a digit or by another conversion. -/
def separated : List Piece → Bool
  | [] => true
  | .lit _ :: ps => separated ps
  | _ :: ps => endsConversion ps && separated ps

/-- The arguments that are counts. -/
def counts (ks : List ℕ) : List Arg := ks.map fun k => .int k

theorem separated_conversion {p : Piece} (hp : ∀ c, p ≠ .lit c) (ps : List Piece) :
    separated (p :: ps) ↔ endsConversion ps ∧ separated ps := by
  cases p with
  | lit c => exact absurd rfl (hp c)
  | str => simp [separated]
  | int => simp [separated]

theorem head?_of_fill {ps : List Piece} (hends : endsConversion ps) {args : List Arg} {t : Text}
    (h : fill ps args = some t) : ∀ c ∈ t.head?, c.isDigit = false := by
  rcases ps with _ | ⟨c | _ | _, ps⟩
  · cases args with
    | nil =>
        obtain rfl := Option.some.inj h
        simp
    | cons arg args => exact absurd h (by simp [fill])
  · rw [fill, Option.map_eq_some_iff] at h
    obtain ⟨t, -, rfl⟩ := h
    simpa [endsConversion] using hends
  · exact absurd hends Bool.false_ne_true
  · exact absurd hends Bool.false_ne_true

/-- A conversion puts the text of a count in front of the rest. -/
theorem fill_counts_conversion {ps : List Piece} {p : Piece} (hp : ∀ c, p ≠ .lit c)
    {ks : List ℕ} {t : Text} (h : fill (p :: ps) (counts ks) = some t) :
    ∃ k ks' t', ks = k :: ks' ∧ fill ps (counts ks') = some t' ∧ t = decimal k ++ t' := by
  cases ks with
  | nil =>
      cases p with
      | lit c => exact absurd rfl (hp c)
      | str => exact absurd h (by simp [counts, fill])
      | int => exact absurd h (by simp [counts, fill])
  | cons k ks =>
      have hfill : fill (p :: ps) (counts (k :: ks)) =
          (fill ps (counts ks)).map (decimal k ++ ·) := by
        cases p with
        | lit c => exact absurd rfl (hp c)
        | str => rfl
        | int => rfl
      rw [hfill, Option.map_eq_some_iff] at h
      obtain ⟨t', ht', rfl⟩ := h
      exact ⟨k, ks, t', rfl, ht', rfl⟩

theorem fill_counts_injective {ps : List Piece} (hsep : separated ps) {js ks : List ℕ} {t : Text}
    (hj : fill ps (counts js) = some t) (hk : fill ps (counts ks) = some t) : js = ks := by
  induction ps generalizing js ks t with
  | nil =>
      cases js with
      | cons j js => exact absurd hj (by simp [counts, fill])
      | nil =>
          cases ks with
          | cons k ks => exact absurd hk (by simp [counts, fill])
          | nil => rfl
  | cons p ps ih =>
      by_cases hlit : ∃ c, p = .lit c
      · obtain ⟨c, rfl⟩ := hlit
        rw [fill, Option.map_eq_some_iff] at hj hk
        obtain ⟨t', hj, rfl⟩ := hj
        obtain ⟨t'', hk, heq⟩ := hk
        obtain rfl := (List.cons.inj heq).2
        exact ih (by simpa [separated] using hsep) hj hk
      · have hp : ∀ c, p ≠ .lit c := fun c hc => hlit ⟨c, hc⟩
        obtain ⟨j, js', t', rfl, hj', rfl⟩ := fill_counts_conversion hp hj
        obtain ⟨k, ks', t'', rfl, hk', heq⟩ := fill_counts_conversion hp hk
        obtain ⟨hends, hsep'⟩ := (separated_conversion hp ps).mp hsep
        obtain ⟨rfl, rfl⟩ :=
          decimal_append_inj (head?_of_fill hends hj') (head?_of_fill hends hk') heq
        rw [ih hsep' hj' hk']

/-- Different counts give different texts. -/
theorem format_counts_injective {template : Text} {ps : List Piece}
    (hpieces : pieces template = some ps) (hsep : separated ps) {js ks : List ℕ} {t : Text}
    (hj : format template (counts js) = some t) (hk : format template (counts ks) = some t) :
    js = ks := by
  rw [format, hpieces, Option.bind_some] at hj hk
  exact fill_counts_injective hsep hj hk

end Template
end PFabric
