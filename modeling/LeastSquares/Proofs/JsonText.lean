import LeastSquares.Json.Reader
import LeastSquares.Json.Writer
import Mathlib.Tactic.IntervalCases

/-!
JSON text that is written can be read, whether it is on one line or has one item to a line: numbers
as the tokens they were, strings with every character they had, and lists and records in their
order. Each kind of text is read to its end whatever follows it, as long as what follows cannot
belong to it; for numbers, that is what does not go on with a digit, a point or an exponent. The
ways of writing a document differ in their blanks alone, and blanks between tokens do not matter, so
that one induction over documents serves all of them.
-/

namespace LeastSquares.Json

/-! ### Blanks -/

def IsBlanks (gap : List Char) : Prop := ∀ c ∈ gap, isBlank c = true

theorem isBlanks_nil : IsBlanks [] := nofun

theorem isBlanks_space : IsBlanks [' '] := by
  rintro c hc
  rw [List.mem_singleton.1 hc]
  rfl

def indent (level : ℕ) : List Char := '\n' :: List.replicate (2 * level) ' '

theorem isBlanks_indent (level : ℕ) : IsBlanks (indent level) := by
  intro c hc
  rcases List.mem_cons.1 hc with rfl | hc
  · rfl
  · rw [List.eq_of_mem_replicate hc]
    rfl

theorem skipBlanks_append {gap : List Char} (h : IsBlanks gap) (cs : List Char) :
    skipBlanks (gap ++ cs) = skipBlanks cs :=
  List.dropWhile_append_of_pos h

theorem readGoal?_blanks {cs cs' : List Char} (h : skipBlanks cs = skipBlanks cs') (fuel : ℕ) :
    readGoal? fuel .value cs = readGoal? fuel .value cs' := by
  cases fuel with
  | zero => rfl
  | succ fuel => rw [readGoal?, readGoal?, h]

/-! ### Digits -/

theorem digitsValue_toDigits (n : ℕ) : digitsValue (Nat.toDigits 10 n) = n :=
  Nat.ofDigitChars_eq_foldl.symm.trans Nat.ofDigitChars_ten_toDigits

theorem digitsValue_zeros_append (k : ℕ) (ds : List Char) :
    digitsValue (List.replicate k '0' ++ ds) = digitsValue ds := by
  induction k with
  | zero => rfl
  | succ k ih => exact ih

def IsDigits (ds : List Char) : Prop := ∀ c ∈ ds, c.isDigit = true

theorem isDigits_toDigits (n : ℕ) : IsDigits (Nat.toDigits 10 n) :=
  fun _ => Nat.isDigit_of_mem_toDigits (by omega) le_rfl

theorem readDigits?_append {ds rest : List Char} (hne : ds ≠ []) (hds : IsDigits ds)
    (hrest : ∀ c ∈ rest.head?, c.isDigit = false) : readDigits? (ds ++ rest) = some (ds, rest) := by
  have htake : rest.takeWhile Char.isDigit = [] := by
    cases rest with
    | nil => rfl
    | cons c rest => rw [List.takeWhile_cons, hrest c rfl]; rfl
  have hdrop : rest.dropWhile Char.isDigit = rest := by
    cases rest with
    | nil => rfl
    | cons c rest => rw [List.dropWhile_cons, hrest c rfl]; rfl
  unfold readDigits?
  rw [List.takeWhile_append_of_pos hds, List.dropWhile_append_of_pos hds, htake, hdrop,
    List.append_nil, if_neg (by simpa using hne)]

/-- Only zero is written with a zero in front. -/
theorem head?_toDigits {n : ℕ} (hn : 0 < n) : (Nat.toDigits 10 n).head? ≠ some '0' := by
  induction n using Nat.strong_induction_on with
  | h n ih =>
    rw [Nat.toDigits_eq_if (by omega)]
    split
    · interval_cases n <;> decide
    · have := ih (n / 10) (by omega) (by omega)
      cases hds : Nat.toDigits 10 (n / 10) with
      | nil => exact absurd hds Nat.toDigits_ne_nil
      | cons c ds => rwa [hds] at this

/-! ### Numbers -/

/-- What cannot belong to a number that it follows. -/
def EndsNumber (rest : List Char) : Prop :=
  ∀ c ∈ rest.head?, c.isDigit = false ∧ c ≠ '.' ∧ c ≠ 'e' ∧ c ≠ 'E'

theorem EndsNumber.not_isDigit {rest : List Char} (h : EndsNumber rest) :
    ∀ c ∈ rest.head?, c.isDigit = false := fun c hc => (h c hc).1

def exponentText : Option ℤ → List Char
  | none => []
  | some e => 'e' :: (if 0 ≤ e then ['+'] else ['-']) ++ Nat.toDigits 10 e.natAbs

/-- The digits behind the point, with it; nothing without any. -/
def fractionText (fraction : List Char) : List Char :=
  if fraction.isEmpty then [] else '.' :: fraction

/-- The digits of a token before and behind the point. -/
structure Number.Splits (n : Number) (whole fraction : List Char) : Prop where
  value : digitsValue (whole ++ fraction) = n.digits
  places : fraction.length = n.places
  nonempty : whole ≠ []
  isDigits : IsDigits whole
  isDigits_fraction : IsDigits fraction
  leading : ¬ (whole.head? = some '0' ∧ 1 < whole.length)

theorem readExponent?_append (e : Option ℤ) {rest : List Char} (hrest : EndsNumber rest) :
    readExponent? (exponentText e ++ rest) = some (e, rest) := by
  cases e with
  | none =>
      change readExponent? rest = _
      cases rest with
      | nil => rfl
      | cons c rest =>
          obtain ⟨-, -, he, hE⟩ := hrest c rfl
          unfold readExponent?
          split
          · next h => exact absurd (List.cons.inj h).1 he
          · next h => exact absurd (List.cons.inj h).1 hE
          · rfl
  | some e =>
      have hdigits := readDigits?_append Nat.toDigits_ne_nil (isDigits_toDigits e.natAbs)
        hrest.not_isDigit
      by_cases hsign : 0 ≤ e
      · simp only [exponentText, if_pos hsign, List.cons_append, List.nil_append, readExponent?,
          hdigits, Option.map_some, digitsValue_toDigits, Bool.false_eq_true, if_false]
        rw [Int.natAbs_of_nonneg hsign]
      · simp only [exponentText, if_neg hsign, List.cons_append, List.nil_append, readExponent?,
          hdigits, Option.map_some, digitsValue_toDigits, if_true]
        rw [Int.ofNat_natAbs_of_nonpos (by omega), Int.neg_neg]

theorem readFraction?_append {fraction rest : List Char} (hfraction : IsDigits fraction)
    (hpoint : ∀ c ∈ rest.head?, c.isDigit = false ∧ c ≠ '.') :
    readFraction? (fractionText fraction ++ rest) = some (fraction, rest) := by
  unfold fractionText
  split
  · next h =>
    obtain rfl : fraction = [] := List.isEmpty_iff.1 h
    cases rest with
    | nil => rfl
    | cons c rest =>
        unfold readFraction?
        split
        · next h => exact absurd (List.cons.inj h).1 (hpoint c rfl).2
        · rfl
  · next h =>
    exact readDigits?_append (by simpa using h) hfraction fun c hc => (hpoint c hc).1

theorem head?_exponentText_append (e : Option ℤ) {rest : List Char} (hrest : EndsNumber rest) :
    ∀ c ∈ (exponentText e ++ rest).head?, c.isDigit = false ∧ c ≠ '.' := by
  cases e with
  | none => exact fun c hc => ⟨(hrest c hc).1, (hrest c hc).2.1⟩
  | some e =>
      rintro c hc
      obtain rfl : 'e' = c := Option.some.inj hc
      decide

theorem head?_fractionText_append {fraction rest : List Char}
    (hrest : ∀ c ∈ rest.head?, c.isDigit = false) :
    ∀ c ∈ (fractionText fraction ++ rest).head?, c.isDigit = false := by
  unfold fractionText
  split
  · exact hrest
  · rintro c hc
    obtain rfl : '.' = c := Option.some.inj hc
    rfl

theorem readNumber?_append {n : Number} {whole fraction rest : List Char}
    (h : n.Splits whole fraction) (hrest : EndsNumber rest) :
    readNumber? ((if n.negative then ['-'] else []) ++ (whole ++ (fractionText fraction ++
      (exponentText n.exponent ++ rest)))) = some (n, rest) := by
  have hexponent := readExponent?_append n.exponent hrest
  have hpoint := head?_exponentText_append n.exponent hrest
  have hfraction := readFraction?_append h.isDigits_fraction hpoint
  have hbehind : ∀ c ∈ (fractionText fraction ++ (exponentText n.exponent ++ rest)).head?,
      c.isDigit = false := head?_fractionText_append fun c hc => (hpoint c hc).1
  have hwhole := readDigits?_append h.nonempty h.isDigits hbehind
  have hleading : (whole.head? == some '0' && decide (whole.length > 1)) = false := by
    simpa using h.leading
  have hnumber {negative : Bool} (hn : n.negative = negative) :
      (⟨negative, digitsValue (whole ++ fraction), fraction.length, n.exponent⟩ : Number) = n := by
    rw [h.value, h.places, ← hn]
  cases hn : n.negative
  · obtain ⟨c, ds, rfl⟩ := List.exists_cons_of_ne_nil h.nonempty
    have hminus : c ≠ '-' := by
      rintro rfl
      exact absurd (h.isDigits '-' List.mem_cons_self) (by decide)
    simp only [Bool.false_eq_true, if_false, List.nil_append, readNumber?]
    split
    · next hc => exact absurd (List.cons.inj hc).1 hminus
    · simp only [hwhole, hleading, hfraction, hexponent, Option.bind_eq_bind, Option.bind_some,
        Bool.false_eq_true, if_false, hnumber hn]
  · simp only [readNumber?, if_true, List.cons_append, List.nil_append, hwhole, hleading,
      hfraction, hexponent, Option.bind_eq_bind, Option.bind_some, Bool.false_eq_true, if_false,
      hnumber hn]

theorem toList_repr (e : ℤ) :
    e.repr.toList = (if 0 ≤ e then [] else ['-']) ++ Nat.toDigits 10 e.natAbs := by
  cases e <;> simp [Int.repr]

theorem splits_toDigits {n : Number} (hplaces : n.places = 0) :
    n.Splits (Nat.toDigits 10 n.digits) [] where
  value := by rw [List.append_nil, digitsValue_toDigits]
  places := hplaces.symm
  nonempty := Nat.toDigits_ne_nil
  isDigits := isDigits_toDigits _
  isDigits_fraction := by simp [IsDigits]
  leading := by
    rintro ⟨hhead, hlength⟩
    rcases Nat.eq_zero_or_pos n.digits with hzero | hpos
    · rw [hzero] at hlength
      exact absurd hlength (by decide)
    · exact head?_toDigits hpos hhead

theorem splits_padded {n : Number} (hplaces : 0 < n.places) {padded : List Char}
    (hpadded : padded = List.replicate (n.places + 1 - (Nat.toDigits 10 n.digits).length) '0' ++
      Nat.toDigits 10 n.digits) :
    n.Splits (padded.take (padded.length - n.places))
      (padded.drop (padded.length - n.places)) := by
  have hlength : padded.length =
      n.places + 1 - (Nat.toDigits 10 n.digits).length + (Nat.toDigits 10 n.digits).length := by
    rw [hpadded, List.length_append, List.length_replicate]
  have hdigits : IsDigits padded := by
    rw [hpadded]
    exact fun c hc => (List.mem_append.1 hc).elim
      (fun hc => List.eq_of_mem_replicate hc ▸ by decide) (isDigits_toDigits _ c)
  refine ⟨?_, ?_, ?_, fun c hc => hdigits c (List.mem_of_mem_take hc),
    fun c hc => hdigits c (List.mem_of_mem_drop hc), ?_⟩
  · rw [List.take_append_drop, hpadded, digitsValue_zeros_append, digitsValue_toDigits]
  · rw [List.length_drop]
    omega
  · rw [ne_eq, ← List.length_eq_zero_iff, List.length_take]
    omega
  · -- Either nothing is padded, or one digit stands before the point.
    rintro ⟨hhead, hlong⟩
    rw [List.length_take] at hlong
    have hshort : n.places + 1 - (Nat.toDigits 10 n.digits).length = 0 := by omega
    rw [hshort, List.replicate_zero, List.nil_append] at hpadded
    rw [List.head?_take, if_neg (by omega), hpadded] at hhead
    rcases Nat.eq_zero_or_pos n.digits with hzero | hpos
    · rw [hzero, Nat.toDigits_zero] at hshort
      simp only [List.length_singleton] at hshort
      omega
    · exact head?_toDigits hpos hhead

theorem toList_positional (n : Number) :
    ∃ whole fraction, n.Splits whole fraction ∧
      (Decimal.positional ⟨n.negative, n.digits, -n.places⟩ false).toList =
        whole ++ fractionText fraction := by
  by_cases hplaces : n.places = 0
  · refine ⟨_, _, splits_toDigits hplaces, ?_⟩
    by_cases hzero : n.digits = 0 <;>
      simp [Decimal.positional, hplaces, hzero, Decimal.zeros, fractionText]
  · have hsplits := splits_padded (Nat.pos_of_ne_zero hplaces) rfl
    refine ⟨_, _, hsplits, ?_⟩
    have hfraction := hsplits.places
    rw [fractionText, if_neg (by rw [List.isEmpty_iff_length_eq_zero]; omega)]
    simp [Decimal.positional, hplaces]

theorem toList_text (n : Number) :
    ∃ whole fraction, n.Splits whole fraction ∧ n.text.toList =
      (if n.negative then ['-'] else []) ++
        (whole ++ (fractionText fraction ++ exponentText n.exponent)) := by
  obtain ⟨whole, fraction, hsplits, hpositional⟩ := toList_positional n
  refine ⟨whole, fraction, hsplits, ?_⟩
  have hsign (d : Decimal) : d.sign.toList = if d.negative then ['-'] else [] := by
    unfold Decimal.sign
    split <;> rfl
  cases hexponent : n.exponent with
  | none => simp [Number.text, hsign, hpositional, hexponent, exponentText]
  | some e =>
      by_cases he : 0 ≤ e <;>
        simp [Number.text, hsign, hpositional, hexponent, exponentText, he, toList_repr]

theorem readNumber?_text (n : Number) {rest : List Char} (hrest : EndsNumber rest) :
    readNumber? (n.text.toList ++ rest) = some (n, rest) := by
  obtain ⟨whole, fraction, hsplits, htext⟩ := toList_text n
  simp only [htext, List.append_assoc]
  exact readNumber?_append hsplits hrest

theorem text_first (n : Number) :
    ∃ c tail, n.text.toList = c :: tail ∧ (c = '-' ∨ c.isDigit = true) := by
  obtain ⟨whole, fraction, hsplits, htext⟩ := toList_text n
  rw [htext]
  cases n.negative
  · obtain ⟨c, ds, rfl⟩ := List.exists_cons_of_ne_nil hsplits.nonempty
    exact ⟨c, _, rfl, .inr (hsplits.isDigits c List.mem_cons_self)⟩
  · exact ⟨'-', _, rfl, .inl rfl⟩

theorem isBlank_of_number {c : Char} (h : c = '-' ∨ c.isDigit = true) : isBlank c = false := by
  rw [isBlank, Bool.eq_false_iff]
  intro hblank
  simp only [Bool.or_eq_true, beq_iff_eq] at hblank
  rcases hblank with ((rfl | rfl) | rfl) | rfl <;> exact absurd h (by decide)

/-! ### Strings -/

theorem readUnit?_control {k : ℕ} (hk : k < 0x20) :
    ∃ a b c d, List.replicate (4 - (Text.hex k).length) '0' ++ Text.hex k = [a, b, c, d] ∧
      readUnit? [a, b, c, d] = some (k, []) := by
  interval_cases k <;> exact ⟨_, _, _, _, rfl, rfl⟩

theorem pushUnit_toNat {c : Char} (hcontrol : c.toNat < 0x20) (chars : List Char) :
    Partial.pushUnit ⟨some chars, none⟩ c.toNat = ⟨some (c :: chars), none⟩ := by
  simp only [Partial.pushUnit]
  rw [if_neg (by omega), if_neg (by omega), Char.ofNat_toNat]
  rfl

theorem readString?_plain {c : Char} (p : Partial) (rest : List Char) (hquote : c ≠ '"')
    (hbackslash : c ≠ '\\') (hcontrol : ¬ c.toNat < 0x20) :
    readString? p (c :: rest) = readString? (p.push c) rest := by
  rw [readString?]
  · exact if_neg hcontrol
  all_goals intros; simp_all

theorem readString?_escapeChar (c : Char) (chars rest : List Char) :
    readString? ⟨some chars, none⟩ (escapeChar c ++ rest) =
      readString? ⟨some (c :: chars), none⟩ rest := by
  unfold escapeChar
  split
  any_goals rfl
  next hquote hbackslash _ _ _ _ _ =>
    split
    · next hcontrol =>
      obtain ⟨a, b, d, e, hpadded, hunit⟩ := readUnit?_control hcontrol
      rw [List.append_assoc _ _ (Text.hex _), hpadded]
      simp only [List.cons_append, List.nil_append, readString?, hunit, pushUnit_toNat hcontrol]
    · next hcontrol => exact readString?_plain _ _ hquote hbackslash hcontrol

theorem readString?_append (cs chars rest : List Char) :
    readString? ⟨some chars, none⟩ (cs.flatMap escapeChar ++ '"' :: rest) =
      some (some (String.ofList (chars.reverse ++ cs)), rest) := by
  induction cs generalizing chars with
  | nil => simp [readString?, Partial.finish]
  | cons c cs ih =>
      rw [List.flatMap_cons, List.append_assoc, readString?_escapeChar, ih]
      simp

/-- A name is read back, and so is the one that stands for no text. -/
theorem readString?_nameText (name : Option String) (rest : List Char) :
    ∃ body, (nameText name).toList ++ rest = '"' :: body ∧
      readString? startString body = some (name, rest) := by
  cases name with
  | none => exact ⟨_, rfl, rfl⟩
  | some s =>
      refine ⟨s.toList.flatMap escapeChar ++ '"' :: rest, by simp [nameText, stringText], ?_⟩
      rw [startString, readString?_append]
      simp

/-! ### Layout -/

theorem endsNumber_blanks {gap cs : List Char} (h : IsBlanks gap) (hcs : EndsNumber cs) :
    EndsNumber (gap ++ cs) := by
  cases gap with
  | nil => exact hcs
  | cons c gap =>
      rintro _ ⟨⟩
      have hc := h c List.mem_cons_self
      simp only [isBlank, Bool.or_eq_true, beq_iff_eq] at hc
      rcases hc with ((rfl | rfl) | rfl) | rfl <;> decide

def joined (gap : List Char) (items : List String) : List Char :=
  ((String.ofList (',' :: gap)).intercalate items).toList

theorem joined_singleton (gap : List Char) (item : String) : joined gap [item] = item.toList := by
  rw [joined, String.intercalate_singleton]

theorem joined_cons (gap : List Char) (item : String) {items : List String} (hitems : items ≠ []) :
    joined gap (item :: items) = item.toList ++ ',' :: (gap ++ joined gap items) := by
  rw [joined, String.intercalate_cons_of_ne_nil hitems]
  simp [joined]

def following (gap : List Char) (items : List String) (after : List Char) : List Char :=
  if items.isEmpty then after else ',' :: (gap ++ (joined gap items ++ after))

theorem joined_cons_append (gap : List Char) (item : String) (items : List String)
    (after : List Char) :
    joined gap (item :: items) ++ after = item.toList ++ following gap items after := by
  cases items with
  | nil => rw [joined_singleton]; rfl
  | cons next items =>
      rw [joined_cons gap item (List.cons_ne_nil next items)]
      simp [following]

theorem length_le_joined (gap : List Char) (item : String) (items : List String) :
    item.length ≤ (joined gap (item :: items)).length := by
  rw [← List.append_nil (joined gap (item :: items)), joined_cons_append, List.length_append,
    String.length_toList]
  exact Nat.le_add_right _ _

theorem length_joined_lt (gap : List Char) (item : String) {items : List String}
    (hitems : items ≠ []) :
    (joined gap items).length < (joined gap (item :: items)).length := by
  rw [joined_cons gap item hitems]
  simp only [List.length_append, List.length_cons]
  omega

theorem endsNumber_following (gap : List Char) (items : List String) {after : List Char}
    (hafter : EndsNumber after) : EndsNumber (following gap items after) := by
  cases items with
  | nil => exact hafter
  | cons next items =>
      rintro c hc
      obtain rfl : ',' = c := Option.some.inj hc
      decide

/-- The blanks of a list: before each item, before the closing bracket and after a colon. -/
structure Spacing where
  gap : List Char
  last : List Char
  colon : List Char
  isBlanks_gap : IsBlanks gap
  isBlanks_last : IsBlanks last
  isBlanks_colon : IsBlanks colon

namespace Spacing

def none : Spacing := ⟨[], [], [], isBlanks_nil, isBlanks_nil, isBlanks_nil⟩

def lines (level : ℕ) : Spacing :=
  ⟨indent (level + 1), indent level, [' '], isBlanks_indent _, isBlanks_indent _, isBlanks_space⟩

def body (s : Spacing) (closing : Char) (items : List String) : List Char :=
  if items.isEmpty then [closing] else s.gap ++ (joined s.gap items ++ (s.last ++ [closing]))

def field (s : Spacing) (write : Json → String) (field : Option String × Json) : String :=
  nameText field.1 ++ String.ofList (':' :: s.colon) ++ write field.2

theorem field_append (s : Spacing) (write : Json → String) (name : Option String) (value : Json)
    (rest : List Char) :
    ∃ body, (s.field write (name, value)).toList ++ rest = '"' :: body ∧
      readString? startString body =
        some (name, ':' :: (s.colon ++ ((write value).toList ++ rest))) := by
  obtain ⟨body, hbody, hread⟩ :=
    readString?_nameText name (':' :: (s.colon ++ ((write value).toList ++ rest)))
  refine ⟨body, ?_, hread⟩
  rw [← hbody]
  simp [field]

theorem length_le_field (s : Spacing) (write : Json → String) (name : Option String)
    (value : Json) : (write value).length ≤ (s.field write (name, value)).length := by
  rw [field, String.length_append]
  exact Nat.le_add_left _ _

end Spacing

/-- A way of writing documents: scalars have their text, and lists are spaced as `spacing` says at
their depth. -/
structure IsLayout (write : ℕ → Json → String) (spacing : ℕ → Spacing) : Prop where
  null (level : ℕ) : write level .null = scalarText .null
  bool (level : ℕ) (b : Bool) : write level (.bool b) = scalarText (.bool b)
  number (level : ℕ) (n : Number) : write level (.number n) = scalarText (.number n)
  string (level : ℕ) (s : Option String) : write level (.string s) = scalarText (.string s)
  array (level : ℕ) (items : List Json) : (write level (.array items)).toList =
    '[' :: (spacing level).body ']' (items.map (write (level + 1)))
  object (level : ℕ) (fields : List (Option String × Json)) :
    (write level (.object fields)).toList = '\x7b' :: (spacing level).body '\x7d'
      (fields.map ((spacing level).field (write (level + 1))))

theorem compactItems_eq (items : List Json) : compactItems items = items.map compact := by
  induction items with
  | nil => rfl
  | cons item items ih => rw [compactItems, ih]; rfl

theorem compactFields_eq (fields : List (Option String × Json)) :
    compactFields fields = fields.map (Spacing.none.field compact) := by
  induction fields with
  | nil => rfl
  | cons field fields ih =>
      obtain ⟨name, value⟩ := field
      rw [compactFields, ih]
      rfl

theorem prettyItems_eq (level : ℕ) (items : List Json) :
    prettyItems level items = items.map (prettyAt level) := by
  induction items with
  | nil => rfl
  | cons item items ih => rw [prettyItems, ih]; rfl

theorem prettyFields_eq (depth level : ℕ) (fields : List (Option String × Json)) :
    prettyFields level fields = fields.map ((Spacing.lines depth).field (prettyAt level)) := by
  induction fields with
  | nil => rfl
  | cons field fields ih =>
      obtain ⟨name, value⟩ := field
      rw [prettyFields, ih]
      rfl

theorem toList_line {opening closing : String} {first last : Char}
    (hopening : opening.toList = [first]) (hclosing : closing.toList = [last])
    (items : List String) :
    (opening ++ ",".intercalate items ++ closing).toList =
      first :: Spacing.none.body last items := by
  cases items with
  | nil => simp [Spacing.body, hopening, hclosing]
  | cons item items => simp [Spacing.body, Spacing.none, joined, hopening, hclosing]

theorem toList_block (level : ℕ) {opening closing : String} {first last : Char}
    (hopening : opening.toList = [first]) (hclosing : closing.toList = [last])
    (items : List String) :
    (block level opening closing items).toList =
      first :: (Spacing.lines level).body last items := by
  have hseparator : "," ++ ("\n" ++ String.ofList (List.replicate (2 * (level + 1)) ' ')) =
      String.ofList (',' :: indent (level + 1)) := by
    apply String.toList_inj.1
    simp [indent]
  cases items with
  | nil => simp [block, Spacing.body, hopening, hclosing]
  | cons item items =>
      simp only [block, List.isEmpty_cons, Bool.false_eq_true, if_false]
      rw [hseparator]
      simp [Spacing.body, Spacing.lines, joined, indent, hopening, hclosing]

theorem isLayout_compact : IsLayout (fun _ => compact) fun _ => .none where
  null _ := rfl
  bool _ _ := rfl
  number _ _ := rfl
  string _ _ := rfl
  array _ items := by
    rw [compact, compactItems_eq]
    exact toList_line rfl rfl _
  object _ fields := by
    rw [compact, compactFields_eq]
    exact toList_line rfl rfl _

theorem isLayout_pretty : IsLayout prettyAt .lines where
  null _ := rfl
  bool _ _ := rfl
  number _ _ := rfl
  string _ _ := rfl
  array level items := by
    rw [prettyAt, prettyItems_eq]
    exact toList_block level rfl rfl _
  object level fields := by
    rw [prettyAt, prettyFields_eq level]
    exact toList_block level rfl rfl _

/-! ### Steps of the reader -/

theorem readGoal?_number (n : Number) {rest : List Char} (hrest : EndsNumber rest) (fuel : ℕ) :
    readGoal? (fuel + 1) .value (n.text.toList ++ rest) = some (.number n, rest) := by
  have hnumber := readNumber?_text n hrest
  obtain ⟨c, tail, htext, hfirst⟩ := text_first n
  have hskip : skipBlanks (n.text.toList ++ rest) = n.text.toList ++ rest := by
    rw [htext, List.cons_append, skipBlanks, List.dropWhile_cons, isBlank_of_number hfirst]
    rfl
  rw [← hskip] at hnumber
  rw [htext, List.cons_append] at hskip
  rw [readGoal?]
  dsimp only [Goal.Result]
  split
  case h_7 => exact congrArg (Option.map _) hnumber
  all_goals
    next h =>
      rw [htext, List.cons_append, hskip] at h
      rw [(List.cons.inj h).1] at hfirst
      exact absurd hfirst (by decide)

theorem readGoal?_word {j : Json} {word : String}
    (hword : word = "null" ∧ j = .null ∨ word = "true" ∧ j = .bool true ∨
      word = "false" ∧ j = .bool false) (rest : List Char) (fuel : ℕ) :
    readGoal? (fuel + 1) .value (word.toList ++ rest) = some (j, rest) := by
  rw [readGoal?]
  rcases hword with ⟨rfl, rfl⟩ | ⟨rfl, rfl⟩ | ⟨rfl, rfl⟩ <;> rfl

theorem readGoal?_string (s : Option String) (rest : List Char) (fuel : ℕ) :
    readGoal? (fuel + 1) .value ((nameText s).toList ++ rest) = some (.string s, rest) := by
  obtain ⟨body, hbody, hread⟩ := readString?_nameText s rest
  rw [readGoal?, hbody]
  exact congrArg (Option.map _) hread

theorem readGoal?_no_items (rest : List Char) (fuel : ℕ) :
    readGoal? (fuel + 1) .value ('[' :: ']' :: rest) = some (.array [], rest) := by
  rw [readGoal?]
  rfl

theorem readGoal?_no_fields (rest : List Char) (fuel : ℕ) :
    readGoal? (fuel + 1) .value ('\x7b' :: '\x7d' :: rest) = some (.object [], rest) := by
  rw [readGoal?]
  rfl

/-- No value begins with a closing bracket. -/
theorem first_of_items {cs : List Char} {fuel : ℕ} {result : List Json × List Char}
    (h : readGoal? fuel .items cs = some result) : (skipBlanks cs).head? ≠ some ']' := by
  intro hfirst
  obtain ⟨tail, hcs⟩ := List.head?_eq_some_iff.1 hfirst
  rcases fuel with _ | _ | fuel
  · cases h
  · cases h
  · dsimp only [Goal.Result] at h
    simp only [readGoal?, Goal.Result, hcs] at h
    cases h

theorem first_of_fields {cs : List Char} {fuel : ℕ}
    {result : List (Option String × Json) × List Char}
    (h : readGoal? fuel .fields cs = some result) : (skipBlanks cs).head? ≠ some '\x7d' := by
  intro hfirst
  obtain ⟨tail, hcs⟩ := List.head?_eq_some_iff.1 hfirst
  cases fuel with
  | zero => cases h
  | succ fuel =>
      dsimp only [Goal.Result] at h
      simp only [readGoal?, Goal.Result, hcs] at h
      cases h

theorem readGoal?_array {body rest : List Char} {fuel : ℕ} {items : List Json}
    (hitems : readGoal? fuel .items body = some (items, rest)) :
    readGoal? (fuel + 1) .value ('[' :: body) = some (.array items, rest) := by
  have hopen : skipBlanks ('[' :: body) = '[' :: body := rfl
  have hfirst := first_of_items hitems
  dsimp only [Goal.Result] at hitems
  simp only [readGoal?, Goal.Result, hopen]
  split
  · next h => exact absurd (congrArg List.head? h) hfirst
  · rw [hitems]; rfl

theorem readGoal?_object {body rest : List Char} {fuel : ℕ}
    {fields : List (Option String × Json)}
    (hfields : readGoal? fuel .fields body = some (fields, rest)) :
    readGoal? (fuel + 1) .value ('\x7b' :: body) = some (.object fields, rest) := by
  have hopen : skipBlanks ('\x7b' :: body) = '\x7b' :: body := rfl
  have hfirst := first_of_fields hfields
  dsimp only [Goal.Result] at hfields
  simp only [readGoal?, Goal.Result, hopen]
  split
  · next h => exact absurd (congrArg List.head? h) hfirst
  · rw [hfields]; rfl

theorem readGoal?_last_item {cs after rest : List Char} {fuel : ℕ} {item : Json}
    (hitem : readGoal? fuel .value cs = some (item, after))
    (hafter : skipBlanks after = ']' :: rest) :
    readGoal? (fuel + 1) .items cs = some ([item], rest) := by
  dsimp only [Goal.Result] at hitem
  simp only [readGoal?, Goal.Result, hitem, hafter]

theorem readGoal?_next_item {cs after next rest : List Char} {fuel : ℕ} {item : Json}
    {items : List Json} (hitem : readGoal? fuel .value cs = some (item, after))
    (hafter : skipBlanks after = ',' :: next)
    (hitems : readGoal? fuel .items next = some (items, rest)) :
    readGoal? (fuel + 1) .items cs = some (item :: items, rest) := by
  dsimp only [Goal.Result] at hitem hitems
  simp only [readGoal?, Goal.Result, hitem, hafter, hitems, Option.map_some]

theorem readGoal?_last_field {cs body colon value after rest : List Char} {fuel : ℕ}
    {name : Option String} {j : Json} (hcs : skipBlanks cs = '"' :: body)
    (hname : readString? startString body = some (name, colon))
    (hcolon : skipBlanks colon = ':' :: value)
    (hvalue : readGoal? fuel .value value = some (j, after))
    (hafter : skipBlanks after = '\x7d' :: rest) :
    readGoal? (fuel + 1) .fields cs = some ([(name, j)], rest) := by
  dsimp only [Goal.Result] at hvalue
  simp only [readGoal?, Goal.Result, hcs, hname, hcolon, hvalue, hafter]

theorem readGoal?_next_field {cs body colon value after next rest : List Char} {fuel : ℕ}
    {name : Option String} {j : Json} {fields : List (Option String × Json)}
    (hcs : skipBlanks cs = '"' :: body)
    (hname : readString? startString body = some (name, colon))
    (hcolon : skipBlanks colon = ':' :: value)
    (hvalue : readGoal? fuel .value value = some (j, after))
    (hafter : skipBlanks after = ',' :: next)
    (hfields : readGoal? fuel .fields next = some (fields, rest)) :
    readGoal? (fuel + 1) .fields cs = some ((name, j) :: fields, rest) := by
  dsimp only [Goal.Result] at hvalue hfields
  simp only [readGoal?, Goal.Result, hcs, hname, hcolon, hvalue, hafter, hfields, Option.map_some]

/-! ### Documents -/

/-- A text of a value is read whatever follows it, as long as no number would go on with that. -/
def ReadsBack (text : String) (j : Json) : Prop :=
  ∀ ⦃fuel : ℕ⦄ ⦃rest : List Char⦄, EndsNumber rest → 2 * text.length ≤ fuel →
    readGoal? (fuel + 1) .value (text.toList ++ rest) = some (j, rest)

theorem ReadsBack.after_blanks {text : String} {j : Json} (h : ReadsBack text j)
    {gap : List Char} (hgap : IsBlanks gap) {fuel : ℕ} {rest : List Char} (hends : EndsNumber rest)
    (hfuel : 2 * text.length ≤ fuel) :
    readGoal? (fuel + 1) .value (gap ++ (text.toList ++ rest)) = some (j, rest) :=
  (readGoal?_blanks (skipBlanks_append hgap _) (fuel + 1)).trans (h hends hfuel)

section Lists

variable {s : Spacing} {write : Json → String} {fuel : ℕ} {after rest : List Char}
  {texts : List String}

theorem readGoal?_items {items : List Json} (hread : ∀ item ∈ items, ReadsBack (write item) item)
    (hne : items ≠ []) (hends : EndsNumber after) (hafter : skipBlanks after = ']' :: rest)
    (hfuel : 2 * (joined s.gap (items.map write)).length < fuel) :
    readGoal? (fuel + 1) .items (s.gap ++ (joined s.gap (items.map write) ++ after)) =
      some (items, rest) := by
  induction items generalizing fuel with
  | nil => exact absurd rfl hne
  | cons item items ih =>
      obtain ⟨fuel, rfl⟩ := Nat.exists_eq_add_one_of_ne_zero (Nat.ne_zero_of_lt hfuel)
      rw [List.map_cons] at hfuel ⊢
      rw [joined_cons_append]
      have hlength := length_le_joined s.gap (write item) (items.map write)
      have hitem : readGoal? (fuel + 1) .value (s.gap ++ ((write item).toList ++
          following s.gap (items.map write) after)) = some (item, _) :=
        (hread item List.mem_cons_self).after_blanks s.isBlanks_gap
          (endsNumber_following _ _ hends) (by omega)
      cases items with
      | nil => exact readGoal?_last_item hitem hafter
      | cons next items =>
          have hshorter := length_joined_lt s.gap (write item)
            (List.cons_ne_nil (write next) (items.map write))
          rw [List.map_cons] at hfuel
          exact readGoal?_next_item hitem rfl
            (ih (fun item hmem => hread item (List.mem_cons_of_mem _ hmem)) (by simp)
              (by rw [List.map_cons]; omega))

theorem readGoal?_fields {fields : List (Option String × Json)}
    (hread : ∀ field ∈ fields, ReadsBack (write field.2) field.2) (hne : fields ≠ [])
    (hends : EndsNumber after) (hafter : skipBlanks after = '\x7d' :: rest)
    (hfuel : 2 * (joined s.gap (fields.map (s.field write))).length < fuel) :
    readGoal? (fuel + 1) .fields (s.gap ++ (joined s.gap (fields.map (s.field write)) ++ after)) =
      some (fields, rest) := by
  induction fields generalizing fuel with
  | nil => exact absurd rfl hne
  | cons field fields ih =>
      obtain ⟨name, value⟩ := field
      obtain ⟨fuel, rfl⟩ := Nat.exists_eq_add_one_of_ne_zero (Nat.ne_zero_of_lt hfuel)
      rw [List.map_cons] at hfuel ⊢
      rw [joined_cons_append]
      have hlength := length_le_joined s.gap (s.field write (name, value))
        (fields.map (s.field write))
      have hshort := s.length_le_field write name value
      obtain ⟨body, hbody, hname⟩ := s.field_append write name value
        (following s.gap (fields.map (s.field write)) after)
      rw [hbody]
      have hquote := skipBlanks_append s.isBlanks_gap ('"' :: body)
      have hvalue : readGoal? (fuel + 1) .value (s.colon ++ ((write value).toList ++
          following s.gap (fields.map (s.field write)) after)) = some (value, _) :=
        (hread (name, value) List.mem_cons_self).after_blanks s.isBlanks_colon
          (endsNumber_following _ _ hends) (by dsimp only; omega)
      cases fields with
      | nil => exact readGoal?_last_field hquote hname rfl hvalue hafter
      | cons next fields =>
          have hshorter := length_joined_lt s.gap (s.field write (name, value))
            (List.cons_ne_nil (s.field write next) (fields.map (s.field write)))
          rw [List.map_cons] at hfuel
          exact readGoal?_next_field hquote hname rfl hvalue rfl
            (ih (fun field hmem => hread field (List.mem_cons_of_mem _ hmem)) (by simp)
              (by rw [List.map_cons]; omega))

theorem endsNumber_last (s : Spacing) {closing : Char} (hclosing : closing = ']' ∨ closing = '\x7d')
    (rest : List Char) : EndsNumber (s.last ++ closing :: rest) := by
  refine endsNumber_blanks s.isBlanks_last fun c hc => ?_
  obtain rfl : closing = c := Option.some.inj hc
  rcases hclosing with rfl | rfl <;> decide

theorem Spacing.body_append (hne : texts ≠ []) (closing : Char) (rest : List Char) :
    s.body closing texts ++ rest =
      s.gap ++ (joined s.gap texts ++ (s.last ++ closing :: rest)) := by
  rw [Spacing.body, if_neg (by simpa using hne)]
  simp

theorem length_joined_lt_body (hne : texts ≠ []) (closing : Char) :
    (joined s.gap texts).length < (s.body closing texts).length := by
  rw [Spacing.body, if_neg (by simpa using hne)]
  simp only [List.length_append, List.length_singleton]
  omega

theorem readsBack_array {text : String} {items : List Json}
    (htext : text.toList = '[' :: s.body ']' (items.map write))
    (hread : ∀ item ∈ items, ReadsBack (write item) item) : ReadsBack text (.array items) := by
  intro fuel rest _ hfuel
  rw [← String.length_toList, htext, List.length_cons] at hfuel
  rw [htext, List.cons_append]
  by_cases hempty : items = []
  · rw [hempty]
    exact readGoal?_no_items rest fuel
  have hne : items.map write ≠ [] := by simpa using hempty
  have hlength := length_joined_lt_body (s := s) hne ']'
  obtain ⟨fuel, rfl⟩ := Nat.exists_eq_add_one_of_ne_zero (n := fuel) (by omega)
  rw [Spacing.body_append hne]
  exact readGoal?_array (readGoal?_items hread hempty (endsNumber_last s (.inl rfl) rest)
    (skipBlanks_append s.isBlanks_last _) (by omega))

theorem readsBack_object {text : String} {fields : List (Option String × Json)}
    (htext : text.toList = '\x7b' :: s.body '\x7d' (fields.map (s.field write)))
    (hread : ∀ field ∈ fields, ReadsBack (write field.2) field.2) :
    ReadsBack text (.object fields) := by
  intro fuel rest _ hfuel
  rw [← String.length_toList, htext, List.length_cons] at hfuel
  rw [htext, List.cons_append]
  by_cases hempty : fields = []
  · rw [hempty]
    exact readGoal?_no_fields rest fuel
  have hne : fields.map (s.field write) ≠ [] := by simpa using hempty
  have hlength := length_joined_lt_body (s := s) hne '\x7d'
  obtain ⟨fuel, rfl⟩ := Nat.exists_eq_add_one_of_ne_zero (n := fuel) (by omega)
  rw [Spacing.body_append hne]
  exact readGoal?_object (readGoal?_fields hread hempty (endsNumber_last s (.inr rfl) rest)
    (skipBlanks_append s.isBlanks_last _) (by omega))

end Lists

/-- In every layout a document is read back, at every depth. -/
theorem IsLayout.readsBack {write : ℕ → Json → String} {spacing : ℕ → Spacing}
    (h : IsLayout write spacing) (level : ℕ) : (j : Json) → ReadsBack (write level j) j
  | .null => by
      rw [h.null]
      exact fun _ _ _ _ => readGoal?_word (.inl ⟨rfl, rfl⟩) _ _
  | .bool true => by
      rw [h.bool]
      exact fun _ _ _ _ => readGoal?_word (.inr (.inl ⟨rfl, rfl⟩)) _ _
  | .bool false => by
      rw [h.bool]
      exact fun _ _ _ _ => readGoal?_word (.inr (.inr ⟨rfl, rfl⟩)) _ _
  | .number n => by
      rw [h.number]
      exact fun _ _ hrest _ => readGoal?_number n hrest _
  | .string s => by
      rw [h.string]
      exact fun _ _ _ _ => readGoal?_string s _ _
  | .array items => readsBack_array (h.array level items) fun item _ => h.readsBack (level + 1) item
  | .object fields =>
      readsBack_object (h.object level fields) fun field _ => h.readsBack (level + 1) field.2
termination_by j => sizeOf j
decreasing_by
  · have := List.sizeOf_lt_of_mem ‹item ∈ _›
    rw [Json.array.sizeOf_spec]
    omega
  · have := List.sizeOf_lt_of_mem ‹field ∈ _›
    obtain ⟨name, value⟩ := field
    rw [Prod.mk.sizeOf_spec] at this
    rw [Json.object.sizeOf_spec]
    dsimp only
    omega

theorem ReadsBack.read? {text : String} {j : Json} (h : ReadsBack text j) :
    Json.read? text = some j := by
  have hread : readGoal? (2 * text.length + 2) .value (text.toList ++ []) = some (j, []) :=
    h (by simp [EndsNumber]) (by omega)
  rw [List.append_nil] at hread
  rw [Json.read?, hread]
  rfl

/-- A document that is written with one item to a line is read back. -/
theorem read?_pretty (j : Json) : read? j.pretty = some j := (isLayout_pretty.readsBack 0 j).read?

theorem read?_compact (j : Json) : read? j.compact = some j :=
  (isLayout_compact.readsBack 0 j).read?

end LeastSquares.Json
