import AvatarBits.Json.Scan
import AvatarBits.Json.Value
import AvatarBits.Proofs.Number.Numerals

/-!
# Written text is read back

A value is written as a text that scans to the value's own tree, whatever its
strings are and however it is set out. Each scanner stops exactly where its
writer did: a string at its closing quote, since quotes inside are escaped, and a
number at the first character that cannot belong to it, which is what follows it
in every text.

The scanners have a budget for the values begun. Every value has a character of
its own and so has everything between two values, so twice the length of a text
is enough for it.

* `Value.Numerals`: a property of all numerals in a value.

Results:
* `scanString_write`, `scanNumeral_write`: strings and numerals.
* `Value.scans_of_proper`, `Document.scan_text`: values in front of any text, and whole texts.
* `Document.scan_text_line`: whole texts with an end of line.
-/
namespace AvatarBits.Json

/-! ## Blanks -/

theorem skipBlank_cons {c : Char} (h : isBlank c = false) (s : List Char) :
    skipBlank (c :: s) = c :: s := by
  simp [skipBlank, h]

theorem skipBlank_newline (style : Style) (depth : Nat) (s : List Char) :
    skipBlank (style.newline depth s) = skipBlank s := by
  cases style with
  | compact => rfl
  | indented =>
    have hall : ∀ n, skipBlank (List.replicate n ' ' ++ s) = skipBlank s := by
      intro n
      induction n with
      | zero => rfl
      | succ n ih =>
        rw [List.replicate_succ, List.cons_append, ← ih]
        rfl
    exact hall (2 * depth)

/-- A colon, and what follows it up to blanks. -/
theorem colon_eq (style : Style) (s : List Char) :
    ∃ t, style.colon s = ':' :: t ∧ skipBlank t = skipBlank s ∧ s.length ≤ t.length := by
  cases style with
  | compact => exact ⟨s, rfl, rfl, Nat.le_refl _⟩
  | indented => exact ⟨' ' :: s, rfl, rfl, Nat.le_succ _⟩

theorem length_newline (style : Style) (depth : Nat) (s : List Char) :
    s.length ≤ (style.newline depth s).length := by
  cases style with
  | compact => exact Nat.le_refl _
  | indented =>
    simp [Style.newline]
    omega

/-! ## Strings -/

theorem hexValue?_hexDigit {n : Nat} (h : n < 16) : hexValue? (hexDigit n) = some n := by
  have hall : ∀ n : Fin 16, hexValue? (hexDigit n) = some n.val := by decide
  exact hall ⟨n, h⟩

/-- Four digits stand for a character below twenty in base sixteen. -/
theorem unit?_hexDigit {n : Nat} (h : n < 0x20) :
    unit? '0' '0' (hexDigit (n / 16)) (hexDigit (n % 16)) = some n := by
  have h0 : hexValue? '0' = some 0 := by decide
  rw [unit?, h0, hexValue?_hexDigit (by omega), hexValue?_hexDigit (by omega)]
  exact congrArg some (by omega)

theorem scanPieces_quote (s : List Char) : scanPieces ('"' :: s) = ([], .ok s) := by
  rw [scanPieces.eq_def]
  simp

theorem scanPieces_plain {c : Char} (hq : c ≠ '"') (hb : c ≠ '\\') (hc : ¬ c.toNat < 0x20)
    (s : List Char) : scanPieces (c :: s) = (.char c :: (scanPieces s).1, (scanPieces s).2) := by
  rw [scanPieces.eq_def]
  simp [hq, hb, hc]

theorem scanPieces_escape {e c : Char} (hu : e ≠ 'u') (he : escaped? e = some c) (s : List Char) :
    scanPieces ('\\' :: e :: s) = (.char c :: (scanPieces s).1, (scanPieces s).2) := by
  rw [scanPieces.eq_def]
  simp [hu, he]

theorem scanPieces_unit {a b c d : Char} {n : Nat} (h : unit? a b c d = some n) (s : List Char) :
    scanPieces ('\\' :: 'u' :: a :: b :: c :: d :: s)
      = (.unit n :: (scanPieces s).1, (scanPieces s).2) := by
  rw [scanPieces.eq_def]
  simp [h]

/-- A character is read from what is written for it, and the rest of the string after it. -/
theorem scanPieces_writeChar (c : Char) (s : List Char) : ∃ p : Piece,
    scanPieces (writeChar c ++ s) = (p :: (scanPieces s).1, (scanPieces s).2)
      ∧ ∀ more ps, Piece.join more (p :: ps) = (Piece.join more ps).map (c :: ·) := by
  unfold writeChar
  -- the characters with a letter of their own come first
  iterate 7
    split
    · subst c
      exact ⟨_, scanPieces_escape (by decide) rfl s, fun _ _ => rfl⟩
  split
  · -- any other control character is given by number, which is no surrogate
    rename_i hc
    refine ⟨.unit c.toNat, scanPieces_unit (unit?_hexDigit hc) s, fun more ps => ?_⟩
    have hh : Piece.isHigh c.toNat = false := by
      simp only [Piece.isHigh, Bool.and_eq_false_iff, decide_eq_false_iff_not]
      omega
    have hl : Piece.isLow c.toNat = false := by
      simp only [Piece.isLow, Bool.and_eq_false_iff, decide_eq_false_iff_not]
      omega
    rw [Piece.join.eq_def]
    simp [hh, hl, Char.ofNat_toNat]
  · rename_i hq hb _ _ _ _ _ hc
    exact ⟨_, scanPieces_plain hq hb hc s, fun _ _ => rfl⟩

theorem scanPieces_writeChars (cs rest : List Char) : ∃ ps,
    scanPieces (writeChars cs rest) = (ps, .ok rest) ∧ Piece.join false ps = some cs := by
  induction cs with
  | nil => exact ⟨[], scanPieces_quote rest, rfl⟩
  | cons c cs ih =>
    obtain ⟨ps, hs, hj⟩ := ih
    obtain ⟨p, hp, hpj⟩ := scanPieces_writeChar c (writeChars cs rest)
    exact ⟨p :: ps, by rw [writeChars, hp, hs], by rw [hpj, hj]; rfl⟩

/-- A string is read back from behind its opening quote. -/
theorem scanString_write (s : String) (rest : List Char) :
    scanString (writeChars s.toList rest) = .ok (some s, rest) := by
  obtain ⟨ps, hs, hj⟩ := scanPieces_writeChars s.toList rest
  simp [scanString, hs, hj]

theorem length_writeChars (cs rest : List Char) : rest.length < (writeChars cs rest).length := by
  induction cs with
  | nil => exact Nat.lt_succ_self _
  | cons c cs ih =>
    rw [writeChars, List.length_append]
    omega

/-! ## Numbers -/

/-- A character with which a number does not go on. -/
def Foreign (c : Char) : Prop := Digit.ofChar? c = none ∧ c ≠ '.' ∧ c ≠ 'e' ∧ c ≠ 'E'

instance (c : Char) : Decidable (Foreign c) := inferInstanceAs (Decidable (_ ∧ _))

/-- What follows a value in a text does not go on with a number. -/
def Ends (s : List Char) : Prop := ∀ c ∈ s.head?, Foreign c

theorem ends_nil : Ends [] := fun _ h => by cases h

theorem ends_cons {c : Char} (h : Foreign c) (s : List Char) : Ends (c :: s) := fun d hd => by
  cases hd
  exact h

theorem ends_newline (style : Style) (depth : Nat) {c : Char} (h : Foreign c) (s : List Char) :
    Ends (style.newline depth (c :: s)) := by
  cases style with
  | compact => exact ends_cons h s
  | indented => exact ends_cons (by decide) _

theorem scanDigits_append (ds : List Digit) {s : List Char}
    (h : ∀ c ∈ s.head?, Digit.ofChar? c = none) :
    scanDigits (ds.map Digit.char ++ s) = (ds, s) := by
  induction ds with
  | nil =>
    cases s with
    | nil => rfl
    | cons c s => simp [scanDigits, h c rfl]
  | cons d ds ih => simp [scanDigits, Digit.ofChar?_char, ih]

theorem scanDigits1_append {ds : List Digit} (hne : ds ≠ []) {s : List Char}
    (h : ∀ c ∈ s.head?, Digit.ofChar? c = none) :
    scanDigits1 (ds.map Digit.char ++ s) = .ok (ds, s) := by
  cases ds with
  | nil => exact absurd rfl hne
  | cons d ds => simp only [scanDigits1, scanDigits_append (d :: ds) h]

theorem ofChar?_point : Digit.ofChar? '.' = none := by decide

theorem ofChar?_power : Digit.ofChar? 'e' = none := by decide

/-- The text of a fraction. -/
def fracChars : Option (List Digit) → List Char
  | none => []
  | some ds => '.' :: ds.map Digit.char

/-- The text of a power of ten. -/
def powerChars : Option (Bool × List Digit) → List Char
  | none => []
  | some (s, ds) => 'e' :: (if s then '-' else '+') :: ds.map Digit.char

theorem chars_eq (n : Numeral) : n.chars = (if n.neg then ['-'] else [])
    ++ n.whole.map Digit.char ++ fracChars n.frac ++ powerChars n.power := by
  obtain ⟨neg, whole, frac, power⟩ := n
  cases frac <;> cases power <;> rfl

theorem scanPower_append {power : Option (Bool × List Digit)} (h : ∀ s, power ≠ some (s, []))
    {rest : List Char} (hr : Ends rest) :
    scanPower (powerChars power ++ rest) = .ok (power, rest) := by
  have hdigit : ∀ c ∈ rest.head?, Digit.ofChar? c = none := fun c hc => (hr c hc).1
  cases power with
  | none =>
    cases rest with
    | nil => rfl
    | cons c rest =>
      obtain ⟨-, -, he, hE⟩ := hr c rfl
      simp [powerChars, scanPower, he, hE]
  | some p =>
    obtain ⟨s, ds⟩ := p
    have hne : ds ≠ [] := fun e => h s (by rw [e])
    cases s <;>
      simp [powerChars, scanPower, scanSign, scanDigits1_append hne hdigit, Except.map]

theorem scanFrac_append {frac : Option (List Digit)} (h : frac ≠ some []) {s : List Char}
    (hs : ∀ c ∈ s.head?, Digit.ofChar? c = none ∧ c ≠ '.') :
    scanFrac (fracChars frac ++ s) = .ok (frac, s) := by
  cases frac with
  | none =>
    cases s with
    | nil => rfl
    | cons c s =>
      have hc := (hs c rfl).2
      simp only [fracChars, List.nil_append]
      unfold scanFrac
      split
      · rename_i heq
        exact absurd (List.cons.inj heq).1 hc
      · rfl
  | some ds =>
    have hne : ds ≠ [] := fun e => h (by rw [e])
    simp [fracChars, scanFrac, scanDigits1_append hne fun c hc => (hs c hc).1, Except.map]

/-- A numeral is read back from behind its sign. -/
theorem scanNumeral_write {n : Numeral} (h : n.Proper) {rest : List Char} (hr : Ends rest) :
    scanNumeral n.neg (n.whole.map Digit.char ++ fracChars n.frac ++ powerChars n.power ++ rest)
      = .ok (n, rest) := by
  -- no part goes on with what would belong to the part in front of it
  have hpower : ∀ c ∈ (powerChars n.power ++ rest).head?, Digit.ofChar? c = none ∧ c ≠ '.' := by
    cases hp : n.power with
    | none => exact fun c hc => ⟨(hr c hc).1, (hr c hc).2.1⟩
    | some p =>
      intro c hc
      obtain rfl : 'e' = c := by simpa [powerChars] using hc
      exact ⟨ofChar?_power, by decide⟩
  have hfrac : ∀ c ∈ (fracChars n.frac ++ (powerChars n.power ++ rest)).head?,
      Digit.ofChar? c = none := by
    cases hf : n.frac with
    | none => exact fun c hc => (hpower c hc).1
    | some ds =>
      intro c hc
      obtain rfl : '.' = c := by simpa [fracChars] using hc
      exact ofChar?_point
  obtain ⟨d, ds, hw, hd⟩ := h.whole
  have hwhole : scanWhole (n.whole.map Digit.char
      ++ (fracChars n.frac ++ (powerChars n.power ++ rest)))
      = .ok (n.whole, fracChars n.frac ++ (powerChars n.power ++ rest)) := by
    rw [scanWhole, scanDigits1_append (by simp [hw]) hfrac, hw]
    by_cases h0 : d = 0
    · obtain rfl := hd h0
      subst h0
      rfl
    · split
      · rename_i heq
        simp only [Except.ok.injEq, Prod.mk.injEq, List.cons.injEq] at heq
        exact absurd heq.1.1 h0
      · rfl
  simp only [List.append_assoc]
  simp [scanNumeral, hwhole, scanFrac_append h.frac hpower, scanPower_append h.power hr,
    bind, Except.bind, pure, Except.pure]

/-! ## Values -/

/-- The numeral of every number in a value has a property. -/
inductive Value.Numerals (P : Numeral → Prop) : Value → Prop
  | null : Numerals P .null
  | bool (b : Bool) : Numerals P (.bool b)
  | number {n : Numeral} (h : P n) : Numerals P (.number n)
  | string (s : String) : Numerals P (.string s)
  | array {vs : List Value} (h : ∀ v ∈ vs, Numerals P v) : Numerals P (.array vs)
  | object {ms : List (String × Value)} (h : ∀ m ∈ ms, Numerals P m.2) : Numerals P (.object ms)

theorem Value.Numerals.mono {P Q : Numeral → Prop} (hpq : ∀ n, P n → Q n) {v : Value}
    (h : v.Numerals P) : v.Numerals Q := by
  induction h with
  | null => exact .null
  | bool b => exact .bool b
  | number h => exact .number (hpq _ h)
  | string s => exact .string s
  | array _ ih => exact .array ih
  | object _ ih => exact .object ih

theorem scanWord_append (node : Node) (word rest : List Char) :
    scanWord node word (word ++ rest) = ⟨node, some rest⟩ := by
  induction word with
  | nil => cases rest <;> rfl
  | cons c word ih => simp [scanWord, ih]

/-- Blanks in front of a value make no difference. -/
theorem scanValue_congr {s t : List Char} (h : skipBlank s = skipBlank t) (budget : Nat) :
    scanValue budget s = scanValue budget t := by
  cases budget <;> simp only [scanValue, h]

theorem scanItems_congr {s t : List Char} (h : skipBlank s = skipBlank t) (budget : Nat) :
    scanItems budget s = scanItems budget t := by
  cases budget with
  | zero => rfl
  | succ budget => simp only [scanItems, scanValue_congr h]

theorem scanMembers_congr {s t : List Char} (h : skipBlank s = skipBlank t) (budget : Nat) :
    scanMembers budget s = scanMembers budget t := by
  cases budget <;> simp only [scanMembers, h]

/-- A digit starts no value but a number. -/
theorem digit_char_spec (d : Digit) : isBlank d.char = false ∧ d.char ≠ 'n' ∧ d.char ≠ 't'
    ∧ d.char ≠ 'f' ∧ d.char ≠ '"' ∧ d.char ≠ '-' ∧ d.char ≠ ']' := by
  revert d
  decide

/-- A number is read back. -/
theorem scanValue_number {n : Numeral} (h : n.Proper) {rest : List Char} (hr : Ends rest)
    (budget : Nat) : scanValue (budget + 1) (n.chars ++ rest) = ⟨.number n, some rest⟩ := by
  have hscan := scanNumeral_write h hr
  simp only [List.append_assoc] at hscan
  rw [chars_eq]
  simp only [List.append_assoc]
  cases hneg : n.neg with
  | true =>
    rw [hneg] at hscan
    simp only [if_true, List.cons_append, List.nil_append]
    rw [scanValue, skipBlank_cons (by decide)]
    simp [hscan, Scanned.ofNumeral]
  | false =>
    rw [hneg] at hscan
    obtain ⟨d, ds, hw, -⟩ := h.whole
    obtain ⟨h1, h2, h3, h4, h5, h6, -⟩ := digit_char_spec d
    rw [hw, List.map_cons] at hscan ⊢
    simp only [Bool.false_eq_true, if_false, List.cons_append, List.nil_append] at hscan ⊢
    rw [scanValue, skipBlank_cons h1]
    simp [h2, h3, h4, h5, h6, Digit.ofChar?_char, hscan, Scanned.ofNumeral]

namespace Value

/-- A value in front of a text is read back, with a budget of twice its length. -/
structure Scans (style : Style) (depth : Nat) (v : Value) (rest : List Char) : Prop where
  longer : rest.length < (v.write style depth rest).length
  head : ∃ c s, v.write style depth rest = c :: s ∧ isBlank c = false ∧ c ≠ ']'
  scan : ∀ budget, 2 * (v.write style depth rest).length ≤ budget + 2 * rest.length →
    scanValue budget (v.write style depth rest) = ⟨v.node, some rest⟩

section
variable {style : Style} {depth : Nat}

theorem isBlank_bracket : isBlank ']' = false := by decide

theorem isBlank_brace : isBlank '\x7d' = false := by decide

theorem isBlank_comma : isBlank ',' = false := by decide

theorem foreign_bracket : Foreign ']' := by decide

theorem foreign_brace : Foreign '\x7d' := by decide

theorem foreign_comma : Foreign ',' := by decide

/-- Items up to the closing bracket are read back if each of them is. -/
theorem scanItems_write (outer : Nat) {v : Value} {vs : List Value}
    (h : ∀ w ∈ v :: vs, ∀ rest, Ends rest → Scans style depth w rest) (rest : List Char)
    {text : List Char} (ht : text = v.write style depth
      (writeItems style depth vs (style.newline outer (']' :: rest)))) :
    rest.length < text.length ∧ ∀ budget, 2 * text.length ≤ budget + 2 * rest.length →
      scanItems budget text = ⟨(v.node :: nodes vs, none), some rest⟩ := by
  induction vs generalizing v text with
  | nil =>
    rw [writeItems] at ht
    have hv := h v List.mem_cons_self _ (ends_newline style outer foreign_bracket rest)
    have hlen := length_newline style outer (']' :: rest)
    have hlong := hv.longer
    rw [← ht] at hlong
    rw [List.length_cons] at hlen
    refine ⟨by omega, fun budget hb => ?_⟩
    obtain ⟨b, rfl⟩ : ∃ b, budget = b + 1 := ⟨budget - 1, by omega⟩
    have hscan := hv.scan b (by rw [← ht]; omega)
    rw [← ht] at hscan
    simp only [scanItems, hscan, skipBlank_newline, skipBlank_cons isBlank_bracket, if_true, nodes]
  | cons w ws ih =>
    obtain ⟨hlong', hscan'⟩ := ih (fun u hu => h u (List.mem_cons_of_mem _ hu)) rfl
    rw [writeItems] at ht
    generalize w.write style depth _ = inner at ht hlong' hscan'
    have hv := h v List.mem_cons_self _ (ends_cons foreign_comma (style.newline depth inner))
    have hlen := length_newline style depth inner
    have hlong := hv.longer
    rw [← ht, List.length_cons] at hlong
    refine ⟨by omega, fun budget hb => ?_⟩
    obtain ⟨b, rfl⟩ : ∃ b, budget = b + 1 := ⟨budget - 1, by omega⟩
    have hscan := hv.scan b (by rw [← ht, List.length_cons]; omega)
    rw [← ht] at hscan
    simp only [scanItems, hscan, skipBlank_cons isBlank_comma, show ',' ≠ ']' by decide, if_false,
      if_true, scanItems_congr (skipBlank_newline style depth inner), hscan' b (by omega), nodes]

/-- A name, a colon and a value are read back if the value is. -/
theorem scanMember_write (k : String) {v : Value} {tail text : List Char}
    (hv : Scans style depth v tail)
    (ht : text = writeString k (style.colon (v.write style depth tail))) :
    tail.length < text.length ∧ ∃ s t, text = '"' :: s ∧ scanString s = .ok (some k, ':' :: t)
      ∧ ∀ budget, 2 * text.length ≤ budget + 2 * tail.length →
        scanValue budget t = ⟨v.node, some tail⟩ := by
  obtain ⟨t, hcolon, hskip, hlen⟩ := colon_eq style (v.write style depth tail)
  have hlong := hv.longer
  have hname := length_writeChars k.toList (':' :: t)
  rw [List.length_cons] at hname
  rw [hcolon, writeString] at ht
  subst ht
  rw [List.length_cons]
  refine ⟨by omega, _, t, rfl, scanString_write k _, fun budget hb => ?_⟩
  rw [scanValue_congr hskip]
  exact hv.scan budget (by omega)

/-- Members up to the closing brace are read back if the value of each is. -/
theorem scanMembers_write (outer : Nat) {k : String} {v : Value} {ms : List (String × Value)}
    (h : ∀ m ∈ (k, v) :: ms, ∀ rest, Ends rest → Scans style depth m.2 rest)
    (rest : List Char) {text : List Char}
    (ht : text = writeString k (style.colon (v.write style depth
      (writeMembers style depth ms (style.newline outer ('\x7d' :: rest)))))) :
    rest.length < text.length ∧ ∀ budget, 2 * text.length ≤ budget + 2 * rest.length →
      scanMembers budget text = ⟨((.text (some k), v.node) :: members ms, none), some rest⟩ := by
  have hquote : isBlank '"' = false := by decide
  have hcolon : isBlank ':' = false := by decide
  induction ms generalizing k v text with
  | nil =>
    rw [writeMembers] at ht
    have hv := h (k, v) List.mem_cons_self _ (ends_newline style outer foreign_brace rest)
    obtain ⟨hlong, s, t, hs, hname, hscan⟩ := scanMember_write k hv ht
    have hlen := length_newline style outer ('\x7d' :: rest)
    rw [List.length_cons] at hlen
    refine ⟨by omega, fun budget hb => ?_⟩
    obtain ⟨b, rfl⟩ : ∃ b, budget = b + 1 := ⟨budget - 1, by omega⟩
    have hvalue := hscan b (by omega)
    simp only [hs, scanMembers, skipBlank_cons hquote, skipBlank_cons hcolon, hname, hvalue,
      skipBlank_newline, skipBlank_cons isBlank_brace, if_true, members]
  | cons m ms ih =>
    obtain ⟨j, w⟩ := m
    obtain ⟨hlong', hscan'⟩ := ih (fun u hu => h u (List.mem_cons_of_mem _ hu)) rfl
    rw [writeMembers] at ht
    generalize writeString j _ = inner at ht hlong' hscan'
    have hv := h (k, v) List.mem_cons_self _ (ends_cons foreign_comma (style.newline depth inner))
    obtain ⟨hlong, s, t, hs, hname, hscan⟩ := scanMember_write k hv ht
    have hlen := length_newline style depth inner
    rw [List.length_cons] at hlong
    refine ⟨by omega, fun budget hb => ?_⟩
    obtain ⟨b, rfl⟩ : ∃ b, budget = b + 1 := ⟨budget - 1, by omega⟩
    have hvalue := hscan b (by rw [List.length_cons]; omega)
    simp only [hs, scanMembers, skipBlank_cons hquote, skipBlank_cons hcolon, hname, hvalue,
      skipBlank_cons isBlank_comma, show ',' ≠ '\x7d' by decide, if_false, if_true,
      scanMembers_congr (skipBlank_newline style depth inner), hscan' b (by omega), members]

end

/-! ### One kind of value after another -/

/-- A text that is longer than what follows it leaves a budget to begin with. -/
theorem Scans.of_succ {style : Style} {depth : Nat} {v : Value} {rest : List Char} {c : Char}
    {s : List Char} (hw : v.write style depth rest = c :: s) (hlen : rest.length ≤ s.length)
    (hc : isBlank c = false ∧ c ≠ ']')
    (h : ∀ b, 2 * s.length + 1 ≤ b + 2 * rest.length →
      scanValue (b + 1) (c :: s) = ⟨v.node, some rest⟩) : Scans style depth v rest where
  longer := by
    rw [hw, List.length_cons]
    omega
  head := ⟨c, s, hw, hc⟩
  scan budget hb := by
    rw [hw, List.length_cons] at hb
    obtain ⟨b, rfl⟩ : ∃ b, budget = b + 1 := ⟨budget - 1, by omega⟩
    rw [hw]
    exact h b (by omega)

section
variable {style : Style} {depth : Nat}

theorem scans_null (rest : List Char) : Scans style depth .null rest := by
  have hw : "null".toList = ['n', 'u', 'l', 'l'] := by decide
  refine .of_succ (by rw [write, hw, List.cons_append]) (by simp; omega) (by decide) fun b _ => ?_
  rw [scanValue, skipBlank_cons (by decide)]
  exact scanWord_append .null ['u', 'l', 'l'] rest

theorem scans_bool (b : Bool) (rest : List Char) : Scans style depth (.bool b) rest := by
  cases b with
  | true =>
    have hw : "true".toList = ['t', 'r', 'u', 'e'] := by decide
    refine .of_succ (by rw [write, if_pos rfl, hw, List.cons_append]) (by simp; omega) (by decide)
      fun b _ => ?_
    rw [scanValue, skipBlank_cons (by decide)]
    exact scanWord_append (.bool true) ['r', 'u', 'e'] rest
  | false =>
    have hw : "false".toList = ['f', 'a', 'l', 's', 'e'] := by decide
    refine .of_succ (by rw [write, if_neg (by decide), hw, List.cons_append]) (by simp; omega)
      (by decide) fun b _ => ?_
    rw [scanValue, skipBlank_cons (by decide)]
    exact scanWord_append (.bool false) ['a', 'l', 's', 'e'] rest

theorem scans_number {n : Numeral} (h : n.Proper) {rest : List Char} (hr : Ends rest) :
    Scans style depth (.number n) rest := by
  have hscan := scanValue_number h hr
  obtain ⟨d, ds, hd, -⟩ := h.whole
  obtain ⟨c, s, hs, hc⟩ : ∃ c s, n.chars = c :: s ∧ isBlank c = false ∧ c ≠ ']' := by
    rw [chars_eq, hd]
    cases n.neg with
    | true => exact ⟨'-', _, rfl, by decide⟩
    | false => exact ⟨d.char, _, rfl, (digit_char_spec d).1, (digit_char_spec d).2.2.2.2.2.2⟩
  rw [hs] at hscan
  exact .of_succ (by rw [write, hs]; rfl) (by simp) hc fun b _ => hscan b

theorem scans_string (s : String) (rest : List Char) : Scans style depth (.string s) rest := by
  have hlen := length_writeChars s.toList rest
  refine .of_succ rfl (Nat.le_of_lt hlen) (by decide) fun b _ => ?_
  rw [scanValue, skipBlank_cons (by decide)]
  simp [scanString_write, node]

theorem ofChar?_bracket : Digit.ofChar? '[' = none := by decide

theorem ofChar?_brace : Digit.ofChar? '\x7b' = none := by decide

theorem scans_array {vs : List Value}
    (h : ∀ v ∈ vs, ∀ rest, Ends rest → Scans style (depth + 1) v rest) (rest : List Char) :
    Scans style depth (.array vs) rest := by
  cases vs with
  | nil =>
    refine .of_succ rfl (by simp) (by decide) fun b _ => ?_
    rw [scanValue, skipBlank_cons (by decide)]
    simp [ofChar?_bracket, skipBlank_cons isBlank_bracket, node, nodes]
  | cons v vs =>
    obtain ⟨hlong, hscan⟩ := scanItems_write depth h rest rfl
    obtain ⟨c, s, hhead, hblank, hc⟩ := (h v List.mem_cons_self
      (writeItems style (depth + 1) vs (style.newline depth (']' :: rest))) (by
        cases vs with
        | nil => exact ends_newline style depth foreign_bracket rest
        | cons w ws => exact ends_cons foreign_comma _)).head
    have hlen := length_newline style (depth + 1) (v.write style (depth + 1)
      (writeItems style (depth + 1) vs (style.newline depth (']' :: rest))))
    refine .of_succ rfl (by omega) (by decide) fun b hb => ?_
    have hitems := hscan b (by omega)
    rw [hhead] at hitems
    rw [scanValue, skipBlank_cons (by decide)]
    simp [ofChar?_bracket, skipBlank_newline, hhead, skipBlank_cons hblank, hc, hitems, node, nodes]

theorem scans_object {ms : List (String × Value)}
    (h : ∀ m ∈ ms, ∀ rest, Ends rest → Scans style (depth + 1) m.2 rest) (rest : List Char) :
    Scans style depth (.object ms) rest := by
  cases ms with
  | nil =>
    refine .of_succ rfl (by simp) (by decide) fun b _ => ?_
    rw [scanValue, skipBlank_cons (by decide)]
    simp [ofChar?_brace, skipBlank_cons isBlank_brace, node, members]
  | cons m ms =>
    obtain ⟨k, v⟩ := m
    obtain ⟨hlong, hscan⟩ := scanMembers_write depth h rest rfl
    have hlen := length_newline style (depth + 1) (writeString k (style.colon (v.write style
      (depth + 1) (writeMembers style (depth + 1) ms (style.newline depth ('\x7d' :: rest))))))
    refine .of_succ rfl (by omega) (by decide) fun b hb => ?_
    have hmembers := hscan b (by omega)
    rw [writeString] at hmembers
    rw [scanValue, skipBlank_cons (by decide)]
    simp [ofChar?_brace, skipBlank_newline, writeString,
      skipBlank_cons (show isBlank '"' = false by decide), hmembers, node, members]

end

/-- **Values.** A value is read back from its text, in front of whatever may follow it. -/
theorem scans_of_proper {v : Value} (h : v.Numerals Numeral.Proper) (style : Style) (depth : Nat)
    {rest : List Char} (hr : Ends rest) : Scans style depth v rest := by
  induction h generalizing depth rest with
  | null => exact scans_null rest
  | bool b => exact scans_bool b rest
  | number h => exact scans_number h hr
  | string s => exact scans_string s rest
  | array _ ih => exact scans_array (fun v hv _ hr => ih v hv (depth + 1) hr) rest
  | object _ ih => exact scans_object (fun m hm _ hr => ih m hm (depth + 1) hr) rest

end Value

/-- **Texts.** A text that was written is read back whole. -/
theorem Document.scan_text {v : Value} (h : v.Numerals Numeral.Proper) (style : Style) :
    Document.scan (v.text style) = ⟨v.node, none⟩ := by
  have hs := (Value.scans_of_proper h style 0 ends_nil).scan
    (2 * (v.write style 0 []).length + 2) (by omega)
  simp [Document.scan, Value.text, hs, skipBlank]

/-! ## A text in front of another -/

theorem Style.newline_append (style : Style) (depth : Nat) (a b : List Char) :
    style.newline depth (a ++ b) = style.newline depth a ++ b := by
  cases style <;> simp [newline]

theorem Style.colon_append (style : Style) (a b : List Char) :
    style.colon (a ++ b) = style.colon a ++ b := by
  cases style <;> rfl

theorem writeString_append (s : String) (a b : List Char) :
    writeString s (a ++ b) = writeString s a ++ b := by
  have hchars : ∀ cs, writeChars cs (a ++ b) = writeChars cs a ++ b := fun cs => by
    induction cs with
    | nil => rfl
    | cons c cs ih => rw [writeChars, writeChars, ih, List.append_assoc]
  rw [writeString, writeString, hchars, List.cons_append]

namespace Value

mutual

/-- What follows a value is left as it is. -/
theorem write_append (style : Style) (depth : Nat) :
    ∀ (v : Value) (a b : List Char), v.write style depth (a ++ b) = v.write style depth a ++ b
  | .null, a, b | .bool _, a, b | .number _, a, b => by simp only [write, List.append_assoc]
  | .string s, a, b => writeString_append s a b
  | .array [], a, b | .object [], a, b => rfl
  | .array (v :: vs), a, b => by
    rw [write, write, ← List.cons_append, Style.newline_append, writeItems_append, write_append,
      Style.newline_append, List.cons_append]
  | .object ((k, v) :: ms), a, b => by
    rw [write, write, ← List.cons_append, Style.newline_append, writeMembers_append, write_append,
      Style.colon_append, writeString_append, Style.newline_append, List.cons_append]

theorem writeItems_append (style : Style) (depth : Nat) : ∀ (vs : List Value) (a b : List Char),
    writeItems style depth vs (a ++ b) = writeItems style depth vs a ++ b
  | [], _, _ => rfl
  | v :: vs, a, b => by
    rw [writeItems, writeItems, writeItems_append, write_append, Style.newline_append,
      List.cons_append]

theorem writeMembers_append (style : Style) (depth : Nat) :
    ∀ (ms : List (String × Value)) (a b : List Char),
      writeMembers style depth ms (a ++ b) = writeMembers style depth ms a ++ b
  | [], _, _ => rfl
  | (k, v) :: ms, a, b => by
    rw [writeMembers, writeMembers, writeMembers_append, write_append, Style.colon_append,
      writeString_append, Style.newline_append, List.cons_append]

end

end Value

/-- An end of line behind a text that was written is passed over. -/
theorem Document.scan_text_line {v : Value} (h : v.Numerals Numeral.Proper) (style : Style) :
    Document.scan (v.text style ++ "\n") = ⟨v.node, none⟩ := by
  have hchars : (v.text style ++ "\n").toList = v.write style 0 ['\n'] := by
    rw [String.toList_append, Value.text, String.toList_ofList]
    exact (v.write_append style 0 [] ['\n']).symm
  have hends : Ends ['\n'] := ends_cons (by decide) []
  have hs := (Value.scans_of_proper h style 0 hends).scan
    (2 * (v.write style 0 ['\n']).length + 2) (by omega)
  have hblank : skipBlank ['\n'] = [] := by decide
  simp [Document.scan, hchars, hs, hblank]

end AvatarBits.Json
