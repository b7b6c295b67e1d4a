import JobScripts.Lib.Text

/-!
# The JSON grammar

RFC 8259 over bytes: which byte strings spell which value. A value keeps what a reader of JSON can
tell apart and this development needs: the structure, and strings as the code points of their
characters and escapes, `\u` escapes one unit each. `joinPairs` then gives the decoded string.
A character that is not escaped is spelled by its UTF-8 bytes, `String.utf8EncodeChar`, so overlong
forms, surrogates and numbers beyond U+10FFFF have no spelling.

The relations follow the rules of the grammar: `Spells` is the rule of a value, `SpellsElement` a
value with the white space around it, `SpellsItems` and `SpellsMembers` the inside of an array and
of an object that are not empty.
-/

namespace JobScripts.Lib.Json

/-! ## Bytes -/

def openObject : UInt8 := 0x7B
def closeObject : UInt8 := 0x7D
def openArray : UInt8 := 0x5B
def closeArray : UInt8 := 0x5D
def quote : UInt8 := 0x22
def backslash : UInt8 := 0x5C
def colon : UInt8 := 0x3A
def comma : UInt8 := 0x2C
def minus : UInt8 := 0x2D
def plus : UInt8 := 0x2B
def zero : UInt8 := 0x30
def dot : UInt8 := 0x2E
def unicodeEscape : UInt8 := 0x75

/-- Space, tab, line feed and carriage return. -/
def isSpace (b : UInt8) : Bool := b = 0x20 || b = 0x09 || b = 0x0A || b = 0x0D

/-- A decimal digit. -/
def isDigit (b : UInt8) : Bool := 0x30 ≤ b && b ≤ 0x39

/-- A decimal digit other than zero. -/
def isNonzeroDigit (b : UInt8) : Bool := 0x31 ≤ b && b ≤ 0x39

/-- The mark of an exponent. -/
def isExponent (b : UInt8) : Bool := b = 0x65 || b = 0x45

/-- The value of a hexadecimal digit. -/
def hexValue (b : UInt8) : Option ℕ :=
  if isDigit b then some (b.toNat - 0x30)
  else if 0x61 ≤ b && b ≤ 0x66 then some (b.toNat - 0x61 + 10)
  else if 0x41 ≤ b && b ≤ 0x46 then some (b.toNat - 0x41 + 10)
  else none

/-- The character of a two-character escape, by the byte after the backslash. -/
def escapeValue (b : UInt8) : Option ℕ :=
  if b = 0x22 then some 0x22
  else if b = 0x5C then some 0x5C
  else if b = 0x2F then some 0x2F
  else if b = 0x62 then some 0x08
  else if b = 0x66 then some 0x0C
  else if b = 0x6E then some 0x0A
  else if b = 0x72 then some 0x0D
  else if b = 0x74 then some 0x09
  else none

/-! ## Values -/

/-- The three literal names. -/
inductive Literal
  | true | false | null

/-- The spelling of a literal name. -/
def Literal.text : Literal → List UInt8
  | .true => [0x74, 0x72, 0x75, 0x65]
  | .false => [0x66, 0x61, 0x6C, 0x73, 0x65]
  | .null => [0x6E, 0x75, 0x6C, 0x6C]

mutual

/-- A JSON value. The value of a number is not kept. -/
inductive Value
  | literal (l : Literal)
  | number
  | string (units : List ℕ)
  | array (items : Items)
  | object (members : Members)

/-- The items of an array. -/
inductive Items
  | nil
  | cons (value : Value) (rest : Items)

/-- The members of an object. -/
inductive Members
  | nil
  | cons (key : List ℕ) (value : Value) (rest : Members)

end

/-- The items as a list. -/
def Items.toList : Items → List Value
  | .nil => []
  | .cons value rest => value :: rest.toList

/-- The members as a list. -/
def Members.toList : Members → List (List ℕ × Value)
  | .nil => []
  | .cons key value rest => (key, value) :: rest.toList

/-! ## Spellings -/

/-- White space. -/
def Space (w : List UInt8) : Prop := ∀ b ∈ w, isSpace b = true

/-- Any number of digits. -/
def Digits (w : List UInt8) : Prop := ∀ b ∈ w, isDigit b = true

/-- One or more digits. -/
def Digits1 (w : List UInt8) : Prop := ∃ d ds, w = d :: ds ∧ isDigit d = true ∧ Digits ds

/-- The integer part of a number. -/
def IntPart (w : List UInt8) : Prop :=
  w = [zero] ∨ ∃ d ds, w = d :: ds ∧ isNonzeroDigit d = true ∧ Digits ds

/-- The fraction of a number, which may be missing. -/
def Fraction (w : List UInt8) : Prop := w = [] ∨ ∃ ds, w = dot :: ds ∧ Digits1 ds

/-- What follows the mark of an exponent. -/
def ExponentDigits (w : List UInt8) : Prop :=
  ∃ sign ds, w = sign ++ ds ∧ (sign = [] ∨ sign = [plus] ∨ sign = [minus]) ∧ Digits1 ds

/-- The exponent of a number, which may be missing. -/
def Exponent (w : List UInt8) : Prop :=
  w = [] ∨ ∃ e ds, w = e :: ds ∧ isExponent e = true ∧ ExponentDigits ds

/-- A number. -/
def Number (w : List UInt8) : Prop :=
  ∃ sign i f e, w = sign ++ (i ++ (f ++ e)) ∧ (sign = [] ∨ sign = [minus]) ∧ IntPart i ∧
    Fraction f ∧ Exponent e

/-- The inside of a string: its units, and the bytes between the quotation marks. -/
inductive Chars : List ℕ → List UInt8 → Prop
  | nil : Chars [] []
  /-- A character that stands for itself: no control character, quotation mark or backslash. -/
  | raw {units w} (c : Char) (hc : 0x20 ≤ c.toNat) (hq : c.toNat ≠ 0x22) (hb : c.toNat ≠ 0x5C) :
      Chars units w → Chars (c.toNat :: units) (String.utf8EncodeChar c ++ w)
  /-- A two-character escape. -/
  | escape {units w} (b : UInt8) (u : ℕ) (h : escapeValue b = some u) :
      Chars units w → Chars (u :: units) (backslash :: b :: w)
  /-- A `\u` escape of four hexadecimal digits. -/
  | unicode {units w} (a b c d : UInt8) (va vb vc vd : ℕ) (ha : hexValue a = some va)
      (hb : hexValue b = some vb) (hc : hexValue c = some vc) (hd : hexValue d = some vd) :
      Chars units w →
        Chars ((((va * 16 + vb) * 16 + vc) * 16 + vd) :: units)
          (backslash :: unicodeEscape :: a :: b :: c :: d :: w)

mutual

/-- The spellings of a value. -/
inductive Spells : Value → List UInt8 → Prop
  | literal (l : Literal) : Spells (.literal l) l.text
  | number {w} : Number w → Spells .number w
  | string {units w} : Chars units w → Spells (.string units) (quote :: (w ++ [quote]))
  | emptyArray {s} : Space s → Spells (.array .nil) (openArray :: (s ++ [closeArray]))
  | array {items w} : SpellsItems items w →
      Spells (.array items) (openArray :: (w ++ [closeArray]))
  | emptyObject {s} : Space s → Spells (.object .nil) (openObject :: (s ++ [closeObject]))
  | object {members w} : SpellsMembers members w →
      Spells (.object members) (openObject :: (w ++ [closeObject]))

/-- A value with the white space around it. -/
inductive SpellsElement : Value → List UInt8 → Prop
  | mk {value s w s'} : Space s → Spells value w → Space s' →
      SpellsElement value (s ++ (w ++ s'))

/-- The items of an array that is not empty. -/
inductive SpellsItems : Items → List UInt8 → Prop
  | one {value w} : SpellsElement value w → SpellsItems (.cons value .nil) w
  | more {value rest w w'} : SpellsElement value w → SpellsItems rest w' →
      SpellsItems (.cons value rest) (w ++ comma :: w')

/-- One member of an object. -/
inductive SpellsMember : List ℕ → Value → List UInt8 → Prop
  | mk {key value s k s' w} : Space s → Chars key k → Space s' → SpellsElement value w →
      SpellsMember key value (s ++ quote :: (k ++ quote :: (s' ++ colon :: w)))

/-- The members of an object that is not empty. -/
inductive SpellsMembers : Members → List UInt8 → Prop
  | one {key value w} : SpellsMember key value w → SpellsMembers (.cons key value .nil) w
  | more {key value rest w w'} : SpellsMember key value w → SpellsMembers rest w' →
      SpellsMembers (.cons key value rest) (w ++ comma :: w')

end

/-- A JSON text is a value with white space around it, and nothing else. -/
def IsText (value : Value) (w : List UInt8) : Prop := SpellsElement value w

/-! ## Numbers by their first byte

What may follow a beginning of a number is a language of its own; each is read off its first byte.
-/

/-- Digits, then an exponent. -/
def DigitsExponent (w : List UInt8) : Prop := ∃ ds e, w = ds ++ e ∧ Digits ds ∧ Exponent e

/-- One or more digits, then an exponent. -/
def Digits1Exponent (w : List UInt8) : Prop :=
  ∃ d ds, w = d :: ds ∧ isDigit d = true ∧ DigitsExponent ds

/-- A fraction, then an exponent. -/
def FractionExponent (w : List UInt8) : Prop := ∃ f e, w = f ++ e ∧ Fraction f ∧ Exponent e

/-- Digits of the integer part, then the rest of the number. -/
def IntRest (w : List UInt8) : Prop := ∃ ds fe, w = ds ++ fe ∧ Digits ds ∧ FractionExponent fe

/-- A number without a sign. -/
def Unsigned (w : List UInt8) : Prop := ∃ i fe, w = i ++ fe ∧ IntPart i ∧ FractionExponent fe

/-- A digit is neither a mark of an exponent nor a dot. -/
theorem isDigit_not {b : UInt8} (h : isDigit b = true) : isExponent b = false ∧ b ≠ dot := by
  simp only [isDigit, isExponent, dot, Bool.and_eq_true, decide_eq_true_eq, Bool.or_eq_false_iff,
    decide_eq_false_iff_not, UInt8.le_iff_toNat_le, ← UInt8.toNat_inj, UInt8.reduceToNat,
    ne_eq] at h ⊢
  omega

/-- A nonzero digit is a digit, and not zero. -/
theorem isNonzeroDigit_iff (b : UInt8) :
    isNonzeroDigit b = true ↔ isDigit b = true ∧ b ≠ zero := by
  simp only [isDigit, isNonzeroDigit, zero, Bool.and_eq_true, decide_eq_true_eq,
    UInt8.le_iff_toNat_le, ← UInt8.toNat_inj, UInt8.reduceToNat, ne_eq]
  omega

theorem digits_cons_iff {b : UInt8} {w : List UInt8} :
    Digits (b :: w) ↔ isDigit b = true ∧ Digits w := by
  simp [Digits]

theorem digits1_cons_iff {b : UInt8} {w : List UInt8} :
    Digits1 (b :: w) ↔ isDigit b = true ∧ Digits w := by
  constructor
  · rintro ⟨d, ds, heq, hd, hds⟩
    obtain ⟨rfl, rfl⟩ := List.cons.inj heq
    exact ⟨hd, hds⟩
  · rintro ⟨hd, hds⟩
    exact ⟨b, w, rfl, hd, hds⟩

theorem exponentDigits_cons_iff {b : UInt8} {w : List UInt8} :
    ExponentDigits (b :: w) ↔
      (b = plus ∨ b = minus) ∧ Digits1 w ∨ isDigit b = true ∧ Digits w := by
  constructor
  · rintro ⟨sign, ds, heq, rfl | rfl | rfl, hds⟩
    · exact .inr (digits1_cons_iff.mp (heq ▸ hds))
    · obtain ⟨rfl, rfl⟩ := List.cons.inj heq
      exact .inl ⟨.inl rfl, hds⟩
    · obtain ⟨rfl, rfl⟩ := List.cons.inj heq
      exact .inl ⟨.inr rfl, hds⟩
  · rintro (⟨rfl | rfl, hds⟩ | hds)
    · exact ⟨[plus], w, rfl, .inr (.inl rfl), hds⟩
    · exact ⟨[minus], w, rfl, .inr (.inr rfl), hds⟩
    · exact ⟨[], b :: w, rfl, .inl rfl, digits1_cons_iff.mpr hds⟩

theorem exponent_cons_iff {b : UInt8} {w : List UInt8} :
    Exponent (b :: w) ↔ isExponent b = true ∧ ExponentDigits w := by
  constructor
  · rintro (h | ⟨e, ds, heq, he, hds⟩)
    · simp at h
    · obtain ⟨rfl, rfl⟩ := List.cons.inj heq
      exact ⟨he, hds⟩
  · rintro ⟨he, hds⟩
    exact .inr ⟨b, w, rfl, he, hds⟩

theorem digitsExponent_cons_iff {b : UInt8} {w : List UInt8} :
    DigitsExponent (b :: w) ↔ isDigit b = true ∧ DigitsExponent w ∨ Exponent (b :: w) := by
  constructor
  · rintro ⟨ds, e, heq, hds, he⟩
    match ds with
    | [] => exact .inr (heq ▸ he)
    | d :: ds =>
      obtain ⟨rfl, rfl⟩ := List.cons.inj heq
      obtain ⟨hd, hds⟩ := digits_cons_iff.mp hds
      exact .inl ⟨hd, ds, e, rfl, hds, he⟩
  · rintro (⟨hd, ds, e, rfl, hds, he⟩ | he)
    · exact ⟨b :: ds, e, rfl, digits_cons_iff.mpr ⟨hd, hds⟩, he⟩
    · exact ⟨[], b :: w, rfl, by simp [Digits], he⟩

theorem fractionExponent_cons_iff {b : UInt8} {w : List UInt8} :
    FractionExponent (b :: w) ↔ b = dot ∧ Digits1Exponent w ∨ Exponent (b :: w) := by
  constructor
  · rintro ⟨f, e, heq, rfl | ⟨ds, rfl, d, ds, rfl, hd, hds⟩, he⟩
    · exact .inr (heq ▸ he)
    · obtain ⟨rfl, rfl⟩ := List.cons.inj heq
      exact .inl ⟨rfl, d, ds ++ e, rfl, hd, ds, e, rfl, hds, he⟩
  · rintro (⟨rfl, d, _, rfl, hd, ds, e, rfl, hds, he⟩ | he)
    · exact ⟨dot :: d :: ds, e, rfl, .inr ⟨d :: ds, rfl, d, ds, rfl, hd, hds⟩, he⟩
    · exact ⟨[], b :: w, rfl, .inl rfl, he⟩

theorem intRest_cons_iff {b : UInt8} {w : List UInt8} :
    IntRest (b :: w) ↔ isDigit b = true ∧ IntRest w ∨ FractionExponent (b :: w) := by
  constructor
  · rintro ⟨ds, fe, heq, hds, hfe⟩
    match ds with
    | [] => exact .inr (heq ▸ hfe)
    | d :: ds =>
      obtain ⟨rfl, rfl⟩ := List.cons.inj heq
      obtain ⟨hd, hds⟩ := digits_cons_iff.mp hds
      exact .inl ⟨hd, ds, fe, rfl, hds, hfe⟩
  · rintro (⟨hd, ds, fe, rfl, hds, hfe⟩ | hfe)
    · exact ⟨b :: ds, fe, rfl, digits_cons_iff.mpr ⟨hd, hds⟩, hfe⟩
    · exact ⟨[], b :: w, rfl, by simp [Digits], hfe⟩

theorem unsigned_cons_iff {b : UInt8} {w : List UInt8} :
    Unsigned (b :: w) ↔
      b = zero ∧ FractionExponent w ∨ isNonzeroDigit b = true ∧ IntRest w := by
  constructor
  · rintro ⟨i, fe, heq, rfl | ⟨d, ds, rfl, hd, hds⟩, hfe⟩
    · obtain ⟨rfl, rfl⟩ := List.cons.inj heq
      exact .inl ⟨rfl, hfe⟩
    · obtain ⟨rfl, rfl⟩ := List.cons.inj heq
      exact .inr ⟨hd, ds, fe, rfl, hds, hfe⟩
  · rintro (⟨rfl, hfe⟩ | ⟨hd, ds, fe, rfl, hds, hfe⟩)
    · exact ⟨[zero], w, rfl, .inl rfl, hfe⟩
    · exact ⟨b :: ds, fe, rfl, .inr ⟨b, ds, rfl, hd, hds⟩, hfe⟩

theorem number_iff {w : List UInt8} :
    Number w ↔ Unsigned w ∨ ∃ w', w = minus :: w' ∧ Unsigned w' := by
  constructor
  · rintro ⟨sign, i, f, e, rfl, rfl | rfl, hi, hf, he⟩
    · exact .inl ⟨i, f ++ e, rfl, hi, f, e, rfl, hf, he⟩
    · exact .inr ⟨_, rfl, i, f ++ e, rfl, hi, f, e, rfl, hf, he⟩
  · rintro (⟨i, _, rfl, hi, f, e, rfl, hf, he⟩ | ⟨_, rfl, i, _, rfl, hi, f, e, rfl, hf, he⟩)
    · exact ⟨[], i, f, e, rfl, .inl rfl, hi, hf, he⟩
    · exact ⟨[minus], i, f, e, rfl, .inr rfl, hi, hf, he⟩

end JobScripts.Lib.Json
