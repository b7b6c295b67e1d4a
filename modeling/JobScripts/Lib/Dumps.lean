import JobScripts.Lib.Loads
import Mathlib.Data.List.Lex
import Mathlib.Data.List.Sort

/-!
# Writing JSON

`json.dumps` of Python's standard library, over the code points of a text: in ASCII, with or without spaces after the
separators, and with the members of an object in the order that they have or in that of their keys. What is written
is read back by `json.loads` (`loads_write`). So a text that is written with sorted keys identifies the value: two
values have one text exactly if they are the same value, whatever the order of their members (`dumps_eq_iff`).
-/

namespace JobScripts.Lib.Dumps

open Loads

/-! ## Strings and numbers -/

/-- A hexadecimal digit. -/
def hexDigit (n : ℕ) : ℕ := if n < 10 then 0x30 + n else 0x57 + n

/-- `\uXXXX`: a code unit in four hexadecimal digits. -/
def unicode (n : ℕ) : Text :=
  [0x5C, 0x75, hexDigit (n / 4096 % 16), hexDigit (n / 256 % 16), hexDigit (n / 16 % 16), hexDigit (n % 16)]

/-- The letter of a two-character escape. -/
def shortEscape (c : ℕ) : Option ℕ :=
  if c = 0x22 ∨ c = 0x5C then some c
  else if c = 0x08 then some 0x62
  else if c = 0x0C then some 0x66
  else if c = 0x0A then some 0x6E
  else if c = 0x0D then some 0x72
  else if c = 0x09 then some 0x74
  else none

/-- The two surrogates of a character beyond U+FFFF. -/
def highOf (c : ℕ) : ℕ := 0xD800 + (c - 0x10000) / 0x400

def lowOf (c : ℕ) : ℕ := 0xDC00 + (c - 0x10000) % 0x400

/-- A character inside a string, as `ensure_ascii` has it. -/
def escape (c : ℕ) : Text :=
  match shortEscape c with
  | some e => [0x5C, e]
  | none =>
    if 0x20 ≤ c ∧ c ≤ 0x7E then [c]
    else if c < 0x10000 then unicode c
    else unicode (highOf c) ++ unicode (lowOf c)

/-- A string in quotes. -/
def quoted (s : Text) : Text := 0x22 :: (s.flatMap escape ++ [0x22])

/-- The digits of a number. -/
def digits (n : ℕ) : Text := if n = 0 then [0x30] else ((Nat.digits 10 n).reverse.map (0x30 + ·))

/-- An integer. -/
def intText (n : ℤ) : Text := if n < 0 then 0x2D :: digits n.natAbs else digits n.natAbs

/-! ## Values -/

/-- What stands between the parts: `separators=(",", ":")`, or those that `json.dumps` has of itself, with a space
after each comma and each colon. -/
inductive Spacing
  | compact
  | spaced

/-- What comes after a comma or a colon. -/
def Spacing.gap : Spacing → Text
  | .compact => []
  | .spaced => [0x20]

mutual

/-- The text that `json.dumps` writes of a value, its members in the order that they have. -/
def write (sp : Spacing) : Value → Text
  | .null => [0x6E, 0x75, 0x6C, 0x6C]
  | .bool true => [0x74, 0x72, 0x75, 0x65]
  | .bool false => [0x66, 0x61, 0x6C, 0x73, 0x65]
  | .int n => intText n
  | .float t => t
  | .str s => quoted s
  | .list [] => [0x5B, 0x5D]
  | .list (v :: rest) => 0x5B :: (write sp v ++ writeItems sp rest)
  | .dict [] => [0x7B, 0x7D]
  | .dict ((k, v) :: rest) => 0x7B :: (quoted k ++ 0x3A :: (sp.gap ++ (write sp v ++ writeMembers sp rest)))

/-- The items after the first, each behind a comma, and the closing bracket. -/
def writeItems (sp : Spacing) : List Value → Text
  | [] => [0x5D]
  | v :: rest => 0x2C :: (sp.gap ++ (write sp v ++ writeItems sp rest))

/-- The members after the first, each behind a comma, and the closing brace. -/
def writeMembers (sp : Spacing) : List (Text × Value) → Text
  | [] => [0x7D]
  | (k, v) :: rest =>
    0x2C :: (sp.gap ++ (quoted k ++ 0x3A :: (sp.gap ++ (write sp v ++ writeMembers sp rest))))

end

mutual

/-- `sort_keys=True`: the value with the members of each object in the order of their keys. -/
def sorted : Value → Value
  | .list vs => .list (sortedItems vs)
  | .dict ms => .dict ((sortedMembers ms).insertionSort fun m n => m.1 ≤ n.1)
  | v => v

/-- `sorted` for the items of a list, which keep their places. -/
def sortedItems : List Value → List Value
  | [] => []
  | v :: rest => sorted v :: sortedItems rest

/-- `sorted` for the values of the members of an object, before these are put in order. -/
def sortedMembers : List (Text × Value) → List (Text × Value)
  | [] => []
  | (k, v) :: rest => (k, sorted v) :: sortedMembers rest

end

/-- `json.dumps(value, sort_keys=True)`: the text of a value with its members in the order of their keys. -/
def dumps (v : Value) : Text := write .spaced (sorted v)

mutual

/-- Whether two values are the same JSON value: `==` for two `dict`s is that of their members, in any order. -/
def same : Value → Value → Bool
  | .null, .null => true
  | .bool a, .bool b => a = b
  | .int m, .int n => m = n
  | .float s, .float t => s = t
  | .str s, .str t => s = t
  | .list vs, .list ws => sameItems vs ws
  | .dict ms, .dict ns => ms.length = ns.length && sameMembers ms ns
  | _, _ => false

/-- `same` for lists: item for item. -/
def sameItems : List Value → List Value → Bool
  | [], [] => true
  | v :: vs, w :: ws => same v w && sameItems vs ws
  | _, _ => false

/-- Whether each member of an object has its like in another. -/
def sameMembers : List (Text × Value) → List (Text × Value) → Bool
  | [], _ => true
  | (k, v) :: ms, ns =>
    (match getItem k ns with
      | some w => same v w
      | none => false) && sameMembers ms ns

end

/-! ## Strings are read back -/

/-- A string that a reader does not change: characters, and no two surrogates that make one. -/
def Unpaired (s : Text) : Prop := (∀ c ∈ s, c < 0x110000) ∧ hasPair s = false

/-- A character as code units, with whether it is spelled with `\u`. -/
def tagged (c : ℕ) : List (ℕ × Bool) :=
  if (shortEscape c).isSome ∨ 0x20 ≤ c ∧ c ≤ 0x7E then [(c, false)]
  else if c < 0x10000 then [(c, true)]
  else [(highOf c, true), (lowOf c, true)]

/-- A digit has its value. -/
theorem hexValue_hexDigit {n : ℕ} (h : n < 16) : hexValue (hexDigit n) = some n := by
  revert n
  decide

/-- Four digits spell the number. -/
theorem hexNumber_digits {n : ℕ} (h : n < 0x10000) : hexNumber (hexDigit (n / 4096 % 16)) (hexDigit (n / 256 % 16))
    (hexDigit (n / 16 % 16)) (hexDigit (n % 16)) = some n := by
  have hdigit (m : ℕ) : hexValue (hexDigit (m % 16)) = some (m % 16) := hexValue_hexDigit (Nat.mod_lt m (by decide))
  unfold hexNumber
  rw [hdigit, hdigit, hdigit, hdigit]
  have hsum : n / 4096 % 16 * 4096 + n / 256 % 16 * 256 + n / 16 % 16 * 16 + n % 16 = n := by omega
  simp [hsum]

/-- A unit that is spelled with `\u` is read. -/
theorem units_unicode {n : ℕ} (h : n < 0x10000) (t : Text) :
    units (unicode n ++ t) = onRead ((n, true) :: ·) (units t) := by
  unfold unicode
  rw [List.cons_append, List.cons_append, List.cons_append, List.cons_append, List.cons_append, List.cons_append,
    List.nil_append, units, hexNumber_digits h]

/-- The letter of an escape stands for its character, and is no `u`. -/
theorem escapeValue_shortEscape {c e : ℕ} (h : shortEscape c = some e) : escapeValue e = some c ∧ e ≠ 0x75 := by
  unfold shortEscape at h
  split_ifs at h with h₁ h₂ h₃ h₄ h₅ h₆
  · obtain rfl := Option.some_inj.mp h
    rcases h₁ with rfl | rfl <;> decide
  all_goals
    obtain rfl := Option.some_inj.mp h
    subst c
    decide

/-- A character is read as its units. -/
theorem units_escape {c : ℕ} (hc : c < 0x110000) (t : Text) :
    units (escape c ++ t) = onRead (tagged c ++ ·) (units t) := by
  unfold escape tagged
  cases hshort : shortEscape c with
  | some e =>
    obtain ⟨hvalue, hne⟩ := escapeValue_shortEscape hshort
    simp only [Option.isSome_some, true_or, if_true]
    rw [List.cons_append, List.singleton_append, units.eq_4 e t fun _ _ _ _ _ h => absurd h hne, hvalue]
    rfl
  | none =>
    simp only [Option.isSome_none, Bool.false_eq_true, false_or]
    split
    · next hplain =>
      have hquote : c ≠ 0x22 := by
        rintro rfl
        exact absurd hshort (by decide)
      have hbackslash : c ≠ 0x5C := by
        rintro rfl
        exact absurd hshort (by decide)
      rw [List.singleton_append, units.eq_5 c t hquote (fun _ _ _ _ _ h => absurd h hbackslash)
        (fun _ _ h => absurd h hbackslash), if_neg (by omega)]
      rfl
    · split
      · next hbmp => exact units_unicode hbmp t
      · next hbmp =>
        have hhigh : highOf c < 0x10000 := by
          unfold highOf
          omega
        have hlow : lowOf c < 0x10000 := by
          unfold lowOf
          omega
        rw [List.append_assoc, units_unicode hhigh, units_unicode hlow]
        cases units t <;> rfl

/-- A string is read as the units of its characters. -/
theorem units_flatMap_escape : ∀ {s : Text}, (∀ c ∈ s, c < 0x110000) → ∀ rest,
    units (s.flatMap escape ++ 0x22 :: rest) = .ok (s.flatMap tagged, rest)
  | [], _, rest => by rw [List.flatMap_nil, List.nil_append, units, List.flatMap_nil]
  | c :: s, h, rest => by
    have hs := units_flatMap_escape (s := s) (fun d hd => h d (List.mem_cons_of_mem _ hd)) rest
    rw [List.flatMap_cons, List.append_assoc, units_escape (h c List.mem_cons_self), hs, List.flatMap_cons]
    rfl

/-- A high surrogate is one of a range. -/
theorem isHigh_iff {u : ℕ} : isHigh u = true ↔ 0xD800 ≤ u ∧ u ≤ 0xDBFF := by
  unfold isHigh
  rw [Bool.and_eq_true, decide_eq_true_iff, decide_eq_true_iff]

/-- And a low one of the next. -/
theorem isLow_iff {u : ℕ} : isLow u = true ↔ 0xDC00 ≤ u ∧ u ≤ 0xDFFF := by
  unfold isLow
  rw [Bool.and_eq_true, decide_eq_true_iff, decide_eq_true_iff]

/-- A character is one unit, or two surrogates that make it. -/
theorem tagged_eq {c : ℕ} (h : c < 0x110000) : (∃ escaped, tagged c = [(c, escaped)]) ∨
    ∃ u v, tagged c = [(u, true), (v, true)] ∧ isHigh u = true ∧ isLow u = false ∧ isLow v = true ∧
      joinPair u v = c := by
  by_cases hplain : (shortEscape c).isSome = true ∨ 0x20 ≤ c ∧ c ≤ 0x7E
  · exact .inl ⟨false, if_pos hplain⟩
  by_cases hbmp : c < 0x10000
  · exact .inl ⟨true, (if_neg hplain).trans (if_pos hbmp)⟩
  · have htagged : tagged c = [(highOf c, true), (lowOf c, true)] := by
      unfold tagged
      rw [if_neg hplain, if_neg hbmp]
    have hhigh : isHigh (highOf c) = true := by
      rw [isHigh_iff, highOf]
      omega
    have hno : isLow (highOf c) = false := by
      rw [Bool.eq_false_iff, Ne, isLow_iff, highOf]
      omega
    have hlow : isLow (lowOf c) = true := by
      rw [isLow_iff, lowOf]
      omega
    have hjoin : joinPair (highOf c) (lowOf c) = c := by
      unfold joinPair highOf lowOf
      omega
    exact .inr ⟨highOf c, lowOf c, htagged, hhigh, hno, hlow, hjoin⟩

/-- The first unit of a string, where it is a low surrogate, is its first character. -/
theorem isLow_head_tagged {s : Text} (hs : ∀ c ∈ s, c < 0x110000) {v : ℕ} {escaped : Bool} {rest : List (ℕ × Bool)}
    (h : s.flatMap tagged = (v, escaped) :: rest) (hlow : isLow v = true) : ∃ s', s = v :: s' := by
  cases s with
  | nil => exact absurd h nofun
  | cons c s =>
    rw [List.flatMap_cons] at h
    rcases tagged_eq (hs c List.mem_cons_self) with ⟨escaped', heq⟩ | ⟨u, w, heq, -, hno, -⟩
    · rw [heq] at h
      obtain ⟨hc, -⟩ := List.cons.inj h
      exact ⟨s, by rw [(Prod.mk.inj hc).1]⟩
    · rw [heq] at h
      obtain ⟨hc, -⟩ := List.cons.inj h
      rw [(Prod.mk.inj hc).1, hlow] at hno
      exact absurd hno nofun

/-- A unit that does not make a character with the next one is one by itself. -/
theorem joinEscaped_cons {u : ℕ} {escaped : Bool} {rest : List (ℕ × Bool)}
    (h : ∀ v escaped' rest', rest = (v, escaped') :: rest' → isHigh u = true → isLow v = false) :
    joinEscaped ((u, escaped) :: rest) = u :: joinEscaped rest := by
  cases rest with
  | nil => rfl
  | cons p rest =>
    obtain ⟨v, escaped'⟩ := p
    rw [joinEscaped, if_neg]
    intro hpair
    rw [Bool.and_eq_true, Bool.and_eq_true] at hpair
    rw [h v escaped' rest rfl hpair.1.2] at hpair
    exact absurd hpair.2 nofun

/-- The characters of the units of a string are those of the string. -/
theorem joinEscaped_tagged : ∀ {s : Text}, Unpaired s → joinEscaped (s.flatMap tagged) = s
  | [], _ => rfl
  | c :: s, h => by
    obtain ⟨hchars, hpair⟩ := h
    have hs : Unpaired s := by
      refine ⟨fun d hd => hchars d (List.mem_cons_of_mem _ hd), ?_⟩
      cases s with
      | nil => rfl
      | cons d s => exact (Bool.or_eq_false_iff.mp hpair).2
    have hrest := joinEscaped_tagged hs
    rw [List.flatMap_cons]
    rcases tagged_eq (hchars c List.mem_cons_self) with ⟨escaped, heq⟩ | ⟨u, w, heq, hhigh, -, hlow, hjoin⟩
    · rw [heq, List.singleton_append, joinEscaped_cons, hrest]
      intro v escaped' rest' hnext hhigh
      rw [Bool.eq_false_iff]
      intro hlow
      obtain ⟨s', rfl⟩ := isLow_head_tagged hs.1 hnext hlow
      have hno := (Bool.or_eq_false_iff.mp hpair).1
      rw [hhigh, hlow] at hno
      exact absurd hno nofun
    · rw [heq, List.cons_append, List.singleton_append, joinEscaped, hhigh, hlow, hjoin, hrest]
      rfl

/-- A string is read back. -/
theorem string_quoted {s : Text} (h : Unpaired s) (rest : Text) :
    string (s.flatMap escape ++ 0x22 :: rest) = .ok (s, rest) := by
  unfold string
  rw [units_flatMap_escape h.1, onRead, joinEscaped_tagged h]

/-! ## Numbers are read back -/

/-- The characters of numbers. -/
def isNumeric (c : ℕ) : Bool := isDigit c || c = 0x2D || c = 0x2B || c = 0x2E || c = 0x65 || c = 0x45

/-- What comes after a number does not go on with it. -/
def Stops (rest : Text) : Prop := ∀ c ∈ rest.head?, isNumeric c = false

/-- Digits end where no digit comes. -/
theorem takeWhile_digits {ds rest : Text} (h : ∀ c ∈ ds, isDigit c = true) (hrest : Stops rest) :
    (ds ++ rest).takeWhile isDigit = ds ∧ (ds ++ rest).dropWhile isDigit = rest := by
  have hstop : rest.takeWhile isDigit = [] ∧ rest.dropWhile isDigit = rest := by
    cases rest with
    | nil => exact ⟨rfl, rfl⟩
    | cons c rest =>
      have hc := hrest c rfl
      simp only [isNumeric, Bool.or_eq_false_iff] at hc
      have hdigit : ¬ isDigit c = true := by
        rw [hc.1.1.1.1.1]
        exact nofun
      exact ⟨List.takeWhile_cons_of_neg hdigit, List.dropWhile_cons_of_neg hdigit⟩
  rw [List.takeWhile_append_of_pos h, List.dropWhile_append_of_pos h, hstop.1, hstop.2, List.append_nil]
  exact ⟨rfl, rfl⟩

/-- The digits of a number are digits. -/
theorem isDigit_of_mem_digits {n c : ℕ} (h : c ∈ digits n) : isDigit c = true := by
  unfold digits at h
  split at h
  · obtain rfl := List.mem_singleton.mp h
    rfl
  · obtain ⟨d, hd, rfl⟩ := List.mem_map.mp h
    have hlt := Nat.digits_lt_base (by decide : 1 < 10) (List.mem_reverse.mp hd)
    simp only [isDigit, Bool.and_eq_true, decide_eq_true_eq]
    omega

/-- They spell it. -/
theorem natOf_digits (n : ℕ) : natOf (digits n) = n := by
  unfold digits
  split
  · next h =>
    subst h
    rfl
  · unfold natOf
    rw [List.foldl_map, List.foldl_reverse]
    have hfold : ∀ ds : List ℕ, ds.foldr (fun d n => n * 10 + (0x30 + d - 0x30)) 0 = Nat.ofDigits 10 ds := by
      intro ds
      induction ds with
      | nil => rfl
      | cons d ds ih =>
        rw [List.foldr_cons, ih, Nat.ofDigits_cons]
        omega
    rw [hfold, Nat.ofDigits_digits]

/-- A number starts with a zero only where it is zero. -/
theorem whole_digits (n : ℕ) {rest : Text} (h : Stops rest) : whole (digits n ++ rest) = (digits n, rest) := by
  have htake := takeWhile_digits (fun c hc => isDigit_of_mem_digits hc : ∀ c ∈ digits n, isDigit c = true) h
  have hzero : n ≠ 0 → ∀ ds, digits n ≠ 0x30 :: ds := by
    intro hn ds heq
    unfold digits at heq
    rw [if_neg hn] at heq
    have hne : Nat.digits 10 n ≠ [] := Nat.digits_ne_nil_iff_ne_zero.mpr hn
    have hlast := Nat.getLast_digit_ne_zero 10 hn
    obtain ⟨init, d, hd⟩ := (List.eq_nil_or_concat' _).resolve_left hne
    have hd' : (Nat.digits 10 n).getLast hne = d := by simp [hd]
    rw [hd, List.reverse_concat, List.map_cons] at heq
    have hhead := (List.cons.inj heq).1
    rw [hd'] at hlast
    omega
  by_cases hn : n = 0
  · subst hn
    rfl
  · unfold whole
    split
    · next t heq =>
      cases hdigits : digits n with
      | nil =>
        have hnil := natOf_digits n
        rw [hdigits] at hnil
        exact absurd hnil.symm hn
      | cons d ds =>
        rw [hdigits, List.cons_append] at heq
        obtain ⟨rfl, -⟩ := List.cons.inj heq
        exact absurd hdigits (hzero hn ds)
    · exact Prod.ext htake.1 htake.2

/-- Nothing more of a number comes after one. -/
theorem fraction_stops {rest : Text} (h : Stops rest) : fraction rest = ([], rest) := by
  unfold fraction
  split
  · exact absurd (h 0x2E rfl) (by decide)
  · rfl

theorem exponent_stops {rest : Text} (h : Stops rest) : exponent rest = ([], rest) := by
  unfold exponent
  split
  · next e t =>
    have he := h e rfl
    rw [if_neg]
    rintro (rfl | rfl)
    · exact absurd he (by decide)
    · exact absurd he (by decide)
  · rfl

/-- A number has a first digit. -/
theorem exists_digits_eq_cons (n : ℕ) : ∃ d ds, digits n = d :: ds ∧ isDigit d = true := by
  cases hdigits : digits n with
  | nil =>
    have hnil := natOf_digits n
    rw [hdigits] at hnil
    obtain rfl : n = 0 := hnil.symm
    exact absurd hdigits nofun
  | cons d ds => exact ⟨d, ds, rfl, isDigit_of_mem_digits (hdigits ▸ List.mem_cons_self)⟩

/-- An integer is its sign and its digits. -/
theorem sign_intText (n : ℤ) (rest : Text) :
    sign (intText n ++ rest) = (if n < 0 then [0x2D] else [], digits n.natAbs ++ rest) := by
  obtain ⟨d, ds, hdigits, hd⟩ := exists_digits_eq_cons n.natAbs
  unfold intText
  split
  · rfl
  · rw [hdigits, List.cons_append]
    unfold sign
    split
    · next heq =>
      obtain ⟨rfl, -⟩ := List.cons.inj heq
      exact absurd hd (by decide)
    · rfl

/-- No name starts like a number. -/
theorem scalar_of_digit {t ds : Text} {d : ℕ} (hd : isDigit d = true) (ht : t = d :: ds ∨ t = 0x2D :: d :: ds) :
    scalar t = number t := by
  have hname : ∀ p ∈ names, ∃ a b w, p.1 = a :: b :: w ∧ isDigit a = false ∧ isDigit b = false := by
    intro p hp
    simp only [names, List.mem_cons, List.not_mem_nil, or_false] at hp
    rcases hp with rfl | rfl | rfl | rfl | rfl | rfl
    all_goals exact ⟨_, _, _, rfl, by decide, by decide⟩
  have hnone : (names.find? fun name => name.1.isPrefixOf t) = none := by
    rw [List.find?_eq_none]
    intro p hp hprefix
    obtain ⟨a, b, w, hpw, ha, hb⟩ := hname p hp
    rw [List.isPrefixOf_iff_prefix, hpw] at hprefix
    rcases ht with rfl | rfl
    · obtain ⟨rfl, -⟩ := List.cons_prefix_cons.mp hprefix
      exact absurd (ha.symm.trans hd) Bool.false_ne_true
    · obtain ⟨rfl, -⟩ := List.cons_prefix_cons.mp (List.cons_prefix_cons.mp hprefix).2
      exact absurd (hb.symm.trans hd) Bool.false_ne_true
  unfold scalar
  rw [hnone]

/-- An integer starts like one. -/
theorem intText_eq (n : ℤ) : ∃ d ds, isDigit d = true ∧ (intText n = d :: ds ∨ intText n = 0x2D :: d :: ds) := by
  obtain ⟨d, ds, hdigits, hd⟩ := exists_digits_eq_cons n.natAbs
  refine ⟨d, ds, hd, ?_⟩
  unfold intText
  rw [hdigits]
  split
  · exact .inr rfl
  · exact .inl rfl

/-- An integer is read back, where it has no more digits than `int` takes. -/
theorem number_intText {n : ℤ} (hn : (digits n.natAbs).length ≤ maxDigits) {rest : Text} (h : Stops rest) :
    number (intText n ++ rest) = .ok (.int n, rest) := by
  obtain ⟨d, ds, hdigits, -⟩ := exists_digits_eq_cons n.natAbs
  have hne : (digits n.natAbs).isEmpty = false := by
    rw [hdigits]
    rfl
  have hvalue : (if (if n < 0 then [0x2D] else ([] : Text)).isEmpty then (n.natAbs : ℤ)
      else -(n.natAbs : ℤ)) = n := by
    by_cases hneg : n < 0
    · rw [if_pos hneg, if_neg nofun]
      omega
    · rw [if_neg hneg, List.isEmpty_nil, if_pos rfl]
      omega
  unfold number
  rw [sign_intText]
  dsimp only
  rw [whole_digits _ h]
  dsimp only
  rw [fraction_stops h]
  dsimp only
  rw [exponent_stops h]
  dsimp only
  rw [hne, natOf_digits, hvalue, if_neg nofun, List.isEmpty_nil, Bool.and_self, if_pos rfl, if_neg (by omega)]

variable {rest : Text}

/-- Digits end where they do, or where no digit comes. -/
theorem takeWhile_append_stops (h : Stops rest) (t : Text) : (t ++ rest).takeWhile isDigit = t.takeWhile isDigit ∧
    (t ++ rest).dropWhile isDigit = t.dropWhile isDigit ++ rest := by
  induction t with
  | nil => exact takeWhile_digits (fun c hc => absurd hc List.not_mem_nil) h
  | cons c t ih =>
    rw [List.cons_append, List.takeWhile_cons, List.takeWhile_cons, List.dropWhile_cons, List.dropWhile_cons]
    split
    · exact ⟨by rw [ih.1], ih.2⟩
    · exact ⟨rfl, rfl⟩

/-- What comes after a number is in none of its parts. -/
theorem sign_append_stops (h : Stops rest) (t : Text) : sign (t ++ rest) = ((sign t).1, (sign t).2 ++ rest) := by
  cases t with
  | nil =>
    rw [List.nil_append]
    unfold sign
    split
    · exact absurd (h 0x2D rfl) (by decide)
    · rfl
  | cons c t =>
    by_cases hc : c = 0x2D
    · subst hc
      rfl
    · have hsign (u : Text) : sign (c :: u) = ([], c :: u) := by
        unfold sign
        split
        · next heq => exact absurd (List.cons.inj heq).1 hc
        · rfl
      rw [List.cons_append, hsign, hsign]
      rfl

theorem whole_append_stops (h : Stops rest) (t : Text) : whole (t ++ rest) = ((whole t).1, (whole t).2 ++ rest) := by
  have htake := takeWhile_append_stops h t
  cases t with
  | nil =>
    rw [List.nil_append] at htake ⊢
    unfold whole
    split
    · exact absurd (h 0x30 rfl) (by decide)
    · exact Prod.ext htake.1 htake.2
  | cons c t =>
    by_cases hc : c = 0x30
    · subst hc
      rfl
    · have hwhole (u : Text) : whole (c :: u) = ((c :: u).takeWhile isDigit, (c :: u).dropWhile isDigit) := by
        unfold whole
        split
        · next heq => exact absurd (List.cons.inj heq).1 hc
        · rfl
      rw [List.cons_append] at htake ⊢
      rw [hwhole, hwhole, htake.1, htake.2]

theorem fraction_append_stops (h : Stops rest) (t : Text) :
    fraction (t ++ rest) = ((fraction t).1, (fraction t).2 ++ rest) := by
  cases t with
  | nil => exact fraction_stops h
  | cons c t =>
    by_cases hc : c = 0x2E
    · subst hc
      cases t with
      | nil =>
        cases rest with
        | nil => rfl
        | cons d rest =>
          have hd := h d rfl
          simp only [isNumeric, Bool.or_eq_false_iff] at hd
          have hdigit : ¬ isDigit d = true := by
            rw [hd.1.1.1.1.1]
            exact nofun
          exact if_neg hdigit
      | cons d t =>
        obtain ⟨htake, hdrop⟩ := takeWhile_append_stops h t
        rw [List.cons_append, List.cons_append, fraction, fraction]
        split
        · rw [htake, hdrop]
        · rfl
    · have hfraction (u : Text) : fraction (c :: u) = ([], c :: u) := by
        unfold fraction
        split
        · next heq => exact absurd (List.cons.inj heq).1 hc
        · rfl
      rw [List.cons_append, hfraction, hfraction]
      rfl

theorem exponentSign_append_stops (h : Stops rest) (t : Text) :
    exponentSign (t ++ rest) = ((exponentSign t).1, (exponentSign t).2 ++ rest) := by
  have hother {c : ℕ} {u : Text} (hc : c ≠ 0x2D ∧ c ≠ 0x2B) : exponentSign (c :: u) = ([], c :: u) := by
    unfold exponentSign
    split
    · next heq => exact absurd (List.cons.inj heq).1 hc.1
    · next heq => exact absurd (List.cons.inj heq).1 hc.2
    · rfl
  cases t with
  | nil =>
    cases rest with
    | nil => rfl
    | cons c rest =>
      refine hother ⟨?_, ?_⟩
      · rintro rfl
        exact absurd (h 0x2D rfl) (by decide)
      · rintro rfl
        exact absurd (h 0x2B rfl) (by decide)
  | cons c t =>
    by_cases hminus : c = 0x2D
    · subst hminus
      rfl
    by_cases hplus : c = 0x2B
    · subst hplus
      rfl
    rw [List.cons_append, hother ⟨hminus, hplus⟩, hother ⟨hminus, hplus⟩]
    rfl

theorem exponent_append_stops (h : Stops rest) (t : Text) :
    exponent (t ++ rest) = ((exponent t).1, (exponent t).2 ++ rest) := by
  cases t with
  | nil => exact exponent_stops h
  | cons e t =>
    obtain ⟨htake, hdrop⟩ := takeWhile_append_stops h (exponentSign t).2
    rw [List.cons_append, exponent, exponent, exponentSign_append_stops h]
    dsimp only
    rw [htake, hdrop]
    split
    · split
      · rfl
      · rfl
    · rfl

/-- So a number is read the same whatever comes after it. -/
theorem number_append_stops (h : Stops rest) {t : Text} {v : Value} (ht : number t = .ok (v, [])) :
    number (t ++ rest) = .ok (v, rest) := by
  unfold number at ht ⊢
  rw [sign_append_stops h]
  dsimp only at ht ⊢
  rw [whole_append_stops h]
  dsimp only
  rw [fraction_append_stops h]
  dsimp only
  rw [exponent_append_stops h]
  dsimp only
  split at ht
  · exact absurd ht nofun
  · next hw =>
    rw [if_neg hw]
    split at ht
    · next hfe =>
      rw [if_pos hfe]
      split at ht
      · exact absurd ht nofun
      · next hlength =>
        obtain ⟨hv, hr⟩ := Prod.mk.inj (Except.ok.inj ht)
        rw [if_neg hlength, hv, hr]
        rfl
    · next hfe =>
      obtain ⟨hv, hr⟩ := Prod.mk.inj (Except.ok.inj ht)
      rw [if_neg hfe, hv, hr]
      rfl

/-- A number starts like one. -/
theorem exists_digit_of_number {t r : Text} {v : Value} (h : number t = .ok (v, r)) :
    ∃ d ds, isDigit d = true ∧ (t = d :: ds ∨ t = 0x2D :: d :: ds) := by
  have hwhole : ∀ u : Text, (whole u).1 ≠ [] → ∃ d ds, isDigit d = true ∧ u = d :: ds := by
    intro u hne
    unfold whole at hne
    split at hne
    · exact ⟨0x30, _, rfl, rfl⟩
    · cases u with
      | nil => exact absurd rfl hne
      | cons d ds =>
        rw [List.takeWhile_cons] at hne
        split at hne
        · next hd => exact ⟨d, ds, hd, rfl⟩
        · exact absurd rfl hne
  unfold number at h
  dsimp only at h
  split at h
  · exact absurd h nofun
  · next hne =>
    obtain ⟨d, ds, hd, heq⟩ := hwhole _ fun hnil => hne (List.isEmpty_iff.mpr hnil)
    refine ⟨d, ds, hd, ?_⟩
    have ht := sign_append t
    rw [heq] at ht
    unfold sign at ht
    split at ht
    · exact .inr ht.symm
    · exact .inl ht.symm

/-! ## Values are read back -/

mutual

/-- A value that is read back as it is. -/
def Readable : Value → Prop
  | .int n => (digits n.natAbs).length ≤ maxDigits
  | .float t => number t = .ok (.float t, [])
  | .str s => Unpaired s
  | .list vs => ItemsReadable vs
  | .dict ms => (ms.map Prod.fst).Nodup ∧ MembersReadable ms
  | _ => True

/-- `Readable` for the items of a list. -/
def ItemsReadable : List Value → Prop
  | [] => True
  | v :: rest => Readable v ∧ ItemsReadable rest

/-- `Readable` for the members of an object. -/
def MembersReadable : List (Text × Value) → Prop
  | [] => True
  | (k, v) :: rest => Unpaired k ∧ Readable v ∧ MembersReadable rest

end

mutual

/-- How many lists and objects are inside one another. -/
def depth : Value → ℕ
  | .list vs => itemsDepth vs + 1
  | .dict ms => membersDepth ms + 1
  | _ => 0

/-- `depth` for the items of a list. -/
def itemsDepth : List Value → ℕ
  | [] => 0
  | v :: rest => max (depth v) (itemsDepth rest)

/-- `depth` for the members of an object. -/
def membersDepth : List (Text × Value) → ℕ
  | [] => 0
  | (_, v) :: rest => max (depth v) (membersDepth rest)

end

variable {sp : Spacing}

/-- A value starts with a character that is no space and closes nothing. -/
theorem exists_write_eq_cons : ∀ {v : Value}, Readable v →
    ∃ c w, write sp v = c :: w ∧ isSpace c = false ∧ c ≠ 0x5D := by
  have hdigit : ∀ {t ds : Text} {d : ℕ}, isDigit d = true → t = d :: ds ∨ t = 0x2D :: d :: ds →
      ∃ c w, t = c :: w ∧ isSpace c = false ∧ c ≠ 0x5D := by
    intro t ds d hd ht
    simp only [isDigit, Bool.and_eq_true, decide_eq_true_eq] at hd
    rcases ht with rfl | rfl
    · refine ⟨d, ds, rfl, ?_, by omega⟩
      simp only [isSpace, Bool.or_eq_false_iff, decide_eq_false_iff_not]
      omega
    · exact ⟨0x2D, d :: ds, rfl, rfl, by decide⟩
  intro v h
  match v with
  | .null => exact ⟨_, _, rfl, rfl, by decide⟩
  | .bool true => exact ⟨_, _, rfl, rfl, by decide⟩
  | .bool false => exact ⟨_, _, rfl, rfl, by decide⟩
  | .int n =>
    obtain ⟨d, ds, hd, ht⟩ := intText_eq n
    exact hdigit hd ht
  | .float t =>
    obtain ⟨d, ds, hd, ht⟩ := exists_digit_of_number h
    exact hdigit hd ht
  | .str s => exact ⟨_, _, rfl, rfl, by decide⟩
  | .list [] => exact ⟨_, _, rfl, rfl, by decide⟩
  | .list (v :: rest) => exact ⟨_, _, rfl, rfl, by decide⟩
  | .dict [] => exact ⟨_, _, rfl, rfl, by decide⟩
  | .dict ((k, v) :: rest) => exact ⟨_, _, rfl, rfl, by decide⟩

/-- What comes after a separator is skipped. -/
theorem skip_gap (sp : Spacing) (t : Text) : skip (sp.gap ++ t) = skip t := by
  cases sp with
  | compact => rfl
  | spaced => rfl

/-- Before a value there is no other space to skip. -/
theorem skip_write {v : Value} (h : Readable v) (t : Text) : skip (write sp v ++ t) = write sp v ++ t := by
  obtain ⟨c, w, hw, hc, -⟩ := exists_write_eq_cons h
  rw [hw, List.cons_append]
  exact List.dropWhile_cons_of_neg (by rw [hc]; exact nofun)

/-- What comes after an item does not go on with it. -/
theorem stops_writeItems (vs : List Value) (t : Text) : Stops (writeItems sp vs ++ t) := by
  intro c hc
  cases vs with
  | nil =>
    obtain rfl : 0x5D = c := Option.some_inj.mp hc
    rfl
  | cons v vs =>
    obtain rfl : 0x2C = c := Option.some_inj.mp hc
    rfl

theorem stops_writeMembers (ms : List (Text × Value)) (t : Text) : Stops (writeMembers sp ms ++ t) := by
  intro c hc
  cases ms with
  | nil =>
    obtain rfl : 0x7D = c := Option.some_inj.mp hc
    rfl
  | cons m ms =>
    obtain rfl : 0x2C = c := Option.some_inj.mp hc
    rfl

/-- A key is read back. -/
theorem key_quoted {k : Text} (hk : Unpaired k) {v : Value} (hv : Readable v) (t : Text) :
    key (quoted k ++ 0x3A :: (sp.gap ++ (write sp v ++ t))) = .ok (k, write sp v ++ t) := by
  unfold quoted
  rw [List.cons_append, List.append_assoc, List.singleton_append, key, string_quoted hk]
  exact congrArg (fun r => Except.ok (k, r)) ((skip_gap sp _).trans (skip_write hv t))

/-- A new key comes last. -/
theorem setItem_eq {k : Text} {v : Value} : ∀ {d : List (Text × Value)}, k ∉ d.map Prod.fst →
    setItem k v d = d ++ [(k, v)]
  | [], _ => rfl
  | (k', v') :: d, h => by
    rw [List.map_cons, List.mem_cons, not_or] at h
    rw [setItem, if_neg (Ne.symm h.1), setItem_eq h.2]
    rfl

/-- Where no key comes twice, the members are all kept. -/
theorem dictOf_eq {ms : List (Text × Value)} (h : (ms.map Prod.fst).Nodup) : dictOf ms = ms := by
  have hfold : ∀ (ms d : List (Text × Value)), ((d ++ ms).map Prod.fst).Nodup →
      ms.foldl (fun d p => setItem p.1 p.2 d) d = d ++ ms := by
    intro ms
    induction ms with
    | nil => exact fun d _ => (List.append_nil d).symm
    | cons m ms ih =>
      intro d hd
      have hnew : m.1 ∉ d.map Prod.fst := by
        rw [List.map_append, List.map_cons, List.nodup_append] at hd
        intro hmem
        exact hd.2.2 m.1 hmem m.1 List.mem_cons_self rfl
      rw [List.foldl_cons, setItem_eq hnew, ih, List.append_assoc, List.singleton_append]
      rwa [List.append_assoc, List.singleton_append]
  exact (hfold ms [] h).trans (List.nil_append ms)

/-- A text that opens neither a string nor a list or an object is a name or a number. -/
theorem scanOnce_eq_scalar {c : ℕ} (h : c ≠ 0x22 ∧ c ≠ 0x5B ∧ c ≠ 0x7B) (limit : ℕ) (t : Text) :
    scanOnce limit (c :: t) = scalar (c :: t) := by
  have hwith : ∀ inner, scanWith inner (c :: t) = scalar (c :: t) := by
    intro inner
    unfold scanWith
    split
    · next heq => exact absurd (List.cons.inj heq).1 h.1
    · next heq => exact absurd (List.cons.inj heq).1 h.2.1
    · next heq => exact absurd (List.cons.inj heq).1 h.2.2
    · next heq => exact absurd (List.cons.inj heq).1 h.2.1
    · next heq => exact absurd (List.cons.inj heq).1 h.2.2
    · rfl
  cases limit with
  | zero => exact hwith _
  | succ limit => exact hwith _

/-- A number is read. -/
theorem scanOnce_number {t ds r : Text} {d : ℕ} {v : Value} (hd : isDigit d = true)
    (ht : t = d :: ds ∨ t = 0x2D :: d :: ds) (h : number t = .ok (v, r)) (limit : ℕ) :
    scanOnce limit t = .ok (v, r) := by
  rw [← h, ← scalar_of_digit hd ht]
  simp only [isDigit, Bool.and_eq_true, decide_eq_true_eq] at hd
  rcases ht with rfl | rfl
  · exact scanOnce_eq_scalar (by omega) limit ds
  · exact scanOnce_eq_scalar (by decide) limit _

/-- A string is read. -/
theorem scanOnce_quoted {s : Text} (h : Unpaired s) (limit : ℕ) (rest : Text) :
    scanOnce limit (quoted s ++ rest) = .ok (.str s, rest) := by
  have hwith : ∀ inner, scanWith inner (quoted s ++ rest) = .ok (.str s, rest) := by
    intro inner
    unfold quoted
    rw [List.cons_append, List.append_assoc, List.singleton_append, scanWith, string_quoted h]
    rfl
  cases limit with
  | zero => exact hwith _
  | succ limit => exact hwith _

/-- There are no more items than characters. -/
theorem length_le_writeItems (vs : List Value) : vs.length < (writeItems sp vs).length := by
  induction vs with
  | nil => exact Nat.one_pos
  | cons v vs ih =>
    rw [writeItems, List.length_cons, List.length_cons, List.length_append, List.length_append]
    omega

theorem length_le_writeMembers (ms : List (Text × Value)) : ms.length < (writeMembers sp ms).length := by
  induction ms with
  | nil => exact Nat.one_pos
  | cons m ms ih =>
    rw [writeMembers, List.length_cons, List.length_cons, List.length_append, List.length_append, List.length_cons,
      List.length_append, List.length_append]
    omega

/-- A reader reads a value back from its text. -/
def ReadsBack (sp : Spacing) (scan : Text → Read Value) (v : Value) : Prop :=
  Readable v ∧ ∀ rest, Stops rest → scan (write sp v ++ rest) = .ok (v, rest)

/-- The items of a list are read back one by one. -/
theorem items_write : ∀ {v : Value} {vs : List Value} {n : ℕ}, (∀ u ∈ v :: vs, ReadsBack sp scan u) → ∀ rest,
    vs.length < n → items scan n (write sp v ++ (writeItems sp vs ++ rest)) = .ok (v :: vs, rest)
  | v, [], n + 1, h, rest, _ => by
    obtain ⟨-, hv⟩ := h v List.mem_cons_self
    rw [items, hv _ (stops_writeItems [] rest)]
    rfl
  | v, u :: us, n + 1, h, rest, hn => by
    obtain ⟨-, hv⟩ := h v List.mem_cons_self
    obtain ⟨hu, -⟩ := h u (List.mem_cons_of_mem _ List.mem_cons_self)
    have hrest := items_write (n := n) (fun w hw => h w (List.mem_cons_of_mem _ hw)) rest (Nat.lt_of_succ_lt_succ hn)
    have hskip : skip (writeItems sp (u :: us) ++ rest) =
        0x2C :: (sp.gap ++ (write sp u ++ (writeItems sp us ++ rest))) := by
      rw [writeItems, List.cons_append, List.append_assoc, List.append_assoc]
      rfl
    refine items_eq_ok.mpr ⟨v, _, hv _ (stops_writeItems (u :: us) rest), .inr ⟨_, _, hskip, ?_, rfl⟩⟩
    rw [skip_gap, skip_write hu]
    exact hrest

/-- So are the members of an object. -/
theorem members_write : ∀ {k : Text} {v : Value} {ms : List (Text × Value)} {n : ℕ},
    (∀ m ∈ (k, v) :: ms, Unpaired m.1 ∧ ReadsBack sp scan m.2) → ∀ rest, ms.length < n →
      members scan n (quoted k ++ 0x3A :: (sp.gap ++ (write sp v ++ (writeMembers sp ms ++ rest)))) =
        .ok ((k, v) :: ms, rest)
  | k, v, [], n + 1, h, rest, _ => by
    obtain ⟨hk, hv, hread⟩ := h (k, v) List.mem_cons_self
    rw [members, key_quoted hk hv]
    dsimp only
    rw [hread _ (stops_writeMembers [] rest)]
    rfl
  | k, v, (l, u) :: us, n + 1, h, rest, hn => by
    obtain ⟨hk, hv, hread⟩ := h (k, v) List.mem_cons_self
    have hrest := members_write (n := n) (fun m hm => h m (List.mem_cons_of_mem _ hm)) rest
      (Nat.lt_of_succ_lt_succ hn)
    have hskip : skip (writeMembers sp ((l, u) :: us) ++ rest) =
        0x2C :: (sp.gap ++ (quoted l ++ 0x3A :: (sp.gap ++ (write sp u ++ (writeMembers sp us ++ rest))))) := by
      rw [writeMembers, List.cons_append, List.append_assoc, List.append_assoc, List.cons_append, List.append_assoc,
        List.append_assoc]
      rfl
    refine members_eq_ok.mpr ⟨k, _, v, _, key_quoted hk hv _, hread _ (stops_writeMembers ((l, u) :: us) rest),
      .inr ⟨_, _, hskip, ?_, rfl⟩⟩
    -- The next key starts with a quote.
    rw [skip_gap]
    exact hrest

/-- The items of a readable list are readable, and less deep. -/
theorem forall_of_itemsReadable {limit : ℕ} : ∀ {vs : List Value}, ItemsReadable vs → itemsDepth vs ≤ limit →
    ∀ v ∈ vs, Readable v ∧ depth v ≤ limit
  | [], _, _ => fun _ hv => absurd hv List.not_mem_nil
  | u :: us, h, hdepth => by
    intro v hv
    rcases List.mem_cons.mp hv with rfl | hv
    · exact ⟨h.1, le_of_max_le_left hdepth⟩
    · exact forall_of_itemsReadable h.2 (le_of_max_le_right hdepth) v hv

/-- So are the members of an object. -/
theorem forall_of_membersReadable {limit : ℕ} : ∀ {ms : List (Text × Value)}, MembersReadable ms →
    membersDepth ms ≤ limit → ∀ m ∈ ms, Unpaired m.1 ∧ Readable m.2 ∧ depth m.2 ≤ limit
  | [], _, _ => fun _ hm => absurd hm List.not_mem_nil
  | (k, v) :: ms, h, hdepth => by
    intro m hm
    rcases List.mem_cons.mp hm with rfl | hm
    · exact ⟨h.1, h.2.1, le_of_max_le_left hdepth⟩
    · exact forall_of_membersReadable h.2.2 (le_of_max_le_right hdepth) m hm

/-- A list that is read back item by item is. -/
theorem list_write {v : Value} {vs : List Value} (h : ∀ u ∈ v :: vs, ReadsBack sp scan u) (rest : Text) :
    list scan (write sp v ++ (writeItems sp vs ++ rest)) = .ok (.list (v :: vs), rest) := by
  obtain ⟨hv, -⟩ := h v List.mem_cons_self
  obtain ⟨c, w, hw, -, hc⟩ : ∃ c w, write sp v = c :: w ∧ isSpace c = false ∧ c ≠ 0x5D := exists_write_eq_cons hv
  have hlength : vs.length < (writeItems sp vs).length := length_le_writeItems vs
  have hitems := items_write (n := (write sp v ++ (writeItems sp vs ++ rest)).length) h rest (by
    rw [List.length_append, List.length_append]
    omega)
  unfold list
  rw [skip_write hv]
  split
  · next heq =>
    rw [hw, List.cons_append] at heq
    exact absurd (List.cons.inj heq).1 hc
  · rw [hitems]
    rfl

/-- So is an object. -/
theorem dict_write {k : Text} {v : Value} {ms : List (Text × Value)} (hkeys : (((k, v) :: ms).map Prod.fst).Nodup)
    (h : ∀ m ∈ (k, v) :: ms, Unpaired m.1 ∧ ReadsBack sp scan m.2) (rest : Text) :
    dict scan (quoted k ++ 0x3A :: (sp.gap ++ (write sp v ++ (writeMembers sp ms ++ rest)))) =
      .ok (.dict ((k, v) :: ms), rest) := by
  have hlength : ms.length < (writeMembers sp ms).length := length_le_writeMembers ms
  have hmembers := members_write
    (n := (quoted k ++ 0x3A :: (sp.gap ++ (write sp v ++ (writeMembers sp ms ++ rest)))).length) h rest (by
      rw [List.length_append, List.length_cons, List.length_append, List.length_append, List.length_append]
      omega)
  have hskip : skip (quoted k ++ 0x3A :: (sp.gap ++ (write sp v ++ (writeMembers sp ms ++ rest)))) =
      quoted k ++ 0x3A :: (sp.gap ++ (write sp v ++ (writeMembers sp ms ++ rest))) := rfl
  unfold dict
  rw [hskip]
  split
  · next heq => exact absurd (List.cons.inj heq).1 (by decide)
  · rw [hmembers, onRead, dictOf_eq hkeys]

/-- What opens no list and no object is read back. -/
theorem scanOnce_write_scalar {v : Value} (h : Readable v) (hv : (∀ vs, v ≠ .list vs) ∧ ∀ ms, v ≠ .dict ms)
    (limit : ℕ) {rest : Text} (hrest : Stops rest) : scanOnce limit (write sp v ++ rest) = .ok (v, rest) := by
  match v with
  | .null => exact scanOnce_eq_scalar (by decide) limit _
  | .bool true => exact scanOnce_eq_scalar (by decide) limit _
  | .bool false => exact scanOnce_eq_scalar (by decide) limit _
  | .int n =>
    obtain ⟨d, ds, hd, ht⟩ := intText_eq n
    have hstart : intText n ++ rest = d :: (ds ++ rest) ∨ intText n ++ rest = 0x2D :: d :: (ds ++ rest) := by
      rcases ht with ht | ht
      · exact .inl (by rw [ht]; rfl)
      · exact .inr (by rw [ht]; rfl)
    exact scanOnce_number hd hstart (number_intText h hrest) limit
  | .float t =>
    obtain ⟨d, ds, hd, ht⟩ := exists_digit_of_number h
    have hstart : t ++ rest = d :: (ds ++ rest) ∨ t ++ rest = 0x2D :: d :: (ds ++ rest) := by
      rcases ht with ht | ht
      · exact .inl (by rw [ht]; rfl)
      · exact .inr (by rw [ht]; rfl)
    exact scanOnce_number hd hstart (number_append_stops hrest h) limit
  | .str s => exact scanOnce_quoted h limit rest
  | .list vs => exact absurd rfl (hv.1 vs)
  | .dict ms => exact absurd rfl (hv.2 ms)

/-- A value is read back from its text, with as much recursion as it is deep. -/
theorem scanOnce_write {v : Value} {limit : ℕ} {rest : Text} (h : Readable v) (hdepth : depth v ≤ limit)
    (hrest : Stops rest) : scanOnce limit (write sp v ++ rest) = .ok (v, rest) := by
  induction limit generalizing v rest with
  | zero =>
    refine scanOnce_write_scalar h ⟨?_, ?_⟩ 0 hrest
    · rintro vs rfl
      exact absurd hdepth (Nat.not_succ_le_zero _)
    · rintro ms rfl
      exact absurd hdepth (Nat.not_succ_le_zero _)
  | succ limit ih =>
    match v with
    | .list [] => rfl
    | .dict [] => rfl
    | .list (v :: vs) =>
      have hitems := forall_of_itemsReadable h (Nat.le_of_succ_le_succ hdepth)
      have hlist := list_write (fun u hu => ⟨(hitems u hu).1, fun _ => ih (hitems u hu).1 (hitems u hu).2⟩) rest
      rw [write, List.cons_append, List.append_assoc]
      exact hlist
    | .dict ((k, v) :: ms) =>
      have hmembers := forall_of_membersReadable h.2 (Nat.le_of_succ_le_succ hdepth)
      have hdict := dict_write h.1 (fun m hm => ⟨(hmembers m hm).1, (hmembers m hm).2.1,
        fun _ => ih (hmembers m hm).2.1 (hmembers m hm).2.2⟩) rest
      rw [write, List.cons_append, List.append_assoc, List.cons_append, List.append_assoc, List.append_assoc]
      exact hdict
    | .null | .bool b | .int n | .float t | .str s =>
      exact scanOnce_write_scalar h ⟨fun _ => nofun, fun _ => nofun⟩ (limit + 1) hrest

/-- What is written is read back. -/
theorem loads_write {v : Value} {limit : ℕ} (h : Readable v) (hdepth : depth v ≤ limit) :
    loads limit (write sp v) = .ok v := by
  have hstops : Stops [] := fun c hc => absurd hc (Option.not_mem_none c)
  have hscan : scanOnce limit (write sp v ++ []) = .ok (v, []) := scanOnce_write h hdepth hstops
  have hskip : skip (write sp v ++ []) = write sp v ++ [] := skip_write h []
  rw [List.append_nil] at hscan hskip
  unfold loads
  rw [hskip, hscan]
  rfl

/-! ## What is written is ASCII -/

/-- A printable character of ASCII. -/
def isPrintable (c : ℕ) : Bool := 0x20 ≤ c && c ≤ 0x7E

/-- The characters of numbers are. -/
theorem isPrintable_of_isNumeric {c : ℕ} (h : isNumeric c = true) : isPrintable c = true := by
  simp only [isNumeric, isDigit, Bool.or_eq_true, Bool.and_eq_true, decide_eq_true_eq] at h
  simp only [isPrintable, Bool.and_eq_true, decide_eq_true_eq]
  omega

theorem isNumeric_of_isDigit {c : ℕ} (h : isDigit c = true) : isNumeric c = true := by
  unfold isNumeric
  rw [h]
  rfl

/-- Some digits at the start of a text. -/
theorem all_takeWhile (t : Text) : (t.takeWhile isDigit).all isNumeric = true :=
  List.all_eq_true.mpr fun _ hc => isNumeric_of_isDigit (List.mem_takeWhile_imp hc)

/-- The parts of a number have its characters. -/
theorem all_sign (t : Text) : (sign t).1.all isNumeric = true := by
  unfold sign
  split <;> rfl

theorem all_whole (t : Text) : (whole t).1.all isNumeric = true := by
  unfold whole
  split
  · rfl
  · exact all_takeWhile t

theorem all_fraction (t : Text) : (fraction t).1.all isNumeric = true := by
  unfold fraction
  split
  · next d t =>
    split
    · next hd =>
      rw [List.all_cons, List.all_cons, isNumeric_of_isDigit hd, all_takeWhile]
      rfl
    · rfl
  · rfl

theorem all_exponent (t : Text) : (exponent t).1.all isNumeric = true := by
  unfold exponent
  split
  · next e t =>
    split
    · next he =>
      dsimp only
      split
      · rfl
      · have hsign : (exponentSign t).1.all isNumeric = true := by
          unfold exponentSign
          split <;> rfl
        have hmark : isNumeric e = true := by
          rcases he with rfl | rfl <;> rfl
        rw [List.all_append, List.all_cons, hmark, hsign, all_takeWhile]
        rfl
    · rfl
  · rfl

/-- So has a float. -/
theorem all_float {t u : Text} (h : number t = .ok (.float u, [])) : u.all isNumeric = true := by
  unfold number at h
  dsimp only at h
  split at h
  · exact absurd h nofun
  · split at h
    · split at h
      · exact absurd h nofun
      · exact absurd (Prod.mk.inj (Except.ok.inj h)).1 nofun
    · obtain rfl := Value.float.inj (Prod.mk.inj (Except.ok.inj h)).1
      rw [List.all_append, List.all_append, List.all_append, all_sign, all_whole, all_fraction, all_exponent]
      rfl

/-- And an integer. -/
theorem all_intText (n : ℤ) : (intText n).all isNumeric = true := by
  have hdigits : (digits n.natAbs).all isNumeric = true :=
    List.all_eq_true.mpr fun _ hc => isNumeric_of_isDigit (isDigit_of_mem_digits hc)
  unfold intText
  split
  · rw [List.all_cons, hdigits]
    rfl
  · exact hdigits

/-- A character of a string is written in ASCII. -/
theorem all_escape (c : ℕ) : (escape c).all isPrintable = true := by
  have hdigit (n : ℕ) : isPrintable (hexDigit (n % 16)) = true := by
    have hall : ∀ n < 16, isPrintable (hexDigit n) = true := by decide
    exact hall _ (Nat.mod_lt _ (by decide))
  have hunicode (n : ℕ) : (unicode n).all isPrintable = true := by
    simp only [unicode, List.all_cons, List.all_nil, hdigit]
    rfl
  unfold escape
  split
  · next e he =>
    unfold shortEscape at he
    split_ifs at he with h₁ h₂ h₃ h₄ h₅ h₆
    · obtain rfl := Option.some_inj.mp he
      rcases h₁ with rfl | rfl <;> rfl
    all_goals
      obtain rfl := Option.some_inj.mp he
      rfl
  · split
    · next hplain =>
      simp only [List.all_cons, List.all_nil, isPrintable, Bool.and_true, Bool.and_eq_true, decide_eq_true_eq]
      exact hplain
    · split
      · exact hunicode c
      · rw [List.all_append, hunicode, hunicode]
        rfl

theorem all_quoted (s : Text) : (quoted s).all isPrintable = true := by
  have hchars : (s.flatMap escape).all isPrintable = true := by
    rw [List.all_flatMap, List.all_eq_true]
    exact fun c _ => all_escape c
  unfold quoted
  rw [List.all_cons, List.all_append, hchars]
  rfl

/-- So are spaces. -/
theorem all_gap (sp : Spacing) : sp.gap.all isPrintable = true := by
  cases sp with
  | compact => rfl
  | spaced => rfl

mutual

/-- A value is written in ASCII. -/
theorem all_write : ∀ {v : Value}, Readable v → (write sp v).all isPrintable = true
  | .null, _ | .bool true, _ | .bool false, _ => rfl
  | .list [], _ | .dict [], _ => rfl
  | .int n, _ => List.all_eq_true.mpr fun c hc => isPrintable_of_isNumeric (List.all_eq_true.mp (all_intText n) c hc)
  | .float _, h => List.all_eq_true.mpr fun c hc => isPrintable_of_isNumeric (List.all_eq_true.mp (all_float h) c hc)
  | .str s, _ => all_quoted s
  | .list (v :: vs), h => by
    have hv : (write sp v).all isPrintable = true := all_write h.1
    have hvs : (writeItems sp vs).all isPrintable = true := all_writeItems h.2
    rw [write, List.all_cons, List.all_append, hv, hvs]
    rfl
  | .dict ((k, v) :: ms), h => by
    have hv : (write sp v).all isPrintable = true := all_write h.2.2.1
    have hms : (writeMembers sp ms).all isPrintable = true := all_writeMembers h.2.2.2
    rw [write, List.all_cons, List.all_append, List.all_cons, List.all_append, List.all_append, all_quoted, all_gap,
      hv, hms]
    rfl

/-- So are items. -/
theorem all_writeItems : ∀ {vs : List Value}, ItemsReadable vs → (writeItems sp vs).all isPrintable = true
  | [], _ => rfl
  | v :: vs, h => by
    have hv : (write sp v).all isPrintable = true := all_write h.1
    have hvs : (writeItems sp vs).all isPrintable = true := all_writeItems h.2
    rw [writeItems, List.all_cons, List.all_append, List.all_append, all_gap, hv, hvs]
    rfl

/-- And members. -/
theorem all_writeMembers : ∀ {ms : List (Text × Value)}, MembersReadable ms →
    (writeMembers sp ms).all isPrintable = true
  | [], _ => rfl
  | (k, v) :: ms, h => by
    have hv : (write sp v).all isPrintable = true := all_write h.2.1
    have hms : (writeMembers sp ms).all isPrintable = true := all_writeMembers h.2.2
    rw [writeMembers, List.all_cons, List.all_append, List.all_append, List.all_cons, List.all_append,
      List.all_append, all_quoted, all_gap, hv, hms]
    rfl

end

/-- A string in which nothing is a surrogate is read back. -/
theorem unpaired_of_isSurrogate {s : Text} (h : ∀ c ∈ s, c < 0x110000 ∧ isSurrogate c = false) : Unpaired s := by
  refine ⟨fun c hc => (h c hc).1, ?_⟩
  rw [Bool.eq_false_iff]
  intro hpair
  obtain ⟨u, hu, hsurrogate⟩ := exists_isSurrogate_of_hasPair hpair
  rw [(h u hu).2] at hsurrogate
  exact absurd hsurrogate nofun

/-- So is one of ASCII. -/
theorem unpaired_of_lt {s : Text} (h : ∀ c ∈ s, c < 0x80) : Unpaired s := by
  refine unpaired_of_isSurrogate fun c hc => ?_
  have hlt := h c hc
  refine ⟨by omega, ?_⟩
  unfold isSurrogate
  rw [Bool.and_eq_false_iff, decide_eq_false_iff_not]
  omega

/-! ## The order of members -/

section Members

variable {α : Type} {members members' : List (Text × α)}

/-- The first member has the key, or the others are asked. -/
theorem getItem_cons (k k' : Text) (v : α) (members : List (Text × α)) :
    getItem k ((k', v) :: members) = if k' = k then some v else getItem k members := by
  unfold getItem
  rw [List.find?_cons]
  by_cases hk : k' = k
  · rw [decide_eq_true hk, if_pos hk]
    rfl
  · rw [decide_eq_false hk, if_neg hk]

/-- The value at a key is that of the one member with the key. -/
theorem getItem_eq_some_iff (hkeys : (members.map Prod.fst).Nodup) {k : Text} {v : α} :
    getItem k members = some v ↔ (k, v) ∈ members := by
  induction members with
  | nil => exact iff_of_false nofun List.not_mem_nil
  | cons m members ih =>
    obtain ⟨k', v'⟩ := m
    rw [List.map_cons, List.nodup_cons] at hkeys
    rw [getItem_cons, List.mem_cons, Prod.mk.injEq]
    by_cases hk : k' = k
    · subst hk
      have hnot : (k', v) ∉ members := fun hmem => hkeys.1 (List.mem_map.mpr ⟨(k', v), hmem, rfl⟩)
      rw [if_pos rfl, Option.some_inj]
      constructor
      · rintro rfl
        exact .inl ⟨rfl, rfl⟩
      · rintro (⟨-, h⟩ | h)
        · exact h.symm
        · exact absurd h hnot
    · rw [if_neg hk, ih hkeys.2]
      exact ⟨.inr, fun h => h.resolve_left fun h => hk h.1.symm⟩

/-- Members in the order of their keys are the same exactly if they are the same in any order. -/
theorem insertionSort_eq_iff (hkeys : (members.map Prod.fst).Nodup) (hkeys' : (members'.map Prod.fst).Nodup) :
    (members.insertionSort fun a b => a.1 ≤ b.1) = members'.insertionSort (fun a b => a.1 ≤ b.1) ↔
      members.length = members'.length ∧ ∀ m ∈ members, getItem m.1 members' = some m.2 := by
  have hsorted (l : List (Text × α)) : (l.insertionSort fun a b => a.1 ≤ b.1).Perm l :=
    List.perm_insertionSort _ l
  constructor
  · intro h
    have hperm : members.Perm members' := (hsorted members).symm.trans (h ▸ hsorted members')
    exact ⟨hperm.length_eq, fun m hm => (getItem_eq_some_iff hkeys').mpr (hperm.mem_iff.mp hm)⟩
  · rintro ⟨hlength, hall⟩
    have hsubset : members ⊆ members' := fun m hm => (getItem_eq_some_iff hkeys').mp (hall m hm)
    have hperm : members.Perm members' :=
      (List.subperm_of_subset (.of_map Prod.fst hkeys) hsubset).perm_of_length_le (Nat.le_of_eq hlength.symm)
    refine List.Perm.eq_of_pairwise (fun a b ha hb hab hba => ?_) (List.pairwise_insertionSort _ _)
      (List.pairwise_insertionSort _ _) ((hsorted members).trans (hperm.trans (hsorted members').symm))
    -- Two members with one key are one member.
    have ha' : (a.1, a.2) ∈ members' := hsubset ((hsorted members).mem_iff.mp ha)
    have hb' : (b.1, b.2) ∈ members' := (hsorted members').mem_iff.mp hb
    have hkey : a.1 = b.1 := le_antisymm hab hba
    rw [← getItem_eq_some_iff hkeys'] at ha' hb'
    rw [hkey, hb'] at ha'
    exact Prod.ext hkey (Option.some_inj.mp ha').symm

end Members

/-- The values of an object are sorted one by one. -/
theorem sortedMembers_eq (ms : List (Text × Value)) : sortedMembers ms = ms.map fun m => (m.1, sorted m.2) := by
  induction ms with
  | nil => rfl
  | cons m ms ih =>
    obtain ⟨k, v⟩ := m
    unfold sortedMembers
    rw [ih]
    rfl

/-- The keys stay. -/
theorem keys_sortedMembers (ms : List (Text × Value)) : (sortedMembers ms).map Prod.fst = ms.map Prod.fst := by
  rw [sortedMembers_eq, List.map_map]
  rfl

/-- The value at a key is sorted. -/
theorem getItem_sortedMembers (k : Text) :
    ∀ ms : List (Text × Value), getItem k (sortedMembers ms) = (getItem k ms).map sorted
  | [] => rfl
  | (k', v) :: ms => by
    rw [sortedMembers, getItem_cons, getItem_cons, getItem_sortedMembers k ms]
    split <;> rfl

/-- The members of an object are readable one by one. -/
theorem membersReadable_iff {ms : List (Text × Value)} :
    MembersReadable ms ↔ ∀ m ∈ ms, Unpaired m.1 ∧ Readable m.2 := by
  induction ms with
  | nil => exact iff_of_true trivial fun m hm => absurd hm List.not_mem_nil
  | cons m ms ih =>
    obtain ⟨k, v⟩ := m
    rw [MembersReadable, ih, List.forall_mem_cons, and_assoc]

/-- A value at a key of a readable object is readable. -/
theorem readable_of_getItem {k : Text} {v : Value} {ms : List (Text × Value)} (h : MembersReadable ms)
    (hget : getItem k ms = some v) : Readable v := by
  obtain ⟨m, hm, rfl⟩ := Option.map_eq_some_iff.mp hget
  exact (membersReadable_iff.mp h m (List.mem_of_find?_eq_some hm)).2

mutual

/-- A readable value is readable in the order of the keys. -/
theorem readable_sorted : ∀ {v : Value}, Readable v → Readable (sorted v)
  | .null, h | .bool _, h | .int _, h | .float _, h | .str _, h => h
  | .list _, h => readable_sortedItems h
  | .dict ms, h => by
    have hperm := List.perm_insertionSort (fun m n : Text × Value => m.1 ≤ n.1) (sortedMembers ms)
    have hmembers := membersReadable_iff.mp (readable_sortedMembers h.2)
    refine ⟨(hperm.map Prod.fst).nodup_iff.mpr ?_,
      membersReadable_iff.mpr fun m hm => hmembers m (hperm.mem_iff.mp hm)⟩
    rw [keys_sortedMembers]
    exact h.1

/-- So are items. -/
theorem readable_sortedItems : ∀ {vs : List Value}, ItemsReadable vs → ItemsReadable (sortedItems vs)
  | [], _ => trivial
  | _ :: _, h => ⟨readable_sorted h.1, readable_sortedItems h.2⟩

/-- And members. -/
theorem readable_sortedMembers : ∀ {ms : List (Text × Value)}, MembersReadable ms → MembersReadable (sortedMembers ms)
  | [], _ => trivial
  | (_, _) :: _, h => ⟨h.1, readable_sorted h.2.1, readable_sortedMembers h.2.2⟩

end

mutual

/-- Two values are the same exactly if they are, with their members in the order of the keys. -/
theorem sorted_eq_iff : ∀ {v w : Value}, Readable v → Readable w → (sorted v = sorted w ↔ same v w = true)
  | .null, w, _, _ => by cases w <;> simp [sorted, same]
  | .bool a, w, _, _ => by cases w <;> simp [sorted, same]
  | .int n, w, _, _ => by cases w <;> simp [sorted, same]
  | .float t, w, _, _ => by cases w <;> simp [sorted, same]
  | .str s, w, _, _ => by cases w <;> simp [sorted, same]
  | .list vs, w, hv, hw => by
    cases w with
    | list ws =>
      rw [sorted, sorted, Value.list.injEq, same]
      exact sortedItems_eq_iff hv hw
    | _ => simp [sorted, same]
  | .dict ms, w, hv, hw => by
    cases w with
    | dict ns =>
      have hlength (l : List (Text × Value)) : (sortedMembers l).length = l.length := by
        rw [sortedMembers_eq, List.length_map]
      rw [sorted, sorted, Value.dict.injEq, same,
        insertionSort_eq_iff (by rw [keys_sortedMembers]; exact hv.1) (by rw [keys_sortedMembers]; exact hw.1),
        hlength, hlength, Bool.and_eq_true, decide_eq_true_eq, sortedMembers_eq_iff hv.2 hw.2]
    | _ => simp [sorted, same]

/-- `sorted_eq_iff` for the items of a list. -/
theorem sortedItems_eq_iff : ∀ {vs ws : List Value}, ItemsReadable vs → ItemsReadable ws →
    (sortedItems vs = sortedItems ws ↔ sameItems vs ws = true)
  | [], [], _, _ => by simp [sameItems]
  | [], _ :: _, _, _ => by simp [sortedItems, sameItems]
  | _ :: _, [], _, _ => by simp [sortedItems, sameItems]
  | v :: vs, w :: ws, hv, hw => by
    rw [sortedItems, sortedItems, List.cons.injEq, sameItems, Bool.and_eq_true, sorted_eq_iff hv.1 hw.1,
      sortedItems_eq_iff hv.2 hw.2]

/-- `sorted_eq_iff` for the members of an object. -/
theorem sortedMembers_eq_iff : ∀ {ms ns : List (Text × Value)}, MembersReadable ms → MembersReadable ns →
    ((∀ m ∈ sortedMembers ms, getItem m.1 (sortedMembers ns) = some m.2) ↔ sameMembers ms ns = true)
  | [], _, _, _ => by simp [sortedMembers, sameMembers]
  | (k, v) :: ms, ns, hv, hw => by
    rw [sortedMembers, List.forall_mem_cons, sameMembers, Bool.and_eq_true, sortedMembers_eq_iff hv.2.2 hw,
      getItem_sortedMembers]
    rcases hget : getItem k ns with _ | w
    · simp
    · rw [Option.map_some, Option.some_inj, eq_comm, sorted_eq_iff hv.2.1 (readable_of_getItem hw hget)]

end

/-- A text is of one value. -/
theorem write_inj {v w : Value} (hv : Readable v) (hw : Readable w) (h : write sp v = write sp w) : v = w := by
  have hread : loads (max (depth v) (depth w)) (write sp v) = .ok v := loads_write hv (le_max_left _ _)
  rw [h, loads_write hw (le_max_right _ _)] at hread
  exact (Except.ok.inj hread).symm

/-- The text with sorted keys identifies the value. -/
theorem dumps_eq_iff {v w : Value} (hv : Readable v) (hw : Readable w) : dumps v = dumps w ↔ same v w = true := by
  rw [← sorted_eq_iff hv hw]
  constructor
  · exact write_inj (readable_sorted hv) (readable_sorted hw)
  · intro h
    rw [dumps, h, dumps]

end JobScripts.Lib.Dumps
