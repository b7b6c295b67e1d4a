import Mathlib.Data.List.Basic
import Mathlib.Data.Nat.Notation

/-!
# Strings of code points

A Python string is a sequence of code points, surrogates among them, so it is a `List ℕ` here and
not a `String`. `joinPairs` is what a JSON reader makes of `\u` escapes: a high surrogate followed by
a low one becomes one character. `lower` is `str.lower` over a Unicode character database, which
is a parameter: the mapping of each code point, and the two properties that decide how a capital
sigma ends a word.
-/

namespace JobScripts.Lib

/-- Strings are compared code point by code point. -/
instance lawfulBEq_codes : LawfulBEq (List ℕ) := List.instLawfulBEq

/-- The code points of a string. -/
def codes (s : String) : List ℕ := s.toList.map Char.toNat

/-- A number is known by its digits. -/
theorem toDigits_inj {m n : ℕ} (h : Nat.toDigits 10 m = Nat.toDigits 10 n) : m = n := by
  have hnumber := congrArg (Nat.ofDigitChars 10 · 0) h
  rwa [Nat.ofDigitChars_ten_toDigits, Nat.ofDigitChars_ten_toDigits] at hnumber

/-- A number is known by its text. -/
theorem toString_nat_injective : Function.Injective (toString : ℕ → String) := by
  intro m n h
  rw [Nat.toString_eq_ofList_toDigits, Nat.toString_eq_ofList_toDigits] at h
  exact toDigits_inj (String.ofList_injective h)

/-! ## Surrogates -/

/-- The first half of a pair. -/
def isHigh (u : ℕ) : Bool := 0xD800 ≤ u && u ≤ 0xDBFF

/-- The second half of a pair. -/
def isLow (u : ℕ) : Bool := 0xDC00 ≤ u && u ≤ 0xDFFF

/-- A surrogate is no character. -/
def isSurrogate (u : ℕ) : Bool := 0xD800 ≤ u && u ≤ 0xDFFF

/-- The character that a pair stands for. -/
def joinPair (high low : ℕ) : ℕ := 0x10000 + (high - 0xD800) * 0x400 + (low - 0xDC00)

/-- A string with its surrogate pairs joined, from the left. -/
def joinPairs : List ℕ → List ℕ
  | [] => []
  | [u] => [u]
  | u :: v :: rest =>
    if isHigh u && isLow v then joinPair u v :: joinPairs rest else u :: joinPairs (v :: rest)

/-- Joining, where at least two code points are left. -/
theorem joinPairs_cons_cons (u v : ℕ) (rest : List ℕ) :
    joinPairs (u :: v :: rest) =
      if isHigh u && isLow v then joinPair u v :: joinPairs rest else u :: joinPairs (v :: rest) :=
  rfl

/-- Some surrogate pair stands in the string. -/
def hasPair : List ℕ → Bool
  | u :: v :: rest => (isHigh u && isLow v) || hasPair (v :: rest)
  | _ => false

/-- The characters of a string are no surrogates. -/
theorem isSurrogate_toNat (c : Char) : isSurrogate c.toNat = false := by
  have hv := c.valid
  unfold UInt32.isValidChar Nat.isValidChar at hv
  unfold isSurrogate
  rw [Bool.and_eq_false_iff, decide_eq_false_iff_not, decide_eq_false_iff_not]
  have hn : c.toNat = c.val.toNat := rfl
  omega

/-- The code points of a string are no surrogates. -/
theorem isSurrogate_of_mem_codes {s : String} {u : ℕ} (h : u ∈ codes s) :
    isSurrogate u = false := by
  obtain ⟨c, -, rfl⟩ := List.mem_map.mp h
  exact isSurrogate_toNat c

/-- A pair is made of surrogates. -/
theorem exists_isSurrogate_of_hasPair : ∀ {s : List ℕ}, hasPair s = true →
    ∃ u ∈ s, isSurrogate u = true
  | u :: v :: rest, h => by
    unfold hasPair at h
    rw [Bool.or_eq_true, Bool.and_eq_true] at h
    rcases h with ⟨hu, -⟩ | h
    · refine ⟨u, List.mem_cons_self, ?_⟩
      simp only [isHigh, isSurrogate, Bool.and_eq_true, decide_eq_true_eq] at hu ⊢
      omega
    · obtain ⟨w, hw, hs⟩ := exists_isSurrogate_of_hasPair h
      exact ⟨w, List.mem_cons_of_mem _ hw, hs⟩
  | [], h | [_], h => by simp [hasPair] at h

/-- Without a pair there is nothing to join. -/
theorem joinPairs_of_not_hasPair : ∀ {s : List ℕ}, hasPair s = false → joinPairs s = s
  | [], _ | [_], _ => rfl
  | u :: v :: rest, h => by
    unfold hasPair at h
    rw [Bool.or_eq_false_iff] at h
    rw [joinPairs_cons_cons, h.1, if_neg (by simp), joinPairs_of_not_hasPair h.2]

/-- A joined pair is beyond the 16-bit code points. -/
theorem le_joinPair (u v : ℕ) : 0x10000 ≤ joinPair u v := by
  unfold joinPair
  omega

/-- A 16-bit code point that is no surrogate. -/
def isPlain (u : ℕ) : Bool := u < 0x10000 && !isSurrogate u

/-- A plain code point stands in front of the joined string exactly when it stands in front of the
string. -/
theorem joinPairs_eq_cons_iff {a : ℕ} (ha : isPlain a = true) (s r : List ℕ) :
    joinPairs s = a :: r ↔ ∃ s', s = a :: s' ∧ joinPairs s' = r := by
  simp only [isPlain, isSurrogate, Bool.and_eq_true, decide_eq_true_eq, Bool.not_eq_true',
    Bool.and_eq_false_iff, decide_eq_false_iff_not] at ha
  match s with
  | [] => simp [joinPairs]
  | [u] => simp [joinPairs]
  | u :: v :: rest =>
    rw [joinPairs_cons_cons]
    by_cases hp : (isHigh u && isLow v) = true
    · -- A pair is not `a`, neither before it is joined nor after.
      have hjoin := le_joinPair u v
      rw [if_pos hp]
      simp only [isHigh, Bool.and_eq_true, decide_eq_true_eq] at hp
      constructor
      · intro h
        have := (List.cons.inj h).1
        omega
      · rintro ⟨s', hs, -⟩
        have := (List.cons.inj hs).1
        omega
    · rw [if_neg hp]
      constructor
      · intro h
        obtain ⟨rfl, h'⟩ := List.cons.inj h
        exact ⟨v :: rest, rfl, h'⟩
      · rintro ⟨s', hs, h⟩
        obtain ⟨rfl, rfl⟩ := List.cons.inj hs
        rw [h]

/-- Joining pairs does not change a plain beginning. -/
theorem prefix_joinPairs_iff : ∀ {t : List ℕ}, (∀ u ∈ t, isPlain u = true) →
    ∀ s, t <+: joinPairs s ↔ t <+: s
  | [], _, s => by simp
  | a :: t, ht, s => by
    have ih := prefix_joinPairs_iff fun u hu => ht u (List.mem_cons_of_mem _ hu)
    constructor
    · rintro ⟨r, hr⟩
      obtain ⟨s', rfl, hs'⟩ := (joinPairs_eq_cons_iff (ht a List.mem_cons_self) s _).mp hr.symm
      exact List.cons_prefix_cons.mpr ⟨rfl, (ih s').mp ⟨r, hs'.symm⟩⟩
    · rintro ⟨r, rfl⟩
      obtain ⟨r', hr'⟩ := (ih (t ++ r)).mpr ⟨r, rfl⟩
      have hcons := (joinPairs_eq_cons_iff (ht a List.mem_cons_self) (a :: (t ++ r)) _).mpr
        ⟨t ++ r, rfl, hr'.symm⟩
      exact ⟨r', hcons.symm⟩

/-- A plain string is itself when its pairs are joined, and no other string becomes it. -/
theorem joinPairs_eq_iff : ∀ {t : List ℕ}, (∀ u ∈ t, isPlain u = true) →
    ∀ s, joinPairs s = t ↔ s = t
  | [], _, s => by
    match s with
    | [] | [_] => simp [joinPairs]
    | u :: v :: rest =>
      unfold joinPairs
      split <;> simp
  | a :: t, ht, s => by
    have ih := joinPairs_eq_iff fun u hu => ht u (List.mem_cons_of_mem _ hu)
    rw [joinPairs_eq_cons_iff (ht a List.mem_cons_self)]
    constructor
    · rintro ⟨s', rfl, hs'⟩
      rw [(ih s').mp hs']
    · rintro rfl
      exact ⟨t, rfl, (ih t).mpr rfl⟩

/-! ## Lower case -/

/-- What `str.lower` reads of the Unicode character database. -/
structure UnicodeData where
  /-- The full lower-case mapping of a code point, from the data and the special casing. -/
  toLowerFull : ℕ → List ℕ
  isCased : ℕ → Bool
  isCaseIgnorable : ℕ → Bool
  /-- No mapping is empty. -/
  toLowerFull_ne_nil : ∀ c, toLowerFull c ≠ []
  /-- Surrogates have no case. -/
  toLowerFull_surrogate : ∀ c, isSurrogate c = true → toLowerFull c = [c]

namespace UnicodeData

variable (U : UnicodeData)

/-- The first code point that is not passed over is a cased one. -/
def casedNext : List ℕ → Bool
  | [] => false
  | c :: rest => if U.isCaseIgnorable c then casedNext rest else U.isCased c

/-- A capital sigma at the end of a word, given what stands before it (backwards) and after it. -/
def finalSigma (before after : List ℕ) : Bool := U.casedNext before && !U.casedNext after

/-- The lower-case mapping of a code point in its place. -/
def lowerAt (before after : List ℕ) (c : ℕ) : List ℕ :=
  if c = 0x3A3 then [if U.finalSigma before after then 0x3C2 else 0x3C3] else U.toLowerFull c

/-- The rest of a string in lower case, given what stands before it (backwards). -/
def lowerFrom : List ℕ → List ℕ → List ℕ
  | _, [] => []
  | before, c :: rest => U.lowerAt before rest c ++ lowerFrom (c :: before) rest

/-- `str.lower`: the text in lower case, where what comes before a sigma makes a difference. -/
def lower (s : List ℕ) : List ℕ := U.lowerFrom [] s

/-- A code point becomes at least one. -/
theorem one_le_length_lowerAt (before after : List ℕ) (c : ℕ) :
    1 ≤ (U.lowerAt before after c).length := by
  unfold lowerAt
  split
  · exact Nat.le_refl 1
  · exact List.length_pos_iff.mpr (U.toLowerFull_ne_nil c)

/-- Lower case is never shorter. -/
theorem length_le_length_lower (s : List ℕ) : s.length ≤ (U.lower s).length := by
  have go : ∀ s before, s.length ≤ (U.lowerFrom before s).length := by
    intro s
    induction s with
    | nil => exact fun _ => Nat.le_refl 0
    | cons c rest ih =>
      intro before
      have hc := U.one_le_length_lowerAt before rest c
      have hrest := ih (c :: before)
      unfold lowerFrom
      rw [List.length_append, List.length_cons]
      omega
  exact go s []

/-- A surrogate stays in lower case. -/
theorem mem_lower_of_isSurrogate {s : List ℕ} {u : ℕ} (hu : u ∈ s) (hs : isSurrogate u = true) :
    u ∈ U.lower s := by
  have go : ∀ s before, u ∈ s → u ∈ U.lowerFrom before s := by
    intro s
    induction s with
    | nil => exact fun _ h => h
    | cons c rest ih =>
      intro before h
      unfold lowerFrom
      rcases List.mem_cons.mp h with rfl | h
      · refine List.mem_append_left _ ?_
        have hne : u ≠ 0x3A3 := by
          rintro rfl
          simp [isSurrogate] at hs
        unfold lowerAt
        rw [if_neg hne, U.toLowerFull_surrogate u hs]
        exact List.mem_singleton_self u
      · exact List.mem_append_right _ (ih _ h)
  exact go s [] hu

end UnicodeData

end JobScripts.Lib
