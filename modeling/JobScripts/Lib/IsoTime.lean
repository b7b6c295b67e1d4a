import Mathlib.Data.Int.Notation
import Mathlib.Tactic.Common
import Mathlib.Tactic.Ring

/-!
# Times in ISO format

`datetime.isoformat` of Python's standard library, and the form of it that `datetime.fromisoformat` reads: the date,
a `T`, the time to the microsecond where there is one, and the offset of a time that knows its zone, to the second or
the microsecond where it has any. What is written is read back (`read_isoformat`).
-/

namespace JobScripts.Lib.IsoTime

/-- The code points of a text. -/
abbrev Text := List ℕ

/-! ## Dates -/

/-- A year with a 29th of February. -/
def isLeap (year : ℕ) : Bool := year % 4 = 0 && (year % 100 ≠ 0 || year % 400 = 0)

/-- The days of a month. -/
def daysInMonth (year month : ℕ) : ℕ :=
  if month = 2 then if isLeap year then 29 else 28
  else if month = 4 ∨ month = 6 ∨ month = 9 ∨ month = 11 then 30 else 31

/-- The days before a year. -/
def daysBeforeYear (year : ℕ) : ℕ := (year - 1) * 365 + (year - 1) / 4 - (year - 1) / 100 + (year - 1) / 400

/-- The days of a year before a month. -/
def daysBeforeMonth (year month : ℕ) : ℕ := ((List.range (month - 1)).map fun m => daysInMonth year (m + 1)).sum

/-- A `datetime`: what a clock shows and, where its zone is known, the microseconds by which it is ahead of UTC. -/
structure Datetime where
  year : ℕ
  month : ℕ
  day : ℕ
  hour : ℕ
  minute : ℕ
  second : ℕ
  microsecond : ℕ
  offset : Option ℤ

/-- The microseconds of a day. -/
def dayLength : ℕ := 86400000000

/-- A `datetime` that can be built. -/
def Datetime.Valid (d : Datetime) : Prop :=
  (1 ≤ d.year ∧ d.year ≤ 9999) ∧ (1 ≤ d.month ∧ d.month ≤ 12) ∧ (1 ≤ d.day ∧ d.day ≤ daysInMonth d.year d.month) ∧
    d.hour < 24 ∧ d.minute < 60 ∧ d.second < 60 ∧ d.microsecond < 1000000 ∧ ∀ o ∈ d.offset, o.natAbs < dayLength

instance (d : Datetime) : Decidable d.Valid := by
  unfold Datetime.Valid
  infer_instance

/-- The microseconds from the first of January of the year 1 to what the clock shows. -/
def Datetime.clock (d : Datetime) : ℕ :=
  (daysBeforeYear d.year + daysBeforeMonth d.year d.month + (d.day - 1)) * dayLength +
    ((d.hour * 60 + d.minute) * 60 + d.second) * 1000000 + d.microsecond

/-- The instant, in microseconds of UTC. -/
def Datetime.instant (d : Datetime) : ℤ := d.clock - d.offset.getD 0

/-! ## Writing -/

/-- A number with as many digits as asked for. -/
def padded : ℕ → ℕ → Text
  | 0, _ => []
  | w + 1, n => padded w (n / 10) ++ [0x30 + n % 10]

/-- A fraction of a second, where there is one. -/
def fraction (microsecond : ℕ) : Text := if microsecond = 0 then [] else 0x2E :: padded 6 microsecond

/-- An offset. -/
def offsetText (o : ℤ) : Text :=
  let a := o.natAbs
  (if o < 0 then 0x2D else 0x2B) :: (padded 2 (a / 3600000000) ++ 0x3A :: (padded 2 (a / 60000000 % 60) ++
    if a % 60000000 = 0 then [] else 0x3A :: (padded 2 (a / 1000000 % 60) ++ fraction (a % 1000000))))

/-- `d.isoformat()`: date and time with a `T` between, the fraction and the offset where there are any. -/
def isoformat (d : Datetime) : Text :=
  padded 4 d.year ++ 0x2D :: (padded 2 d.month ++ 0x2D :: (padded 2 d.day ++ 0x54 :: (padded 2 d.hour ++
    0x3A :: (padded 2 d.minute ++ 0x3A :: (padded 2 d.second ++ (fraction d.microsecond ++
      (d.offset.map offsetText).getD []))))))

/-! ## Reading -/

/-- As many digits as asked for, after a number. -/
def number : ℕ → ℕ → Text → Option (ℕ × Text)
  | 0, n, t => some (n, t)
  | w + 1, n, c :: t => if 0x30 ≤ c ∧ c ≤ 0x39 then number w (n * 10 + (c - 0x30)) t else none
  | _ + 1, _, [] => none

/-- A character. -/
def char (c : ℕ) : Text → Option Text
  | d :: t => if d = c then some t else none
  | [] => none

/-- A character and as many digits as asked for, after it. -/
def field (c w : ℕ) (t : Text) : Option (ℕ × Text) := (char c t).bind (number w 0)

/-- A fraction of a second, where there is one. -/
def readFraction : Text → Option (ℕ × Text)
  | 0x2E :: t => number 6 0 t
  | t => some (0, t)

/-- The seconds of an offset, where there are any, as microseconds. -/
def readSeconds : Text → Option (ℕ × Text)
  | 0x3A :: t => do
    let (second, t) ← number 2 0 t
    let (microsecond, t) ← readFraction t
    return (second * 1000000 + microsecond, t)
  | t => some (0, t)

/-- An offset, without its sign. -/
def readOffset (t : Text) : Option ℕ := do
  let (hour, t) ← number 2 0 t
  let (minute, t) ← field 0x3A 2 t
  let (microseconds, t) ← readSeconds t
  if t = [] then some ((hour * 60 + minute) * 60000000 + microseconds) else none

/-- An offset, where there is one. -/
def readZone : Text → Option (Option ℤ)
  | [] => some none
  | 0x2B :: t => (readOffset t).map fun (a : ℕ) => some (a : ℤ)
  | 0x2D :: t => (readOffset t).map fun (a : ℕ) => some (-(a : ℤ))
  | _ => none

/-- A time in the form that `isoformat` gives it. -/
def read (t : Text) : Option Datetime := do
  let (year, t) ← number 4 0 t
  let (month, t) ← field 0x2D 2 t
  let (day, t) ← field 0x2D 2 t
  let (hour, t) ← field 0x54 2 t
  let (minute, t) ← field 0x3A 2 t
  let (second, t) ← field 0x3A 2 t
  let (microsecond, t) ← readFraction t
  let offset ← readZone t
  let d := Datetime.mk year month day hour minute second microsecond offset
  if d.Valid then some d else none

/-! ## What is written is read -/

/-- One digit more is read after a number. -/
theorem number_succ : ∀ {w m a c : ℕ} {s t : Text}, number w m s = some (a, c :: t) → 0x30 ≤ c ∧ c ≤ 0x39 →
    number (w + 1) m s = some (a * 10 + (c - 0x30), t)
  | 0, m, a, c, s, t, h, hc => by
    obtain ⟨rfl, rfl⟩ := Prod.mk.inj (Option.some_inj.mp h)
    rw [number, if_pos hc]
    rfl
  | w + 1, m, a, c, [], t, h, hc => absurd h nofun
  | w + 1, m, a, c, d :: s, t, h, hc => by
    rw [number] at h ⊢
    split at h
    · next hd =>
      rw [if_pos hd]
      exact number_succ h hc
    · exact absurd h nofun

/-- A number is read back. -/
theorem number_padded : ∀ {w n : ℕ}, n < 10 ^ w → ∀ (m : ℕ) (t : Text),
    number w m (padded w n ++ t) = some (m * 10 ^ w + n, t)
  | 0, n, h, m, t => by
    obtain rfl : n = 0 := Nat.lt_one_iff.mp h
    rw [Nat.pow_zero, Nat.mul_one]
    rfl
  | w + 1, n, h, m, t => by
    have hdiv : n / 10 < 10 ^ w := by
      rw [Nat.pow_succ] at h
      omega
    have hinit := number_padded hdiv m ((0x30 + n % 10) :: t)
    have hsum : (m * 10 ^ w + n / 10) * 10 + (0x30 + n % 10 - 0x30) = m * 10 ^ (w + 1) + n := by
      have hmul : m * 10 ^ w * 10 = m * 10 ^ (w + 1) := by ring
      omega
    rw [padded, List.append_assoc, List.singleton_append, number_succ hinit (by omega), hsum]

/-- A field is read back. -/
theorem field_padded {w n : ℕ} (h : n < 10 ^ w) (c : ℕ) (t : Text) :
    field c w (c :: (padded w n ++ t)) = some (n, t) := by
  have hchar : char c (c :: (padded w n ++ t)) = some (padded w n ++ t) := if_pos rfl
  rw [field, hchar, Option.bind_some, number_padded h, Nat.zero_mul, Nat.zero_add]

/-- A text that does not go on with a fraction. -/
def NoPoint (t : Text) : Prop := ∀ c ∈ t.head?, c ≠ 0x2E

/-- A fraction is read back. -/
theorem readFraction_fraction {microsecond : ℕ} (h : microsecond < 1000000) {t : Text} (ht : NoPoint t) :
    readFraction (fraction microsecond ++ t) = some (microsecond, t) := by
  unfold fraction
  split
  · next hzero =>
    subst hzero
    rw [List.nil_append]
    unfold readFraction
    split
    · exact absurd rfl (ht 0x2E rfl)
    · rfl
  · rw [List.cons_append, readFraction, number_padded h, Nat.zero_mul, Nat.zero_add]

/-- The seconds of an offset are read back. -/
theorem readSeconds_offset (a : ℕ) : readSeconds (if a % 60000000 = 0 then [] else
    0x3A :: (padded 2 (a / 1000000 % 60) ++ fraction (a % 1000000))) = some (a % 60000000, []) := by
  split
  · next hzero =>
    rw [hzero]
    rfl
  · have hfraction : readFraction (fraction (a % 1000000) ++ []) = some (a % 1000000, []) :=
      readFraction_fraction (by omega) fun c hc => absurd hc (Option.not_mem_none c)
    rw [List.append_nil] at hfraction
    have hsum : (0 * 10 ^ 2 + a / 1000000 % 60) * 1000000 + a % 1000000 = a % 60000000 := by omega
    rw [readSeconds, number_padded (by omega)]
    simp only [Option.bind_eq_bind, Option.bind_some]
    rw [hfraction]
    simp only [Option.bind_some, hsum]
    rfl

/-- An offset is read back. -/
theorem readZone_offsetText {o : ℤ} (h : o.natAbs < dayLength) : readZone (offsetText o) = some (some o) := by
  have hoffset : readOffset (padded 2 (o.natAbs / 3600000000) ++ 0x3A :: (padded 2 (o.natAbs / 60000000 % 60) ++
      if o.natAbs % 60000000 = 0 then [] else
        0x3A :: (padded 2 (o.natAbs / 1000000 % 60) ++ fraction (o.natAbs % 1000000)))) = some o.natAbs := by
    unfold dayLength at h
    have hsum : ((0 * 10 ^ 2 + o.natAbs / 3600000000) * 60 + o.natAbs / 60000000 % 60) * 60000000 +
        o.natAbs % 60000000 = o.natAbs := by omega
    unfold readOffset
    rw [number_padded (by omega)]
    simp only [Option.bind_eq_bind, Option.bind_some]
    rw [field_padded (by omega)]
    simp only [Option.bind_some]
    rw [readSeconds_offset]
    simp only [Option.bind_some, if_true, hsum]
  unfold offsetText
  dsimp only
  split
  · next hneg =>
    have ho : (-(o.natAbs : ℤ)) = o := by omega
    rw [readZone, hoffset, Option.map_some, ho]
  · next hneg =>
    have ho : (o.natAbs : ℤ) = o := by omega
    rw [readZone, hoffset, Option.map_some, ho]

/-- The zone of a time is read back. -/
theorem readZone_offset {offset : Option ℤ} (h : ∀ o ∈ offset, o.natAbs < dayLength) :
    readZone ((offset.map offsetText).getD []) = some offset ∧ NoPoint ((offset.map offsetText).getD []) := by
  cases offset with
  | none => exact ⟨rfl, fun c hc => absurd hc (Option.not_mem_none c)⟩
  | some o =>
    refine ⟨readZone_offsetText (h o rfl), ?_⟩
    intro c hc
    obtain rfl : (if o < 0 then 0x2D else 0x2B) = c := Option.some_inj.mp hc
    split
    · decide
    · decide

/-- The days of a month have two digits. -/
theorem daysInMonth_lt (year month : ℕ) : daysInMonth year month < 10 ^ 2 := by
  unfold daysInMonth
  split_ifs
  all_goals decide

/-- What `isoformat` writes is read back. -/
theorem read_isoformat {d : Datetime} (h : d.Valid) : read (isoformat d) = some d := by
  obtain ⟨⟨-, hyear⟩, ⟨-, hmonth⟩, ⟨-, hday⟩, hhour, hminute, hsecond, hmicrosecond, hoffset⟩ := id h
  obtain ⟨hzone, hpoint⟩ := readZone_offset hoffset
  have hday' := hday.trans_lt (daysInMonth_lt d.year d.month)
  unfold read isoformat
  rw [number_padded (by omega)]
  simp only [Option.bind_eq_bind, Option.bind_some, Nat.zero_mul, Nat.zero_add]
  rw [field_padded (by omega)]
  simp only [Option.bind_some]
  rw [field_padded hday']
  simp only [Option.bind_some]
  rw [field_padded (by omega)]
  simp only [Option.bind_some]
  rw [field_padded (by omega)]
  simp only [Option.bind_some]
  rw [field_padded (by omega)]
  simp only [Option.bind_some]
  rw [readFraction_fraction hmicrosecond hpoint]
  simp only [Option.bind_some]
  rw [hzone]
  exact if_pos h

/-! ## What is written is ASCII -/

/-- Every character is one of ASCII. -/
def Ascii (t : Text) : Prop := ∀ c ∈ t, c < 0x80

theorem Ascii.append {t u : Text} (ht : Ascii t) (hu : Ascii u) : Ascii (t ++ u) := by
  intro c hc
  rcases List.mem_append.mp hc with hc | hc
  · exact ht c hc
  · exact hu c hc

theorem Ascii.cons {c : ℕ} {t : Text} (hc : c < 0x80) (ht : Ascii t) : Ascii (c :: t) := by
  intro d hd
  rcases List.mem_cons.mp hd with rfl | hd
  · exact hc
  · exact ht d hd

theorem Ascii.nil : Ascii [] := fun _ hc => absurd hc List.not_mem_nil

/-- Digits are. -/
theorem ascii_padded : ∀ w n : ℕ, Ascii (padded w n)
  | 0, _ => .nil
  | w + 1, n => (ascii_padded w (n / 10)).append (.cons (by omega) .nil)

theorem ascii_fraction (n : ℕ) : Ascii (fraction n) := by
  unfold fraction
  split
  · exact .nil
  · exact .cons (by decide) (ascii_padded 6 n)

theorem ascii_offsetText (o : ℤ) : Ascii (offsetText o) := by
  unfold offsetText
  refine .cons ?_ ((ascii_padded 2 _).append (.cons (by decide) ((ascii_padded 2 _).append ?_)))
  · split
    · decide
    · decide
  · split
    · exact .nil
    · exact .cons (by decide) ((ascii_padded 2 _).append (ascii_fraction _))

/-- So is a time. -/
theorem ascii_isoformat (d : Datetime) : Ascii (isoformat d) := by
  have hzone : Ascii ((d.offset.map offsetText).getD []) := by
    cases d.offset with
    | none => exact .nil
    | some o => exact ascii_offsetText o
  unfold isoformat
  exact (ascii_padded 4 _).append (.cons (by decide) ((ascii_padded 2 _).append (.cons (by decide)
    ((ascii_padded 2 _).append (.cons (by decide) ((ascii_padded 2 _).append (.cons (by decide)
      ((ascii_padded 2 _).append (.cons (by decide) ((ascii_padded 2 _).append
        ((ascii_fraction _).append hzone)))))))))))

end JobScripts.Lib.IsoTime
