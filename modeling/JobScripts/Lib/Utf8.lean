import Mathlib.Data.Nat.Notation
import Mathlib.Tactic.Common
import Mathlib.Tactic.Ring

/-!
# UTF-8 with replacement

`bytes.decode("utf-8", errors="replace")` of Python's standard library: a sequence that no character begins with, as
far as it goes, becomes one U+FFFD, and reading goes on with the byte that broke it off.

A byte of ASCII stands for itself wherever it is, so bytes are decoded piece by piece around it
(`decode_append_cons`), and a text that begins in ASCII comes from bytes that do (`decode_eq_cons`).
-/

namespace JobScripts.Lib.Utf8

/-! ## Decoding -/

/-- A character that is read in part: the bounds of the next byte, how many come after that, and the bits so far. What
it becomes is no character of ASCII. -/
structure Pending where
  low : ℕ
  high : ℕ
  more : ℕ
  bits : ℕ
  low_ge : 0x80 ≤ low
  ge : 0x80 ≤ (bits * 64 + (low - 0x80)) * 64 ^ more

/-- Between characters, or inside of one. -/
abbrev State := Option Pending

/-- U+FFFD. -/
def replacement : ℕ := 0xFFFD

/-- A byte between characters. -/
def first (b : ℕ) : List ℕ × State :=
  if b < 0x80 then ([b], none)
  else if h : 0xC2 ≤ b ∧ b ≤ 0xDF then ([], some ⟨0x80, 0xBF, 0, b - 0xC0, le_rfl, by omega⟩)
  else if b = 0xE0 then ([], some ⟨0xA0, 0xBF, 1, 0, by decide, by decide⟩)
  else if b = 0xED then ([], some ⟨0x80, 0x9F, 1, 0xD, le_rfl, by decide⟩)
  else if h : 0xE1 ≤ b ∧ b ≤ 0xEF then ([], some ⟨0x80, 0xBF, 1, b - 0xE0, le_rfl, by omega⟩)
  else if b = 0xF0 then ([], some ⟨0x90, 0xBF, 2, 0, by decide, by decide⟩)
  else if h : 0xF1 ≤ b ∧ b ≤ 0xF3 then ([], some ⟨0x80, 0xBF, 2, b - 0xF0, le_rfl, by omega⟩)
  else if b = 0xF4 then ([], some ⟨0x80, 0x8F, 2, 4, le_rfl, by decide⟩)
  else ([replacement], none)

/-- The bits with one byte more. -/
def Pending.shift (p : Pending) (b : ℕ) : ℕ := p.bits * 64 + (b - 0x80)

/-- What a byte inside of a character that is not the last leaves to read. -/
def Pending.next (p : Pending) (b more : ℕ) (hmore : p.more = more + 1) (hb : p.low ≤ b) : Pending where
  low := 0x80
  high := 0xBF
  more := more
  bits := p.shift b
  low_ge := le_rfl
  ge := by
    have hge := p.ge
    have hbits : p.bits * 64 + (p.low - 0x80) ≤ p.shift b := by
      unfold Pending.shift
      omega
    calc 0x80 ≤ (p.bits * 64 + (p.low - 0x80)) * 64 ^ p.more := hge
      _ ≤ p.shift b * 64 ^ p.more := Nat.mul_le_mul_right _ hbits
      _ = (p.shift b * 64 + (0x80 - 0x80)) * 64 ^ more := by rw [hmore, pow_succ]; ring

/-- A byte, and what is written before the next one. -/
def step : State → ℕ → List ℕ × State
  | none, b => first b
  | some p, b =>
    if h : p.low ≤ b ∧ b ≤ p.high then
      match hmore : p.more with
      | 0 => ([p.shift b], none)
      | more + 1 => ([], some (p.next b more hmore h.1))
    else (replacement :: (first b).1, (first b).2)

/-- What the end of the bytes leaves. -/
def flush : State → List ℕ
  | none => []
  | some _ => [replacement]

/-- The text of some bytes from a state on. -/
def decodeFrom : State → List ℕ → List ℕ
  | s, [] => flush s
  | s, b :: rest => (step s b).1 ++ decodeFrom (step s b).2 rest

/-- `b.decode("utf-8", errors="replace")`: the text of some bytes, U+FFFD for what spells no character. -/
def decode (bytes : List ℕ) : List ℕ := decodeFrom none bytes

/-! ## ASCII -/

/-- A byte of ASCII ends what came before it, and stands for itself. -/
theorem step_ascii {b : ℕ} (hb : b < 0x80) (s : State) : step s b = (flush s ++ [b], none) := by
  have hfirst : first b = ([b], none) := if_pos hb
  cases s with
  | none => exact hfirst
  | some p =>
    have hout : ¬ (p.low ≤ b ∧ b ≤ p.high) := by
      have hlow := p.low_ge
      omega
    unfold step
    dsimp only
    rw [dif_neg hout, hfirst]
    rfl

/-- Bytes are decoded on either side of one of ASCII. -/
theorem decodeFrom_append_cons {b : ℕ} (hb : b < 0x80) (rest : List ℕ) : ∀ (bytes : List ℕ) (s : State),
    decodeFrom s (bytes ++ b :: rest) = decodeFrom s bytes ++ b :: decode rest
  | [], s => by
    rw [List.nil_append, decodeFrom, decodeFrom, step_ascii hb, List.append_assoc]
    rfl
  | c :: bytes, s => by
    rw [List.cons_append, decodeFrom, decodeFrom, decodeFrom_append_cons hb rest bytes, List.append_assoc]

/-- So are those of a whole text. -/
theorem decode_append_cons {b : ℕ} (hb : b < 0x80) (bytes rest : List ℕ) :
    decode (bytes ++ b :: rest) = decode bytes ++ b :: decode rest := decodeFrom_append_cons hb rest bytes none

/-- A first byte of ASCII is the first character. -/
theorem decode_cons {b : ℕ} (hb : b < 0x80) (rest : List ℕ) : decode (b :: rest) = b :: decode rest :=
  decode_append_cons hb [] rest

/-- The replacement is not of ASCII. -/
theorem replacement_ge : 0x80 ≤ replacement := by decide

/-- A byte outside ASCII becomes nothing yet, or a replacement. -/
theorem first_of_ge {b : ℕ} (hb : 0x80 ≤ b) : (∃ p, first b = ([], some p)) ∨ first b = ([replacement], none) := by
  unfold first
  rw [if_neg (by omega)]
  split
  · exact .inl ⟨_, rfl⟩
  · split
    · exact .inl ⟨_, rfl⟩
    · split
      · exact .inl ⟨_, rfl⟩
      · split
        · exact .inl ⟨_, rfl⟩
        · split
          · exact .inl ⟨_, rfl⟩
          · split
            · exact .inl ⟨_, rfl⟩
            · split
              · exact .inl ⟨_, rfl⟩
              · exact .inr rfl

/-- The last byte of a character. -/
theorem step_last {p : Pending} {b : ℕ} (h : p.low ≤ b ∧ b ≤ p.high) (hmore : p.more = 0) :
    step (some p) b = ([p.shift b], none) ∧ 0x80 ≤ p.shift b := by
  constructor
  · unfold step
    dsimp only
    rw [dif_pos h]
    split
    · rfl
    · next more hmore' => exact absurd (hmore.symm.trans hmore') (Nat.succ_ne_zero _).symm
  · have hge := p.ge
    rw [hmore, pow_zero, mul_one] at hge
    unfold Pending.shift
    omega

/-- A byte inside of a character that is not the last. -/
theorem step_next {p : Pending} {b more : ℕ} (h : p.low ≤ b ∧ b ≤ p.high) (hmore : p.more = more + 1) :
    step (some p) b = ([], some (p.next b more hmore h.1)) := by
  unfold step
  dsimp only
  rw [dif_pos h]
  split
  · next hzero => exact absurd (hmore.symm.trans hzero) (Nat.succ_ne_zero _)
  · next more' hmore' =>
    obtain rfl := Nat.succ.inj (hmore.symm.trans hmore')
    rfl

/-- A byte that breaks a character off. -/
theorem step_broken {p : Pending} {b : ℕ} (h : ¬ (p.low ≤ b ∧ b ≤ p.high)) :
    step (some p) b = (replacement :: (first b).1, (first b).2) := by
  unfold step
  dsimp only
  rw [dif_neg h]

/-- What is written for a byte outside ASCII is outside ASCII. -/
theorem step_ge {b : ℕ} (hb : 0x80 ≤ b) (s : State) : ∀ c ∈ (step s b).1, 0x80 ≤ c := by
  have hfirst : ∀ c ∈ (first b).1, 0x80 ≤ c := by
    rcases first_of_ge hb with ⟨p, hp⟩ | hreplace
    · rw [hp]
      exact fun c hc => absurd hc List.not_mem_nil
    · rw [hreplace]
      exact List.forall_mem_singleton.mpr replacement_ge
  cases s with
  | none => exact hfirst
  | some p =>
    by_cases h : p.low ≤ b ∧ b ≤ p.high
    · cases hmore : p.more with
      | zero =>
        rw [(step_last h hmore).1]
        exact List.forall_mem_singleton.mpr (step_last h hmore).2
      | succ more =>
        rw [step_next h hmore]
        exact fun c hc => absurd hc List.not_mem_nil
    · rw [step_broken h]
      exact List.forall_mem_cons.mpr ⟨replacement_ge, hfirst⟩

/-- A character of ASCII comes from the byte that it is, and what is around it from the bytes around that. -/
theorem decodeFrom_eq_append {c : ℕ} (hc : c < 0x80) {t : List ℕ} : ∀ (bytes : List ℕ) (s : State) {a : List ℕ},
    decodeFrom s bytes = a ++ c :: t → ∃ x y, bytes = x ++ c :: y ∧ decodeFrom s x = a ∧ decode y = t
  | [], s, a, h => by
    have hmem : c ∈ flush s := by
      have hflush : flush s = a ++ c :: t := h
      rw [hflush]
      exact List.mem_append_right _ List.mem_cons_self
    cases s with
    | none => exact absurd hmem List.not_mem_nil
    | some p =>
      rw [List.mem_singleton.mp hmem] at hc
      exact absurd hc (by decide)
  | b :: bytes, s, a, h => by
    rw [decodeFrom] at h
    rcases List.append_eq_append_iff.mp h with ⟨a', ha, hrest⟩ | ⟨u, hout, hrest⟩
    · -- It comes after what this byte writes.
      obtain ⟨x, y, rfl, hx, hy⟩ := decodeFrom_eq_append hc bytes _ hrest
      refine ⟨b :: x, y, rfl, ?_, hy⟩
      rw [decodeFrom, hx, ha]
    · cases u with
      | nil =>
        obtain ⟨x, y, rfl, hx, hy⟩ := decodeFrom_eq_append (a := []) hc bytes _ hrest.symm
        refine ⟨b :: x, y, rfl, ?_, hy⟩
        rw [decodeFrom, hx, hout]
        rw [List.append_nil, List.append_nil]
      | cons d u =>
        -- It is written by this byte, which is then one of ASCII, and the last that it writes.
        obtain ⟨rfl, rfl⟩ := List.cons.inj hrest
        have hb : b < 0x80 := by
          by_contra hge
          have hle := step_ge (Nat.not_lt.mp hge) s c (by rw [hout]; exact List.mem_append_right _ List.mem_cons_self)
          omega
        rw [step_ascii hb] at hout
        have hsingle : ∀ a : List ℕ, [b] = a ++ c :: u → a = [] ∧ b = c ∧ u = [] := by
          rintro (_ | ⟨d, a⟩) h
          · obtain ⟨rfl, rfl⟩ := List.cons.inj h
            exact ⟨rfl, rfl, rfl⟩
          · exact absurd (congrArg List.length h) (by simp)
        have hlast : a = flush s ∧ b = c ∧ u = [] := by
          cases s with
          | none => exact hsingle a hout
          | some p =>
            cases a with
            | nil =>
              obtain ⟨rfl, -⟩ := List.cons.inj hout
              exact absurd hc (by decide)
            | cons d a =>
              obtain ⟨rfl, htail⟩ := List.cons.inj hout
              obtain ⟨rfl, hcases⟩ := hsingle a htail
              exact ⟨rfl, hcases⟩
        obtain ⟨rfl, rfl, rfl⟩ := hlast
        refine ⟨[], bytes, rfl, rfl, ?_⟩
        rw [step_ascii hb]
        rfl

/-- A text that begins inside of a character begins with one outside ASCII. -/
theorem decodeFrom_pending : ∀ (bytes : List ℕ) (p : Pending), ∃ c t, decodeFrom (some p) bytes = c :: t ∧ 0x80 ≤ c
  | [], p => ⟨_, _, rfl, replacement_ge⟩
  | b :: bytes, p => by
    rw [decodeFrom]
    by_cases h : p.low ≤ b ∧ b ≤ p.high
    · cases hmore : p.more with
      | zero =>
        rw [(step_last h hmore).1]
        exact ⟨_, _, rfl, (step_last h hmore).2⟩
      | succ more =>
        rw [step_next h hmore]
        exact decodeFrom_pending bytes _
    · rw [step_broken h]
      exact ⟨_, _, rfl, replacement_ge⟩

/-- A text that begins with a character of ASCII comes from bytes that begin with it. -/
theorem decode_eq_cons {bytes t : List ℕ} {c : ℕ} (hc : c < 0x80) (h : decode bytes = c :: t) :
    ∃ rest, bytes = c :: rest ∧ t = decode rest := by
  cases bytes with
  | nil => exact absurd h nofun
  | cons b rest =>
    by_cases hb : b < 0x80
    · rw [decode_cons hb] at h
      obtain ⟨rfl, rfl⟩ := List.cons.inj h
      exact ⟨rest, rfl, rfl⟩
    · have hstep : decode (b :: rest) = (first b).1 ++ decodeFrom (first b).2 rest := rfl
      rw [hstep] at h
      rcases first_of_ge (by omega : 0x80 ≤ b) with ⟨p, hp⟩ | hreplace
      · rw [hp] at h
        obtain ⟨d, u, hd, hge⟩ := decodeFrom_pending rest p
        obtain ⟨rfl, -⟩ := List.cons.inj (hd.symm.trans h)
        omega
      · rw [hreplace] at h
        obtain ⟨rfl, -⟩ := List.cons.inj h
        exact absurd hc (by decide)

end JobScripts.Lib.Utf8
