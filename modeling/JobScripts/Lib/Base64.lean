import Mathlib.Tactic.Common

/-!
# Base64 without padding

The alphabet of RFC 4648 that is safe in a url. Bytes are numbers below 256 and texts lists of code points. What is
encoded, without the padding at its end, is read back when the padding is put on again (`decode_padded`).
-/

namespace JobScripts.Lib.Base64

/-- `=`, which fills the last group of letters up. -/
def pad : ℕ := 0x3D

/-- The character of six bits. -/
def letter (n : ℕ) : ℕ :=
  if n < 26 then 0x41 + n
  else if n < 52 then 0x61 + (n - 26)
  else if n < 62 then 0x30 + (n - 52)
  else if n = 62 then 0x2D
  else 0x5F

/-- The six bits of a character; the two of the usual alphabet are read too. -/
def sextet (c : ℕ) : Option ℕ :=
  if 0x41 ≤ c ∧ c ≤ 0x5A then some (c - 0x41)
  else if 0x61 ≤ c ∧ c ≤ 0x7A then some (c - 0x61 + 26)
  else if 0x30 ≤ c ∧ c ≤ 0x39 then some (c - 0x30 + 52)
  else if c = 0x2D ∨ c = 0x2B then some 62
  else if c = 0x5F ∨ c = 0x2F then some 63
  else none

/-- The characters of some bytes. -/
def letters : List ℕ → List ℕ
  | a :: b :: c :: rest =>
    letter (a / 4) :: letter (a % 4 * 16 + b / 16) :: letter (b % 16 * 4 + c / 64) :: letter (c % 64) :: letters rest
  | [a, b] => [letter (a / 4), letter (a % 4 * 16 + b / 16), letter (b % 16 * 4)]
  | [a] => [letter (a / 4), letter (a % 4 * 16)]
  | [] => []

/-- The characters and the padding that makes their number one of fours. -/
def padded (text : List ℕ) : List ℕ := text ++ List.replicate ((4 - text.length % 4) % 4) pad

/-- `urlsafe_b64encode`: the letters of some bytes, filled up to groups of four. -/
def encode (bytes : List ℕ) : List ℕ := padded (letters bytes)

/-- `rstrip("=")`: the letters alone. -/
def unpadded (text : List ℕ) : List ℕ := (text.reverse.dropWhile (· = pad)).reverse

/-- The bytes of fours of characters, the last of which may hold padding. -/
def decode : List ℕ → Option (List ℕ)
  | [] => some []
  | w :: x :: y :: z :: rest =>
    match sextet w, sextet x, sextet y, sextet z with
    | some a, some b, some c, some d =>
      (decode rest).map ([a * 4 + b / 16, b % 16 * 16 + c / 4, c % 4 * 64 + d] ++ ·)
    | some a, some b, some c, none =>
      if z = pad ∧ rest = [] then some [a * 4 + b / 16, b % 16 * 16 + c / 4] else none
    | some a, some b, none, none => if y = pad ∧ z = pad ∧ rest = [] then some [a * 4 + b / 16] else none
    | _, _, _, _ => none
  | _ => none

/-- A character has the six bits that it was written for. -/
theorem sextet_letter {n : ℕ} (h : n < 64) : sextet (letter n) = some n := by
  revert n
  decide

/-- It is no padding. -/
theorem letter_ne_pad {n : ℕ} (h : n < 64) : letter n ≠ pad := by
  revert n
  decide

/-- Padding has no bits. -/
theorem sextet_pad : sextet pad = none := rfl

/-- No character of bytes is padding. -/
theorem pad_notMem_letters : ∀ {bytes : List ℕ}, (∀ b ∈ bytes, b < 256) → pad ∉ letters bytes
  | [], _ => List.not_mem_nil
  | [a], h => by
    have ha : a < 256 := h a (by simp)
    have h₁ := letter_ne_pad (show a / 4 < 64 by omega)
    have h₂ := letter_ne_pad (show a % 4 * 16 < 64 by omega)
    simp [letters, h₁.symm, h₂.symm]
  | [a, b], h => by
    have ha : a < 256 := h a (by simp)
    have hb : b < 256 := h b (by simp)
    have h₁ := letter_ne_pad (show a / 4 < 64 by omega)
    have h₂ := letter_ne_pad (show a % 4 * 16 + b / 16 < 64 by omega)
    have h₃ := letter_ne_pad (show b % 16 * 4 < 64 by omega)
    simp [letters, h₁.symm, h₂.symm, h₃.symm]
  | a :: b :: c :: rest, h => by
    have ha : a < 256 := h a (by simp)
    have hb : b < 256 := h b (by simp)
    have hc : c < 256 := h c (by simp)
    have h₁ := letter_ne_pad (show a / 4 < 64 by omega)
    have h₂ := letter_ne_pad (show a % 4 * 16 + b / 16 < 64 by omega)
    have h₃ := letter_ne_pad (show b % 16 * 4 + c / 64 < 64 by omega)
    have h₄ := letter_ne_pad (show c % 64 < 64 by omega)
    have hrest : pad ∉ letters rest := pad_notMem_letters fun d hd => h d (by simp [hd])
    simp [letters, h₁.symm, h₂.symm, h₃.symm, h₄.symm, hrest]

/-- There is no line end among the characters. -/
theorem ge_of_mem_letters {bytes : List ℕ} : ∀ {c : ℕ}, c ∈ letters bytes → 0x2D ≤ c := by
  have hletter : ∀ n, 0x2D ≤ letter n := by
    intro n
    unfold letter
    split_ifs <;> omega
  fun_induction letters bytes with
  | case1 a b c rest ih =>
    intro d hd
    rcases List.mem_cons.mp hd with rfl | hd
    · exact hletter _
    rcases List.mem_cons.mp hd with rfl | hd
    · exact hletter _
    rcases List.mem_cons.mp hd with rfl | hd
    · exact hletter _
    rcases List.mem_cons.mp hd with rfl | hd
    · exact hletter _
    exact ih hd
  | case2 a b =>
    intro d hd
    simp only [List.mem_cons, List.not_mem_nil, or_false] at hd
    rcases hd with rfl | rfl | rfl
    · exact hletter _
    · exact hletter _
    · exact hletter _
  | case3 a =>
    intro d hd
    simp only [List.mem_cons, List.not_mem_nil, or_false] at hd
    rcases hd with rfl | rfl
    · exact hletter _
    · exact hletter _
  | case4 => exact fun hd => absurd hd List.not_mem_nil

/-- Bytes have characters. -/
theorem letters_ne_nil {bytes : List ℕ} (h : bytes ≠ []) : letters bytes ≠ [] := by
  match bytes with
  | [] => exact absurd rfl h
  | [_] => exact List.cons_ne_nil _ _
  | [_, _] => exact List.cons_ne_nil _ _
  | _ :: _ :: _ :: _ => exact List.cons_ne_nil _ _

/-- So stripping takes the padding off, and nothing else. -/
theorem unpadded_encode {bytes : List ℕ} (h : ∀ b ∈ bytes, b < 256) : unpadded (encode bytes) = letters bytes := by
  unfold unpadded encode padded
  rw [List.reverse_append, List.reverse_replicate, List.dropWhile_append_of_pos]
  · have hnot := pad_notMem_letters h
    have hdrop : (letters bytes).reverse.dropWhile (· = pad) = (letters bytes).reverse := by
      cases hlast : (letters bytes).reverse with
      | nil => rfl
      | cons c cs =>
        have hc : c ∈ letters bytes := List.mem_reverse.mp (hlast ▸ List.mem_cons_self)
        refine List.dropWhile_cons_of_neg ?_
        rw [decide_eq_true_iff]
        exact fun heq => hnot (heq ▸ hc)
    rw [hdrop, List.reverse_reverse]
  · intro c hc
    rw [List.eq_of_mem_replicate hc]
    decide

/-- What is encoded is read back. -/
theorem decode_encode : ∀ {bytes : List ℕ}, (∀ b ∈ bytes, b < 256) → decode (encode bytes) = some bytes
  | [], _ => rfl
  | [a], h => by
    have ha : a < 256 := h a (by simp)
    have h₁ := sextet_letter (show a / 4 < 64 by omega)
    have h₂ := sextet_letter (show a % 4 * 16 < 64 by omega)
    simp [encode, padded, letters, decode, h₁, h₂, sextet_pad]
    omega
  | [a, b], h => by
    have ha : a < 256 := h a (by simp)
    have hb : b < 256 := h b (by simp)
    have h₁ := sextet_letter (show a / 4 < 64 by omega)
    have h₂ := sextet_letter (show a % 4 * 16 + b / 16 < 64 by omega)
    have h₃ := sextet_letter (show b % 16 * 4 < 64 by omega)
    have hfirst : a / 4 * 4 + (a % 4 * 16 + b / 16) / 16 = a := by omega
    simp [encode, padded, letters, decode, h₁, h₂, h₃, sextet_pad, hfirst]
    omega
  | a :: b :: c :: rest, h => by
    have ha : a < 256 := h a (by simp)
    have hb : b < 256 := h b (by simp)
    have hc : c < 256 := h c (by simp)
    have h₁ := sextet_letter (show a / 4 < 64 by omega)
    have h₂ := sextet_letter (show a % 4 * 16 + b / 16 < 64 by omega)
    have h₃ := sextet_letter (show b % 16 * 4 + c / 64 < 64 by omega)
    have h₄ := sextet_letter (show c % 64 < 64 by omega)
    have hfirst : a / 4 * 4 + (a % 4 * 16 + b / 16) / 16 = a := by omega
    have hsecond : (a % 4 * 16 + b / 16) % 16 * 16 + (b % 16 * 4 + c / 64) / 4 = b := by omega
    have hthird : (b % 16 * 4 + c / 64) % 4 * 64 + c % 64 = c := by omega
    have hrest : decode (encode rest) = some rest := decode_encode fun d hd => h d (by simp [hd])
    have hsplit : encode (a :: b :: c :: rest) = letter (a / 4) :: letter (a % 4 * 16 + b / 16) ::
        letter (b % 16 * 4 + c / 64) :: letter (c % 64) :: encode rest := by
      have hlength : (letters (a :: b :: c :: rest)).length % 4 = (letters rest).length % 4 := by
        rw [letters]
        simp only [List.length_cons]
        omega
      unfold encode padded
      rw [hlength, letters]
      rfl
    rw [hsplit, decode, h₁, h₂, h₃, h₄]
    dsimp only
    rw [hrest, hfirst, hsecond, hthird]
    rfl

/-- And so is it without the padding that is put on again. -/
theorem decode_padded {bytes : List ℕ} (h : ∀ b ∈ bytes, b < 256) :
    decode (padded (unpadded (encode bytes))) = some bytes := by
  rw [unpadded_encode h]
  exact decode_encode h

end JobScripts.Lib.Base64
