import Mathlib.Data.List.Infix
import Mathlib.Tactic.Common

/-!
# Patterns of LIKE

The patterns of SQL's `LIKE` over code points: a percent sign stands for any text, an underscore for any character,
and a backslash takes the meaning from the character after it. `ILIKE` compares the lower case of both sides.

A text whose special characters are escaped, between percent signs, is what the texts that contain it are like
(`like_containing`), and ignoring case it is the same (`ilike_containing`).
-/

namespace JobScripts.Lib.Like

/-- A text: its code points. -/
abbrev Text := List ℕ

/-! ## Matching -/

/-- What a pattern is made of. -/
inductive Token
  | any
  | one
  | char (c : ℕ)

/-- The character that escapes. -/
def backslash : ℕ := 0x5C

/-- A percent sign, an underscore or a backslash. -/
def isSpecial (c : ℕ) : Bool := c = 0x25 || c = 0x5F || c = backslash

/-- There are three special characters. -/
theorem isSpecial_iff {c : ℕ} : isSpecial c = true ↔ c = 0x25 ∨ c = 0x5F ∨ c = 0x5C := by
  unfold isSpecial
  rw [Bool.or_eq_true, Bool.or_eq_true, decide_eq_true_iff, decide_eq_true_iff, decide_eq_true_iff, or_assoc]
  rfl

/-- What a character stands for, where it is not escaped. -/
def token (c : ℕ) : Token := if c = 0x25 then .any else if c = 0x5F then .one else .char c

/-- The tokens of a pattern; there are none where a backslash ends it. -/
def tokens : Text → Option (List Token)
  | [] => some []
  | [c] => if c = backslash then none else some [token c]
  | c :: d :: p =>
    if c = backslash then (tokens p).map (.char d :: ·) else (tokens (d :: p)).map (token c :: ·)

/-- A text is what some tokens stand for. -/
def agrees : List Token → Text → Bool
  | [], s => s.isEmpty
  | .char c :: p, s => s.head? = some c && agrees p s.tail
  | .one :: p, s => !s.isEmpty && agrees p s.tail
  | .any :: p, s => s.tails.any (agrees p)

/-- `s LIKE p`, where the pattern is one. -/
def like (s p : Text) : Option Bool := (tokens p).map fun ts => agrees ts s

/-! ## Escaping -/

/-- `t.replace(c, r)`, of a character. -/
def replace (c : ℕ) (r t : Text) : Text := t.flatMap fun d => if d = c then r else [d]

/-- A text with its backslashes, percent signs and underscores escaped, one after the other. -/
def escape (t : Text) : Text :=
  replace 0x5F [backslash, 0x5F] (replace 0x25 [backslash, 0x25] (replace backslash [backslash, backslash] t))

/-- A character, escaped if it is special. -/
def escaped (c : ℕ) : Text := if isSpecial c then [backslash, c] else [c]

/-- The pattern of the texts that contain one. -/
def containing (t : Text) : Text := 0x25 :: (escape t ++ [0x25])

/-- The three replacements escape each character once. -/
theorem escape_eq (t : Text) : escape t = t.flatMap escaped := by
  unfold escape replace escaped
  rw [List.flatMap_assoc, List.flatMap_assoc]
  refine List.flatMap_congr fun c _ => ?_
  by_cases hslash : c = backslash
  · subst hslash
    rfl
  · rw [if_neg hslash]
    by_cases hpercent : c = 0x25
    · subst hpercent
      rfl
    · by_cases hunder : c = 0x5F
      · subst hunder
        rfl
      · have hplain : isSpecial c = false := by simp [isSpecial, hslash, hpercent, hunder]
        simp [hplain, hpercent, hunder]

/-- A character that is not special stands for itself. -/
theorem token_of_plain {c : ℕ} (h : isSpecial c = false) : token c = .char c ∧ c ≠ backslash := by
  have hnot := mt isSpecial_iff.mpr (Bool.eq_false_iff.mp h)
  obtain ⟨hpercent, hrest⟩ := not_or.mp hnot
  obtain ⟨hunder, hslash⟩ := not_or.mp hrest
  refine ⟨?_, hslash⟩
  unfold token
  rw [if_neg hpercent, if_neg hunder]

/-- A character that does not escape is a token of its own. -/
theorem tokens_cons {c : ℕ} (h : c ≠ backslash) (p : Text) : tokens (c :: p) = (tokens p).map (token c :: ·) := by
  cases p with
  | nil =>
    unfold tokens
    rw [if_neg h]
    rfl
  | cons d p =>
    conv_lhs => unfold tokens
    rw [if_neg h]

/-- An escaped text stands for its characters. -/
theorem tokens_escape_append (t p : Text) : tokens (escape t ++ p) = (tokens p).map (t.map Token.char ++ ·) := by
  rw [escape_eq]
  induction t with
  | nil => exact Option.map_id'.symm
  | cons c t ih =>
    have hchar : tokens (escaped c ++ (t.flatMap escaped ++ p)) =
        (tokens (t.flatMap escaped ++ p)).map (.char c :: ·) := by
      unfold escaped
      cases hc : isSpecial c with
      | true => rfl
      | false =>
        obtain ⟨htoken, hslash⟩ := token_of_plain hc
        rw [if_neg nofun, List.singleton_append, tokens_cons hslash, htoken]
    rw [List.flatMap_cons, List.append_assoc, hchar, ih, Option.map_map]
    rfl

/-- Some characters, and then any text, are what a text begins with. -/
theorem agrees_chars (t : Text) : ∀ s, agrees (t.map Token.char ++ [.any]) s = t.isPrefixOf s := by
  induction t with
  | nil =>
    intro s
    have htails : s.tails.any (agrees []) = true :=
      List.any_eq_true.mpr ⟨[], (List.mem_tails _ _).mpr (List.nil_suffix), rfl⟩
    rw [List.isPrefixOf_nil_left]
    exact htails
  | cons c t ih =>
    intro s
    cases s with
    | nil => rfl
    | cons d s =>
      have hcons : agrees ((c :: t).map Token.char ++ [.any]) (d :: s) =
          (decide (some d = some c) && agrees (t.map Token.char ++ [.any]) s) := rfl
      rw [hcons, ih, List.isPrefixOf_cons_cons]
      congr 1
      rw [Bool.eq_iff_iff, decide_eq_true_iff, beq_iff_eq, Option.some_inj]
      exact eq_comm

/-- The texts that are like an escaped text between percent signs are those that contain it. -/
theorem like_containing (s t : Text) : like s (containing t) = some (decide (t <:+: s)) := by
  have hend : tokens [0x25] = some [.any] := rfl
  have htokens : tokens (containing t) = some (.any :: (t.map Token.char ++ [.any])) := by
    unfold containing
    rw [tokens_cons (by decide), tokens_escape_append, hend]
    rfl
  unfold like
  rw [htokens, Option.map_some]
  congr 1
  have hany : agrees (.any :: (t.map Token.char ++ [.any])) s = s.tails.any fun u => t.isPrefixOf u :=
    congrArg (List.any s.tails) (funext fun u => agrees_chars t u)
  rw [hany, Bool.eq_iff_iff, List.any_eq_true, decide_eq_true_iff, List.infix_iff_prefix_suffix]
  exact exists_congr fun u => (and_congr (List.mem_tails _ _) List.isPrefixOf_iff_prefix).trans and_comm

/-! ## Ignoring case -/

/-- The lower case of each character. The special ones have none, and are that of no other. -/
structure Lower where
  map : ℕ → Text
  special : ∀ c, isSpecial c = true → map c = [c]
  plain : ∀ c, isSpecial c = false → ∀ d ∈ map c, isSpecial d = false

variable (L : Lower)

/-- `lower(t)`: the text in lower case, character by character. -/
def Lower.lower (t : Text) : Text := t.flatMap L.map

/-- `s ILIKE p`: `LIKE` in lower case. -/
def ilike (s p : Text) : Option Bool := like (L.lower s) (L.lower p)

variable {L}

/-- A text is escaped in lower case as it is. -/
theorem lower_escape (t : Text) : L.lower (escape t) = escape (L.lower t) := by
  have hplain : ∀ u : Text, (∀ d ∈ u, isSpecial d = false) → u.flatMap escaped = u := by
    intro u hu
    calc u.flatMap escaped
        = u.flatMap fun c => [c] := List.flatMap_congr fun c hc => if_neg (by rw [hu c hc]; exact nofun)
      _ = u := List.flatMap_singleton' u
  unfold Lower.lower
  rw [escape_eq, escape_eq, List.flatMap_assoc, List.flatMap_assoc]
  refine List.flatMap_congr fun c _ => ?_
  unfold escaped
  cases hc : isSpecial c with
  | true =>
    have hslash : L.map backslash = [backslash] := L.special _ rfl
    rw [if_pos rfl, List.flatMap_cons, List.flatMap_singleton, hslash, L.special c hc, List.flatMap_singleton, hc]
    rfl
  | false => rw [if_neg nofun, List.flatMap_singleton]; exact (hplain _ (L.plain c hc)).symm

/-- Ignoring case, the texts that are like it are those that contain it. -/
theorem ilike_containing (s t : Text) :
    ilike L s (containing t) = some (decide (L.lower t <:+: L.lower s)) := by
  have hpercent : L.map 0x25 = [0x25] := L.special _ rfl
  have hcontaining : L.lower (containing t) = containing (L.lower t) := by
    unfold containing
    rw [← lower_escape]
    unfold Lower.lower
    rw [List.flatMap_cons, List.flatMap_append, List.flatMap_singleton, hpercent]
    rfl
  unfold ilike
  rw [hcontaining, like_containing]

end JobScripts.Lib.Like
