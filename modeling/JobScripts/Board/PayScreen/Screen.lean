import Mathlib.Data.List.Defs
import JobScripts.Lib.Backtracking
import JobScripts.Lib.Decimals
import JobScripts.Lib.Regex

/-!
# Pay screens

`core/pay_screen.py`. A pay screen rejects a posting without a model where the dollar figures of its text are all
under a bar, one of them the upper end of a yearly range, and no range is tied to a place. Amounts are exact here.
-/

namespace JobScripts.Board.PayScreen

open Lib Lib.Backtracking

/-! ## The patterns -/

/-- The screens that there are, by name. -/
inductive PayRecipe
  | stated_base_under_150k_v1

/-- `[kK]`: the mark of thousands. -/
def isK (c : Char) : Bool := c = 'k' || c = 'K'

/-- `[-\u2010-\u2015]`: a hyphen or a dash. -/
def isDash (c : Char) : Bool := c = '-' || 0x2010 ≤ c.toNat && c.toNat ≤ 0x2015

/-- The characters that amounts and ranges are put together with, beside digits and spaces. -/
def isMark (c : Char) : Bool := c = '$' || c = ',' || c = '.' || c = 't' || isK c || isDash c

/-- What is asked of the characters of Python's `re`, and of what `float` makes of digits. -/
structure Python where
  /-- With `re.IGNORECASE`. -/
  engine : Engine
  /-- What a digit is worth. -/
  worth : Char → ℕ
  word_k : engine.word 'k' = true
  word_K : engine.word 'K' = true
  digit_of_mark : ∀ c, isMark c = true → engine.digit c = false
  space_of_mark : ∀ c, isMark c = true → engine.space c = false
  digit_of_space : ∀ c, engine.space c = true → engine.digit c = false

/-- A text, character by character. -/
def literal (text : String) : Regex := text.toList.foldr (fun c r => .seq (.chr c) r) .nil

/-- One after the other. -/
def inOrder (parts : List Regex) : Regex := parts.foldr .seq .nil

/-- One of them. -/
def anyOf (parts : List Regex) : Regex := parts.foldr .alt (.set [])

/-- `\s+`: one space or more. -/
def spaces : Regex := .seq .space (.star .space)

/-- `_HOURLY`: pay by the hour. -/
def HOURLY : Regex := anyOf [
  inOrder [literal "/", .star .space, literal "h", .alt (literal "ou") .nil, literal "r"],
  inOrder [literal "per", spaces, literal "hour"],
  inOrder [literal "an", spaces, literal "hour"],
  literal "hourly",
  literal "/hr"]

/-- `_PLACE`: the words that tie pay to a place. -/
def PLACE : Regex := anyOf [
  literal "based in", literal "located in", literal "candidates in", literal "residing in",
  inOrder [.boundary, literal "zone", .boundary],
  inOrder [.boundary, literal "tier", .star .space, .digit],
  inOrder [.boundary, literal "tier", spaces, .set ['a', 'b'], .boundary],
  inOrder [literal "metro", .alt (literal "politan") .nil, literal " area"],
  literal "california", literal "new york", literal "washington", literal "colorado",
  inOrder [.boundary, literal "nyc", .boundary],
  inOrder [.boundary, literal "sf", .boundary],
  literal "bay area", literal "seattle"]

section Code

variable (py : Python)

/-- `(?:\.\d+)?`: a point and digits, or nothing. -/
def fraction : Matcher Char := opt (seq (one (· = '.')) (plus (one py.engine.digit)))

/-- `,\d{3}`: a comma and three digits. -/
def thousand : Matcher Char := seq (one (· = ',')) (exactly (one py.engine.digit) 3)

/-- The first group of `_AMOUNT`. -/
def digits : Matcher Char :=
  alt (seq (times (one py.engine.digit) 1 3) (seq (plus (thousand py)) (fraction py)))
    (seq (plus (one py.engine.digit)) (fraction py))

/-- The second group. -/
def multiplier : Matcher Char := seq (one isK) (boundary py.engine.word)

/-- `_AMOUNT`, with the number of its first group. -/
def AMOUNT (n : ℕ) : Matcher Char :=
  seq (one (· = '$')) (seq (opt (one py.engine.space)) (seq (group n (digits py))
    (seq (opt (one py.engine.space)) (opt (group (n + 1) (multiplier py))))))

/-- What `_RANGE` goes on with after its lower end. -/
def upperAmount : Matcher Char :=
  seq (many (one py.engine.space)) (seq (alt (one isDash) (seq (one (· = 't')) (one (· = 'o'))))
    (seq (many (one py.engine.space)) (AMOUNT py 3)))

/-- `_RANGE`: an amount, a dash or the word to, and another amount. -/
def RANGE : Matcher Char := seq (AMOUNT py 1) (upperAmount py)

/-- `_ONE`: an amount alone. -/
def ONE : Matcher Char := AMOUNT py 1

/-! ## The screen -/

/-- The number that digits spell. -/
def decimal (s : List Char) : ℕ := s.foldl (fun n c => 10 * n + py.worth c) 0

/-- `float(s.replace(",", ""))` of digits with commas and at most one point, exactly. -/
def float (s : List Char) : ℚ :=
  let s := s.filter (· ≠ ',')
  let decimals := (s.dropWhile (· ≠ '.')).drop 1
  (decimal py (s.takeWhile (· ≠ '.') ++ decimals) : ℚ) / 10 ^ decimals.length

/-- A value by the year, with what follows the figure: a small one is by the hour where a marker of that is near. -/
def annual (value : ℚ) (following : List Char) : ℚ :=
  if value < 300 && Regex.search py.engine false (following.take 40) HOURLY then value * 2080 else value

/-- The text of a group, which `None` has not. -/
def textOf (groups : List (ℕ × List Char)) (n : ℕ) : List Char := (groups.lookup n).getD []

/-- `_yearly`, of what follows a match and its groups. The first group of an amount is part of all matches. -/
def yearlyOf (number : ℕ) (following : List Char) (groups : List (ℕ × List Char)) : ℚ :=
  let value := float py (textOf groups number)
  annual py (if textOf groups (number + 1) ≠ [] then value * 1000 else value) following

/-- `_yearly`: the pay for a year of what a group of a match says. -/
def yearly (m : Match Char) (number : ℕ) (text : List Char) : ℚ :=
  yearlyOf py number (text.drop m.stop) m.groups

/-- `_RANGE.finditer(text)`: the ranges of a text. -/
def ranges (text : List Char) : List (Match Char) := finditer (RANGE py) text

/-- `_ONE.finditer(text)`: the amounts of a text. -/
def singles (text : List Char) : List (Match Char) := finditer (ONE py) text

/-- A place stands near a range: `_PLACE.search(text[max(0, r.start() - 200) : r.end() + 80])`. -/
def placed (r : Match Char) (text : List Char) : Bool :=
  Regex.search py.engine false ((text.take (r.stop + 80)).drop (r.start - 200)) PLACE

/-- A range is yearly-scale: `_yearly(r, 3, text) >= 20_000`. -/
def yearlyScale (r : Match Char) (text : List Char) : Bool := 20000 ≤ yearly py r 3 text

/-- The values of the figures that are read. -/
def values (text : List Char) : List ℚ := (singles py text).map fun m => yearly py m 1 text

/-- What `max` raises of nothing. -/
inductive ValueError
  | empty

/-- `stated_top`: the highest pay that a text states, unless it states none for a year or ties a range to a place. -/
def stated_top (text : List Char) : Except ValueError (Option ℚ) :=
  if !(ranges py text).any (yearlyScale py · text) then .ok none
  else if (ranges py text).any (placed py · text) then .ok none
  else
    match (values py text).max? with
    | some top => .ok (some top)
    | none => .error .empty

/-- `_BARS`: the pay that a recipe asks for. -/
def BARS : PayRecipe → ℚ
  | .stated_base_under_150k_v1 => 150000

/-- `f"{value:,.0f}"`, of a value that is not negative. -/
def money (value : ℚ) : String :=
  let digits := Nat.toDigits 10 (Decimals.halfEven value).toNat
  String.ofList ([','].intercalate ((digits.reverse.toChunks 3).reverse.map List.reverse))

/-- `screen`: why a posting is left out for its pay, if the highest that it states is under the bar. -/
def screen (recipe : PayRecipe) (text : List Char) : Except ValueError (Option String) :=
  (stated_top py text).map fun top =>
    match top with
    | none => none
    | some top =>
      if BARS recipe ≤ top then none
      else some ("Stated pay tops out at $" ++ money top ++ ", under the $" ++ money (BARS recipe) ++ " base bar.")

end Code

end JobScripts.Board.PayScreen
