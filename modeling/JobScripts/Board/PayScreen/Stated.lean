import JobScripts.Board.PayScreen.Screen

/-!
# What a text states

The figures and the ranges of a text, read by hand and not by the patterns of the screen, and what a rejection stands
for in these words (`Says`).
-/

namespace JobScripts.Board.PayScreen

open Lib Lib.Backtracking

section Spec

variable (py : Python)

/-- What is after a space, if there is one. -/
def skipSpace : List Char → List Char
  | c :: rest => if py.engine.space c then rest else c :: rest
  | [] => []

/-- The groups of three digits at the start, each after a comma, and what is left. -/
def thousands : List Char → List Char × List Char
  | ',' :: x :: y :: z :: rest =>
    if py.engine.digit x && py.engine.digit y && py.engine.digit z then
      (',' :: x :: y :: z :: (thousands rest).1, (thousands rest).2)
    else ([], ',' :: x :: y :: z :: rest)
  | t => ([], t)

/-- The point at the start and the digits after it, and what is left. -/
def decimals : List Char → List Char × List Char
  | '.' :: rest =>
    if rest.takeWhile py.engine.digit = [] then ([], '.' :: rest)
    else ('.' :: rest.takeWhile py.engine.digit, rest.dropWhile py.engine.digit)
  | t => ([], t)

/-- What comes after the first digits of a number: no thousands after more than three. -/
def commas (t : List Char) : List Char × List Char :=
  if (t.takeWhile py.engine.digit).length ≤ 3 then thousands py (t.dropWhile py.engine.digit)
  else ([], t.dropWhile py.engine.digit)

/-- The number at the start, with or without thousands separators and decimals, and what is left. -/
def number (t : List Char) : Option (List Char × List Char) :=
  if t.takeWhile py.engine.digit = [] then none
  else
    some (t.takeWhile py.engine.digit ++ (commas py t).1 ++ (decimals py (commas py t).2).1,
      (decimals py (commas py t).2).2)

/-- What is left after a `k` at the start, where a word goes on after it or where none does. -/
def afterK (glued : Bool) : List Char → Option (List Char)
  | c :: rest => if isK c && rest.head?.any py.engine.word == glued then some rest else none
  | [] => none

/-- A figure: whether it has a dollar sign, its number, and whether a `k` follows, with a word that goes on after it;
and what is left. -/
structure Figure where
  dollar : Bool
  number : ℚ
  k : Bool
  glued : Bool
  rest : List Char

/-- The figure at the start, past its dollar sign. -/
def figureAfter (dollar : Bool) (t : List Char) : Option Figure :=
  (number py t).map fun (digits, rest) =>
    match afterK py true rest with
    | some rest => ⟨dollar, float py digits, true, true, rest⟩
    | none =>
      match afterK py false (skipSpace py rest) with
      | some rest => ⟨dollar, float py digits, true, false, rest⟩
      | none => ⟨dollar, float py digits, false, false, skipSpace py rest⟩

/-- The figure at the start. -/
def figure : List Char → Option Figure
  | '$' :: t => figureAfter py true (skipSpace py t)
  | t => figureAfter py false t

/-- What it is worth by the year. -/
def Figure.worth (f : Figure) : ℚ := annual py (if f.k then f.number * 1000 else f.number) f.rest

/-- The figures of a text that have a dollar sign. -/
def dollars (text : List Char) : List Figure := (text.tails.filterMap (figure py)).filter Figure.dollar

/-- The figures from left to right, each as long as it goes, with what is left of the text where they start. -/
def figuresFrom : ℕ → List Char → List (List Char × Figure)
  | 0, _ => []
  | fuel + 1, t =>
    match figure py t with
    | some f => (t, f) :: figuresFrom fuel f.rest
    | none => figuresFrom fuel t.tail

/-- Those of a text, with a dollar sign or without. -/
def figures (text : List Char) : List (List Char × Figure) := figuresFrom py (text.length + 1) text

/-- What is left after a dash or a `to` at the start. -/
def separated (t : List Char) : Option (List Char) :=
  match t.dropWhile py.engine.space with
  | 't' :: 'o' :: rest => some (rest.dropWhile py.engine.space)
  | c :: rest => if isDash c then some (rest.dropWhile py.engine.space) else none
  | [] => none

/-- A range: what is left of the text where its lower and its upper end start, and these two. -/
structure Range where
  fromLow : List Char
  fromHigh : List Char
  low : Figure
  high : Figure

/-- The range that starts with a figure, where one end at least has a dollar sign. Where only one has, a `k` of the
lower end is shared by an upper end that is under a thousand without. -/
def rangeOf (t : List Char) (low : Figure) : Option Range :=
  (separated py low.rest).bind fun t' =>
    (figure py t').bind fun high =>
      if low.dollar && high.dollar then some ⟨t, t', low, high⟩
      else if low.dollar || high.dollar then
        some ⟨t, t', low, { high with k := high.k || low.k && high.number < 1000 }⟩
      else none

/-- The ranges of a text. -/
def statedRanges (text : List Char) : List Range := (figures py text).filterMap fun x => rangeOf py x.1 x.2

/-- The dollar sign is on one end only. -/
def Range.oneSided (r : Range) : Bool := r.low.dollar != r.high.dollar

/-- A place stands near a range of a text, within the window that the code looks at. -/
def Range.tied (text : List Char) (r : Range) : Bool :=
  Regex.search py.engine false
    ((text.take (text.length - r.high.rest.length + 80)).drop (text.length - r.fromLow.length - 200)) PLACE

/-- The figures of a text, by the year: those with a dollar sign, and upper ends of ranges that have it on one end
only. -/
def stated (text : List Char) : List ℚ :=
  (dollars py text).map (Figure.worth py) ++
    ((statedRanges py text).filter Range.oneSided).map fun r => r.high.worth py

/-- What a rejection says of a text: all figures are under the bar, a range is yearly-scale, and none is tied to a
place. -/
structure Says (recipe : PayRecipe) (text : List Char) : Prop where
  under : ∀ v ∈ stated py text, v < BARS recipe
  yearly : ∃ r ∈ statedRanges py text, 20000 ≤ r.high.worth py
  untied : ∀ r ∈ statedRanges py text, r.tied py text = false

/-! ## What the patterns read -/

/-- A range is spelled as the patterns read it: a dollar sign on both ends, no word that goes on after a `k`, and no
other range that ends where it begins. -/
def Range.Spelled (text : List Char) (r : Range) : Prop :=
  (r.low.dollar = true ∧ r.high.dollar = true) ∧ (r.low.glued = false ∧ r.high.glued = false) ∧
    ∀ r' ∈ statedRanges py text, r'.fromHigh ≠ r.fromLow

/-- All figures and ranges of a text are spelled as the patterns read them. -/
structure Spelled (text : List Char) : Prop where
  figures : ∀ f ∈ dollars py text, f.glued = false
  ranges : ∀ r ∈ statedRanges py text, r.Spelled py text

/-- All that the patterns read is under the bar, a range is yearly-scale, and none is tied to a place. -/
def Settles (recipe : PayRecipe) (text : List Char) : Prop :=
  (∃ r ∈ ranges py text, yearlyScale py r text = true) ∧ (∀ r ∈ ranges py text, placed py r text = false) ∧
    ∀ v ∈ values py text, v < BARS recipe

/-- What the patterns do not read makes no difference: each figure and range of that kind is under the bar and not
tied to a place, and a range is yearly-scale as it is spelled. -/
structure Harmless (recipe : PayRecipe) (text : List Char) : Prop where
  glued : ∀ f ∈ dollars py text, f.glued = true → f.worth py < BARS recipe
  upper : ∀ r ∈ statedRanges py text, r.oneSided = true → r.high.worth py < BARS recipe
  yearly : ∃ r ∈ statedRanges py text, 20000 ≤ r.high.worth py
  untied : ∀ r ∈ statedRanges py text, ¬ r.Spelled py text → r.tied py text = false

end Spec

end JobScripts.Board.PayScreen
