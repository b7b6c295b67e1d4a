import Mathlib.Data.List.Basic
import Mathlib.Logic.Relation

/-!
# Regular expressions

Regular expressions with anchors, word boundaries and lookaheads, as search engines read them: whether some
part of a text matches. `Matches` says which parts do; `ends` computes them, and `search` asks for one.

What differs from engine to engine is a parameter: which characters are equal up to case, the classes, and
whether `.` matches a newline. A pattern without `.`, and every pattern on a text without a newline, matches
alike under both readings of `.` (`search_newline`).

`parse` reads the spelling of a pattern, with the letter that spells a word boundary after a backslash.
-/

namespace JobScripts.Lib

/-- The syntax of patterns. -/
inductive Regex
  /-- The empty pattern. -/
  | nil
  /-- A character, up to case. -/
  | chr (c : Char)
  /-- One of the characters, up to case. -/
  | set (cs : List Char)
  /-- `.`. -/
  | dot
  /-- `\w`. -/
  | word
  /-- `\s`. -/
  | space
  /-- `\d`. -/
  | digit
  /-- One after the other. -/
  | seq (a b : Regex)
  /-- One or the other. -/
  | alt (a b : Regex)
  /-- Any number of times. -/
  | star (a : Regex)
  /-- `^`. -/
  | bos
  /-- `$`. -/
  | eos
  /-- A word boundary. -/
  | boundary
  /-- `(?=…)`, or `(?!…)`. -/
  | ahead (positive : Bool) (a : Regex)
  deriving DecidableEq

/-- What an engine knows of characters. -/
structure Engine where
  same : Char → Char → Bool
  word : Char → Bool
  space : Char → Bool
  digit : Char → Bool

namespace Regex

/-! ## Matching -/

section Matching

variable (e : Engine) (newline : Bool) (t : List Char)

/-- The character at a position is a word character. -/
def wordAt (i : ℕ) : Bool := t[i]?.any e.word

/-- There is a word boundary at a position. -/
def boundaryAt (i : ℕ) : Bool := (i ≠ 0 && wordAt e t (i - 1)) != wordAt e t i

/-- The position is the end of the text, or that of a newline at the end. -/
def endAt (i : ℕ) : Bool := i = t.length || (i + 1 = t.length && t[i]? = some '\n')

/-- The character at a position is one that the class has. -/
def one (p : Char → Bool) (i : ℕ) : List ℕ := if t[i]?.any p then [i + 1] else []

/-- The positions that are reached from one, by a relation that goes forward, in a number of rounds. -/
def closure (f : ℕ → List ℕ) : ℕ → ℕ → List ℕ
  | 0, i => [i]
  | n + 1, i => i :: ((f i).filter fun j => i < j).flatMap (closure f n)

/-- Where the parts of the text that start at a position and match end. -/
def ends : Regex → ℕ → List ℕ
  | .nil, i => [i]
  | .chr c, i => one t (e.same c) i
  | .set cs, i => one t (fun d => cs.any fun c => e.same c d) i
  | .dot, i => one t (fun c => newline || c ≠ '\n') i
  | .word, i => one t e.word i
  | .space, i => one t e.space i
  | .digit, i => one t e.digit i
  | .seq a b, i => (ends a i).flatMap (ends b)
  | .alt a b, i => ends a i ++ ends b i
  | .star a, i => closure (ends a) t.length i
  | .bos, i => if i = 0 then [i] else []
  | .eos, i => if endAt t i then [i] else []
  | .boundary, i => if boundaryAt e t i then [i] else []
  | .ahead positive a, i => if (ends a i).isEmpty != positive then [i] else []

/-- Some part of the text matches. -/
def search (r : Regex) : Bool := (List.range (t.length + 1)).any fun i => !(ends e newline t r i).isEmpty

/-- The part of the text from one position to another matches. -/
def Matches : Regex → ℕ → ℕ → Prop
  | .nil, i, j => j = i
  | .chr c, i, j => t[i]?.any (e.same c) = true ∧ j = i + 1
  | .set cs, i, j => t[i]?.any (fun d => cs.any fun c => e.same c d) = true ∧ j = i + 1
  | .dot, i, j => t[i]?.any (fun c => newline || c ≠ '\n') = true ∧ j = i + 1
  | .word, i, j => t[i]?.any e.word = true ∧ j = i + 1
  | .space, i, j => t[i]?.any e.space = true ∧ j = i + 1
  | .digit, i, j => t[i]?.any e.digit = true ∧ j = i + 1
  | .seq a b, i, j => ∃ k, Matches a i k ∧ Matches b k j
  | .alt a b, i, j => Matches a i j ∨ Matches b i j
  | .star a, i, j => Relation.ReflTransGen (Matches a) i j
  | .bos, i, j => i = 0 ∧ j = i
  | .eos, i, j => endAt t i = true ∧ j = i
  | .boundary, i, j => boundaryAt e t i = true ∧ j = i
  | .ahead positive a, i, j => ((∃ k, Matches a i k) ↔ positive = true) ∧ j = i

variable {e newline t}

/-- One character is matched where it is. -/
theorem mem_one {p : Char → Bool} {i j : ℕ} : j ∈ one t p i ↔ t[i]?.any p = true ∧ j = i + 1 := by
  unfold one
  split
  · next h => simp [h]
  · next h => simp [h]

/-- A position is kept under a condition. -/
theorem mem_here {p : Prop} [Decidable p] {i j : ℕ} : (j ∈ if p then [i] else []) ↔ p ∧ j = i := by
  split
  · next h => simp [h]
  · next h => simp [h]

/-- A character that is there is before the end. -/
theorem lt_of_any {p : Char → Bool} {i : ℕ} (h : t[i]?.any p = true) : i < t.length := by
  rw [Option.any_eq_true] at h
  obtain ⟨c, hc, -⟩ := h
  exact (List.getElem?_eq_some_iff.mp hc).1

/-- A match goes forward, and not past the end. -/
theorem Matches.bounds : ∀ {r : Regex} {i j : ℕ}, Matches e newline t r i j → i ≤ t.length →
    i ≤ j ∧ j ≤ t.length := by
  intro r
  induction r with
  | nil =>
    rintro i j rfl hi
    exact ⟨Nat.le_refl _, hi⟩
  | chr _ | set _ | dot | word | space | digit =>
    rintro i j ⟨hany, rfl⟩ hi
    have := lt_of_any hany
    omega
  | seq a b iha ihb =>
    rintro i j ⟨k, hak, hbj⟩ hi
    obtain ⟨hik, hk⟩ := iha hak hi
    obtain ⟨hkj, hj⟩ := ihb hbj hk
    omega
  | alt a b iha ihb =>
    rintro i j (h | h) hi
    · exact iha h hi
    · exact ihb h hi
  | star a iha =>
    intro i j h hi
    change Relation.ReflTransGen _ i j at h
    induction h with
    | refl => exact ⟨Nat.le_refl _, hi⟩
    | tail _ hlast ih =>
      obtain ⟨hle, hlen⟩ := iha hlast ih.2
      omega
  | bos | eos | boundary | ahead _ _ _ =>
    rintro i j ⟨-, rfl⟩ hi
    exact ⟨Nat.le_refl _, hi⟩

/-- A closure holds what its relation reaches going forward, when there are rounds enough for the positions
that are left. -/
theorem mem_closure {f : ℕ → List ℕ} {R : ℕ → ℕ → Prop} {len : ℕ}
    (hf : ∀ i j, i ≤ len → (j ∈ f i ↔ R i j)) (hR : ∀ i j, R i j → i ≤ len → i ≤ j ∧ j ≤ len) :
    ∀ {n i j : ℕ}, i ≤ len → len ≤ n + i → (j ∈ closure f n i ↔ Relation.ReflTransGen R i j) := by
  intro n
  induction n with
  | zero =>
    intro i j hi hn
    unfold closure
    rw [List.mem_singleton]
    constructor
    · rintro rfl
      exact .refl
    · intro h
      -- At the end of the text there is nowhere to go.
      have hend : i ≤ j ∧ j ≤ len := by
        induction h with
        | refl => exact ⟨Nat.le_refl _, hi⟩
        | tail _ hlast ih =>
          obtain ⟨hle, hlen⟩ := hR _ _ hlast ih.2
          omega
      omega
  | succ n ih =>
    intro i j hi hn
    unfold closure
    rw [List.mem_cons, List.mem_flatMap]
    constructor
    · rintro (rfl | ⟨k, hk, hkj⟩)
      · exact .refl
      · rw [List.mem_filter, decide_eq_true_eq] at hk
        have hik := (hf i k hi).mp hk.1
        obtain ⟨-, hlen⟩ := hR i k hik hi
        exact .head hik ((ih hlen (by omega)).mp hkj)
    · intro h
      induction h using Relation.ReflTransGen.head_induction_on with
      | refl => exact .inl rfl
      | head hik hkj hrest =>
        next i k =>
        obtain ⟨hle, hlen⟩ := hR i k hik hi
        by_cases hlt : i < k
        · refine .inr ⟨k, List.mem_filter.mpr ⟨(hf i k hi).mpr hik, decide_eq_true hlt⟩, ?_⟩
          exact (ih hlen (by omega)).mpr hkj
        -- A round that stays where it is can be left out.
        · obtain rfl : i = k := by omega
          exact hrest hi hn

/-- `ends` computes the matches from a position of the text. -/
theorem mem_ends : ∀ {r : Regex} {i j : ℕ}, i ≤ t.length →
    (j ∈ ends e newline t r i ↔ Matches e newline t r i j) := by
  intro r
  induction r with
  | nil => exact fun _ => List.mem_singleton
  | chr _ | set _ | dot | word | space | digit => exact fun _ => mem_one
  | seq a b iha ihb =>
    intro i j hi
    unfold ends Matches
    rw [List.mem_flatMap]
    constructor
    · rintro ⟨k, hk, hkj⟩
      have hak := (iha hi).mp hk
      exact ⟨k, hak, (ihb (hak.bounds hi).2).mp hkj⟩
    · rintro ⟨k, hak, hkj⟩
      exact ⟨k, (iha hi).mpr hak, (ihb (hak.bounds hi).2).mpr hkj⟩
  | alt a b iha ihb =>
    intro i j hi
    unfold ends Matches
    rw [List.mem_append, iha hi, ihb hi]
  | star a iha =>
    intro i j hi
    exact mem_closure (fun i j hi => iha hi) (fun i j h hi => h.bounds hi) hi (by omega)
  | bos | eos | boundary =>
    intro i j hi
    exact mem_here
  | ahead positive a iha =>
    intro i j hi
    unfold ends Matches
    rw [mem_here]
    have hempty : (ends e newline t a i).isEmpty = false ↔ ∃ k, Matches e newline t a i k := by
      rw [List.isEmpty_eq_false_iff_exists_mem]
      exact exists_congr fun k => iha hi
    have hiff : ((ends e newline t a i).isEmpty != positive) = true ↔
        ((∃ k, Matches e newline t a i k) ↔ positive = true) := by
      rw [← hempty]
      cases (ends e newline t a i).isEmpty <;> cases positive <;> decide
    rw [hiff]

/-- A search finds a match where there is one. -/
theorem search_iff {r : Regex} :
    search e newline t r = true ↔ ∃ i j, i ≤ t.length ∧ Matches e newline t r i j := by
  unfold search
  rw [List.any_eq_true]
  constructor
  · rintro ⟨i, hi, hne⟩
    have hlen : i ≤ t.length := Nat.lt_succ_iff.mp (List.mem_range.mp hi)
    rw [Bool.not_eq_true', List.isEmpty_eq_false_iff_exists_mem] at hne
    obtain ⟨j, hj⟩ := hne
    exact ⟨i, j, hlen, (mem_ends hlen).mp hj⟩
  · rintro ⟨i, j, hlen, h⟩
    refine ⟨i, List.mem_range.mpr (Nat.lt_succ_of_le hlen), ?_⟩
    rw [Bool.not_eq_true', List.isEmpty_eq_false_iff_exists_mem]
    exact ⟨j, (mem_ends hlen).mpr h⟩

/-! ## The two readings of `.` -/

/-- The pattern has no `.`. -/
def dotless : Regex → Bool
  | .dot => false
  | .seq a b | .alt a b => a.dotless && b.dotless
  | .star a | .ahead _ a => a.dotless
  | _ => true

/-- Where `.` is not in the pattern, or no newline is in the text, matches are the same under both readings. -/
theorem matches_newline : ∀ {r : Regex}, r.dotless = true ∨ '\n' ∉ t →
    Matches e true t r = Matches e false t r := by
  intro r
  induction r with
  | nil | chr _ | set _ | word | space | digit | bos | eos | boundary => exact fun _ => rfl
  | dot =>
    intro h
    have hno : '\n' ∉ t := h.resolve_left Bool.false_ne_true
    funext i j
    unfold Matches
    -- The character is not a newline, so that both readings take it.
    cases hc : t[i]? with
    | none => rfl
    | some c =>
      have hne : c ≠ '\n' := by
        rintro rfl
        exact hno (List.mem_of_getElem? hc)
      simp [hne]
  | seq a b iha ihb =>
    intro h
    have hparts : (a.dotless = true ∨ '\n' ∉ t) ∧ (b.dotless = true ∨ '\n' ∉ t) := by
      rcases h with h | h
      · rw [dotless, Bool.and_eq_true] at h
        exact ⟨.inl h.1, .inl h.2⟩
      · exact ⟨.inr h, .inr h⟩
    funext i j
    unfold Matches
    rw [iha hparts.1, ihb hparts.2]
  | alt a b iha ihb =>
    intro h
    have hparts : (a.dotless = true ∨ '\n' ∉ t) ∧ (b.dotless = true ∨ '\n' ∉ t) := by
      rcases h with h | h
      · rw [dotless, Bool.and_eq_true] at h
        exact ⟨.inl h.1, .inl h.2⟩
      · exact ⟨.inr h, .inr h⟩
    funext i j
    unfold Matches
    rw [iha hparts.1, ihb hparts.2]
  | star a iha =>
    intro h
    funext i j
    unfold Matches
    rw [iha h]
  | ahead positive a iha =>
    intro h
    funext i j
    unfold Matches
    rw [iha h]

/-- So are searches. -/
theorem search_newline {r : Regex} (h : r.dotless = true ∨ '\n' ∉ t) :
    search e true t r = search e false t r := by
  rw [Bool.eq_iff_iff, search_iff, search_iff, matches_newline h]

end Matching

/-! ## Spelling -/

section Spelling

variable (boundary : Char)

/-- What a backslash and a character spell. -/
def escape (c : Char) : Option Regex :=
  if c = boundary then some .boundary
  else if c = 'w' then some .word
  else if c = 's' then some .space
  else if c = 'd' then some .digit
  else if c.isAlphanum then none
  else some (.chr c)

/-- A pattern with the repetition that stands after it. -/
def repeated (r : Regex) : List Char → Regex × List Char
  | '*' :: rest => (.star r, rest)
  | '+' :: rest => (.seq r (.star r), rest)
  | '?' :: rest => (.alt r .nil, rest)
  | rest => (r, rest)

/-- A group after its closing bracket. -/
def close (inner : Option (Regex × List Char)) (f : Regex → Regex) : Option (Regex × List Char) :=
  match inner with
  | some (r, ')' :: rest) => some (f r, rest)
  | _ => none

/-- The characters of a class up to its end. A hyphen at either end stands for itself; ranges are not read. -/
def parseSet : List Char → Option (List Char × List Char)
  | [] => none
  | ']' :: rest => some ([], rest)
  | c :: '-' :: ']' :: rest => some ([c, '-'], rest)
  | _ :: '-' :: _ => none
  | c :: rest => (parseSet rest).map fun (cs, rest) => (c :: cs, rest)

mutual

/-- Alternatives, up to a closing bracket or the end. -/
def parseAlt : ℕ → List Char → Option (Regex × List Char)
  | 0, _ => none
  | n + 1, cs =>
    (parseSeq n cs).bind fun
      | (a, '|' :: rest) => (parseAlt n rest).map fun (b, rest) => (.alt a b, rest)
      | (a, rest) => some (a, rest)

/-- Patterns one after the other, up to a bar, a closing bracket or the end. -/
def parseSeq : ℕ → List Char → Option (Regex × List Char)
  | 0, _ => none
  | n + 1, cs =>
    match cs with
    | [] => some (.nil, [])
    | '|' :: rest => some (.nil, '|' :: rest)
    | ')' :: rest => some (.nil, ')' :: rest)
    | cs =>
      (parseAtom n cs).bind fun (a, rest) =>
        let (a, rest) := repeated a rest
        (parseSeq n rest).map fun (b, rest) => (.seq a b, rest)

/-- One pattern. -/
def parseAtom : ℕ → List Char → Option (Regex × List Char)
  | 0, _ => none
  | n + 1, cs =>
    match cs with
    | '(' :: '?' :: ':' :: rest => close (parseAlt n rest) id
    | '(' :: '?' :: '!' :: rest => close (parseAlt n rest) (.ahead false)
    | '(' :: '?' :: '=' :: rest => close (parseAlt n rest) (.ahead true)
    | '[' :: rest => (parseSet rest).map fun (cs, rest) => (.set cs, rest)
    | '\\' :: c :: rest => (escape boundary c).map fun r => (r, rest)
    | '^' :: rest => some (.bos, rest)
    | '$' :: rest => some (.eos, rest)
    | '.' :: rest => some (.dot, rest)
    | c :: rest => if c ∈ ['(', ')', '*', '+', '?', '|', '\\'] then none else some (.chr c, rest)
    | [] => none

end

/-- The pattern that a text spells, if it spells one. -/
def parse (text : List Char) : Option Regex :=
  match parseAlt boundary (3 * text.length + 3) text with
  | some (r, []) => some r
  | _ => none

end Spelling

end Regex

end JobScripts.Lib
