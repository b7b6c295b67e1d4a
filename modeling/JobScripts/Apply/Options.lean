import JobScripts.Lib.Regex
import Mathlib.Data.List.Infix
import Mathlib.Data.List.Nodup

/-!
# The option that an answer lands on

`pick_option` lands an answer on an option of a select. An answer lists alternatives with bars between them, and the
first that lands wins. One alternative lands by the strongest of a few rules that some option meets: equality; for a
yes or a no the first word, and for a no a negation; for a refusal a refusal; otherwise the start, and then whole
words. `pick_options` lands every item of an answer, and joins the options with bars again.

`options_say_the_answer` says what is landed on. `said_apart` has what the rules do not rule out: an option that
starts with yes for a no, a refusal for a no, and an option that holds a bar.
-/

namespace JobScripts.Apply.Options

open Lib

/-- A text. -/
abbrev Text := List Char

/-! ## Texts and patterns -/

/-- `s.strip()`, for the characters that it takes off. -/
def stripped (p : Char → Bool) (s : Text) : Text := ((s.dropWhile p).reverse.dropWhile p).reverse

/-- A character of `[a-z0-9]`. -/
def isWordChar (c : Char) : Bool := ('a' ≤ c && c ≤ 'z') || ('0' ≤ c && c ≤ '9')

/-- The word that a text starts with, and the words after it. -/
def splitWords : Text → Text × List Text
  | [] => ([], [])
  | c :: rest =>
    let (word, others) := splitWords rest
    if isWordChar c then (c :: word, others) else ([], if word.isEmpty then others else word :: others)

/-- The words of a text: the runs of `[a-z0-9]`, as `re.sub(r"[^a-z0-9 ]+", " ", s).split()` has them. -/
def words (s : Text) : List Text :=
  let (word, others) := splitWords s
  if word.isEmpty then others else word :: others

/-- The characters of a pattern one after the other. -/
def lit (cs : Text) : Regex := cs.foldr (fun c r => .seq (.chr c) r) .nil

/-- One of some literals. -/
def oneOf (first : Text) : List Text → Regex
  | [] => lit first
  | next :: rest => .alt (lit first) (oneOf next rest)

/-- `^(…)\b`: the text starts with one of some words, and the word ends there. -/
def firstWord (first : Text) (rest : List Text) : Regex := .seq .bos (.seq (oneOf first rest) .boundary)

/-- `YES`: the text starts with yes, y or true as a word. -/
def yesWord : Regex := firstWord ['y', 'e', 's'] [['y'], ['t', 'r', 'u', 'e']]

/-- `NO`: the text starts with no, n or false as a word. -/
def noWord : Regex := firstWord ['n', 'o'] [['n'], ['f', 'a', 'l', 's', 'e']]

/-- `DECLINED`: the words of a refusal to answer, anywhere in the text. -/
def refusal : Regex :=
  .alt (oneOf "decline".toList ["prefer not".toList, "do not wish".toList, "don't wish".toList])
    (.seq (lit "not to ".toList) (oneOf "answer".toList ["say".toList, "disclose".toList]))

/-- `NEGATED`: a word that negates, anywhere in the text. -/
def negation : Regex :=
  .seq .boundary (.seq (oneOf "not".toList ["no".toList, "never".toList, "don t".toList, "do not".toList,
    "none".toList]) .boundary)

/-- The letters that `YES`, `NO` and `DECLINED` start with. -/
def initials : List Char := ['y', 't', 'n', 'f', 'd', 'p']

/-- What is asked of Python's strings and of its patterns with `re.I`. -/
structure Letters where
  /-- `str.lower`, of Unicode. -/
  lower : Text → Text
  isSpace : Char → Bool
  ignoreCase : Engine
  space : isSpace ' ' = true
  lower_nil : lower [] = []
  /-- No space is in `[a-z0-9]`. -/
  space_word : ∀ c, isSpace c = true → isWordChar c = false
  /-- `lower` leaves spaces as they are, and what a letter becomes does not depend on those around a text. -/
  lower_strip : ∀ s, lower (stripped isSpace s) = stripped isSpace (lower s)
  /-- No character is two of the initials. -/
  same_unique : ∀ a ∈ initials, ∀ b ∈ initials, ∀ c, ignoreCase.same a c = true → ignoreCase.same b c = true → a = b
  /-- What is one of the initials has it as its lower case. -/
  same_lower : ∀ a ∈ initials, ∀ c, ignoreCase.same a c = true → ∀ s, c ∈ s → a ∈ lower s
  /-- And a text that starts with it has a lower case that starts with the initial. -/
  head_lower : ∀ a ∈ initials, ∀ c, ignoreCase.same a c = true → ∀ s, (lower (c :: s)).head? = some a

section Rules

variable (L : Letters)

/-- `s.strip()`: without the spaces at both ends. -/
def strip (s : Text) : Text := stripped L.isSpace s

/-- `normalize`: the words of a label in lower case, with one space between. -/
def normalize (label : Text) : Text := [' '].intercalate (words (L.lower label))

/-- `opt.strip().lower()`: what the option is compared as. -/
def form (opt : Text) : Text := L.lower (strip L opt)

/-- `YES.match`: the text starts with a yes. -/
def isYes (s : Text) : Bool := !(Regex.ends L.ignoreCase false s yesWord 0).isEmpty

/-- `NO.match`: the text starts with a no. -/
def isNo (s : Text) : Bool := !(Regex.ends L.ignoreCase false s noWord 0).isEmpty

/-- `DECLINED.search`: the text refuses to answer. -/
def declines (s : Text) : Bool := Regex.search L.ignoreCase false s refusal

/-- `NEGATED.search(normalize(opt))`: the option is phrased as a negation. -/
def negated (opt : Text) : Bool := Regex.search L.ignoreCase false (normalize L opt) negation

/-- A pattern without `re.I`. -/
def exactCase : Engine := { L.ignoreCase with same := fun c d => c = d }

/-- The option holds the words of the value as whole words: `words.search(normalize(opt))`. -/
def holdsWords (value opt : Text) : Bool :=
  Regex.search (exactCase L) false (normalize L opt) (.seq .boundary (.seq (lit (normalize L value)) .boundary))

/-- The option starts with the value. -/
def starts (value opt : Text) : Bool := (L.lower value).isPrefixOf (form L opt)

/-! ## Picking -/

/-- `_pick_one`: the option that one alternative lands on. Each rule is tried on all options before the next one
is. -/
def pickOne (value : Text) (options : List Text) : Option Text :=
  if normalize L value = [] then none
  else
    match options.find? fun opt => form L opt = L.lower value with
    | some opt => some opt
    | none =>
      if isYes L value || isNo L value then
        match options.find? fun opt => if isYes L value then isYes L (strip L opt) else isNo L (strip L opt) with
        | some opt => some opt
        | none => if isYes L value then none else options.find? fun opt => negated L opt && !declines L opt
      else if declines L value then options.find? fun opt => declines L opt
      else
        match options.find? fun opt => starts L value opt with
        | some opt => some opt
        | none => options.find? fun opt => holdsWords L value opt

/-- `pick_option`: the option of the first alternative that lands on one. -/
def pickOption (value : Text) (options : List Text) : Option Text :=
  if value.isEmpty || options.isEmpty then none
  else (value.splitOn '|').findSome? fun alternative => pickOne L (strip L alternative) options

/-- `" | ".join(picked)`: the options as one text, with bars between. -/
def join (picked : List Text) : Text := [' ', '|', ' '].intercalate picked

/-- The options that `pick_options` collects. -/
def collect (items options : List Text) : List Text :=
  items.foldl (fun picked item =>
    match if options.isEmpty then none else pickOne L (strip L item) options with
    | some opt => if opt ∈ picked then picked else picked ++ [opt]
    | none => picked) []

/-- `pick_options`: the options that the items land on, as one text, if there are any. -/
def pickOptions (value : Text) (options : List Text) : Option Text :=
  let joined := join (collect L (value.splitOn '|') options)
  if joined.isEmpty then none else some joined

/-! ## The rules -/

/-- The rules for an alternative, the strongest first. -/
def rules (value : Text) : List (Text → Bool) :=
  (fun opt => form L opt = L.lower value) ::
    if isYes L value then [fun opt => isYes L (strip L opt)]
    else if isNo L value then [fun opt => isNo L (strip L opt), fun opt => negated L opt && !declines L opt]
    else if declines L value then [fun opt => declines L opt]
    else [fun opt => starts L value opt, fun opt => holdsWords L value opt]

variable {L} {value opt : Text} {options : List Text}

/-- An alternative lands on the first option of the strongest rule that lands. -/
theorem pickOne_eq (hword : normalize L value ≠ []) :
    pickOne L value options = (rules L value).findSome? fun rule => options.find? rule := by
  unfold pickOne rules
  rw [if_neg hword, List.findSome?_cons]
  cases options.find? fun opt => form L opt = L.lower value with
  | some opt => rfl
  | none =>
    cases hyes : isYes L value with
    | true =>
      simp only [Bool.true_or, if_true, List.findSome?_cons, List.findSome?_nil]
      cases options.find? fun opt => isYes L (strip L opt) <;> rfl
    | false =>
      cases hno : isNo L value with
      | true =>
        simp only [Bool.or_true, if_true, Bool.false_eq_true, if_false, List.findSome?_cons, List.findSome?_nil]
        cases options.find? fun opt => isNo L (strip L opt) with
        | some opt => rfl
        | none => cases options.find? fun opt => negated L opt && !declines L opt <;> rfl
      | false =>
        simp only [Bool.or_false, Bool.false_eq_true, if_false]
        cases declines L value with
        | true =>
          simp only [if_true, List.findSome?_cons, List.findSome?_nil]
          cases options.find? fun opt => declines L opt <;> rfl
        | false =>
          simp only [Bool.false_eq_true, if_false, List.findSome?_cons, List.findSome?_nil]
          cases options.find? fun opt => starts L value opt with
          | some opt => rfl
          | none => cases options.find? fun opt => holdsWords L value opt <;> rfl

/-! ## What the patterns match -/

/-- A literal is matched by a text that starts with its first letter. -/
theorem initial_of_matches {e : Engine} {s : Text} {a : Char} {cs : Text} {i j : ℕ}
    (h : Regex.Matches e false s (lit (a :: cs)) i j) : ∃ c, s[i]? = some c ∧ e.same a c = true := by
  obtain ⟨k, ⟨hany, -⟩, -⟩ := h
  exact (Option.any_eq_true _ _).mp hany

/-- One of some literals is matched where one of them is. -/
theorem matches_oneOf {e : Engine} {s : Text} {i j : ℕ} : ∀ {first : Text} {rest : List Text},
    Regex.Matches e false s (oneOf first rest) i j → ∃ w ∈ first :: rest, Regex.Matches e false s (lit w) i j := by
  intro first rest
  induction rest generalizing first with
  | nil => exact fun h => ⟨first, List.mem_singleton_self first, h⟩
  | cons next rest ih =>
    rintro (h | h)
    · exact ⟨first, List.mem_cons_self, h⟩
    · obtain ⟨w, hw, h⟩ := ih h
      exact ⟨w, List.mem_cons_of_mem _ hw, h⟩

/-- So a text that one of some literals matches has one of their first letters there. -/
theorem initial_of_oneOf {e : Engine} {s : Text} {i j : ℕ} {first : Text} {rest : List Text} {as : List Char}
    (hinitials : ∀ w ∈ first :: rest, w.head?.any (· ∈ as) = true)
    (h : Regex.Matches e false s (oneOf first rest) i j) : ∃ c, s[i]? = some c ∧ ∃ a ∈ as, e.same a c = true := by
  obtain ⟨w, hw, hmatch⟩ := matches_oneOf h
  have hhead := hinitials w hw
  cases w with
  | nil => exact absurd hhead Bool.false_ne_true
  | cons b cs =>
    obtain ⟨c, hc, hsame⟩ := initial_of_matches hmatch
    exact ⟨c, hc, b, of_decide_eq_true hhead, hsame⟩

/-- A text that starts with one of some words starts with one of their first letters. -/
theorem initial_of_firstWord {s : Text} {first : Text} {rest : List Text} {as : List Char}
    (hinitials : ∀ w ∈ first :: rest, w.head?.any (· ∈ as) = true)
    (h : (!(Regex.ends L.ignoreCase false s (firstWord first rest) 0).isEmpty) = true) :
    ∃ c, s[0]? = some c ∧ ∃ a ∈ as, L.ignoreCase.same a c = true := by
  rw [Bool.not_eq_true', List.isEmpty_eq_false_iff_exists_mem] at h
  obtain ⟨j, hj⟩ := h
  obtain ⟨k, ⟨-, rfl⟩, l, hword, -⟩ := (Regex.mem_ends (Nat.zero_le _)).mp hj
  exact initial_of_oneOf hinitials hword

/-- A yes starts with a `y` or a `t`. -/
theorem initial_of_isYes {s : Text} (h : isYes L s = true) :
    ∃ c, s[0]? = some c ∧ ∃ a ∈ ['y', 't'], L.ignoreCase.same a c = true :=
  initial_of_firstWord (by decide) h

/-- A no starts with an `n` or an `f`. -/
theorem initial_of_isNo {s : Text} (h : isNo L s = true) :
    ∃ c, s[0]? = some c ∧ ∃ a ∈ ['n', 'f'], L.ignoreCase.same a c = true :=
  initial_of_firstWord (by decide) h

/-- No text starts with a yes and with a no. -/
theorem isNo_of_isYes {s : Text} (h : isYes L s = true) : isNo L s = false := by
  rw [Bool.eq_false_iff]
  intro hno
  obtain ⟨c, hc, a, ha, hsame⟩ := initial_of_isYes h
  obtain ⟨c', hc', b, hb, hsame'⟩ := initial_of_isNo hno
  obtain rfl : c = c' := Option.some_inj.mp (hc.symm.trans hc')
  have hyes : ['y', 't'] ⊆ initials := by decide
  have hnos : ['n', 'f'] ⊆ initials := by decide
  obtain rfl := L.same_unique a (hyes ha) b (hnos hb) c hsame hsame'
  rcases List.mem_pair.mp ha with rfl | rfl
  · exact absurd hb (by decide)
  · exact absurd hb (by decide)

/-- The lower case of a text that starts with a word starts with the initial of that. -/
theorem head_lower_of_initial {s : Text} {as : List Char} (has : as ⊆ initials)
    (h : ∃ c, s[0]? = some c ∧ ∃ a ∈ as, L.ignoreCase.same a c = true) : ∃ a ∈ as, (L.lower s).head? = some a := by
  obtain ⟨c, hc, a, ha, hsame⟩ := h
  cases s with
  | nil => exact absurd hc nofun
  | cons d s =>
    obtain rfl : d = c := Option.some_inj.mp hc
    exact ⟨a, ha, L.head_lower a (has ha) d hsame s⟩

/-- A yes and a no differ in lower case too. -/
theorem lower_ne_of_isYes {s t : Text} (hs : isYes L s = true) (ht : isNo L t = true) : L.lower s ≠ L.lower t := by
  intro heq
  obtain ⟨a, ha, hhead⟩ := head_lower_of_initial (by decide) (initial_of_isYes hs)
  obtain ⟨b, hb, hhead'⟩ := head_lower_of_initial (by decide) (initial_of_isNo ht)
  obtain rfl : a = b := Option.some_inj.mp (hhead.symm.trans (heq ▸ hhead'))
  rcases List.mem_pair.mp ha with rfl | rfl
  · exact absurd hb (by decide)
  · exact absurd hb (by decide)

/-- A refusal holds one of the initials. -/
theorem initial_of_declines {s : Text} (h : declines L s = true) :
    ∃ c ∈ s, ∃ a ∈ initials, L.ignoreCase.same a c = true := by
  obtain ⟨i, j, -, hmatch⟩ := Regex.search_iff.mp h
  have hfound : ∃ c, s[i]? = some c ∧ ∃ a ∈ initials, L.ignoreCase.same a c = true := by
    rcases hmatch with hmatch | ⟨k, hmatch, -⟩
    · exact initial_of_oneOf (by decide) hmatch
    · obtain ⟨c, hc, hsame⟩ := initial_of_matches hmatch
      exact ⟨c, hc, 'n', by decide, hsame⟩
  obtain ⟨c, hc, hinitial⟩ := hfound
  exact ⟨c, List.mem_of_getElem? hc, hinitial⟩

/-! ## What normalizing keeps -/

/-- What is no word at the start of a text makes no difference to its words. -/
theorem words_cons {c : Char} (hc : isWordChar c = false) (s : Text) : words (c :: s) = words s := by
  unfold words
  rw [splitWords]
  simp [hc]

/-- Nor at its end. -/
theorem words_concat {c : Char} (hc : isWordChar c = false) (s : Text) : words (s ++ [c]) = words s := by
  have hsplit : splitWords (s ++ [c]) = splitWords s := by
    induction s with
    | nil => simp [splitWords, hc]
    | cons d s ih => rw [List.cons_append, splitWords, splitWords, ih]
  unfold words
  rw [hsplit]

/-- Stripping takes no words off. -/
theorem words_stripped {p : Char → Bool} (hp : ∀ c, p c = true → isWordChar c = false) (s : Text) :
    words (stripped p s) = words s := by
  have hstart : ∀ s : Text, words (s.dropWhile p) = words s := by
    intro s
    induction s with
    | nil => rfl
    | cons c s ih =>
      rw [List.dropWhile_cons]
      split
      · next hc => rw [ih, words_cons (hp c hc)]
      · rfl
  have hend : ∀ s : Text, words (s.reverse.dropWhile p).reverse = words s := by
    intro s
    induction s using List.reverseRecOn with
    | nil => rfl
    | append_singleton s c ih =>
      rw [List.reverse_concat, List.dropWhile_cons]
      split
      · next hc => rw [ih, words_concat (hp c hc)]
      · rw [List.reverse_cons, List.reverse_reverse]
  unfold stripped
  rw [hend, hstart]

/-- What normalizing makes of an option can be read off its form. -/
theorem normalize_eq (opt : Text) : normalize L opt = [' '].intercalate (words (form L opt)) := by
  unfold normalize form strip
  rw [L.lower_strip, words_stripped L.space_word]

/-- So options of one form are normalized alike, and so is the stripped option. -/
theorem normalize_strip (opt : Text) : normalize L (strip L opt) = normalize L opt := (normalize_eq opt).symm

/-- No word is empty. -/
theorem nil_notMem_words (s : Text) : [] ∉ words s := by
  have hsplit : [] ∉ (splitWords s).2 := by
    induction s with
    | nil => exact List.not_mem_nil
    | cons c s ih =>
      rw [splitWords]
      dsimp only
      split
      · exact ih
      · dsimp only
        split
        · exact ih
        · next hword =>
          rw [List.mem_cons, not_or]
          exact ⟨fun heq => hword (by rw [← heq]; rfl), ih⟩
  unfold words
  dsimp only
  split
  · exact hsplit
  · next hword =>
    rw [List.mem_cons, not_or]
    exact ⟨fun heq => hword (by rw [← heq]; rfl), hsplit⟩

/-- A text with a character of a word has words. -/
theorem words_ne_nil {s : Text} {c : Char} (hmem : c ∈ s) (hc : isWordChar c = true) : words s ≠ [] := by
  have hsplit : (splitWords s).1 ≠ [] ∨ (splitWords s).2 ≠ [] := by
    induction s with
    | nil => exact absurd hmem List.not_mem_nil
    | cons d s ih =>
      rw [splitWords]
      dsimp only
      split
      · exact .inl (List.cons_ne_nil _ _)
      · next hd =>
        have hne : c ≠ d := by
          rintro rfl
          exact hd hc
        refine .inr ?_
        dsimp only
        split
        · next hempty =>
          exact (ih ((List.mem_cons.mp hmem).resolve_left hne)).resolve_left
            (fun hno => hno (List.isEmpty_iff.mp hempty))
        · exact List.cons_ne_nil _ _
  unfold words
  dsimp only
  split
  · next hempty => exact hsplit.resolve_left fun hno => hno (List.isEmpty_iff.mp hempty)
  · exact List.cons_ne_nil _ _

/-- Such a text normalizes to something. -/
theorem normalize_ne_nil {s : Text} {a : Char} (hmem : a ∈ L.lower s) (ha : isWordChar a = true) :
    normalize L s ≠ [] := by
  unfold normalize
  have hne := words_ne_nil hmem ha
  have hnil := nil_notMem_words (L.lower s)
  revert hne hnil
  cases words (L.lower s) with
  | nil => exact fun hne => absurd rfl hne
  | cons w ws =>
    intro _ hnil
    have hw : w ≠ [] := fun heq => hnil (heq ▸ List.mem_cons_self)
    cases ws with
    | nil => simpa using hw
    | cons _ _ => simp [hw]

/-- One of the initials is enough. -/
theorem normalize_ne_nil_of_initial {s : Text} {a c : Char} (ha : a ∈ initials) (hc : c ∈ s)
    (hsame : L.ignoreCase.same a c = true) : normalize L s ≠ [] := by
  have hword : ∀ a ∈ initials, isWordChar a = true := List.all_eq_true.mp (by decide)
  exact normalize_ne_nil (L.same_lower a ha c hsame s hc) (hword a ha)

/-- A text that normalizes to something has a character of a word in lower case. -/
theorem exists_word_of_normalize {s : Text} (h : normalize L s ≠ []) : ∃ a ∈ L.lower s, isWordChar a = true := by
  by_contra hno
  have hwords : ∀ t : Text, (∀ a ∈ t, ¬ isWordChar a = true) → words t = [] := by
    intro t
    induction t with
    | nil => exact fun _ => rfl
    | cons c t ih =>
      intro hall
      rw [words_cons (Bool.eq_false_iff.mpr (hall c List.mem_cons_self))]
      exact ih fun a ha => hall a (List.mem_cons_of_mem _ ha)
  refine h ?_
  unfold normalize
  rw [hwords _ fun a ha hword => hno ⟨a, ha, hword⟩]
  rfl

/-! ## Landing -/

/-- What a rule takes normalizes to something. -/
theorem normalize_of_rule (hword : normalize L value ≠ []) {rule : Text → Bool} (hrule : rule ∈ rules L value)
    (h : rule opt = true) : normalize L opt ≠ [] := by
  have hinitial : ∀ {s : Text} {as : List Char}, as ⊆ initials →
      (∃ c, s[0]? = some c ∧ ∃ a ∈ as, L.ignoreCase.same a c = true) → normalize L s ≠ [] := by
    rintro s as hsub ⟨c, hc, a, ha, hsame⟩
    exact normalize_ne_nil_of_initial (hsub ha) (List.mem_of_getElem? hc) hsame
  have hequal : form L opt = L.lower value → normalize L opt ≠ [] := by
    intro heq
    rw [normalize_eq, heq]
    exact hword
  have hyes : isYes L (strip L opt) = true → normalize L opt ≠ [] := fun hopt =>
    normalize_strip (L := L) opt ▸ hinitial (by decide) (initial_of_isYes hopt)
  have hno : isNo L (strip L opt) = true → normalize L opt ≠ [] := fun hopt =>
    normalize_strip (L := L) opt ▸ hinitial (by decide) (initial_of_isNo hopt)
  have hnegated : negated L opt = true → normalize L opt ≠ [] := by
    intro hopt
    obtain ⟨i, j, -, k, -, l, hmatch, -⟩ := Regex.search_iff.mp hopt
    obtain ⟨c, hc, -⟩ : ∃ c, (normalize L opt)[k]? = some c ∧ ∃ a ∈ ['n', 'd'], L.ignoreCase.same a c = true :=
      initial_of_oneOf (by decide) hmatch
    exact List.ne_nil_of_mem (List.mem_of_getElem? hc)
  have hdeclines : declines L opt = true → normalize L opt ≠ [] := by
    intro hopt
    obtain ⟨c, hc, a, ha, hsame⟩ := initial_of_declines hopt
    exact normalize_ne_nil_of_initial ha hc hsame
  have hstarts : starts L value opt = true → normalize L opt ≠ [] := by
    intro hopt
    obtain ⟨a, ha, haword⟩ := exists_word_of_normalize hword
    rw [← normalize_strip]
    exact normalize_ne_nil (List.IsPrefix.mem ha (List.isPrefixOf_iff_prefix.mp hopt)) haword
  have hholds : holdsWords L value opt = true → normalize L opt ≠ [] := by
    intro hopt
    obtain ⟨i, j, -, k, -, l, hmatch, -⟩ := Regex.search_iff.mp hopt
    cases hvalue : normalize L value with
    | nil => exact absurd hvalue hword
    | cons a cs =>
      rw [hvalue] at hmatch
      obtain ⟨c, hc, -⟩ := initial_of_matches hmatch
      exact List.ne_nil_of_mem (List.mem_of_getElem? hc)
  unfold rules at hrule
  rcases List.mem_cons.mp hrule with rfl | hrule
  · exact hequal (of_decide_eq_true h)
  · split at hrule
    · obtain rfl := List.mem_singleton.mp hrule
      exact hyes h
    · split at hrule
      · rcases List.mem_cons.mp hrule with rfl | hrule
        · exact hno h
        · obtain rfl := List.mem_singleton.mp hrule
          exact hnegated ((Bool.and_eq_true _ _).mp h).1
      · split at hrule
        · obtain rfl := List.mem_singleton.mp hrule
          exact hdeclines h
        · rcases List.mem_cons.mp hrule with rfl | hrule
          · exact hstarts h
          · obtain rfl := List.mem_singleton.mp hrule
            exact hholds h

/-- Options of one form are alike to the patterns. In ASCII all are; a capital I with a dot is an `i` to `re.I`, but
not in lower case. -/
def Alike (L : Letters) (options : List Text) : Prop :=
  ∀ opt ∈ options, ∀ opt' ∈ options, form L opt = form L opt' →
    isYes L (strip L opt) = isYes L (strip L opt') ∧ isNo L (strip L opt) = isNo L (strip L opt') ∧
      declines L opt = declines L opt'

/-- They are so to the rules. -/
theorem Alike.rule (h : Alike L options) {rule : Text → Bool} (hrule : rule ∈ rules L value) {opt' : Text}
    (hopt : opt ∈ options) (hopt' : opt' ∈ options) (hform : form L opt = form L opt') : rule opt = rule opt' := by
  obtain ⟨hyes, hno, hdeclines⟩ := h opt hopt opt' hopt' hform
  have hnormalize : normalize L opt = normalize L opt' := by rw [normalize_eq, normalize_eq, hform]
  have hnegated : negated L opt = negated L opt' := by rw [negated, hnormalize, negated]
  have hstarts : starts L value opt = starts L value opt' := by rw [starts, hform, starts]
  have hholds : holdsWords L value opt = holdsWords L value opt' := by rw [holdsWords, hnormalize, holdsWords]
  unfold rules at hrule
  rcases List.mem_cons.mp hrule with rfl | hrule
  · simp only [hform]
  · split at hrule
    · obtain rfl := List.mem_singleton.mp hrule
      exact hyes
    · split at hrule
      · rcases List.mem_cons.mp hrule with rfl | hrule
        · exact hno
        · obtain rfl := List.mem_singleton.mp hrule
          simp only [hnegated, hdeclines]
      · split at hrule
        · obtain rfl := List.mem_singleton.mp hrule
          exact hdeclines
        · rcases List.mem_cons.mp hrule with rfl | hrule
          · exact hstarts
          · obtain rfl := List.mem_singleton.mp hrule
            exact hholds

/-- An alternative that lands does so by a rule, on the first option that meets it, and no stronger one lands. -/
theorem exists_rule (h : pickOne L value options = some opt) : normalize L value ≠ [] ∧
    ∃ stronger rule weaker, rules L value = stronger ++ rule :: weaker ∧
      (∀ r ∈ stronger, ∀ o ∈ options, r o = false) ∧ options.find? rule = some opt := by
  have hword : normalize L value ≠ [] := by
    intro hnil
    rw [pickOne, if_pos hnil] at h
    exact absurd h nofun
  rw [pickOne_eq hword, List.findSome?_eq_some_iff] at h
  obtain ⟨stronger, rule, weaker, hrules, hfound, hnone⟩ := h
  refine ⟨hword, stronger, rule, weaker, hrules, fun r hr o ho => ?_, hfound⟩
  exact Bool.eq_false_iff.mpr (List.find?_eq_none.mp (hnone r hr) o ho)

/-- An option that was landed on is landed on again by its own text. -/
theorem pickOne_again (halike : Alike L options) (h : pickOne L value options = some opt) :
    pickOne L (strip L opt) options = some opt := by
  obtain ⟨hword, stronger, rule, weaker, hrules, -, hfound⟩ := exists_rule h
  have hrule : rule ∈ rules L value := hrules ▸ List.mem_append_right _ List.mem_cons_self
  have htaken : rule opt = true := List.find?_some hfound
  have hmem : opt ∈ options := List.mem_of_find?_eq_some hfound
  have hopt : normalize L (strip L opt) ≠ [] := by
    rw [normalize_strip]
    exact normalize_of_rule hword hrule htaken
  have hsame : (options.find? fun o => form L o = L.lower (strip L opt)) = some opt := by
    -- The options before it are not taken by the rule, so that none has its form.
    obtain ⟨-, before, after, heq, hbefore⟩ := List.find?_eq_some_iff_append.mp hfound
    refine List.find?_eq_some_iff_append.mpr ⟨decide_eq_true rfl, before, after, heq, fun o ho => ?_⟩
    rw [Bool.not_eq_true', decide_eq_false_iff_not]
    intro hform
    have hmem' : o ∈ options := heq ▸ List.mem_append_left _ ho
    have hno := hbefore o ho
    rw [halike.rule hrule hmem' hmem hform, htaken] at hno
    exact absurd hno nofun
  unfold pickOne
  rw [if_neg hopt, hsame]

/-! ## Several items -/

/-- Where there are no options, nothing lands. -/
theorem pickOne_nil (value : Text) : pickOne L value [] = none := by
  cases h : pickOne L value [] with
  | none => rfl
  | some opt =>
    obtain ⟨-, _, _, _, _, _, hfound⟩ := exists_rule h
    exact absurd hfound nofun

/-- The options of several items are their landings, each where it comes first. -/
theorem collect_eq (items options : List Text) :
    collect L items options = (items.filterMap fun item => pickOne L (strip L item) options).eraseDups := by
  have hpick : ∀ item, (if options.isEmpty then none else pickOne L (strip L item) options) =
      pickOne L (strip L item) options := by
    intro item
    cases options with
    | nil => exact (pickOne_nil _).symm
    | cons _ _ => rfl
  unfold collect
  simp only [hpick]
  induction items using List.reverseRecOn with
  | nil => rfl
  | append_singleton items item ih =>
    rw [List.foldl_concat, ih, List.filterMap_append, List.eraseDups_append]
    cases hitem : pickOne L (strip L item) options with
    | none => simp [hitem]
    | some opt =>
      have hone : [item].filterMap (fun item => pickOne L (strip L item) options) = [opt] := by simp [hitem]
      rw [hone]
      dsimp only
      by_cases hmem : opt ∈ items.filterMap fun item => pickOne L (strip L item) options
      · rw [if_pos (List.mem_eraseDups.mpr hmem)]
        have hgone : [opt].removeAll (items.filterMap fun item => pickOne L (strip L item) options) = [] := by
          unfold List.removeAll
          rw [List.filter_cons_of_neg (by simpa using hmem), List.filter_nil]
        rw [hgone, List.eraseDups_nil, List.append_nil]
      · rw [if_neg fun h => hmem (List.mem_eraseDups.mp h)]
        have hkept : [opt].removeAll (items.filterMap fun item => pickOne L (strip L item) options) = [opt] := by
          unfold List.removeAll
          rw [List.filter_cons_of_pos (by simpa using hmem), List.filter_nil]
        rw [hkept]
        rfl

/-- A space before a text is stripped. -/
theorem strip_space (s : Text) : strip L (' ' :: s) = strip L s := by
  unfold strip stripped
  rw [List.dropWhile_cons_of_pos L.space]

/-- So is one after it. -/
theorem strip_concat_space (s : Text) : strip L (s ++ [' ']) = strip L s := by
  unfold strip stripped
  rw [List.dropWhile_append]
  split
  · next hempty =>
    rw [List.isEmpty_iff.mp hempty, List.dropWhile_cons_of_pos L.space]
    rfl
  · rw [List.reverse_concat, List.dropWhile_cons_of_pos L.space]

/-- What is joined comes apart again at the bars, as long as no part holds one. -/
theorem map_strip_splitOn_join : ∀ {picked : List Text}, picked ≠ [] → (∀ opt ∈ picked, '|' ∉ opt) →
    ∀ spaces : Text, '|' ∉ spaces → (∀ s, strip L (spaces ++ s) = strip L s) →
      ((spaces ++ join picked).splitOn '|').map (strip L) = picked.map (strip L) := by
  intro picked
  induction picked with
  | nil => exact fun hne => absurd rfl hne
  | cons opt picked ih =>
    intro _ hbar spaces hspaces hstrip
    have hopt : '|' ∉ spaces ++ opt := by
      rw [List.mem_append, not_or]
      exact ⟨hspaces, hbar opt List.mem_cons_self⟩
    cases picked with
    | nil =>
      have hjoin : join [opt] = opt := by simp [join]
      rw [hjoin, List.splitOn_eq_singleton hopt, List.map_singleton, List.map_singleton, hstrip]
    | cons next picked =>
      have hjoin : spaces ++ join (opt :: next :: picked) =
          (spaces ++ opt ++ [' ']) ++ '|' :: ([' '] ++ join (next :: picked)) := by
        unfold join
        rw [List.intercalate_cons_cons]
        simp
      have hfirst : '|' ∉ spaces ++ opt ++ [' '] := by
        rw [List.mem_append, not_or]
        exact ⟨hopt, by decide⟩
      have hrest := ih (List.cons_ne_nil _ _) (fun o ho => hbar o (List.mem_cons_of_mem _ ho)) [' '] (by decide)
        strip_space
      rw [hjoin, List.splitOn_append_cons_self_of_not_mem hfirst, List.map_cons, hrest, strip_concat_space, hstrip,
        List.map_cons (a := opt)]

/-! ## What is landed on -/

/-- An option is equal to an alternative, up to case and the spaces around it. -/
def Equals (L : Letters) (value opt : Text) : Prop := form L opt = L.lower value

/-- An option names an alternative: it is equal to it, starts with it, or holds its words as whole words. -/
def Names (L : Letters) (value opt : Text) : Prop :=
  Equals L value opt ∨ starts L value opt = true ∨ holdsWords L value opt = true

/-- An alternative lands on an option. -/
structure Lands (L : Letters) (value : Text) (options : List Text) (opt : Text) : Prop where
  /-- The option is one of those there are. -/
  mem : opt ∈ options
  /-- It is the first in their order that the strongest rule takes that takes any. -/
  first : ∃ stronger rule weaker, rules L value = stronger ++ rule :: weaker ∧
    (∀ r ∈ stronger, ∀ o ∈ options, r o = false) ∧ options.find? rule = some opt
  /-- For a yes it is equal or starts with a yes, and does not start with a no. -/
  yes : isYes L value = true →
    (Equals L value opt ∨ isYes L (strip L opt) = true) ∧ isNo L (strip L opt) = false
  /-- For a no it is equal or starts with a no, and does not start with a yes; or it is a negation that is no
  refusal. -/
  no : isNo L value = true →
    (Equals L value opt ∨ isNo L (strip L opt) = true) ∧ isYes L (strip L opt) = false ∨
      negated L opt = true ∧ declines L opt = false
  /-- A refusal is for an alternative that refuses, or that it names, or that starts with the same yes or no. -/
  refusal : declines L opt = true → declines L value = true ∨ Names L value opt ∨
    isYes L value = true ∧ isYes L (strip L opt) = true ∨ isNo L value = true ∧ isNo L (strip L opt) = true
  /-- For any other alternative it names it. -/
  other : isYes L value = false → isNo L value = false → declines L value = false → Names L value opt

/-- What `_pick_one` returns is landed on. -/
theorem lands_pickOne (h : pickOne L value options = some opt) : Lands L value options opt := by
  obtain ⟨-, stronger, rule, weaker, hrules, hnone, hfound⟩ := exists_rule h
  have hrule : rule ∈ rules L value := hrules ▸ List.mem_append_right _ List.mem_cons_self
  have htaken : rule opt = true := List.find?_some hfound
  -- The rules one by one.
  have hcases : Equals L value opt ∨ isYes L value = true ∧ isYes L (strip L opt) = true ∨
      isNo L value = true ∧ (isNo L (strip L opt) = true ∨ negated L opt = true ∧ declines L opt = false) ∨
      isYes L value = false ∧ isNo L value = false ∧
        (declines L value = true ∨ starts L value opt = true ∨ holdsWords L value opt = true) := by
    unfold rules at hrule
    rcases List.mem_cons.mp hrule with rfl | hrule
    · have heq : form L opt = L.lower value := of_decide_eq_true htaken
      exact .inl heq
    · split at hrule
      · next hyes =>
        obtain rfl := List.mem_singleton.mp hrule
        exact .inr (.inl ⟨hyes, htaken⟩)
      · next hyes =>
        split at hrule
        · next hno =>
          rcases List.mem_cons.mp hrule with rfl | hrule
          · exact .inr (.inr (.inl ⟨hno, .inl htaken⟩))
          · obtain rfl := List.mem_singleton.mp hrule
            rw [Bool.and_eq_true, Bool.not_eq_true'] at htaken
            exact .inr (.inr (.inl ⟨hno, .inr htaken⟩))
        · next hno =>
          refine .inr (.inr (.inr ⟨Bool.eq_false_iff.mpr hyes, Bool.eq_false_iff.mpr hno, ?_⟩))
          split at hrule
          · next hdeclines => exact .inl hdeclines
          · rcases List.mem_cons.mp hrule with rfl | hrule
            · exact .inr (.inl htaken)
            · obtain rfl := List.mem_singleton.mp hrule
              exact .inr (.inr htaken)
  have hdisjoint : ∀ {s}, isNo L s = true → isYes L s = false := fun {s} hno =>
    Bool.eq_false_iff.mpr fun hyes => absurd (hno.symm.trans (isNo_of_isYes hyes)) nofun
  refine ⟨List.mem_of_find?_eq_some hfound, ⟨stronger, rule, weaker, hrules, hnone, hfound⟩, fun hyes => ?_,
    fun hno => ?_, fun hdeclines => ?_, fun hyes hno hdeclines => ?_⟩
  · rcases hcases with heq | ⟨-, hopt⟩ | ⟨hno, -⟩ | ⟨hno, -⟩
    · exact ⟨.inl heq, Bool.eq_false_iff.mpr fun hno => lower_ne_of_isYes hyes hno heq.symm⟩
    · exact ⟨.inr hopt, isNo_of_isYes hopt⟩
    · exact absurd (hno.symm.trans (isNo_of_isYes hyes)) nofun
    · exact absurd (hyes.symm.trans hno) nofun
  · rcases hcases with heq | ⟨hyes, -⟩ | ⟨-, hopt | hopt⟩ | ⟨-, hno', -⟩
    · exact .inl ⟨.inl heq, Bool.eq_false_iff.mpr fun hyes => lower_ne_of_isYes hyes hno heq⟩
    · exact absurd (hyes.symm.trans (hdisjoint hno)) nofun
    · exact .inl ⟨.inr hopt, hdisjoint hopt⟩
    · exact .inr hopt
    · exact absurd (hno.symm.trans hno') nofun
  · rcases hcases with heq | hyes | ⟨hno, hopt | ⟨-, hopt⟩⟩ | ⟨-, -, hvalue | hnames⟩
    · exact .inr (.inl (.inl heq))
    · exact .inr (.inr (.inl hyes))
    · exact .inr (.inr (.inr ⟨hno, hopt⟩))
    · exact absurd (hdeclines.symm.trans hopt) nofun
    · exact .inl hvalue
    · exact .inr (.inl (.inr hnames))
  · rcases hcases with heq | ⟨hyes', -⟩ | ⟨hno', -⟩ | ⟨-, -, hvalue | hnames⟩
    · exact .inl heq
    · exact absurd (hyes'.symm.trans hyes) nofun
    · exact absurd (hno'.symm.trans hno) nofun
    · exact absurd (hvalue.symm.trans hdeclines) nofun
    · exact .inr hnames

/-- An alternative that lands nowhere is punctuation alone, or no rule takes an option for it. -/
def Nowhere (L : Letters) (value : Text) (options : List Text) : Prop :=
  normalize L value = [] ∨ ∀ rule ∈ rules L value, ∀ opt ∈ options, rule opt = false

/-- `_pick_one` returns nothing for what lands nowhere. -/
theorem pickOne_eq_none_iff : pickOne L value options = none ↔ Nowhere L value options := by
  unfold Nowhere
  rcases eq_or_ne (normalize L value) [] with hnil | hword
  · exact iff_of_true (if_pos hnil) (.inl hnil)
  · rw [pickOne_eq hword, List.findSome?_eq_none_iff, or_iff_right hword]
    refine forall₂_congr fun rule _ => ?_
    rw [List.find?_eq_none]
    exact forall₂_congr fun opt _ => by rw [Bool.not_eq_true]

/-- `pick_option` returns nothing where no alternative lands. -/
theorem pickOption_eq_none_iff : pickOption L value options = none ↔
    ∀ a ∈ value.splitOn '|', Nowhere L (strip L a) options := by
  have hnone : ((value.splitOn '|').findSome? fun a => pickOne L (strip L a) options) = none ↔
      ∀ a ∈ value.splitOn '|', Nowhere L (strip L a) options := by
    rw [List.findSome?_eq_none_iff]
    exact forall₂_congr fun a _ => pickOne_eq_none_iff
  unfold pickOption
  split
  · next hempty =>
    refine iff_of_true rfl fun a ha => ?_
    rw [Bool.or_eq_true, List.isEmpty_iff, List.isEmpty_iff] at hempty
    rcases hempty with rfl | rfl
    · -- The one alternative of an empty answer is empty.
      have ha : a = [] := List.mem_singleton.mp ha
      have hstrip : strip L [] = [] := rfl
      refine .inl ?_
      rw [ha, hstrip, normalize, L.lower_nil]
      rfl
    · exact .inr fun _ _ opt hopt => absurd hopt List.not_mem_nil
  · exact hnone

/-- An option that is landed on is not empty. -/
theorem ne_nil_of_pickOne (h : pickOne L value options = some opt) : opt ≠ [] := by
  rintro rfl
  obtain ⟨hword, stronger, rule, weaker, hrules, -, hfound⟩ := exists_rule h
  have hrule : rule ∈ rules L value := hrules ▸ List.mem_append_right _ List.mem_cons_self
  refine normalize_of_rule hword hrule (List.find?_some hfound) ?_
  unfold normalize
  rw [L.lower_nil]
  rfl

/-- The options that the items of a value land on, each where it comes first. -/
def landings (L : Letters) (value : Text) (options : List Text) : List Text :=
  ((value.splitOn '|').filterMap fun item => pickOne L (strip L item) options).eraseDups

/-- A landing is that of some item. -/
theorem exists_of_mem_landings (h : opt ∈ landings L value options) :
    ∃ item ∈ value.splitOn '|', pickOne L (strip L item) options = some opt :=
  List.mem_filterMap.mp (List.mem_eraseDups.mp h)

/-- `pick_options` joins the landings, where there are any. -/
theorem pickOptions_eq (value : Text) (options : List Text) : pickOptions L value options =
    if landings L value options = [] then none else some (join (landings L value options)) := by
  have hcollect : collect L (value.splitOn '|') options = landings L value options := collect_eq _ _
  unfold pickOptions
  rw [hcollect]
  cases hpicked : landings L value options with
  | nil => rfl
  | cons opt picked =>
    obtain ⟨item, -, hitem⟩ := exists_of_mem_landings (hpicked ▸ List.mem_cons_self)
    have hopt := ne_nil_of_pickOne hitem
    have hjoin : (join (opt :: picked)).isEmpty = false := by
      rw [Bool.eq_false_iff, Ne, List.isEmpty_iff]
      unfold join
      cases picked with
      | nil => simpa using hopt
      | cons _ _ => simp [hopt]
    rw [if_neg (List.cons_ne_nil _ _)]
    dsimp only
    rw [hjoin]
    rfl

end Rules

/-- The option that `pick_option` returns is landed on by the first alternative that lands anywhere, and there is none
only where all of them land nowhere. What
`pick_options` returns are the landings of the items, which land on themselves again where no option holds a bar and
options of one form are alike. -/
theorem options_say_the_answer (L : Letters) (value : Text) (options : List Text) :
    (∀ opt, pickOption L value options = some opt → ∃ before alternative after,
      value.splitOn '|' = before ++ alternative :: after ∧ (∀ a ∈ before, Nowhere L (strip L a) options) ∧
        Lands L (strip L alternative) options opt) ∧
      (pickOption L value options = none ↔ ∀ a ∈ value.splitOn '|', Nowhere L (strip L a) options) ∧
      (pickOptions L value options =
        if landings L value options = [] then none else some (join (landings L value options))) ∧
      (Alike L options → (∀ opt ∈ options, '|' ∉ opt) → ∀ result, pickOptions L value options = some result →
        ((result.splitOn '|').map fun part => pickOne L (strip L part) options) =
          (landings L value options).map some) := by
  refine ⟨fun opt h => ?_, pickOption_eq_none_iff, pickOptions_eq value options,
    fun halike hbar result hresult => ?_⟩
  · have hpicked : ((value.splitOn '|').findSome? fun a => pickOne L (strip L a) options) = some opt := by
      unfold pickOption at h
      split at h
      · exact absurd h nofun
      · exact h
    obtain ⟨before, alternative, after, hsplit, hlands, hnone⟩ := List.findSome?_eq_some_iff.mp hpicked
    exact ⟨before, alternative, after, hsplit, fun a ha => pickOne_eq_none_iff.mp (hnone a ha), lands_pickOne hlands⟩
  · rw [pickOptions_eq] at hresult
    split at hresult
    · exact absurd hresult nofun
    · next hne =>
      obtain rfl := Option.some_inj.mp hresult
      have hmem : ∀ opt ∈ landings L value options, opt ∈ options := by
        intro opt hopt
        obtain ⟨item, -, hitem⟩ := exists_of_mem_landings hopt
        exact (lands_pickOne hitem).mem
      have hsplit := map_strip_splitOn_join (L := L) hne (fun opt hopt => hbar opt (hmem opt hopt)) []
        List.not_mem_nil fun s => rfl
      rw [List.nil_append] at hsplit
      calc ((join (landings L value options)).splitOn '|').map (fun part => pickOne L (strip L part) options)
          = (((join (landings L value options)).splitOn '|').map (strip L)).map (pickOne L · options) := by
            rw [List.map_map]
            rfl
        _ = (landings L value options).map fun opt => pickOne L (strip L opt) options := by
            rw [hsplit, List.map_map]
            rfl
        _ = (landings L value options).map some := by
            refine List.map_congr_left fun opt hopt => ?_
            obtain ⟨item, -, hitem⟩ := exists_of_mem_landings hopt
            exact pickOne_again halike hitem

/-! ## Latin letters -/

/-- The lower case of a character of ASCII, and of a capital I with a dot. -/
def lowered (c : Char) : Text := if c = 'İ' then ['i', '\u0307'] else [c.toLower]

/-- The one character that it is to `re.I`. -/
def folded (c : Char) : Char := if c = 'İ' then 'i' else c.toLower

/-- The first character of the lower case. -/
theorem folded_mem_lowered (c : Char) : folded c ∈ lowered c := by
  unfold folded lowered
  split
  · exact List.mem_cons_self
  · exact List.mem_singleton_self _

/-- What each character becomes does not make or take away a space at the start. -/
theorem dropWhile_flatMap {p : Char → Bool} {f : Char → Text} (hspace : ∀ c, p c = true → f c = [c])
    (hother : ∀ c, p c = false → f c ≠ [] ∧ ∀ d ∈ f c, p d = false) (s : Text) :
    (s.flatMap f).dropWhile p = (s.dropWhile p).flatMap f := by
  induction s with
  | nil => rfl
  | cons c s ih =>
    rw [List.flatMap_cons, List.dropWhile_cons]
    split
    · next hc => rw [hspace c hc, List.singleton_append, List.dropWhile_cons_of_pos hc, ih]
    · next hc =>
      obtain ⟨hne, hall⟩ := hother c (Bool.eq_false_iff.mpr hc)
      obtain ⟨d, ds, hd⟩ := List.exists_cons_of_ne_nil hne
      rw [List.flatMap_cons, hd, List.cons_append, List.dropWhile_cons_of_neg]
      rw [hall d (hd ▸ List.mem_cons_self)]
      exact nofun

/-- Nor at the end. -/
theorem stripped_flatMap {p : Char → Bool} {f : Char → Text} (hspace : ∀ c, p c = true → f c = [c])
    (hother : ∀ c, p c = false → f c ≠ [] ∧ ∀ d ∈ f c, p d = false) (s : Text) :
    stripped p (s.flatMap f) = (stripped p s).flatMap f := by
  have hspace' : ∀ c, p c = true → (List.reverse ∘ f) c = [c] := by
    intro c hc
    rw [Function.comp_apply, hspace c hc]
    rfl
  have hother' : ∀ c, p c = false → (List.reverse ∘ f) c ≠ [] ∧ ∀ d ∈ (List.reverse ∘ f) c, p d = false := by
    intro c hc
    obtain ⟨hne, hall⟩ := hother c hc
    exact ⟨fun h => hne (List.reverse_eq_nil_iff.mp h), fun d hd => hall d (List.mem_reverse.mp hd)⟩
  unfold stripped
  rw [dropWhile_flatMap hspace hother, List.reverse_flatMap, dropWhile_flatMap hspace' hother', List.reverse_flatMap]
  congr 1
  funext c
  exact List.reverse_reverse (f c)

/-- No other character has a space as its lower case. -/
theorem toLower_ne_space {c : Char} (h : c ≠ ' ') : c.toLower ≠ ' ' := by
  unfold Char.toLower
  split
  · next hupper =>
    intro heq
    have hval := congrArg Char.val heq
    have hge : 'A'.val.toNat ≤ c.val.toNat := hupper.1
    have hle : c.val.toNat ≤ 'Z'.val.toNat := hupper.2
    have hnat := congrArg UInt32.toNat hval
    simp only [UInt32.toNat_add] at hnat
    simp at hge hle hnat
    omega
  · exact h

/-- The letters of ASCII, and a capital I with a dot. -/
def latin : Letters where
  lower s := s.flatMap lowered
  isSpace c := c = ' '
  ignoreCase := ⟨fun c d => folded c = folded d, fun c => c.isAlphanum || c = '_' || c = 'İ', Char.isWhitespace,
    Char.isDigit⟩
  space := rfl
  lower_nil := rfl
  space_word c hc := by
    obtain rfl : c = ' ' := of_decide_eq_true hc
    rfl
  lower_strip s := by
    refine (stripped_flatMap (fun c hc => ?_) (fun c hc => ?_) s).symm
    · obtain rfl : c = ' ' := of_decide_eq_true hc
      rfl
    · have hc : c ≠ ' ' := of_decide_eq_false hc
      unfold lowered
      split
      · refine ⟨List.cons_ne_nil _ _, fun d hd => ?_⟩
        rcases List.mem_pair.mp hd with rfl | rfl
        · decide
        · decide
      · refine ⟨List.cons_ne_nil _ _, fun d hd => ?_⟩
        obtain rfl := List.mem_singleton.mp hd
        exact decide_eq_false (toLower_ne_space hc)
  same_unique a ha b hb c hac hbc := by
    have hnodup : (initials.map folded).Nodup := by decide
    have hac : folded a = folded c := of_decide_eq_true hac
    have hbc : folded b = folded c := of_decide_eq_true hbc
    exact List.inj_on_of_nodup_map hnodup ha hb (hac.trans hbc.symm)
  same_lower a ha c hac s hc := by
    have hfixed : (initials.all fun a => folded a = a) = true := by decide
    have hac : folded a = folded c := of_decide_eq_true hac
    refine List.mem_flatMap.mpr ⟨c, hc, ?_⟩
    rw [← of_decide_eq_true (List.all_eq_true.mp hfixed a ha), hac]
    exact folded_mem_lowered c
  head_lower a ha c hac s := by
    have hfixed : (initials.all fun a => folded a = a) = true := by decide
    have hac : folded a = folded c := of_decide_eq_true hac
    rw [of_decide_eq_true (List.all_eq_true.mp hfixed a ha)] at hac
    unfold folded at hac
    unfold lowered
    rw [List.flatMap_cons]
    split at hac
    · exact absurd (hac ▸ ha) (by decide)
    · next hdot =>
      rw [if_neg hdot, hac]
      rfl

/-- A no lands on an option that starts with yes, as it is phrased as a negation; a false lands on one that refuses,
as it starts with no; an option with a bar lands again as two; and so does one that only `re.I` reads as a refusal,
on another that is equal to it. -/
theorem said_apart :
    (∃ opt, pickOption latin "No".toList [opt] = some opt ∧ isNo latin "No".toList = true ∧
      isYes latin (strip latin opt) = true ∧ ¬ Equals latin "No".toList opt) ∧
      (∃ opt, pickOption latin "false".toList [opt] = some opt ∧ declines latin opt = true ∧
        declines latin "false".toList = false ∧ ¬ Names latin "false".toList opt) ∧
      (∃ options opt, pickOptions latin "A".toList options = some opt ∧ landings latin "A".toList options = [opt] ∧
        ∃ other, ((opt.splitOn '|').map fun part => pickOne latin (strip latin part) options) =
          [some opt, some other]) ∧
      ∃ options opt, pickOptions latin "I decline".toList options = some opt ∧
        landings latin "I decline".toList options = [opt] ∧ ∃ other, other ≠ opt ∧
          ((opt.splitOn '|').map fun part => pickOne latin (strip latin part) options) = [some other] := by
  refine ⟨⟨"Yes, I do not need it".toList, ?_⟩, ⟨"No, I prefer not to say".toList, ?_⟩,
    ⟨["A | B".toList, "B".toList], "A | B".toList, ?_, ?_, "B".toList, ?_⟩,
    ⟨["decli\u0307ne".toList, "declİne".toList], "declİne".toList, ?_, ?_, "decli\u0307ne".toList, ?_, ?_⟩⟩
  · unfold Equals
    repeat rw [String.toList_ofList]
    decide +kernel
  · unfold Names Equals declines refusal
    repeat rw [String.toList_ofList]
    decide +kernel
  · repeat rw [String.toList_ofList]
    decide +kernel
  · repeat rw [String.toList_ofList]
    decide +kernel
  · repeat rw [String.toList_ofList]
    decide +kernel
  · repeat rw [String.toList_ofList]
    decide +kernel
  · repeat rw [String.toList_ofList]
    decide +kernel
  · repeat rw [String.toList_ofList]
    decide +kernel
  · repeat rw [String.toList_ofList]
    decide +kernel

/-- An answer the first alternative of which lands nowhere, and one whose items land on an option each. -/
theorem options_say_the_answer_python :
    (∃ before alternative after, "Rust | Python".toList.splitOn '|' = before ++ alternative :: after ∧
      (∀ a ∈ before, Nowhere latin (strip latin a) ["Go".toList, "Python 3".toList, "No".toList]) ∧
        Lands latin (strip latin alternative) ["Go".toList, "Python 3".toList, "No".toList] "Python 3".toList) ∧
      (("No | Go".toList.splitOn '|').map fun part =>
        pickOne latin (strip latin part) ["Go".toList, "Python 3".toList, "No".toList]) =
          (landings latin "false | Go".toList ["Go".toList, "Python 3".toList, "No".toList]).map some := by
  have hpicked : pickOption latin "Rust | Python".toList ["Go".toList, "Python 3".toList, "No".toList] =
      some "Python 3".toList := by
    repeat rw [String.toList_ofList]
    decide +kernel
  have hresult : pickOptions latin "false | Go".toList ["Go".toList, "Python 3".toList, "No".toList] =
      some "No | Go".toList := by
    repeat rw [String.toList_ofList]
    decide +kernel
  have halike : Alike latin ["Go".toList, "Python 3".toList, "No".toList] := by
    unfold Alike
    repeat rw [String.toList_ofList]
    decide +kernel
  have hbar : ∀ opt ∈ ["Go".toList, "Python 3".toList, "No".toList], '|' ∉ opt := by
    repeat rw [String.toList_ofList]
    decide +kernel
  exact ⟨(options_say_the_answer latin _ _).1 _ hpicked,
    (options_say_the_answer latin _ _).2.2.2 halike hbar _ hresult⟩

end JobScripts.Apply.Options
