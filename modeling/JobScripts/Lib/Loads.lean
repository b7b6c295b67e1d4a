import JobScripts.Lib.Text
import Mathlib.Data.List.TakeWhile
import Mathlib.Data.Nat.Digits.Lemmas
import Mathlib.Tactic.Common

/-!
# Reading JSON

`json.loads` of Python's standard library, over the code points of a text. The reader takes what RFC 8259 spells and
the names `NaN`, `Infinity` and `-Infinity`; of a key that comes twice the last value counts; a high surrogate that is
escaped and an escaped low one after it are one character. It opens as many lists and objects inside one another as
its recursion allows, and fails in its own way on a text that goes deeper (`loads_eq_recursion_iff`).
-/

namespace JobScripts.Lib.Loads

/-- A text: its code points, surrogates among them. -/
abbrev Text := List ℕ

/-- A value, as Python has it. A float is known by its text. -/
inductive Value
  | null
  | bool (b : Bool)
  | int (n : ℤ)
  | float (text : Text)
  | str (s : Text)
  | list (items : List Value)
  | dict (members : List (Text × Value))

/-- What reading fails with. -/
inductive Failure
  /-- A `ValueError`: `JSONDecodeError`, or an integer with too many digits. -/
  | invalid
  /-- `RecursionError`. -/
  | recursion

/-- What a reader makes of a text, and the text after it. -/
abbrev Read (α : Type) := Except Failure (α × Text)

/-- What is read, with something done to it. -/
def onRead {α β : Type} (f : α → β) : Read α → Read β
  | .error e => .error e
  | .ok (v, r) => .ok (f v, r)

variable {α β : Type} {f : α → β} {x : Read α}

/-- It is read where something is. -/
theorem onRead_eq_ok {v : β} {r : Text} : onRead f x = .ok (v, r) ↔ ∃ w, x = .ok (w, r) ∧ f w = v := by
  match x with
  | .error e => exact ⟨fun h => absurd h nofun, fun ⟨_, h, _⟩ => absurd h nofun⟩
  | .ok (w, s) => simp [onRead, and_comm]

/-- And fails where that fails. -/
theorem onRead_eq_error {e : Failure} : onRead f x = .error e ↔ x = .error e := by
  match x with
  | .error e' => simp [onRead]
  | .ok (w, s) => exact ⟨fun h => absurd h nofun, fun h => absurd h nofun⟩

/-! ## Characters -/

/-- White space. -/
def isSpace (c : ℕ) : Bool := c = 0x20 || c = 0x09 || c = 0x0A || c = 0x0D

/-- A decimal digit. -/
def isDigit (c : ℕ) : Bool := 0x30 ≤ c && c ≤ 0x39

/-- The text without the white space that it starts with. -/
def skip (t : Text) : Text := t.dropWhile isSpace

/-- The value of a hexadecimal digit. -/
def hexValue (c : ℕ) : Option ℕ :=
  if isDigit c then some (c - 0x30)
  else if 0x61 ≤ c ∧ c ≤ 0x66 then some (c - 0x61 + 10)
  else if 0x41 ≤ c ∧ c ≤ 0x46 then some (c - 0x41 + 10)
  else none

/-- The code unit that four hexadecimal digits spell. -/
def hexNumber (a b c d : ℕ) : Option ℕ := do
  return (← hexValue a) * 4096 + (← hexValue b) * 256 + (← hexValue c) * 16 + (← hexValue d)

/-- The character of a two-character escape. -/
def escapeValue (c : ℕ) : Option ℕ :=
  if c = 0x22 ∨ c = 0x5C ∨ c = 0x2F then some c
  else if c = 0x62 then some 0x08
  else if c = 0x66 then some 0x0C
  else if c = 0x6E then some 0x0A
  else if c = 0x72 then some 0x0D
  else if c = 0x74 then some 0x09
  else none

/-! ## Strings -/

/-- The code units up to the closing quote, each with whether a `\u` spells it. -/
def units : Text → Read (List (ℕ × Bool))
  | [] => .error .invalid
  | 0x22 :: t => .ok ([], t)
  | 0x5C :: 0x75 :: a :: b :: c :: d :: t =>
    match hexNumber a b c d with
    | some u => onRead ((u, true) :: ·) (units t)
    | none => .error .invalid
  | 0x5C :: e :: t =>
    match escapeValue e with
    | some u => onRead ((u, false) :: ·) (units t)
    | none => .error .invalid
  | c :: t => if c < 0x20 then .error .invalid else onRead ((c, false) :: ·) (units t)

/-- The characters of code units: two surrogates are joined where both are spelled with `\u`. -/
def joinEscaped : List (ℕ × Bool) → Text
  | [] => []
  | [(u, _)] => [u]
  | (u, escaped) :: (v, escaped') :: rest =>
    if escaped && escaped' && isHigh u && isLow v then joinPair u v :: joinEscaped rest
    else u :: joinEscaped ((v, escaped') :: rest)

/-- A string, after its opening quote. -/
def string (t : Text) : Read Text := onRead joinEscaped (units t)

/-! ## Numbers -/

/-- The number that digits spell. -/
def natOf (digits : Text) : ℕ := digits.foldl (fun n c => n * 10 + (c - 0x30)) 0

/-- The sign. -/
def sign : Text → Text × Text
  | 0x2D :: t => ([0x2D], t)
  | t => ([], t)

/-- The digits before the point: a zero alone, or as many as there are. -/
def whole : Text → Text × Text
  | 0x30 :: t => ([0x30], t)
  | t => (t.takeWhile isDigit, t.dropWhile isDigit)

/-- The point and the digits after it, where there are any. -/
def fraction : Text → Text × Text
  | 0x2E :: d :: t =>
    if isDigit d then (0x2E :: d :: t.takeWhile isDigit, t.dropWhile isDigit) else ([], 0x2E :: d :: t)
  | t => ([], t)

/-- The sign of an exponent. -/
def exponentSign : Text → Text × Text
  | 0x2D :: t => ([0x2D], t)
  | 0x2B :: t => ([0x2B], t)
  | t => ([], t)

/-- The exponent, where there is one. -/
def exponent : Text → Text × Text
  | e :: t =>
    if e = 0x65 ∨ e = 0x45 then
      let (s, r) := exponentSign t
      if (r.takeWhile isDigit).isEmpty then ([], e :: t) else (e :: s ++ r.takeWhile isDigit, r.dropWhile isDigit)
    else ([], e :: t)
  | t => ([], t)

/-- The digits that `int` takes. -/
def maxDigits : ℕ := 4300

/-- A number. -/
def number (t : Text) : Read Value :=
  let (s, t) := sign t
  let (w, t) := whole t
  let (f, t) := fraction t
  let (e, t) := exponent t
  if w.isEmpty then .error .invalid
  else if f.isEmpty && e.isEmpty then
    if maxDigits < w.length then .error .invalid
    else .ok (.int (if s.isEmpty then (natOf w : ℤ) else -(natOf w : ℤ)), t)
  else .ok (.float (s ++ w ++ f ++ e), t)

/-- The names, and what they stand for. -/
def names : List (Text × Value) :=
  [([0x6E, 0x75, 0x6C, 0x6C], .null),
    ([0x74, 0x72, 0x75, 0x65], .bool true),
    ([0x66, 0x61, 0x6C, 0x73, 0x65], .bool false),
    ([0x4E, 0x61, 0x4E], .float [0x4E, 0x61, 0x4E]),
    ([0x49, 0x6E, 0x66, 0x69, 0x6E, 0x69, 0x74, 0x79], .float [0x49, 0x6E, 0x66, 0x69, 0x6E, 0x69, 0x74, 0x79]),
    ([0x2D, 0x49, 0x6E, 0x66, 0x69, 0x6E, 0x69, 0x74, 0x79],
      .float [0x2D, 0x49, 0x6E, 0x66, 0x69, 0x6E, 0x69, 0x74, 0x79])]

/-- A name, or else a number. -/
def scalar (t : Text) : Read Value :=
  match names.find? fun name => name.1.isPrefixOf t with
  | some (name, v) => .ok (v, t.drop name.length)
  | none => number t

/-! ## Lists and objects -/

/-- The items from one on, and the closing bracket. -/
def items (scan : Text → Read Value) : ℕ → Text → Read (List Value)
  | 0, _ => .error .invalid
  | n + 1, t =>
    match scan t with
    | .error e => .error e
    | .ok (v, t) =>
      match skip t with
      | 0x5D :: t => .ok ([v], t)
      | 0x2C :: t => onRead (v :: ·) (items scan n (skip t))
      | _ => .error .invalid

/-- A key and the colon after it. -/
def key : Text → Read Text
  | 0x22 :: t =>
    match string t with
    | .error e => .error e
    | .ok (k, t) =>
      match skip t with
      | 0x3A :: t => .ok (k, skip t)
      | _ => .error .invalid
  | _ => .error .invalid

/-- The members from one on, and the closing brace. -/
def members (scan : Text → Read Value) : ℕ → Text → Read (List (Text × Value))
  | 0, _ => .error .invalid
  | n + 1, t =>
    match key t with
    | .error e => .error e
    | .ok (k, t) =>
      match scan t with
      | .error e => .error e
      | .ok (v, t) =>
        match skip t with
        | 0x7D :: t => .ok ([(k, v)], t)
        | 0x2C :: t => onRead ((k, v) :: ·) (members scan n (skip t))
        | _ => .error .invalid

/-- `d.get(key)`: the value of the first member that has the key. -/
def getItem {α : Type} (k : Text) (members : List (Text × α)) : Option α :=
  (members.find? fun m => m.1 = k).map Prod.snd

/-- `d[k] = v`: the value of the key that is there, or a new member at the end. -/
def setItem (k : Text) (v : Value) : List (Text × Value) → List (Text × Value)
  | [] => [(k, v)]
  | (k', v') :: rest => if k' = k then (k, v) :: rest else (k', v') :: setItem k v rest

/-- `dict(pairs)`: the pairs one after the other, where a later value of a key counts. -/
def dictOf (pairs : List (Text × Value)) : List (Text × Value) := pairs.foldl (fun d p => setItem p.1 p.2 d) []

/-- The rest of a list, after its opening bracket. -/
def list (scan : Text → Read Value) (t : Text) : Read Value :=
  match skip t with
  | 0x5D :: t => .ok (.list [], t)
  | t => onRead .list (items scan t.length t)

/-- The rest of an object, after its opening brace. -/
def dict (scan : Text → Read Value) (t : Text) : Read Value :=
  match skip t with
  | 0x7D :: t => .ok (.dict [], t)
  | t => onRead (fun ms => .dict (dictOf ms)) (members scan t.length t)

/-- `scan_once`: a value, inside of which `scan` reads. -/
def scanWith (scan : Option (Text → Read Value)) (t : Text) : Read Value :=
  match t, scan with
  | 0x22 :: t, _ => onRead .str (string t)
  | 0x5B :: _, none | 0x7B :: _, none => .error .recursion
  | 0x5B :: t, some scan => list scan t
  | 0x7B :: t, some scan => dict scan t
  | t, _ => scalar t

/-- `scan_once`, with the lists and objects that may be opened inside one another. -/
def scanOnce : ℕ → Text → Read Value
  | 0 => scanWith none
  | limit + 1 => scanWith (some (scanOnce limit))

/-- `json.loads`: the value that the whole text spells, with at most so many lists and objects inside one another. -/
def loads (limit : ℕ) (t : Text) : Except Failure Value :=
  match scanOnce limit (skip t) with
  | .error e => .error e
  | .ok (v, r) => if (skip r).isEmpty then .ok v else .error .invalid

/-! ## What is read is gone -/

/-- A reader that takes at least one character. -/
def Takes {α : Type} (scan : Text → Read α) : Prop := ∀ t v r, scan t = .ok (v, r) → r.length < t.length

/-- What is left after white space is no longer. -/
theorem length_skip_le (t : Text) : (skip t).length ≤ t.length := (List.dropWhile_sublist _).length_le

/-- A string ends in its quote. -/
theorem takes_units : Takes units := by
  intro t
  fun_induction units t with
  | case1 => exact fun v r h => absurd h nofun
  | case2 t =>
    intro v r h
    obtain ⟨-, rfl⟩ := Prod.mk.inj (Except.ok.inj h)
    exact Nat.lt_succ_self _
  | case3 a b c d t u hu ih =>
    intro v r h
    obtain ⟨w, hw, -⟩ := onRead_eq_ok.mp h
    have hlt := ih w r hw
    simp only [List.length_cons]
    omega
  | case4 => exact fun v r h => absurd h nofun
  | case5 e t hne u hu ih =>
    intro v r h
    obtain ⟨w, hw, -⟩ := onRead_eq_ok.mp h
    have hlt := ih w r hw
    simp only [List.length_cons]
    omega
  | case6 => exact fun v r h => absurd h nofun
  | case7 => exact fun v r h => absurd h nofun
  | case8 c t h₁ h₂ h₃ hc ih =>
    intro v r h
    obtain ⟨w, hw, -⟩ := onRead_eq_ok.mp h
    exact Nat.lt_succ_of_lt (ih w r hw)

theorem takes_string : Takes string := by
  intro t v r h
  obtain ⟨w, hw, -⟩ := onRead_eq_ok.mp h
  exact takes_units t w r hw

/-- The parts of a number make up the text. -/
theorem sign_append (t : Text) : (sign t).1 ++ (sign t).2 = t := by
  unfold sign
  split <;> rfl

theorem whole_append (t : Text) : (whole t).1 ++ (whole t).2 = t := by
  unfold whole
  split
  · rfl
  · exact List.takeWhile_append_dropWhile

theorem fraction_append (t : Text) : (fraction t).1 ++ (fraction t).2 = t := by
  unfold fraction
  split
  · split
    · simp [List.takeWhile_append_dropWhile]
    · rfl
  · rfl

theorem exponentSign_append (t : Text) : (exponentSign t).1 ++ (exponentSign t).2 = t := by
  unfold exponentSign
  split <;> rfl

theorem exponent_append (t : Text) : (exponent t).1 ++ (exponent t).2 = t := by
  unfold exponent
  split
  · next e t =>
    split
    · dsimp only
      split
      · rfl
      · rw [List.append_assoc, List.takeWhile_append_dropWhile, List.cons_append, exponentSign_append]
    · rfl
  · rfl

/-- A number has digits. -/
theorem takes_number : Takes number := by
  intro t v r h
  have hs := sign_append t
  have hw := whole_append (sign t).2
  have hf := fraction_append (whole (sign t).2).2
  have he := exponent_append (fraction (whole (sign t).2).2).2
  have hlength := congrArg List.length hs
  have hlength₁ := congrArg List.length hw
  have hlength₂ := congrArg List.length hf
  have hlength₃ := congrArg List.length he
  simp only [List.length_append] at hlength hlength₁ hlength₂ hlength₃
  unfold number at h
  dsimp only at h
  split at h
  · exact absurd h nofun
  · next hempty =>
    have hpos : 0 < (whole (sign t).2).1.length := by
      rw [List.length_pos_iff, Ne, ← List.isEmpty_iff]
      exact hempty
    have hr : (exponent (fraction (whole (sign t).2).2).2).2 = r := by
      split at h
      · split at h
        · exact absurd h nofun
        · exact (Prod.mk.inj (Except.ok.inj h)).2
      · exact (Prod.mk.inj (Except.ok.inj h)).2
    rw [← hr]
    omega

/-- A name has letters. -/
theorem takes_scalar : Takes scalar := by
  intro t v r h
  unfold scalar at h
  split at h
  · next name w hfind =>
    obtain ⟨-, rfl⟩ := Prod.mk.inj (Except.ok.inj h)
    have hpos : ∀ p ∈ names, 0 < p.1.length := by decide
    have hname : 0 < name.length := hpos _ (List.mem_of_find?_eq_some hfind)
    have hprefix := List.find?_some (p := fun name : Text × Value => name.1.isPrefixOf t) hfind
    have hle : name.length ≤ t.length := (List.isPrefixOf_iff_prefix.mp hprefix).length_le
    rw [List.length_drop]
    omega
  · exact takes_number t v r h

variable {scan : Text → Read Value}

/-- Items are read where the first is and the rest are. -/
theorem items_eq_ok {n : ℕ} {t r : Text} {vs : List Value} : items scan (n + 1) t = .ok (vs, r) ↔
    ∃ v s, scan t = .ok (v, s) ∧ (skip s = 0x5D :: r ∧ vs = [v] ∨
      ∃ s' ws, skip s = 0x2C :: s' ∧ items scan n (skip s') = .ok (ws, r) ∧ vs = v :: ws) := by
  rw [items]
  cases hscan : scan t with
  | error e => simp
  | ok p =>
    obtain ⟨v, s⟩ := p
    dsimp only
    split
    · next hskip => simp [hskip, and_comm, eq_comm]
    · next hskip =>
      rw [onRead_eq_ok]
      simp [hskip, eq_comm]
    · next h₁ h₂ =>
      constructor
      · exact fun h => absurd h nofun
      · rintro ⟨v', s₁, h, hcase⟩
        obtain ⟨rfl, rfl⟩ := Prod.mk.inj (Except.ok.inj h)
        rcases hcase with ⟨h, -⟩ | ⟨s', ws, h, -⟩
        · exact absurd h (h₁ r)
        · exact absurd h (h₂ s')

/-- So are members. -/
theorem members_eq_ok {n : ℕ} {t r : Text} {ms : List (Text × Value)} : members scan (n + 1) t = .ok (ms, r) ↔
    ∃ k s v s₁, key t = .ok (k, s) ∧ scan s = .ok (v, s₁) ∧ (skip s₁ = 0x7D :: r ∧ ms = [(k, v)] ∨
      ∃ s₂ ns, skip s₁ = 0x2C :: s₂ ∧ members scan n (skip s₂) = .ok (ns, r) ∧ ms = (k, v) :: ns) := by
  rw [members]
  cases hkey : key t with
  | error e => simp
  | ok p =>
    obtain ⟨k, s⟩ := p
    dsimp only
    cases hscan : scan s with
    | error e => simp [hscan]
    | ok q =>
      obtain ⟨v, s₁⟩ := q
      dsimp only
      split
      · next hskip => simp [hscan, hskip, and_comm, eq_comm]
      · next hskip =>
        rw [onRead_eq_ok]
        simp [hscan, hskip, eq_comm]
      · next h₁ h₂ =>
        constructor
        · exact fun h => absurd h nofun
        · rintro ⟨k', s', v', s₂, hk, hv, hcase⟩
          obtain ⟨rfl, rfl⟩ := Prod.mk.inj (Except.ok.inj hk)
          obtain ⟨rfl, rfl⟩ := Prod.mk.inj (Except.ok.inj (hscan.symm.trans hv))
          rcases hcase with ⟨h, -⟩ | ⟨s₃, ns, h, -⟩
          · exact absurd h (h₁ r)
          · exact absurd h (h₂ s₃)

/-- A key is in quotes. -/
theorem takes_key : Takes key := by
  intro t k r h
  unfold key at h
  split at h
  · next t =>
    split at h
    · exact absurd h nofun
    · next k' s hs =>
      split at h
      · next s' hskip =>
        obtain ⟨-, rfl⟩ := Prod.mk.inj (Except.ok.inj h)
        have hlt := takes_string t _ _ hs
        have hle := length_skip_le s
        have hle' := length_skip_le s'
        rw [hskip, List.length_cons] at hle
        rw [List.length_cons]
        omega
      · exact absurd h nofun
  · exact absurd h nofun

theorem takes_items (h : Takes scan) : ∀ n, Takes (items scan n) := by
  intro n
  induction n with
  | zero => exact fun _ _ _ h => absurd h nofun
  | succ n ih =>
    intro t vs r hread
    obtain ⟨v, s, hv, ⟨hs, -⟩ | ⟨s', ws, hs, hws, -⟩⟩ := items_eq_ok.mp hread
    · have hlt := h t v s hv
      have hle := length_skip_le s
      rw [hs, List.length_cons] at hle
      omega
    · have hlt := h t v s hv
      have hle := length_skip_le s
      have hlt' := ih _ _ _ hws
      have hle' := length_skip_le s'
      rw [hs, List.length_cons] at hle
      omega

theorem takes_members (h : Takes scan) : ∀ n, Takes (members scan n) := by
  intro n
  induction n with
  | zero => exact fun _ _ _ h => absurd h nofun
  | succ n ih =>
    intro t ms r hread
    obtain ⟨k, s, v, s₁, hk, hv, hcase⟩ := members_eq_ok.mp hread
    have hlt := takes_key t k s hk
    have hlt₁ := h s v s₁ hv
    have hle := length_skip_le s₁
    rcases hcase with ⟨hs, -⟩ | ⟨s₂, ns, hs, hns, -⟩
    · rw [hs, List.length_cons] at hle
      omega
    · have hlt₂ := ih _ _ _ hns
      have hle₂ := length_skip_le s₂
      rw [hs, List.length_cons] at hle
      omega

theorem takes_list (h : Takes scan) : Takes (list scan) := by
  intro t v r hread
  have hle := length_skip_le t
  unfold list at hread
  split at hread
  · next s hs =>
    obtain ⟨-, rfl⟩ := Prod.mk.inj (Except.ok.inj hread)
    rw [hs, List.length_cons] at hle
    omega
  · obtain ⟨ws, hws, -⟩ := onRead_eq_ok.mp hread
    have hlt := takes_items h _ _ _ _ hws
    omega

theorem takes_dict (h : Takes scan) : Takes (dict scan) := by
  intro t v r hread
  have hle := length_skip_le t
  unfold dict at hread
  split at hread
  · next s hs =>
    obtain ⟨-, rfl⟩ := Prod.mk.inj (Except.ok.inj hread)
    rw [hs, List.length_cons] at hle
    omega
  · obtain ⟨ws, hws, -⟩ := onRead_eq_ok.mp hread
    have hlt := takes_members h _ _ _ _ hws
    omega

theorem takes_scanWith {inner : Option (Text → Read Value)} (h : ∀ scan ∈ inner, Takes scan) :
    Takes (scanWith inner) := by
  intro t v r hread
  unfold scanWith at hread
  split at hread
  · obtain ⟨s, hs, -⟩ := onRead_eq_ok.mp hread
    exact Nat.lt_succ_of_lt (takes_string _ _ _ hs)
  · exact absurd hread nofun
  · exact absurd hread nofun
  · exact Nat.lt_succ_of_lt (takes_list (h _ rfl) _ _ _ hread)
  · exact Nat.lt_succ_of_lt (takes_dict (h _ rfl) _ _ _ hread)
  · exact takes_scalar _ _ _ hread

/-- A value has characters. -/
theorem takes_scanOnce (limit : ℕ) : Takes (scanOnce limit) := by
  induction limit with
  | zero => exact takes_scanWith fun _ h => absurd h nofun
  | succ limit ih =>
    refine takes_scanWith fun scan h => ?_
    obtain rfl := Option.mem_some_iff.mp h
    exact ih

/-! ## How deep a text goes -/

/-- Two readers read the same, unless one of them runs out of recursion. -/
def Agree {α : Type} (f g : Text → Read α) : Prop :=
  ∀ t, f t = g t ∨ f t = .error .recursion ∨ g t = .error .recursion

variable {scan' : Text → Read Value}

theorem Agree.items (h : Agree scan scan') : ∀ n, Agree (items scan n) (items scan' n) := by
  intro n
  induction n with
  | zero => exact fun _ => .inl rfl
  | succ n ih =>
    intro t
    rw [Loads.items, Loads.items]
    rcases h t with heq | hf | hg
    · rw [heq]
      cases scan' t with
      | error e => exact .inl rfl
      | ok p =>
        obtain ⟨v, s⟩ := p
        dsimp only
        split
        · exact .inl rfl
        · next s' _ =>
          rw [onRead_eq_error, onRead_eq_error]
          rcases ih (skip s') with heq | hrec
          · exact .inl (by rw [heq])
          · exact .inr hrec
        · exact .inl rfl
    · rw [hf]
      exact .inr (.inl rfl)
    · rw [hg]
      exact .inr (.inr rfl)

theorem Agree.members (h : Agree scan scan') : ∀ n, Agree (members scan n) (members scan' n) := by
  intro n
  induction n with
  | zero => exact fun _ => .inl rfl
  | succ n ih =>
    intro t
    rw [Loads.members, Loads.members]
    cases key t with
    | error e => exact .inl rfl
    | ok p =>
      obtain ⟨k, t⟩ := p
      dsimp only
      rcases h t with heq | hf | hg
      · rw [heq]
        cases scan' t with
        | error e => exact .inl rfl
        | ok q =>
          obtain ⟨v, s⟩ := q
          dsimp only
          split
          · exact .inl rfl
          · next s' _ =>
            rw [onRead_eq_error, onRead_eq_error]
            rcases ih (skip s') with heq | hrec
            · exact .inl (by rw [heq])
            · exact .inr hrec
          · exact .inl rfl
      · rw [hf]
        exact .inr (.inl rfl)
      · rw [hg]
        exact .inr (.inr rfl)

/-- Two readers of values read the same lists. -/
theorem Agree.list (h : Agree scan scan') : Agree (list scan) (list scan') := by
  intro t
  unfold Loads.list
  split
  · exact .inl rfl
  · rw [onRead_eq_error, onRead_eq_error]
    rcases h.items _ _ with heq | hrec
    · exact .inl (by rw [heq])
    · exact .inr hrec

/-- And the same objects. -/
theorem Agree.dict (h : Agree scan scan') : Agree (dict scan) (dict scan') := by
  intro t
  unfold Loads.dict
  split
  · exact .inl rfl
  · rw [onRead_eq_error, onRead_eq_error]
    rcases h.members _ _ with heq | hrec
    · exact .inl (by rw [heq])
    · exact .inr hrec

/-- What is not an opening bracket or brace is read without recursion. -/
theorem scanWith_eq {inner inner' : Option (Text → Read Value)} {t : Text}
    (h : ∀ r, t ≠ 0x5B :: r ∧ t ≠ 0x7B :: r) : scanWith inner t = scanWith inner' t := by
  unfold scanWith
  split
  · rfl
  · exact absurd rfl (h _).1
  · exact absurd rfl (h _).2
  · exact absurd rfl (h _).1
  · exact absurd rfl (h _).2
  · next hquote _ _ _ _ =>
    split
    · exact absurd rfl (hquote _)
    · exact absurd rfl (h _).1
    · exact absurd rfl (h _).2
    · exact absurd rfl (h _).1
    · exact absurd rfl (h _).2
    · rfl

/-- A reader with some recursion agrees with one that has any other. -/
theorem agree_scanOnce : ∀ limit limit' : ℕ, Agree (scanOnce limit) (scanOnce limit') := by
  intro limit
  induction limit with
  | zero =>
    intro limit' t
    by_cases hopen : ∃ r, t = 0x5B :: r ∨ t = 0x7B :: r
    · obtain ⟨r, rfl | rfl⟩ := hopen
      · exact .inr (.inl rfl)
      · exact .inr (.inl rfl)
    · rw [not_exists] at hopen
      have hscalar : ∀ r, t ≠ 0x5B :: r ∧ t ≠ 0x7B :: r := fun r => not_or.mp (hopen r)
      cases limit' with
      | zero => exact .inl rfl
      | succ limit' => exact .inl (scanWith_eq hscalar)
  | succ limit ih =>
    intro limit' t
    by_cases hopen : ∃ r, t = 0x5B :: r ∨ t = 0x7B :: r
    · cases limit' with
      | zero =>
        obtain ⟨r, rfl | rfl⟩ := hopen
        · exact .inr (.inr rfl)
        · exact .inr (.inr rfl)
      | succ limit' =>
        obtain ⟨r, rfl | rfl⟩ := hopen
        · exact (ih limit').list r
        · exact (ih limit').dict r
    · rw [not_exists] at hopen
      have hscalar : ∀ r, t ≠ 0x5B :: r ∧ t ≠ 0x7B :: r := fun r => not_or.mp (hopen r)
      cases limit' with
      | zero => exact .inl (scanWith_eq hscalar)
      | succ limit' => exact .inl (scanWith_eq hscalar)

/-- A text starts with a value, which some recursion reads. -/
def Reads (t : Text) (v : Value) (r : Text) : Prop := ∃ limit, scanOnce limit t = .ok (v, r)

/-- The texts that the items of a list start at, before anything is wrong with one. -/
inductive Item : Text → Text → Prop
  | first (t) : Item t t
  | next {t v r r' u} : Reads t v r → skip r = 0x2C :: r' → Item (skip r') u → Item t u

/-- The texts that the values of an object start at. -/
inductive Member : Text → Text → Prop
  | first {t k r} : key t = .ok (k, r) → Member t r
  | next {t k r v s s' u} : key t = .ok (k, r) → Reads r v s → skip s = 0x2C :: s' → Member (skip s') u → Member t u

/-- More than some number of lists and objects are opened inside one another before anything is wrong. -/
def Deep : ℕ → Text → Prop
  | 0, t => ∃ r, t = 0x5B :: r ∨ t = 0x7B :: r
  | n + 1, t => (∃ r u, t = 0x5B :: r ∧ Item (skip r) u ∧ Deep n u) ∨
      ∃ r u, t = 0x7B :: r ∧ Member (skip r) u ∧ Deep n u

/-- A string does not run out of recursion. -/
theorem units_ne_recursion (t : Text) : units t ≠ .error .recursion := by
  fun_induction units t with
  | case1 | case2 | case4 | case6 | case7 => exact nofun
  | case3 a b c d t u hu ih => exact fun h => ih (onRead_eq_error.mp h)
  | case5 e t hne u hu ih => exact fun h => ih (onRead_eq_error.mp h)
  | case8 c t h₁ h₂ h₃ hc ih => exact fun h => ih (onRead_eq_error.mp h)

theorem string_ne_recursion (t : Text) : string t ≠ .error .recursion :=
  fun h => units_ne_recursion t (onRead_eq_error.mp h)

theorem key_ne_recursion (t : Text) : key t ≠ .error .recursion := by
  unfold key
  split
  · next t =>
    split
    · next e he =>
      intro h
      obtain rfl := Except.error.inj h
      exact string_ne_recursion t he
    · split
      · exact nofun
      · exact nofun
  · exact nofun

/-- Nor does a name or a number. -/
theorem scalar_ne_recursion (t : Text) : scalar t ≠ .error .recursion := by
  unfold scalar
  split
  · exact nofun
  · unfold number
    dsimp only
    split
    · exact nofun
    · split
      · split
        · exact nofun
        · exact nofun
      · exact nofun

variable {limit n : ℕ} {t : Text}

/-- What some recursion reads is read here, unless the recursion runs out. -/
theorem Reads.here {v : Value} {r : Text} (h : Reads t v r) :
    scanOnce limit t = .ok (v, r) ∨ scanOnce limit t = .error .recursion := by
  obtain ⟨limit', h⟩ := h
  rcases agree_scanOnce limit limit' t with heq | hrec | hrec
  · exact .inl (heq.trans h)
  · exact .inr hrec
  · exact absurd (h.symm.trans hrec) nofun

/-- The items run out of recursion where one of them does. -/
theorem items_eq_recursion_iff (hn : t.length ≤ n) : items (scanOnce limit) n t = .error .recursion ↔
    ∃ u, Item t u ∧ scanOnce limit u = .error .recursion := by
  induction n generalizing t with
  | zero =>
    obtain rfl := List.length_eq_zero_iff.mp (Nat.le_zero.mp hn)
    refine ⟨fun h => absurd h nofun, ?_⟩
    rintro ⟨u, hitem, hu⟩
    -- The empty text starts with no value.
    cases hitem with
    | first =>
      cases limit with
      | zero => exact absurd hu (scalar_ne_recursion [])
      | succ limit => exact absurd hu (scalar_ne_recursion [])
    | next hreads hskip hitem =>
      obtain ⟨limit', h⟩ := hreads
      exact absurd (takes_scanOnce limit' _ _ _ h) (Nat.not_lt_zero _)
  | succ n ih =>
    rw [items]
    constructor
    · intro h
      cases hscan : scanOnce limit t with
      | error e =>
        rw [hscan] at h
        obtain rfl := Except.error.inj h
        exact ⟨t, .first t, hscan⟩
      | ok p =>
        obtain ⟨v, s⟩ := p
        rw [hscan] at h
        dsimp only at h
        split at h
        · exact absurd h nofun
        · next s' hskip =>
          have hlt := takes_scanOnce limit t v s hscan
          have hle := length_skip_le s
          have hle' := length_skip_le s'
          rw [hskip, List.length_cons] at hle
          obtain ⟨u, hitem, hu⟩ := (ih (by omega)).mp (onRead_eq_error.mp h)
          exact ⟨u, .next ⟨limit, hscan⟩ hskip hitem, hu⟩
        · exact absurd h nofun
    · rintro ⟨u, hitem, hu⟩
      cases hitem with
      | first => rw [hu]
      | next hreads hskip hitem =>
        next v r r' =>
        rcases hreads.here with hscan | hscan
        · have hlt := takes_scanOnce limit t v r hscan
          have hle := length_skip_le r
          have hle' := length_skip_le r'
          rw [hskip, List.length_cons] at hle
          rw [hscan]
          dsimp only
          rw [hskip]
          exact onRead_eq_error.mpr ((ih (by omega)).mpr ⟨u, hitem, hu⟩)
        · rw [hscan]

/-- The members run out of recursion where one of the values does. -/
theorem members_eq_recursion_iff (hn : t.length ≤ n) : members (scanOnce limit) n t = .error .recursion ↔
    ∃ u, Member t u ∧ scanOnce limit u = .error .recursion := by
  induction n generalizing t with
  | zero =>
    obtain rfl := List.length_eq_zero_iff.mp (Nat.le_zero.mp hn)
    refine ⟨fun h => absurd h nofun, ?_⟩
    rintro ⟨u, hmember, -⟩
    cases hmember with
    | first hkey => exact absurd hkey nofun
    | next hkey => exact absurd hkey nofun
  | succ n ih =>
    rw [members]
    constructor
    · intro h
      cases hkey : key t with
      | error e =>
        rw [hkey] at h
        obtain rfl := Except.error.inj h
        exact absurd hkey (key_ne_recursion t)
      | ok p =>
        obtain ⟨k, r⟩ := p
        rw [hkey] at h
        dsimp only at h
        cases hscan : scanOnce limit r with
        | error e =>
          rw [hscan] at h
          obtain rfl := Except.error.inj h
          exact ⟨r, .first hkey, hscan⟩
        | ok q =>
          obtain ⟨v, s⟩ := q
          rw [hscan] at h
          dsimp only at h
          split at h
          · exact absurd h nofun
          · next s' hskip =>
            have hlt := takes_key t k r hkey
            have hlt' := takes_scanOnce limit r v s hscan
            have hle := length_skip_le s
            have hle' := length_skip_le s'
            rw [hskip, List.length_cons] at hle
            obtain ⟨u, hmember, hu⟩ := (ih (by omega)).mp (onRead_eq_error.mp h)
            exact ⟨u, .next hkey ⟨limit, hscan⟩ hskip hmember, hu⟩
          · exact absurd h nofun
    · rintro ⟨u, hmember, hu⟩
      cases hmember with
      | first hkey =>
        rw [hkey]
        dsimp only
        rw [hu]
      | next hkey hreads hskip hmember =>
        next k r v s s' =>
        rw [hkey]
        dsimp only
        rcases hreads.here with hscan | hscan
        · have hlt := takes_key t k r hkey
          have hlt' := takes_scanOnce limit r v s hscan
          have hle := length_skip_le s
          have hle' := length_skip_le s'
          rw [hskip, List.length_cons] at hle
          rw [hscan]
          dsimp only
          rw [hskip]
          exact onRead_eq_error.mpr ((ih (by omega)).mpr ⟨u, hmember, hu⟩)
        · rw [hscan]

/-- No value starts with a closing bracket. -/
theorem scanOnce_closeArray (limit : ℕ) (r : Text) : scanOnce limit (0x5D :: r) = .error .invalid := by
  cases limit <;> rfl

/-- A list runs out of recursion where one of its items does. -/
theorem list_eq_recursion_iff {r : Text} : list (scanOnce limit) r = .error .recursion ↔
    ∃ u, Item (skip r) u ∧ scanOnce limit u = .error .recursion := by
  unfold list
  split
  · next s hs =>
    rw [hs]
    refine ⟨fun h => absurd h nofun, ?_⟩
    rintro ⟨u, hitem, hu⟩
    cases hitem with
    | first => exact absurd ((scanOnce_closeArray limit s).symm.trans hu) nofun
    | next hreads =>
      obtain ⟨limit', h⟩ := hreads
      exact absurd ((scanOnce_closeArray limit' s).symm.trans h) nofun
  · rw [onRead_eq_error]
    exact items_eq_recursion_iff le_rfl

/-- An object runs out of recursion where one of its values does. -/
theorem dict_eq_recursion_iff {r : Text} : dict (scanOnce limit) r = .error .recursion ↔
    ∃ u, Member (skip r) u ∧ scanOnce limit u = .error .recursion := by
  unfold dict
  split
  · next s hs =>
    rw [hs]
    refine ⟨fun h => absurd h nofun, ?_⟩
    rintro ⟨u, hmember, -⟩
    cases hmember with
    | first hkey => exact absurd hkey nofun
    | next hkey => exact absurd hkey nofun
  · rw [onRead_eq_error]
    exact members_eq_recursion_iff le_rfl

/-- A text that starts with neither a bracket nor a brace is read without recursion. -/
theorem scanWith_ne_recursion {inner : Option (Text → Read Value)} (h : ∀ r, t ≠ 0x5B :: r ∧ t ≠ 0x7B :: r) :
    scanWith inner t ≠ .error .recursion := by
  unfold scanWith
  split
  · exact fun heq => string_ne_recursion _ (onRead_eq_error.mp heq)
  · exact absurd rfl (h _).1
  · exact absurd rfl (h _).2
  · exact absurd rfl (h _).1
  · exact absurd rfl (h _).2
  · exact scalar_ne_recursion t

/-- Reading runs out of recursion on the texts that go deeper than it. -/
theorem scanOnce_eq_recursion_iff : scanOnce limit t = .error .recursion ↔ Deep limit t := by
  induction limit generalizing t with
  | zero =>
    constructor
    · intro h
      by_contra hopen
      rw [Deep, not_exists] at hopen
      exact scanWith_ne_recursion (fun r => not_or.mp (hopen r)) h
    · rintro ⟨r, rfl | rfl⟩
      · rfl
      · rfl
  | succ limit ih =>
    constructor
    · intro h
      by_cases hopen : ∃ r, t = 0x5B :: r ∨ t = 0x7B :: r
      · obtain ⟨r, rfl | rfl⟩ := hopen
        · obtain ⟨u, hitem, hu⟩ := list_eq_recursion_iff.mp h
          exact .inl ⟨r, u, rfl, hitem, ih.mp hu⟩
        · obtain ⟨u, hmember, hu⟩ := dict_eq_recursion_iff.mp h
          exact .inr ⟨r, u, rfl, hmember, ih.mp hu⟩
      · rw [not_exists] at hopen
        exact absurd h (scanWith_ne_recursion fun r => not_or.mp (hopen r))
    · rintro (⟨r, u, rfl, hitem, hu⟩ | ⟨r, u, rfl, hmember, hu⟩)
      · exact list_eq_recursion_iff.mpr ⟨u, hitem, ih.mpr hu⟩
      · exact dict_eq_recursion_iff.mpr ⟨u, hmember, ih.mpr hu⟩

/-- So does `json.loads`. -/
theorem loads_eq_recursion_iff : loads limit t = .error .recursion ↔ Deep limit (skip t) := by
  rw [← scanOnce_eq_recursion_iff]
  unfold loads
  split
  · next e he =>
    rw [he]
    exact ⟨fun h => by rw [Except.error.inj h], fun h => by rw [Except.error.inj h]⟩
  · next v r h =>
    rw [h]
    refine ⟨fun hrec => ?_, fun hrec => absurd hrec nofun⟩
    split at hrec
    · exact absurd hrec nofun
    · exact absurd hrec nofun

/-- A text that opens many lists at once goes deep. -/
theorem deep_replicate (n : ℕ) (t : Text) : Deep n (List.replicate (n + 1) 0x5B ++ t) := by
  induction n with
  | zero => exact ⟨t, .inl rfl⟩
  | succ n ih =>
    refine .inl ⟨List.replicate (n + 1) 0x5B ++ t, _, rfl, .first _, ?_⟩
    exact ih

end JobScripts.Lib.Loads
