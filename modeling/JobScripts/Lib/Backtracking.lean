import Mathlib.Data.List.Basic
import Mathlib.Data.List.TakeWhile
import Mathlib.Data.List.Infix

/-!
# Backtracking matchers

A regular expression as an engine like Python's `re` runs it: the ways to match from a place in a text, in the order
in which they are tried, each with what its groups have captured. The first way is the match, and `finditer` goes on
from its end.

`Finds` says what the first way is, and its rules say so of each construction. Where a match starts with a character
that is not inside of it, `finditer` finds all there are (`finditer_eq`).
-/

namespace JobScripts.Lib.Backtracking

/-! ## Matchers -/

/-- A place in a text: the character before it, the text that is left, and what has been captured, the last first. -/
structure Place (α : Type) where
  before : Option α
  rest : List α
  groups : List (ℕ × List α)

/-- The places where the ways to match from a place end, in the order in which they are tried. -/
abbrev Matcher (α : Type) := Place α → List (Place α)

section Matchers

variable {α : Type}

/-- One character. -/
def one (p : α → Bool) : Matcher α
  | ⟨_, c :: rest, groups⟩ => if p c then [⟨some c, rest, groups⟩] else []
  | ⟨_, [], _⟩ => []

/-- One after the other. -/
def seq (m n : Matcher α) : Matcher α := fun s => (m s).flatMap n

/-- One, or else the other. -/
def alt (m n : Matcher α) : Matcher α := fun s => m s ++ n s

/-- `?`: once or not at all, once first. -/
def opt (m : Matcher α) : Matcher α := fun s => m s ++ [s]

/-- So many times. -/
def exactly (m : Matcher α) : ℕ → Matcher α
  | 0 => fun s => [s]
  | n + 1 => seq m (exactly m n)

/-- As many times as it goes, and not more than so many. -/
def upTo (m : Matcher α) : ℕ → Matcher α
  | 0 => fun s => [s]
  | n + 1 => fun s => (m s).flatMap (upTo m n) ++ [s]

/-- `{lo,hi}`: at least `lo` times and at most `hi` times. -/
def times (m : Matcher α) (lo hi : ℕ) : Matcher α := seq (exactly m lo) (upTo m (hi - lo))

/-- `*`, of a matcher that takes at least one character. -/
def many (m : Matcher α) : Matcher α := fun s => upTo m s.rest.length s

/-- `+`: once or more. -/
def plus (m : Matcher α) : Matcher α := seq m (many m)

/-- A group captures what it takes. -/
def group (n : ℕ) (m : Matcher α) : Matcher α := fun s =>
  (m s).map fun q =>
    { q with
      groups := (n, s.rest.take (s.rest.length - q.rest.length)) :: q.groups }

/-- `\b`: a word starts or ends here. -/
def boundary (word : α → Bool) : Matcher α := fun s => if s.before.any word != s.rest.head?.any word then [s] else []

/-- A match: where it starts and stops, and its groups. -/
structure Match (α : Type) where
  start : ℕ
  stop : ℕ
  groups : List (ℕ × List α)

/-- The matches from a position on, of a matcher that takes at least one character. -/
def scan (m : Matcher α) : ℕ → ℕ → Option α → List α → List (Match α)
  | 0, _, _, _ => []
  | fuel + 1, start, before, rest =>
    match (m ⟨before, rest, []⟩).head? with
    | some q =>
      ⟨start, start + (rest.length - q.rest.length), q.groups⟩ ::
        scan m fuel (start + (rest.length - q.rest.length)) q.before q.rest
    | none =>
      match rest with
      | [] => []
      | c :: rest => scan m fuel (start + 1) (some c) rest

/-- `pattern.finditer(text)`: the matches one after the other, each from the end of the one before. -/
def finditer (m : Matcher α) (text : List α) : List (Match α) := scan m (text.length + 1) 0 none text

/-! ## The first way -/

/-- The first way to match leaves this text, with these groups. -/
def Finds (m : Matcher α) (s : Place α) (rest : List α) (groups : List (ℕ × List α)) : Prop :=
  ∃ before, (m s).head? = some ⟨before, rest, groups⟩

variable {m n : Matcher α} {s : Place α} {p : α → Bool} {b : Option α} {c : α} {t r r' : List α}
  {g g' : List (ℕ × List α)}

/-- A character is taken where it fits. -/
theorem one_cons (h : p c = true) : one p ⟨b, c :: t, g⟩ = [⟨some c, t, g⟩] := if_pos h

/-- Else nothing is. -/
theorem one_eq_nil (h : ∀ c ∈ t.head?, p c = false) : one p ⟨b, t, g⟩ = [] := by
  cases t with
  | nil => rfl
  | cons c t =>
    apply if_neg
    rw [h c rfl]
    exact Bool.false_ne_true

theorem finds_one (h : p c = true) : Finds (one p) ⟨b, c :: t, g⟩ t g := ⟨some c, by rw [one_cons h]; rfl⟩

/-- What comes after goes on from the first way, if it can. -/
theorem finds_seq (h : Finds m s r g) (h' : ∀ b, Finds n ⟨b, r, g⟩ r' g') : Finds (seq m n) s r' g' := by
  obtain ⟨b, hb⟩ := h
  obtain ⟨b', hb'⟩ := h' b
  obtain ⟨ways, hways⟩ := List.head?_eq_some_iff.mp hb
  obtain ⟨ways', hways'⟩ := List.head?_eq_some_iff.mp hb'
  refine ⟨b', ?_⟩
  unfold seq
  rw [hways, List.flatMap_cons, hways']
  rfl

/-- Where there is one way, it goes on from there. -/
theorem seq_singleton {q : Place α} (h : m s = [q]) : seq m n s = n q := by
  unfold seq
  rw [h, List.flatMap_singleton]

/-- There is no way where there is none to go on. -/
theorem seq_eq_nil (h : ∀ q ∈ m s, n q = []) : seq m n s = [] := List.flatMap_eq_nil_iff.mpr h

theorem seq_eq_nil_left (h : m s = []) : seq m n s = [] := by
  unfold seq
  rw [h]
  rfl

/-- The first alternative is taken where there is a way. -/
theorem finds_alt_left (h : Finds m s r g) : Finds (alt m n) s r g := by
  obtain ⟨b, hb⟩ := h
  obtain ⟨ways, hways⟩ := List.head?_eq_some_iff.mp hb
  refine ⟨b, ?_⟩
  unfold alt
  rw [hways]
  rfl

/-- And the other where there is none. -/
theorem finds_alt_right (hm : m s = []) (h : Finds n s r g) : Finds (alt m n) s r g := by
  unfold Finds alt
  rw [hm]
  exact h

/-- What may be there is taken where it is. -/
theorem finds_opt (h : Finds m s r g) : Finds (opt m) s r g := finds_alt_left h

theorem finds_opt_none (h : m s = []) : Finds (opt m) s s.rest s.groups := by
  refine ⟨s.before, ?_⟩
  unfold opt
  rw [h]
  rfl

/-- A group captures what the first way takes. -/
theorem finds_group (k : ℕ) (h : Finds m ⟨b, t, g⟩ r g') :
    Finds (group k m) ⟨b, t, g⟩ r ((k, t.take (t.length - r.length)) :: g') := by
  obtain ⟨b', hb'⟩ := h
  refine ⟨b', ?_⟩
  unfold group
  rw [List.head?_map, hb']
  rfl

theorem group_eq_nil (k : ℕ) (h : m s = []) : group k m s = [] := by
  unfold group
  rw [h]
  rfl

/-- One more is taken where it is. -/
theorem finds_upTo_succ {k : ℕ} (h : Finds m s r g) (h' : ∀ b, Finds (upTo m k) ⟨b, r, g⟩ r' g') :
    Finds (upTo m (k + 1)) s r' g' := finds_opt (finds_seq h h')

/-- And it ends where there is none. -/
theorem finds_upTo_of_eq_nil {k : ℕ} (h : m s = []) : Finds (upTo m k) s s.rest s.groups := by
  cases k with
  | zero => exact ⟨s.before, rfl⟩
  | succ k => exact finds_opt_none (seq_eq_nil_left h)

/-! ## Characters of a class -/

/-- Nothing is dropped where nothing would be taken. -/
theorem dropWhile_of_takeWhile (h : t.takeWhile p = []) : t.dropWhile p = t := by
  have happend := List.takeWhile_append_dropWhile (p := p) (l := t)
  rwa [h, List.nil_append] at happend

/-- As many as there are, if there are not too many. -/
theorem finds_upTo : ∀ {k : ℕ} {b : Option α} {t : List α}, (t.takeWhile p).length ≤ k →
    Finds (upTo (one p) k) ⟨b, t, g⟩ (t.dropWhile p) g
  | 0, b, t, h => by
    have hnil : t.takeWhile p = [] := List.length_eq_zero_iff.mp (Nat.le_zero.mp h)
    rw [dropWhile_of_takeWhile hnil]
    exact ⟨b, rfl⟩
  | k + 1, b, [], _ => ⟨b, rfl⟩
  | k + 1, b, c :: t, h => by
    by_cases hc : p c = true
    · rw [List.takeWhile_cons_of_pos hc, List.length_cons] at h
      rw [List.dropWhile_cons_of_pos hc]
      exact finds_upTo_succ (finds_one hc) fun b' => finds_upTo (Nat.le_of_succ_le_succ h)
    · rw [List.dropWhile_cons_of_neg hc]
      exact finds_upTo_of_eq_nil (if_neg hc)

/-- What is taken is of the class, and not more than may be. -/
theorem of_mem_upTo : ∀ {k : ℕ} {b : Option α} {t : List α} {q : Place α}, q ∈ upTo (one p) k ⟨b, t, g⟩ →
    ∃ a, t = a ++ q.rest ∧ (∀ c ∈ a, p c = true) ∧ a.length ≤ k ∧ q.groups = g
  | 0, b, t, q, h => by
    obtain rfl := List.mem_singleton.mp h
    exact ⟨[], rfl, fun c hc => absurd hc List.not_mem_nil, le_refl 0, rfl⟩
  | k + 1, b, t, q, h => by
    rcases List.mem_append.mp h with h | h
    · obtain ⟨q', hq', h⟩ := List.mem_flatMap.mp h
      cases t with
      | nil => exact absurd hq' List.not_mem_nil
      | cons c t =>
        by_cases hc : p c = true
        · rw [one_cons hc] at hq'
          obtain rfl := List.mem_singleton.mp hq'
          obtain ⟨a, rfl, ha, hlength, hgroups⟩ := of_mem_upTo h
          exact ⟨c :: a, rfl, List.forall_mem_cons.mpr ⟨hc, ha⟩, Nat.succ_le_succ hlength, hgroups⟩
        · have hnone : one p ⟨b, c :: t, g⟩ = [] := if_neg hc
          rw [hnone] at hq'
          exact absurd hq' List.not_mem_nil
    · obtain rfl := List.mem_singleton.mp h
      exact ⟨[], rfl, fun c hc => absurd hc List.not_mem_nil, Nat.zero_le _, rfl⟩

/-- So many are taken where there are as many. -/
theorem finds_exactly : ∀ {a : List α} {b : Option α}, (∀ c ∈ a, p c = true) →
    Finds (exactly (one p) a.length) ⟨b, a ++ t, g⟩ t g
  | [], b, _ => ⟨b, rfl⟩
  | c :: a, b, h => by
    obtain ⟨hc, ha⟩ := List.forall_mem_cons.mp h
    exact finds_seq (finds_one hc) fun b' => finds_exactly ha

theorem of_mem_exactly : ∀ {k : ℕ} {b : Option α} {t : List α} {q : Place α}, q ∈ exactly (one p) k ⟨b, t, g⟩ →
    ∃ a, t = a ++ q.rest ∧ (∀ c ∈ a, p c = true) ∧ a.length = k ∧ q.groups = g
  | 0, b, t, q, h => by
    obtain rfl := List.mem_singleton.mp h
    exact ⟨[], rfl, fun c hc => absurd hc List.not_mem_nil, rfl, rfl⟩
  | k + 1, b, t, q, h => by
    obtain ⟨q', hq', h⟩ := List.mem_flatMap.mp h
    cases t with
    | nil => exact absurd hq' List.not_mem_nil
    | cons c t =>
      by_cases hc : p c = true
      · rw [one_cons hc] at hq'
        obtain rfl := List.mem_singleton.mp hq'
        obtain ⟨a, rfl, ha, hlength, hgroups⟩ := of_mem_exactly h
        exact ⟨c :: a, rfl, List.forall_mem_cons.mpr ⟨hc, ha⟩, congrArg Nat.succ hlength, hgroups⟩
      · have hnone : one p ⟨b, c :: t, g⟩ = [] := if_neg hc
        rw [hnone] at hq'
        exact absurd hq' List.not_mem_nil

/-- All of them are taken. -/
theorem finds_many : Finds (many (one p)) ⟨b, t, g⟩ (t.dropWhile p) g :=
  finds_upTo (List.takeWhile_sublist p).length_le

/-- No character is taken where the first is not of the class. -/
theorem one_eq_nil_of_takeWhile (h : t.takeWhile p = []) : one p ⟨b, t, g⟩ = [] := by
  apply one_eq_nil
  intro c hc
  obtain ⟨t', rfl⟩ := List.head?_eq_some_iff.mp hc
  by_contra hp
  rw [List.takeWhile_cons_of_pos (eq_true_of_ne_false hp)] at h
  exact List.cons_ne_nil _ _ h

/-- All are taken where there must be one. -/
theorem finds_plus (h : t.takeWhile p ≠ []) : Finds (plus (one p)) ⟨b, t, g⟩ (t.dropWhile p) g := by
  cases t with
  | nil => exact absurd List.takeWhile_nil h
  | cons c t =>
    have hc : p c = true := by
      by_contra hc
      exact h (List.takeWhile_cons_of_neg hc)
    rw [List.dropWhile_cons_of_pos hc]
    exact finds_seq (finds_one hc) fun b' => finds_many

/-- And where their number is bounded, if it is within the bounds. -/
theorem finds_times {lo hi : ℕ} (hlo : lo ≤ (t.takeWhile p).length) (hhi : (t.takeWhile p).length ≤ hi) :
    Finds (times (one p) lo hi) ⟨b, t, g⟩ (t.dropWhile p) g := by
  have hmin : ((t.takeWhile p).take lo).length = lo := by
    rw [List.length_take]
    omega
  have hall : ∀ c ∈ (t.takeWhile p).take lo, p c = true := by
    intro c hc
    exact List.mem_takeWhile_imp (List.mem_of_mem_take hc)
  have hsplit : t = (t.takeWhile p).take lo ++ ((t.takeWhile p).drop lo ++ t.dropWhile p) := by
    rw [← List.append_assoc, List.take_append_drop, List.takeWhile_append_dropWhile]
  have hrest : ∀ c ∈ (t.takeWhile p).drop lo, p c = true := by
    intro c hc
    exact List.mem_takeWhile_imp (List.mem_of_mem_drop hc)
  have hnone : (t.dropWhile p).takeWhile p = [] := by
    rw [List.takeWhile_eq_nil_iff]
    intro hpos
    exact Bool.not_eq_true _ ▸ List.dropWhile_get_zero_not p t hpos
  have hfirst : Finds (exactly (one p) lo) ⟨b, t, g⟩ ((t.takeWhile p).drop lo ++ t.dropWhile p) g := by
    have hexactly := finds_exactly (b := b) (g := g) (t := (t.takeWhile p).drop lo ++ t.dropWhile p) hall
    rwa [hmin, ← hsplit] at hexactly
  refine finds_seq hfirst fun b' => ?_
  have hnext := finds_upTo (p := p) (k := hi - lo) (b := b') (g := g)
    (t := (t.takeWhile p).drop lo ++ t.dropWhile p) (by
      rw [List.takeWhile_append_of_pos hrest, hnone, List.append_nil, List.length_drop]
      omega)
  rwa [List.dropWhile_append_of_pos hrest, dropWhile_of_takeWhile hnone] at hnext

/-- What is taken then is of the class. -/
theorem of_mem_times {lo hi : ℕ} {q : Place α} (h : q ∈ times (one p) lo hi ⟨b, t, g⟩) :
    ∃ a, t = a ++ q.rest ∧ (∀ c ∈ a, p c = true) ∧ lo ≤ a.length ∧ a.length ≤ lo + (hi - lo) := by
  obtain ⟨⟨b', t', g'⟩, hq', hq⟩ := List.mem_flatMap.mp h
  obtain ⟨a, rfl, ha, hlength, hgroups⟩ := of_mem_exactly hq'
  obtain ⟨a', rfl, ha', hlength', -⟩ := of_mem_upTo hq
  refine ⟨a ++ a', (List.append_assoc ..).symm, ?_, ?_⟩
  · intro c hc
    rcases List.mem_append.mp hc with hc | hc
    · exact ha c hc
    · exact ha' c hc
  · rw [List.length_append]
    exact ⟨by omega, by omega⟩

/-- What is taken of a class where there must be one is some of it. -/
theorem of_mem_plus {q : Place α} (h : q ∈ plus (one p) ⟨b, t, g⟩) :
    ∃ a, t = a ++ q.rest ∧ (∀ c ∈ a, p c = true) ∧ a ≠ [] := by
  obtain ⟨q', hq', h⟩ := List.mem_flatMap.mp h
  cases t with
  | nil => exact absurd hq' List.not_mem_nil
  | cons c t =>
    by_cases hc : p c = true
    · rw [one_cons hc] at hq'
      obtain rfl := List.mem_singleton.mp hq'
      obtain ⟨a, rfl, ha, -, -⟩ := of_mem_upTo h
      exact ⟨c :: a, rfl, List.forall_mem_cons.mpr ⟨hc, ha⟩, List.cons_ne_nil c a⟩
    · have hnone : one p ⟨b, c :: t, g⟩ = [] := if_neg hc
      rw [hnone] at hq'
      exact absurd hq' List.not_mem_nil

/-- Where nothing goes on from a character of a class, all characters of it are taken before. -/
theorem exists_seq_upTo (hn : ∀ b c t, p c = true → n ⟨b, c :: t, g⟩ = []) : ∀ {k : ℕ} {b : Option α} {t : List α},
    (t.takeWhile p).length ≤ k → ∃ b', seq (upTo (one p) k) n ⟨b, t, g⟩ = n ⟨b', t.dropWhile p, g⟩
  | 0, b, t, h => by
    have hnil : t.takeWhile p = [] := List.length_eq_zero_iff.mp (Nat.le_zero.mp h)
    rw [dropWhile_of_takeWhile hnil]
    exact ⟨b, seq_singleton rfl⟩
  | k + 1, b, [], _ => ⟨b, seq_singleton rfl⟩
  | k + 1, b, c :: t, h => by
    by_cases hc : p c = true
    · rw [List.takeWhile_cons_of_pos hc, List.length_cons] at h
      obtain ⟨b', hb'⟩ := exists_seq_upTo hn (b := some c) (Nat.le_of_succ_le_succ h)
      refine ⟨b', ?_⟩
      rw [List.dropWhile_cons_of_pos hc, ← hb']
      unfold seq
      rw [upTo]
      dsimp only
      rw [one_cons hc, List.flatMap_singleton, List.flatMap_append, List.flatMap_singleton, hn b c t hc,
        List.append_nil]
    · have hnone : one p ⟨b, c :: t, g⟩ = [] := if_neg hc
      have hstay : upTo (one p) (k + 1) ⟨b, c :: t, g⟩ = [⟨b, c :: t, g⟩] := by
        rw [upTo]
        dsimp only
        rw [hnone]
        rfl
      rw [List.dropWhile_cons_of_neg hc]
      exact ⟨b, seq_singleton hstay⟩

/-- So it is however many there are. -/
theorem exists_seq_many (hn : ∀ b c t, p c = true → n ⟨b, c :: t, g⟩ = []) :
    ∃ b', seq (many (one p)) n ⟨b, t, g⟩ = n ⟨b', t.dropWhile p, g⟩ :=
  exists_seq_upTo hn (List.takeWhile_sublist p).length_le

/-- What a group captures makes no difference to what is left. -/
theorem of_mem_group {k : ℕ} {q : Place α} (h : q ∈ group k m s) : ∃ q' ∈ m s, q'.rest = q.rest := by
  obtain ⟨q', hq', rfl⟩ := List.mem_map.mp h
  exact ⟨q', hq', rfl⟩

/-! ## All matches -/

/-- Where there is a first way, it is a match, and the scan goes on from its end. -/
theorem scan_of_some {q : Place α} {fuel start : ℕ} (h : (m ⟨b, t, []⟩).head? = some q) :
    scan m (fuel + 1) start b t = ⟨start, start + (t.length - q.rest.length), q.groups⟩ ::
      scan m fuel (start + (t.length - q.rest.length)) q.before q.rest := by
  rw [scan.eq_def]
  dsimp only
  rw [h]

/-- Where there is none, it goes on from the next character. -/
theorem scan_of_none {fuel start : ℕ} (h : (m ⟨b, c :: t, []⟩).head? = none) :
    scan m (fuel + 1) start b (c :: t) = scan m fuel (start + 1) (some c) t := by
  rw [scan.eq_def]
  dsimp only
  rw [h]

/-- And it ends with the text. -/
theorem scan_nil {fuel start : ℕ} (h : (m ⟨b, [], []⟩).head? = none) : scan m (fuel + 1) start b [] = [] := by
  rw [scan.eq_def]
  dsimp only
  rw [h]

variable {d : α} {read : List α → Option (List α × List (ℕ × List α))}

/-- A match is one of a part of the text. -/
theorem of_mem_scan {text : List α} (hread : ∀ b t, (m ⟨b, t, []⟩).head?.map (fun q => (q.rest, q.groups)) = read t)
    (hsuffix : ∀ t x, read t = some x → x.1 <:+ t) {x : Match α} : ∀ {fuel start : ℕ} {b : Option α} {t : List α},
    start + t.length = text.length → t <:+ text → x ∈ scan m fuel start b t →
    ∃ u y, u <:+ text ∧ read u = some y ∧ x = ⟨text.length - u.length, text.length - y.1.length, y.2⟩
  | 0, _, _, _, _, _, h => absurd h List.not_mem_nil
  | fuel + 1, start, b, t, hstart, ht, h => by
    have hfirst' := hread b t
    rcases hfirst : (m ⟨b, t, []⟩).head? with _ | q
    · cases t with
      | nil =>
        rw [scan_nil hfirst] at h
        exact absurd h List.not_mem_nil
      | cons c t =>
        rw [scan_of_none hfirst] at h
        rw [List.length_cons] at hstart
        exact of_mem_scan hread hsuffix (by omega) ((List.suffix_cons c t).trans ht) h
    · rw [hfirst, Option.map_some] at hfirst'
      have hrest := hsuffix t _ hfirst'.symm
      have hle := hrest.length_le
      dsimp only at hrest hle
      rw [scan_of_some hfirst] at h
      rcases List.mem_cons.mp h with rfl | h
      · refine ⟨t, _, ht, hfirst'.symm, ?_⟩
        have hstop : start + (t.length - q.rest.length) = text.length - q.rest.length := by omega
        have hfrom : start = text.length - t.length := by omega
        rw [hstop, ← hfrom]
      · exact of_mem_scan hread hsuffix (by omega) (hrest.trans ht) h

/-- And one of a part of the text is a match, unless an earlier match goes on into it. -/
theorem mem_scan {length : ℕ} (hread : ∀ b t, (m ⟨b, t, []⟩).head?.map (fun q => (q.rest, q.groups)) = read t)
    (hsuffix : ∀ t x, read t = some x → x.1 <:+ t ∧ x.1.length < t.length) {u : List α}
    {y : List α × List (ℕ × List α)} (hu : read u = some y) :
    ∀ {fuel start : ℕ} {b : Option α} {t : List α}, t.length < fuel → start + t.length = length → u <:+ t →
    (∀ u' y', u' <:+ t → u.length < u'.length → read u' = some y' → u.length ≤ y'.1.length) →
    (⟨length - u.length, length - y.1.length, y.2⟩ : Match α) ∈ scan m fuel start b t
  | 0, _, _, _, h, _, _, _ => absurd h (Nat.not_lt_zero _)
  | fuel + 1, start, b, t, h, hstart, hut, hapart => by
    have hfirst' := hread b t
    rcases hfirst : (m ⟨b, t, []⟩).head? with _ | q
    · rw [hfirst, Option.map_none] at hfirst'
      cases t with
      | nil =>
        rw [List.suffix_nil.mp hut, ← hfirst'] at hu
        exact absurd hu (Option.some_ne_none y).symm
      | cons c t =>
        rw [scan_of_none hfirst]
        rw [List.length_cons] at h hstart
        rcases List.suffix_cons_iff.mp hut with rfl | hut
        · rw [← hfirst'] at hu
          exact absurd hu (Option.some_ne_none y).symm
        · exact mem_scan hread hsuffix hu (by omega) (by omega) hut fun u' y' hu' =>
            hapart u' y' (hu'.trans (List.suffix_cons c t))
    · rw [hfirst, Option.map_some] at hfirst'
      obtain ⟨hrest, hless⟩ := hsuffix t _ hfirst'.symm
      dsimp only at hrest hless
      rw [scan_of_some hfirst]
      rcases hut.length_le.lt_or_eq with hlt | heq
      · -- The match at the start ends before.
        have hle := hapart t _ List.suffix_rfl hlt hfirst'.symm
        dsimp only at hle
        apply List.mem_cons_of_mem
        exact mem_scan hread hsuffix hu (by omega) (by omega) (List.suffix_of_suffix_length_le hut hrest hle)
          fun u' y' hu' => hapart u' y' (hu'.trans hrest)
      · obtain rfl := hut.eq_of_length heq
        obtain rfl := Option.some.inj (hu.symm.trans hfirst'.symm)
        have hstop : start + (u.length - q.rest.length) = length - q.rest.length := by omega
        have hfrom : length - u.length = start := by omega
        rw [hstop, hfrom]
        exact List.mem_cons_self

/-- Nothing starts where the first character of a match is not. -/
theorem filterMap_read_append (hinner : ∀ t x, read t = some x → ∃ a, t = d :: (a ++ x.1) ∧ d ∉ a) :
    ∀ a : List α, d ∉ a → (a ++ t).tails.filterMap read = t.tails.filterMap read
  | [], _ => rfl
  | c :: a, hnot => by
    have hnone : read (c :: (a ++ t)) = none := by
      rw [Option.eq_none_iff_forall_not_mem]
      intro x hx
      obtain ⟨a', heq, -⟩ := hinner _ x hx
      exact hnot (List.mem_cons.mpr (.inl (List.cons.inj heq).1.symm))
    rw [List.cons_append, List.tails_cons, List.filterMap_cons, hnone]
    exact filterMap_read_append hinner a (not_or.mp (mt List.mem_cons.mpr hnot)).2

/-- Where a match starts with a character that is not inside of it, all there are are found. -/
theorem scan_eq {text : List α} (hread : ∀ b t, (m ⟨b, t, []⟩).head?.map (fun q => (q.rest, q.groups)) = read t)
    (hinner : ∀ t x, read t = some x → ∃ a, t = d :: (a ++ x.1) ∧ d ∉ a) :
    ∀ (fuel : ℕ) (a t : List α) (b : Option α), t.length < fuel → text = a ++ t →
    (scan m fuel a.length b t).map (fun x => (text.drop x.stop, x.groups)) = t.tails.filterMap read
  | 0, _, _, _, h, _ => absurd h (Nat.not_lt_zero _)
  | fuel + 1, a, t, b, h, htext => by
    have hfirst' := hread b t
    rcases hfirst : (m ⟨b, t, []⟩).head? with _ | q
    · rw [hfirst, Option.map_none] at hfirst'
      cases t with
      | nil =>
        have htails : ([] : List α).tails = [[]] := rfl
        rw [scan_nil hfirst, htails, List.filterMap_cons, ← hfirst']
        rfl
      | cons c t =>
        rw [List.length_cons] at h
        have hnext := scan_eq hread hinner fuel (a ++ [c]) t (some c) (Nat.lt_of_succ_lt_succ h)
          (htext.trans (List.append_assoc a [c] t).symm)
        rw [List.length_append, List.length_singleton] at hnext
        rw [scan_of_none hfirst, hnext, List.tails_cons, List.filterMap_cons, ← hfirst']
    · rw [hfirst, Option.map_some] at hfirst'
      obtain ⟨a', hsplit, hnot⟩ := hinner t _ hfirst'.symm
      dsimp only at hsplit
      subst hsplit
      have hassoc : text = (a ++ d :: a') ++ q.rest := htext.trans (List.append_assoc a (d :: a') q.rest).symm
      have hstop : a.length + ((d :: (a' ++ q.rest)).length - q.rest.length) = (a ++ d :: a').length := by
        simp only [List.length_append, List.length_cons]
        omega
      have hless : q.rest.length < fuel := by
        simp only [List.length_cons, List.length_append] at h
        omega
      have hnext := scan_eq hread hinner fuel (a ++ d :: a') q.rest q.before hless hassoc
      have hdrop : text.drop (a ++ d :: a').length = q.rest := by rw [hassoc, List.drop_left]
      rw [scan_of_some hfirst, hstop, List.map_cons, hnext, hdrop, List.tails_cons, List.filterMap_cons, ← hfirst']
      dsimp only
      -- Nothing starts inside of the match.
      rw [filterMap_read_append hinner a' hnot]

/-- So it is of a whole text. -/
theorem finditer_eq (text : List α)
    (hread : ∀ b t, (m ⟨b, t, []⟩).head?.map (fun q => (q.rest, q.groups)) = read t)
    (hinner : ∀ t x, read t = some x → ∃ a, t = d :: (a ++ x.1) ∧ d ∉ a) :
    (finditer m text).map (fun x => (text.drop x.stop, x.groups)) = text.tails.filterMap read :=
  scan_eq hread hinner (text.length + 1) [] text none (Nat.lt_succ_self _) rfl

end Matchers

end JobScripts.Lib.Backtracking
