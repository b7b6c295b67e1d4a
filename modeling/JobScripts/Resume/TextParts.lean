import Mathlib.Data.List.Induction
import Mathlib.Data.Nat.Notation

/-!
# The parts of a resume's text

`store_text` of `api/resumes/text_versions.py` gathers the fragments of a text in a buffer, and writes the buffer as a
part each time it is full. `parts_flatten` says that the parts are the text, and `length_of_mem_parts` that no part is
longer than the buffer.
-/

namespace JobScripts.Resume

/-- A Python string, by its code points. -/
abbrev Text := List ℕ

/-- `TEXT_PART_CHARS`: the characters of one part of a text. -/
def textPartChars : ℕ := 32768

/-- The buffer has room. -/
theorem textPartChars_pos : 0 < textPartChars := by decide

/-- What `store_text` has gathered. The index of the next part is the number of parts. -/
structure Gathered where
  buffer : Text := []
  chars : ℕ := 0
  parts : List Text := []
  has_text : Bool := false

/-- `while offset < len(fragment)`. Each turn takes a character, so as many turns as there are characters do. -/
def fill : ℕ → Text → ℕ → Text → List Text → Text × List Text
  | 0, _, _, buffer, parts => (buffer, parts)
  | turns + 1, fragment, offset, buffer, parts =>
    if offset < fragment.length then
      let take := min (textPartChars - buffer.length) (fragment.length - offset)
      let buffer := buffer ++ (fragment.drop offset).take take
      if buffer.length = textPartChars then fill turns fragment (offset + take) [] (parts ++ [buffer])
      else fill turns fragment (offset + take) buffer parts
    else (buffer, parts)

/-- `for fragment in fragments`: a fragment is gathered into the parts, of which the full ones are written. -/
def Gathered.add (isSpace : ℕ → Bool) (g : Gathered) (fragment : Text) : Gathered :=
  let (buffer, parts) := fill fragment.length fragment 0 g.buffer g.parts
  { buffer, parts
    chars := g.chars + fragment.length
    has_text := g.has_text || fragment.any fun c => !isSpace c }

/-- The parts, with what is left in the buffer. -/
def Gathered.close (g : Gathered) : List Text := if g.buffer ≠ [] then g.parts ++ [g.buffer] else g.parts

/-- The loop of `store_text`. -/
def gather (isSpace : ℕ → Bool) (fragments : List Text) : Gathered := fragments.foldl (Gathered.add isSpace) {}

/-- The parts that `store_text` writes. -/
def parts (isSpace : ℕ → Bool) (fragments : List Text) : List Text := (gather isSpace fragments).close

/-- What the loop keeps: the buffer is not full, the text so far is in the parts and the buffer, and no part is longer
than the buffer can be. -/
structure Gathers (text : Text) (buffer : Text) (parts : List Text) : Prop where
  room : buffer.length < textPartChars
  text : parts.flatten ++ buffer = text
  short : ∀ part ∈ parts, part ≠ [] ∧ part.length ≤ textPartChars

/-- The loop over a fragment, from any offset and with enough turns, gathers what is left of it. -/
theorem Gathers.fill {text buffer : Text} {parts : List Text} (fragment : Text) :
    ∀ (turns offset : ℕ), fragment.length - offset ≤ turns → Gathers text buffer parts →
      Gathers (text ++ fragment.drop offset) (fill turns fragment offset buffer parts).1
        (fill turns fragment offset buffer parts).2 := by
  intro turns
  induction turns generalizing text buffer parts with
  | zero =>
    intro offset hturns h
    have hdrop : fragment.drop offset = [] := List.drop_eq_nil_of_le (by omega)
    rw [hdrop, List.append_nil]
    exact h
  | succ turns ih =>
    intro offset hturns h
    unfold Resume.fill
    by_cases hoff : offset < fragment.length
    · rw [if_pos hoff]
      have hroom := h.room
      -- The turn takes at least one character.
      obtain ⟨n, hn⟩ : ∃ n, n = min (textPartChars - buffer.length) (fragment.length - offset) := ⟨_, rfl⟩
      rw [← hn]
      have hpos : 0 < n := by omega
      have hlen : (buffer ++ (fragment.drop offset).take n).length = buffer.length + n := by
        rw [List.length_append, List.length_take, List.length_drop]
        omega
      have hrest : text ++ fragment.drop offset =
          (text ++ (fragment.drop offset).take n) ++ fragment.drop (offset + n) := by
        rw [List.append_assoc, ← List.drop_drop, List.take_append_drop]
      dsimp only
      rw [hrest]
      split
      · next hfull =>
        refine ih (offset + n) (by omega) ⟨textPartChars_pos, ?_, ?_⟩
        · rw [List.flatten_append, List.flatten_singleton, List.append_nil, ← List.append_assoc, h.text]
        · intro part hpart
          rcases List.mem_append.mp hpart with hpart | hpart
          · exact h.short part hpart
          · rw [List.mem_singleton.mp hpart]
            refine ⟨List.ne_nil_of_length_pos (by omega), Nat.le_of_eq hfull⟩
      · next hfull =>
        refine ih (offset + n) (by omega) ⟨by omega, ?_, h.short⟩
        rw [← List.append_assoc, h.text]
    · rw [if_neg hoff, List.drop_eq_nil_of_le (by omega), List.append_nil]
      exact h

/-- A fragment is gathered behind the text so far. -/
theorem Gathers.add {isSpace : ℕ → Bool} {text : Text} {g : Gathered} (h : Gathers text g.buffer g.parts)
    (fragment : Text) :
    Gathers (text ++ fragment) (g.add isSpace fragment).buffer (g.add isSpace fragment).parts := by
  have hfill := h.fill fragment fragment.length 0 (by omega)
  rw [List.drop_zero] at hfill
  exact hfill

/-- The fragments are gathered in order, and counted. -/
theorem gather_spec (isSpace : ℕ → Bool) (fragments : List Text) :
    Gathers fragments.flatten (gather isSpace fragments).buffer (gather isSpace fragments).parts ∧
      (gather isSpace fragments).chars = fragments.flatten.length := by
  induction fragments using List.reverseRecOn with
  | nil => exact ⟨⟨textPartChars_pos, rfl, fun _ => nofun⟩, rfl⟩
  | append_singleton fragments fragment ih =>
    obtain ⟨hgathers, hchars⟩ := ih
    unfold gather at *
    rw [List.foldl_append, List.foldl_cons, List.foldl_nil, List.flatten_append, List.flatten_singleton,
      List.length_append, ← hchars]
    exact ⟨hgathers.add fragment, rfl⟩

/-- The parts are the text. -/
theorem parts_flatten (isSpace : ℕ → Bool) (fragments : List Text) :
    (parts isSpace fragments).flatten = fragments.flatten := by
  obtain ⟨hgathers, -⟩ := gather_spec isSpace fragments
  unfold parts Gathered.close
  split
  · rw [List.flatten_append, List.flatten_singleton, hgathers.text]
  · next hbuffer =>
    have htext := hgathers.text
    rw [not_not.mp hbuffer, List.append_nil] at htext
    exact htext

/-- No part is empty, or longer than the buffer. -/
theorem length_of_mem_parts {isSpace : ℕ → Bool} {fragments : List Text} {part : Text}
    (h : part ∈ parts isSpace fragments) : part ≠ [] ∧ part.length ≤ textPartChars := by
  obtain ⟨hgathers, -⟩ := gather_spec isSpace fragments
  unfold parts Gathered.close at h
  split at h
  · next hbuffer =>
    rcases List.mem_append.mp h with h | h
    · exact hgathers.short part h
    · rw [List.mem_singleton.mp h]
      exact ⟨hbuffer, Nat.le_of_lt hgathers.room⟩
  · exact hgathers.short part h

end JobScripts.Resume
