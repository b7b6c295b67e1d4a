import JobScripts.Lib.Run
import JobScripts.Recipe.Parser

/-!
# The parser as a pushdown machine

The flat fields of a `RecipeParser` hold more than its state: a field keeps its last value when the
mode that uses it is left, and a frame may be in memory or in the store. The machine here is what
remains without that: a stack of frames, the facts about the recipe, and a mode that carries the
registers it uses and no others. `Represents` says that a parser, with what it could load, stands
for a machine, and `step_agrees` that the two go on together, byte by byte, with the same errors.
Everything else about the parser is proved of the machine.
-/

namespace JobScripts.Recipe

open Lib Lib.Json

/-! ## The machine -/

/-- What is known about the recipe so far. -/
structure Facts where
  root_name : Bool
  root_matches : Bool
  root_fields : Bool
  match_count : ℕ

/-- A string that is being read: what for, and what is kept of it. -/
structure Captured where
  role : StringContext
  prefix_ : List ℕ
  truncated : Bool

/-- A UTF-8 sequence that is being read. -/
structure Utf8 where
  left : ℕ
  value : ℕ
  min : ℕ

/-- A mode with its registers. A literal is what is left of it. -/
inductive Reading
  | root
  | default
  | string (s : Captured) (utf8 : Option Utf8)
  | escape (s : Captured)
  | unicode (s : Captured) (digits : List UInt8)
  | number (state : NumberState)
  | literal (rest : List UInt8)

/-- The machine; the innermost container is on top. -/
structure Machine where
  stack : List Frame
  facts : Facts
  mode : Reading

/-- The machine before the first byte. -/
def Machine.initial : Machine := ⟨[rootFrame], ⟨false, false, false, 0⟩, .root⟩

/-- The machine as a step leaves it, or the text of an `InvalidRecipe`. -/
abbrev MachineResult := Except String Machine

/-- The frame of an object. -/
def objectFrame (parent : Frame) : Frame :=
  { kind := .object, scope := if parent.scope = .fields then .field else .other, state := .keyOrEnd }

/-- The frame of an array. -/
def arrayFrame (parent : Frame) : Frame :=
  { kind := .array, scope := arrayScope parent, state := .valueOrEnd }

/-- An array seen under `matches` or `fields`. -/
def Facts.openArray (facts : Facts) (parent : Frame) : Facts :=
  if parent.scope = .root && parent.key = codes "matches" then { facts with root_matches := true }
  else if parent.scope = .root && parent.key = codes "fields" then { facts with root_fields := true }
  else facts

/-- An array seen under `variants`. -/
def Frame.openArray (parent : Frame) : Frame :=
  if parent.scope = .field && parent.key = codes "variants" then
    { parent with variants_valid := true }
  else parent

/-- A container is left. -/
def popFrame (frame : Frame) (rest : List Frame) (facts : Facts) : MachineResult :=
  if frame.scope = .field && !(frame.name_valid && frame.variants_valid) then
    .error "each field needs a name and variants list"
  else .ok ⟨rest, facts, .default⟩

/-- The frame requires a value of another JSON type. -/
def wrongKind (frame : Frame) (kind : JsonKind) : Bool := (requiredKind frame).any (· ≠ kind)

/-- A value begins. -/
def beginValue (frame : Frame) (rest : List Frame) (facts : Facts) (byte : UInt8) :
    MachineResult :=
  if wrongKind frame (kindOf byte) then .error "recipe field has the wrong JSON type"
  else
    let parent := { frame with state := .commaOrEnd }
    match kindOf byte with
    | .object => .ok ⟨objectFrame parent :: parent :: rest, facts, .default⟩
    | .array =>
      .ok ⟨arrayFrame parent :: parent.openArray :: rest, facts.openArray parent, .default⟩
    | .string => .ok ⟨parent :: rest, facts, .string ⟨.value, [], false⟩ none⟩
    | .number =>
      match Parser.numberStep .start byte with
      | .ok (some state) => .ok ⟨parent :: rest, facts, .number state⟩
      | .ok none => .ok ⟨parent :: rest, facts, .default⟩
      | .error e => .error e
    | .literal =>
      match literalOf byte with
      | some literal => .ok ⟨parent :: rest, facts, .literal (literal.drop 1)⟩
      | none => .error "invalid recipe JSON value"

section

variable (U : UnicodeData) (adapter : String)

/-- One more character of a string. -/
def Captured.push (s : Captured) (frame : Frame) (character : ℕ) : Captured :=
  if s.prefix_.length < Parser.keep adapter s.role frame then
    { s with prefix_ := s.prefix_ ++ [character] }
  else { s with truncated := true }

/-- A key ends. -/
def endKey (frame : Frame) (s : Captured) : Except String Frame :=
  let key := if !s.truncated then s.prefix_ else []
  if ((requiredKeys frame.scope).lookup key).isSome then
    if key ∈ frame.seen then .error "duplicate recipe field"
    else .ok { frame with key, state := .colon, seen := frame.seen ++ [key] }
  else .ok { frame with key, state := .colon }

/-- A string value ends. -/
def endText (frame : Frame) (facts : Facts) (s : Captured) : Except String (Frame × Facts) :=
  if frame.scope = .root && frame.key = codes "name" then
    .ok (frame, { facts with root_name := !s.truncated && U.lower s.prefix_ = codes adapter })
  else if frame.scope = .field && frame.key = codes "name" then
    .ok ({ frame with name_valid := true }, facts)
  else if frame.scope = .matches then
    if !(codes "https://").isPrefixOf s.prefix_ then
      .error "matches must contain only https:// patterns"
    else .ok (frame, { facts with match_count := facts.match_count + 1 })
  else .ok (frame, facts)

namespace Machine

/-- A character of the string is complete. -/
def capture (m : Machine) (s : Captured) (character : ℕ) : MachineResult :=
  match m.stack with
  | [] => .error "recipe parser state is missing"
  | frame :: _ => .ok { m with mode := .string (s.push adapter frame character) none }

/-- The closing quotation mark. -/
def endString (m : Machine) (s : Captured) : MachineResult :=
  match m.stack with
  | [] => .error "recipe parser state is missing"
  | frame :: rest =>
    if s.role = .key then
      match endKey frame s with
      | .ok frame => .ok ⟨frame :: rest, m.facts, .default⟩
      | .error e => .error e
    else
      match endText U adapter frame m.facts s with
      | .ok (frame, facts) => .ok ⟨frame :: rest, facts, .default⟩
      | .error e => .error e

/-- A byte inside a string. -/
def stepString (m : Machine) (s : Captured) (byte : UInt8) : MachineResult :=
  if byte = quote then m.endString U adapter s
  else if byte = backslash then .ok { m with mode := .escape s }
  else if byte < 0x20 then .error "control character in recipe JSON string"
  else if byte < 0x80 then m.capture adapter s byte.toNat
  else if 0xC2 ≤ byte && byte ≤ 0xDF then
    .ok { m with mode := .string s (some ⟨1, byte.toNat &&& 0x1F, 0x80⟩) }
  else if 0xE0 ≤ byte && byte ≤ 0xEF then
    .ok { m with mode := .string s (some ⟨2, byte.toNat &&& 0x0F, 0x800⟩) }
  else if 0xF0 ≤ byte && byte ≤ 0xF4 then
    .ok { m with mode := .string s (some ⟨3, byte.toNat &&& 0x07, 0x10000⟩) }
  else .error "invalid UTF-8 in recipe JSON"

/-- A byte inside a UTF-8 sequence. -/
def stepUtf8 (m : Machine) (s : Captured) (utf8 : Utf8) (byte : UInt8) : MachineResult :=
  if byte.toNat &&& 0xC0 ≠ 0x80 then .error "invalid UTF-8 in recipe JSON"
  else
    let value := utf8.value <<< 6 ||| (byte.toNat &&& 0x3F)
    if utf8.left - 1 = 0 then
      if value < utf8.min || value > 0x10FFFF || isSurrogate value then
        .error "invalid UTF-8 in recipe JSON"
      else m.capture adapter s value
    else .ok { m with mode := .string s (some ⟨utf8.left - 1, value, utf8.min⟩) }

/-- A byte between the tokens of a container. -/
def stepDefault (m : Machine) (byte : UInt8) : MachineResult :=
  if isSpace byte then .ok { m with mode := .default }
  else
    match m.stack with
    | [] => .error "trailing data after recipe JSON"
    | frame :: rest =>
      match frame.kind, frame.state with
      | .object, .keyOrEnd =>
        if byte = closeObject then popFrame frame rest m.facts
        else if byte = quote then
          .ok ⟨frame :: rest, m.facts, .string ⟨.key, [], false⟩ none⟩
        else .error "invalid recipe JSON object"
      | .object, .key =>
        if byte = quote then .ok ⟨frame :: rest, m.facts, .string ⟨.key, [], false⟩ none⟩
        else .error "invalid recipe JSON object"
      | .object, .colon =>
        if byte = colon then .ok ⟨{ frame with state := .value } :: rest, m.facts, .default⟩
        else .error "invalid recipe JSON object"
      | .object, .value => beginValue frame rest m.facts byte
      | .object, _ =>
        if byte = comma then .ok ⟨{ frame with state := .key } :: rest, m.facts, .default⟩
        else if byte = closeObject then popFrame frame rest m.facts
        else .error "invalid recipe JSON object"
      | .array, .valueOrEnd =>
        if byte = closeArray then popFrame frame rest m.facts
        else beginValue frame rest m.facts byte
      | .array, .value => beginValue frame rest m.facts byte
      | .array, _ =>
        if byte = comma then .ok ⟨{ frame with state := .value } :: rest, m.facts, .default⟩
        else if byte = closeArray then popFrame frame rest m.facts
        else .error "invalid recipe JSON array"

/-- One byte. -/
def step (m : Machine) (byte : UInt8) : MachineResult :=
  match m.mode with
  | .root =>
    if isSpace byte then .ok m
    else if byte = openObject then .ok { m with mode := .default }
    else .error "a recipe is an object"
  | .string s none => m.stepString U adapter s byte
  | .string s (some utf8) => m.stepUtf8 adapter s utf8 byte
  | .escape s =>
    if byte = unicodeEscape then .ok { m with mode := .unicode s [] }
    else
      match escapeValue byte with
      | some character => m.capture adapter s character
      | none => .error "invalid escape in recipe JSON"
  | .unicode s digits =>
    if (hexValue byte).isNone then .error "invalid Unicode escape in recipe JSON"
    else if (digits ++ [byte]).length = 4 then
      m.capture adapter s (Parser.hexNumber (digits ++ [byte]))
    else .ok { m with mode := .unicode s (digits ++ [byte]) }
  | .number state =>
    match Parser.numberStep state byte with
    | .ok (some state) => .ok { m with mode := .number state }
    | .ok none => m.stepDefault byte
    | .error e => .error e
  | .literal rest =>
    match rest with
    | [] => .error "invalid recipe JSON literal"
    | b :: rest =>
      if b ≠ byte then .error "invalid recipe JSON literal"
      else if rest = [] then .ok { m with mode := .default }
      else .ok { m with mode := .literal rest }
  | .default => m.stepDefault byte

/-- Any number of bytes. -/
def run (m : Machine) (bytes : List UInt8) : MachineResult :=
  bytes.foldlM (fun m byte => m.step U adapter byte) m

end Machine

end

/-- The end of the text is accepted. -/
def Machine.Done (m : Machine) : Prop :=
  (m.mode = .default ∨ ∃ state, m.mode = .number state ∧ Parser.numberEnds state = true) ∧
    m.stack = [] ∧ m.facts.root_name = true ∧ m.facts.root_matches = true ∧
    m.facts.root_fields = true ∧ m.facts.match_count ≠ 0

/-! ## A parser that stands for a machine -/

/-- The facts that a parser's fields hold. -/
def Checkpoint.facts (c : Checkpoint) : Facts :=
  ⟨c.root_name, c.root_matches, c.root_fields, c.match_count⟩

/-- The string that a parser's fields hold. -/
def Checkpoint.captured (c : Checkpoint) : Captured := ⟨c.string_context, c.prefix_, c.truncated⟩

/-- The fields of a parser hold a mode and its registers. -/
def Checkpoint.Reads (c : Checkpoint) : Reading → Prop
  | .root => c.mode = .root
  | .default => c.mode = .default
  | .string s none => c.mode = .string ∧ c.captured = s ∧ c.utf8_left = 0
  | .string s (some utf8) =>
    c.mode = .string ∧ c.captured = s ∧ utf8 = ⟨c.utf8_left, c.utf8_value, c.utf8_min⟩ ∧
      c.utf8_left ≠ 0
  | .escape s => c.mode = .escape ∧ c.captured = s ∧ c.utf8_left = 0
  | .unicode s digits =>
    c.mode = .unicode ∧ c.captured = s ∧ c.utf8_left = 0 ∧ c.unicode_digits = digits
  | .number state => c.mode = .number ∧ c.number_state = state
  | .literal rest =>
    c.mode = .literal ∧ c.literal.drop c.literal_pos = rest ∧ c.literal_pos < c.literal.length

/-- A dictionary of frames holds a stack, the bottom at index zero. -/
def Holds (frames : ℕ → Option Frame) : List Frame → Prop
  | [] => True
  | frame :: rest => frames rest.length = some frame ∧ Holds frames rest

/-- A parser's frames, with those it could load, are the stack; and what it has popped to and pushed
again since it started, it holds. -/
structure Stacks (load_frame : ℕ → Option Frame) (p : Parser) (stack : List Frame) : Prop where
  depth : p.depth = stack.length
  frames : Holds (fun i => (p.frames i).or (load_frame i)) stack
  held : ∀ d, p.deleted_from = some d → ∀ i, d ≤ i → i < p.depth → (p.frames i).isSome

/-- A parser, with what it could load, stands for a machine. -/
structure Represents (load_frame : ℕ → Option Frame) (p : Parser) (m : Machine) : Prop where
  stack : Stacks load_frame p m.stack
  facts : p.facts = m.facts
  mode : p.Reads m.mode
  inside : m.mode = .default ∨ m.stack ≠ []

/-- A stack is held by what agrees below its height. -/
theorem Holds.congr {f g : ℕ → Option Frame} : ∀ {stack : List Frame}, Holds f stack →
    (∀ i < stack.length, g i = f i) → Holds g stack
  | [], _, _ => trivial
  | _ :: rest, h, hfg =>
    ⟨(hfg rest.length (Nat.lt_succ_self _)).trans h.1,
      h.2.congr fun i hi => hfg i (Nat.lt_succ_of_lt hi)⟩

variable {load_frame : ℕ → Option Frame} {p q : Parser} {top : Frame} {stack rest : List Frame}

/-- Only the depth, the frames and `deleted_from` matter for the stack. -/
theorem Stacks.of_eq (h : Stacks load_frame p stack) (hd : q.depth = p.depth)
    (hf : q.frames = p.frames) (hdel : q.deleted_from = p.deleted_from) :
    Stacks load_frame q stack := by
  refine ⟨hd.trans h.depth, ?_, ?_⟩
  · rw [hf]
    exact h.frames
  · rw [hf, hd, hdel]
    exact h.held

/-- Reading the current frame leaves everything but the dictionary alone. -/
theorem Stacks.frame (h : Stacks load_frame p (top :: rest)) :
    ∃ p', p.frame load_frame = .ok (top, p') ∧ Stacks load_frame p' (top :: rest) ∧
      p'.toCheckpoint = p.toCheckpoint := by
  have hindex : p.depth - 1 = rest.length := by rw [h.depth, List.length_cons, Nat.add_sub_cancel]
  have htop : (p.frames rest.length).or (load_frame rest.length) = some top := h.frames.1
  unfold Parser.frame
  rw [hindex]
  cases hf : p.frames rest.length with
  | some f =>
    obtain rfl : f = top := by simpa [hf] using htop
    exact ⟨p, by simp only [hf], h, rfl⟩
  | none =>
    rw [hf, Option.none_or] at htop
    refine ⟨{ p with frames := Function.update p.frames rest.length (some top) },
      by simp only [hf, htop], ⟨h.depth, ?_, fun d hd i hdi hi => ?_⟩, rfl⟩
    · refine ⟨by simp, h.frames.2.congr fun i hi => ?_⟩
      simp only [Function.update_of_ne (Nat.ne_of_lt hi)]
    · by_cases heq : i = rest.length
      · simp [heq]
      · simp only [Function.update_of_ne heq]
        exact h.held d hd i hdi hi

/-- The current frame may be changed. -/
theorem Stacks.setFrame (h : Stacks load_frame p (top :: rest)) (g : Frame) :
    Stacks load_frame (p.setFrame g) (g :: rest) := by
  have hindex : p.depth - 1 = rest.length := by rw [h.depth, List.length_cons, Nat.add_sub_cancel]
  refine ⟨h.depth, ⟨?_, h.frames.2.congr fun i hi => ?_⟩, fun d hd i hdi hi => ?_⟩
  · simp [Parser.setFrame, hindex]
  · simp only [Parser.setFrame, hindex, Function.update_of_ne (Nat.ne_of_lt hi)]
  · by_cases heq : i = rest.length
    · simp [Parser.setFrame, hindex, heq]
    · simp only [Parser.setFrame, hindex, Function.update_of_ne heq]
      exact h.held d hd i hdi hi

/-- A frame may be pushed. -/
theorem Stacks.push (h : Stacks load_frame p stack) (g : Frame) :
    Stacks load_frame (p.push g) (g :: stack) := by
  refine ⟨?_, ⟨?_, h.frames.congr fun i hi => ?_⟩, fun d hd i hdi hi => ?_⟩
  · simp only [Parser.push, h.depth, List.length_cons]
  · simp [Parser.push, h.depth]
  · simp only [Parser.push, h.depth, Function.update_of_ne (Nat.ne_of_lt hi)]
  · by_cases heq : i = p.depth
    · simp [Parser.push, heq]
    · simp only [Parser.push, Function.update_of_ne heq] at hi ⊢
      exact h.held d hd i hdi (by omega)

/-- The current frame may be popped. -/
theorem Stacks.pop (h : Stacks load_frame p (top :: rest)) :
    Stacks load_frame { p with
      depth := p.depth - 1
      deleted_from := some (p.deleted_from.elim (p.depth - 1) (min · (p.depth - 1))) } rest := by
  have hindex : p.depth - 1 = rest.length := by rw [h.depth, List.length_cons, Nat.add_sub_cancel]
  refine ⟨hindex, h.frames.2, fun d hd i hdi hi => ?_⟩
  simp only [Option.some.injEq] at hd
  dsimp only at hi ⊢
  -- What is left below the new depth was popped to before, and is held.
  cases hdel : p.deleted_from with
  | none =>
    rw [hdel, Option.elim_none] at hd
    omega
  | some d₀ =>
    rw [hdel, Option.elim_some] at hd
    exact h.held d₀ hdel i (by omega) (by omega)

/-! ## The parser follows the machine -/

section

variable (U : UnicodeData) (adapter : String) {m : Machine} {s : Captured}

/-- A container is left on both sides. -/
theorem pop_agrees (h : Stacks load_frame p (top :: rest)) (hmode : p.mode = .default) :
    Agrees (Represents load_frame) (p.pop load_frame) (popFrame top rest p.facts) := by
  obtain ⟨p', hp', hstack, hcheck⟩ := h.frame
  have hfacts : p'.facts = p.facts := by rw [hcheck]
  have hmode' : p'.mode = .default := by rw [hcheck, hmode]
  unfold Parser.pop popFrame
  rw [hp']
  simp only [bind, Except.bind]
  split
  · rfl
  · exact ⟨hstack.pop, hfacts, hmode', .inl rfl⟩

/-- A character is captured on both sides, and the string goes on. -/
theorem capture_agrees {facts : Facts} {mode : Reading} (h : Stacks load_frame p (top :: rest))
    (hfacts : p.facts = facts) (hs : p.captured = s) (hu : p.utf8_left = 0) (character : ℕ) :
    ∃ p' m', p.capture adapter load_frame character = .ok p' ∧ p'.mode = p.mode ∧
      Machine.capture adapter ⟨top :: rest, facts, mode⟩ s character = .ok m' ∧
      Represents load_frame { p' with mode := .string } m' := by
  obtain ⟨p₁, hp₁, hstack, hcheck⟩ := h.frame
  subst hs
  unfold Parser.capture Machine.capture Captured.push
  rw [hp₁]
  simp only [bind, Except.bind, pure, Except.pure]
  have hpre : p₁.prefix_ = p.captured.prefix_ := by rw [hcheck]; rfl
  have hrole : p₁.string_context = p.captured.role := by rw [hcheck]; rfl
  have htrunc : p₁.truncated = p.captured.truncated := by rw [hcheck]; rfl
  have hmode : p₁.mode = p.mode := by rw [hcheck]
  have hfacts₁ : p₁.facts = facts := by rw [hcheck, hfacts]
  have hleft : p₁.utf8_left = 0 := by rw [hcheck, hu]
  rw [hpre, hrole]
  split
  · refine ⟨_, _, rfl, hmode, rfl, hstack.of_eq rfl rfl rfl, hfacts₁, ⟨rfl, ?_, hleft⟩,
      .inr (by simp)⟩
    simp only [Checkpoint.captured, htrunc]
  · refine ⟨_, _, rfl, hmode, rfl, hstack.of_eq rfl rfl rfl, hfacts₁, ⟨rfl, ?_, hleft⟩,
      .inr (by simp)⟩
    simp only [Checkpoint.captured]

/-- A string ends on both sides. -/
theorem endString_agrees {facts : Facts} {mode : Reading} (h : Stacks load_frame p (top :: rest))
    (hfacts : p.facts = facts) (hs : p.captured = s) :
    Agrees (Represents load_frame) (p.endString U adapter load_frame)
      (Machine.endString U adapter ⟨top :: rest, facts, mode⟩ s) := by
  obtain ⟨p₁, hp₁, hstack, hcheck⟩ :=
    (h.of_eq (q := { p with mode := .default }) rfl rfl rfl).frame
  subst hs
  have hpre : p₁.prefix_ = p.captured.prefix_ := by rw [hcheck]; rfl
  have hrole : p₁.string_context = p.captured.role := by rw [hcheck]; rfl
  have htrunc : p₁.truncated = p.captured.truncated := by rw [hcheck]; rfl
  have hmode : p₁.mode = .default := by rw [hcheck]
  have hfacts₁ : p₁.facts = facts := by rw [hcheck]; exact hfacts
  unfold Parser.endString Machine.endString
  rw [hp₁]
  simp only [bind, Except.bind, pure, Except.pure, throw, throwThe, MonadExceptOf.throw, hrole,
    hpre, htrunc]
  split
  · unfold endKey
    dsimp only
    generalize (if (!p.captured.truncated) = true then p.captured.prefix_ else []) = key
    split
    · split
      · rfl
      · exact ⟨hstack.setFrame _, hfacts₁, hmode, .inl rfl⟩
    · exact ⟨hstack.setFrame _, hfacts₁, hmode, .inl rfl⟩
  · unfold endText
    split
    · refine ⟨hstack.of_eq rfl rfl rfl, ?_, hmode, .inl rfl⟩
      rw [← hfacts₁]
      rfl
    · split
      · exact ⟨hstack.setFrame _, hfacts₁, hmode, .inl rfl⟩
      · split
        · split
          · rfl
          · refine ⟨hstack.of_eq rfl rfl rfl, ?_, hmode, .inl rfl⟩
            rw [← hfacts₁]
            rfl
        · exact ⟨hstack, hfacts₁, hmode, .inl rfl⟩

/-- A value begins on both sides. -/
theorem startValue_agrees (h : Stacks load_frame p (top :: rest)) (hmode : p.mode = .default)
    (byte : UInt8) :
    Agrees (Represents load_frame) (p.startValue load_frame byte)
      (beginValue top rest p.facts byte) := by
  obtain ⟨p₁, hp₁, hstack, hcheck⟩ := h.frame
  have hmode₁ : p₁.mode = .default := by rw [hcheck, hmode]
  have hfacts₁ : p₁.facts = p.facts := by rw [hcheck]
  unfold Parser.startValue beginValue wrongKind
  rw [hp₁]
  simp only [bind, Except.bind, pure, Except.pure, throw, throwThe, MonadExceptOf.throw]
  split
  · rfl
  · cases kindOf byte with
    -- An object and an array open a frame on both sides.
    | object => exact ⟨(hstack.setFrame _).push _, hfacts₁, hmode₁, .inl rfl⟩
    | array =>
      dsimp only
      unfold Frame.openArray Facts.openArray
      dsimp only
      split
      -- Each key is looked for in the frame where it counts, which is not that of a field.
      · next hkey =>
        have hfield : ¬(top.scope = .field && top.key = codes "variants") = true := by
          simp only [Bool.and_eq_true, decide_eq_true_eq] at hkey ⊢
          simp [hkey.1]
        rw [if_neg hfield]
        refine ⟨((hstack.setFrame _).push _).of_eq rfl rfl rfl, ?_, hmode₁, .inl rfl⟩
        rw [← hfacts₁]
        rfl
      · split
        · next hkey =>
          have hfield : ¬(top.scope = .field && top.key = codes "variants") = true := by
            simp only [Bool.and_eq_true, decide_eq_true_eq] at hkey ⊢
            simp [hkey.1]
          rw [if_neg hfield]
          refine ⟨((hstack.setFrame _).push _).of_eq rfl rfl rfl, ?_, hmode₁, .inl rfl⟩
          rw [← hfacts₁]
          rfl
        · split
          · exact ⟨(hstack.setFrame _).push _, hfacts₁, hmode₁, .inl rfl⟩
          · exact ⟨(hstack.setFrame _).push _, hfacts₁, hmode₁, .inl rfl⟩
    -- A string is read on with nothing of it kept yet.
    | string =>
      exact ⟨(hstack.setFrame _).of_eq rfl rfl rfl, hfacts₁, ⟨rfl, rfl, rfl⟩, .inr (by simp)⟩
    -- The first byte of a number may be all of it.
    | number =>
      unfold Parser.number
      simp only [bind, Except.bind, pure, Except.pure]
      cases Parser.numberStep .start byte with
      | error e => rfl
      | ok state =>
        cases state with
        | none => exact ⟨(hstack.setFrame _).of_eq rfl rfl rfl, hfacts₁, rfl, .inl rfl⟩
        | some state =>
          exact ⟨(hstack.setFrame _).of_eq rfl rfl rfl, hfacts₁, ⟨rfl, rfl⟩, .inr (by simp)⟩
    -- A literal has more than one byte to come.
    | literal =>
      dsimp only
      cases hl : literalOf byte with
      | none => rfl
      | some literal =>
        have hlen : 1 < literal.length := by
          unfold literalOf at hl
          split_ifs at hl <;> obtain rfl := Option.some.inj hl <;> decide
        exact ⟨(hstack.setFrame _).of_eq rfl rfl rfl, hfacts₁, ⟨rfl, rfl, hlen⟩, .inr (by simp)⟩

/-- A byte between tokens on both sides. -/
theorem stepDefault_agrees {facts : Facts} {mode : Reading} (h : Stacks load_frame p stack)
    (hfacts : p.facts = facts) (hmode : p.mode = .default) (byte : UInt8) :
    Agrees (Represents load_frame) (p.stepDefault load_frame byte)
      (Machine.stepDefault ⟨stack, facts, mode⟩ byte) := by
  subst hfacts
  unfold Parser.stepDefault Machine.stepDefault
  simp only [bind, Except.bind, pure, Except.pure, throw, throwThe, MonadExceptOf.throw]
  split
  · exact ⟨h, rfl, hmode, .inl rfl⟩
  · cases stack with
    | nil =>
      have hdepth : p.depth = 0 := h.depth
      rw [if_pos hdepth]
      rfl
    | cons top rest =>
      have hdepth : p.depth ≠ 0 := by
        rw [h.depth]
        exact Nat.succ_ne_zero _
      obtain ⟨p₁, hp₁, hstack, hcheck⟩ := h.frame
      have hmode₁ : p₁.mode = .default := by rw [hcheck, hmode]
      have hfacts₁ : p₁.facts = p.facts := by rw [hcheck]
      have hvalue := startValue_agrees hstack hmode₁ byte
      have hpop := pop_agrees hstack hmode₁
      have hkey : Represents load_frame (p₁.startString .key)
          ⟨top :: rest, p.facts, .string ⟨.key, [], false⟩ none⟩ :=
        ⟨hstack.of_eq rfl rfl rfl, hfacts₁, ⟨rfl, rfl, rfl⟩, .inr (by simp)⟩
      have hset : ∀ g, Represents load_frame (p₁.setFrame g) ⟨g :: rest, p.facts, .default⟩ :=
        fun g => ⟨hstack.setFrame g, hfacts₁, hmode₁, .inl rfl⟩
      rw [hfacts₁] at hvalue hpop
      rw [if_neg hdepth, hp₁]
      dsimp only
      -- The two sides dispatch on the same frame and byte.
      obtain ⟨kind, scope, state, key, seen, name_valid, variants_valid⟩ := top
      cases kind <;> cases state <;> dsimp only <;> (repeat' split) <;>
        first
          | exact hpop
          | exact hvalue
          | exact hkey
          | exact hset _
          | rfl

/-- A character is captured on both sides of a string. -/
theorem captureString_agrees {facts : Facts} {mode : Reading}
    (h : Stacks load_frame p (top :: rest)) (hfacts : p.facts = facts) (hs : p.captured = s)
    (hu : p.utf8_left = 0) (hmode : p.mode = .string) (character : ℕ) :
    Agrees (Represents load_frame) (p.capture adapter load_frame character)
      (Machine.capture adapter ⟨top :: rest, facts, mode⟩ s character) := by
  obtain ⟨p', m', hp', hmode', hm', hrep⟩ := capture_agrees adapter h hfacts hs hu character
  rw [hp', hm']
  have heq : { p' with mode := .string } = p' := by
    rw [hmode] at hmode'
    rw [← hmode']
  exact heq ▸ hrep

/-- A character is captured on both sides, and the parser returns to its string. -/
theorem captureBack_agrees {facts : Facts} {mode : Reading}
    (h : Stacks load_frame p (top :: rest)) (hfacts : p.facts = facts) (hs : p.captured = s)
    (hu : p.utf8_left = 0) (character : ℕ) :
    Agrees (Represents load_frame)
      (p.capture adapter load_frame character >>= fun p => pure { p with mode := .string })
      (Machine.capture adapter ⟨top :: rest, facts, mode⟩ s character) := by
  obtain ⟨p', m', hp', -, hm', hrep⟩ := capture_agrees adapter h hfacts hs hu character
  rw [hp', hm']
  exact hrep

/-- A byte of a string on both sides. -/
theorem string_agrees {facts : Facts} {mode : Reading} (h : Stacks load_frame p (top :: rest))
    (hfacts : p.facts = facts) (hs : p.captured = s) (hmode : p.mode = .string)
    (hu : p.utf8_left = 0) (byte : UInt8) :
    Agrees (Represents load_frame) (p.string U adapter load_frame byte)
      (Machine.stepString U adapter ⟨top :: rest, facts, mode⟩ s byte) := by
  have hnext : ∀ left value min, left ≠ 0 → Represents load_frame
      { p with utf8_left := left, utf8_value := value, utf8_min := min }
      ⟨top :: rest, facts, .string s (some ⟨left, value, min⟩)⟩ := fun left value min hne =>
    ⟨h.of_eq rfl rfl rfl, hfacts, ⟨hmode, hs, rfl, hne⟩, .inr (by simp)⟩
  unfold Parser.string Machine.stepString
  rw [if_neg (by rw [hu]; simp)]
  split_ifs
  · exact endString_agrees U adapter h hfacts hs
  · exact ⟨h.of_eq rfl rfl rfl, hfacts, ⟨rfl, hs, hu⟩, .inr (by simp)⟩
  · rfl
  · exact captureString_agrees adapter h hfacts hs hu hmode _
  · exact hnext _ _ _ (by decide)
  · exact hnext _ _ _ (by decide)
  · exact hnext _ _ _ (by decide)
  · rfl

/-- A byte of a UTF-8 sequence on both sides. -/
theorem continueUtf8_agrees {facts : Facts} {mode : Reading}
    (h : Stacks load_frame p (top :: rest)) (hfacts : p.facts = facts) (hs : p.captured = s)
    (hmode : p.mode = .string) (byte : UInt8) :
    Agrees (Represents load_frame) (p.continueUtf8 adapter load_frame byte)
      (Machine.stepUtf8 adapter ⟨top :: rest, facts, mode⟩ s
        ⟨p.utf8_left, p.utf8_value, p.utf8_min⟩ byte) := by
  unfold Parser.continueUtf8 Machine.stepUtf8
  dsimp only
  split
  · rfl
  · split
    next hleft =>
      split
      · rfl
      · refine captureString_agrees adapter ?_ ?_ ?_ ?_ ?_ _
        · exact h.of_eq rfl rfl rfl
        · exact hfacts
        · exact hs
        · exact hleft
        · exact hmode
    next hleft => exact ⟨h.of_eq rfl rfl rfl, hfacts, ⟨hmode, hs, rfl, hleft⟩, .inr (by simp)⟩

/-- The parser and the machine read a byte together. -/
theorem step_agrees (h : Represents load_frame p m) (byte : UInt8) :
    Agrees (Represents load_frame) (p.step U adapter load_frame byte) (m.step U adapter byte) := by
  obtain ⟨stack, facts, mode⟩ := m
  obtain ⟨hstack, hfacts, hmode, hinside⟩ := h
  dsimp only at hstack hfacts hmode hinside
  unfold Parser.step Machine.step
  -- Between tokens, and at the start and the end of the text.
  cases mode with
  | default =>
    have hm : p.mode = .default := hmode
    rw [hm]
    exact stepDefault_agrees hstack hfacts hm byte
  | root =>
    have hm : p.mode = .root := hmode
    rw [hm]
    dsimp only
    split
    · exact ⟨hstack, hfacts, hmode, hinside⟩
    · split
      · exact ⟨hstack.of_eq rfl rfl rfl, hfacts, rfl, .inl rfl⟩
      · rfl
  -- Inside of a string: a byte, the rest of a character, an escape.
  | string s utf8 =>
    obtain ⟨top, rest, rfl⟩ := List.exists_cons_of_ne_nil (hinside.resolve_left (by simp))
    cases utf8 with
    | none =>
      obtain ⟨hm, hs, hu⟩ := hmode
      rw [hm]
      exact string_agrees U adapter hstack hfacts hs hm hu byte
    | some utf8 =>
      obtain ⟨hm, hs, rfl, hu⟩ := hmode
      rw [hm]
      dsimp only
      unfold Parser.string
      rw [if_pos hu]
      exact continueUtf8_agrees adapter hstack hfacts hs hm byte
  | escape s =>
    obtain ⟨top, rest, rfl⟩ := List.exists_cons_of_ne_nil (hinside.resolve_left (by simp))
    obtain ⟨hm, hs, hu⟩ := hmode
    rw [hm]
    dsimp only
    split
    · exact ⟨hstack.of_eq rfl rfl rfl, hfacts, ⟨rfl, hs, hu, rfl⟩, .inr (by simp)⟩
    · cases escapeValue byte with
      | none => rfl
      | some character => exact captureBack_agrees adapter hstack hfacts hs hu character
  -- Four digits make a code unit, which is captured with the last of them.
  | unicode s digits =>
    obtain ⟨top, rest, rfl⟩ := List.exists_cons_of_ne_nil (hinside.resolve_left (by simp))
    obtain ⟨hm, hs, hu, rfl⟩ := hmode
    rw [hm]
    dsimp only
    split
    · rfl
    · split
      · refine captureBack_agrees adapter ?_ ?_ ?_ ?_ _
        · exact hstack.of_eq rfl rfl rfl
        · exact hfacts
        · exact hs
        · exact hu
      · exact ⟨hstack.of_eq rfl rfl rfl, hfacts, ⟨rfl, hs, hu, rfl⟩, .inr (by simp)⟩
  -- A number takes the byte, or has ended before it.
  | number state =>
    obtain ⟨hm, rfl⟩ := hmode
    rw [hm]
    dsimp only
    unfold Parser.number
    simp only [bind, Except.bind, pure, Except.pure]
    cases Parser.numberStep p.number_state byte with
    | error e => rfl
    | ok next =>
      cases next with
      | some state =>
        exact ⟨hstack.of_eq rfl rfl rfl, hfacts, ⟨hm, rfl⟩, .inr (hinside.resolve_left (by simp))⟩
      | none =>
        refine stepDefault_agrees ?_ ?_ ?_ byte
        · exact hstack.of_eq rfl rfl rfl
        · exact hfacts
        · rfl
  -- The next byte of a literal is compared on both sides.
  | literal left =>
    obtain ⟨hm, rfl, hpos⟩ := hmode
    rw [hm]
    dsimp only
    rw [List.drop_eq_getElem_cons hpos, List.getElem?_eq_getElem hpos]
    dsimp only
    -- The byte is the next one, and the literal goes on unless it was the last.
    by_cases hb : p.literal[p.literal_pos] = byte
    · have hb' : ¬(some p.literal[p.literal_pos] ≠ some byte) := by simp [hb]
      rw [if_neg hb', if_neg (not_not_intro hb)]
      by_cases hend : p.literal_pos + 1 = p.literal.length
      · rw [if_pos hend, if_pos (List.drop_eq_nil_iff.mpr (Nat.le_of_eq hend.symm))]
        exact ⟨hstack.of_eq rfl rfl rfl, hfacts, rfl, .inl rfl⟩
      · have hlt : p.literal_pos + 1 < p.literal.length := by omega
        rw [if_neg hend, if_neg (by rw [List.drop_eq_nil_iff]; omega)]
        exact ⟨hstack.of_eq rfl rfl rfl, hfacts, ⟨rfl, rfl, hlt⟩,
          .inr (hinside.resolve_left (by simp))⟩
    · have hb' : some p.literal[p.literal_pos] ≠ some byte := by simpa using hb
      rw [if_pos hb', if_pos hb]
      rfl

/-- The parser and the machine read a chunk together. -/
theorem feed_agrees (bytes : List UInt8) : ∀ {p : Parser} {m : Machine},
    Represents load_frame p m →
      Agrees (Represents load_frame) (p.feed U adapter load_frame bytes)
        (m.run U adapter bytes) := by
  induction bytes with
  | nil => exact fun h => h
  | cons byte bytes ih =>
    intro p m h
    exact (step_agrees U adapter h byte).bind fun p' m' h' => ih h'

end

/-- A parser finishes exactly when its machine is done. -/
theorem finish_eq_ok_iff {m : Machine} (h : Represents load_frame p m) :
    p.finish = .ok () ↔ m.Done := by
  obtain ⟨stack, facts, mode⟩ := m
  obtain ⟨hstack, rfl, hmode, -⟩ := h
  dsimp only at hstack hmode
  have hdepth : p.depth = 0 ↔ stack = [] := by rw [hstack.depth, List.length_eq_zero_iff]
  have hends : (if p.mode = .number && Parser.numberEnds p.number_state then Mode.default
      else p.mode) = .default ↔
      mode = .default ∨ ∃ state, mode = .number state ∧ Parser.numberEnds state = true := by
    cases mode with
    | default =>
      have hm : p.mode = .default := hmode
      simp [hm]
    | number state =>
      obtain ⟨hm, rfl⟩ := hmode
      cases hn : Parser.numberEnds p.number_state <;> simp [hm, hn]
    | root =>
      have hm : p.mode = .root := hmode
      simp [hm]
    | string s utf8 =>
      have hm : p.mode = .string := by cases utf8 <;> exact hmode.1
      simp [hm]
    | escape | unicode | literal => simp [hmode.1]
  unfold Parser.finish Machine.Done
  dsimp only
  rw [← hends, ← hdepth]
  simp only [Checkpoint.facts]
  generalize (if (p.mode = .number && Parser.numberEnds p.number_state) = true then Mode.default
    else p.mode) = mode'
  split
  next hbad =>
    simp only [Bool.or_eq_true, decide_eq_true_eq, Bool.not_eq_true', Bool.and_eq_false_iff,
      decide_eq_false_iff_not, ne_eq] at hbad
    refine iff_of_false (by simp) ?_
    rintro ⟨hm, hd, h₁, h₂, h₃, h₄⟩
    simp [hm, hd, h₁, h₂, h₃, h₄] at hbad
  next hgood =>
    simp only [Bool.or_eq_true, decide_eq_true_eq, Bool.not_eq_true', Bool.and_eq_false_iff,
      decide_eq_false_iff_not, ne_eq, not_or, not_not, Bool.not_eq_false] at hgood
    obtain ⟨⟨hm, hd⟩, ⟨⟨h₁, h₂⟩, h₃⟩, h₄⟩ := hgood
    exact iff_of_true rfl ⟨hm, hd, h₁, h₂, h₃, h₄⟩

/-- A new parser stands for the initial machine, whatever it could load. -/
theorem represents_init (load_frame : ℕ → Option Frame) :
    Represents load_frame (Parser.init none) .initial := by
  refine ⟨⟨rfl, ⟨rfl, trivial⟩, fun d hd => ?_⟩, rfl, rfl, .inr (by simp [Machine.initial])⟩
  simp [Parser.init] at hd

end JobScripts.Recipe
