import JobScripts.Lib.Json
import Mathlib.Logic.Function.Basic

/-!
# The recipe parser

`RecipeParser` reads a recipe one byte at a time and keeps its state in flat fields and a
dictionary of open frames, one for each container it is inside. A parser may start from a stored
checkpoint, and then loads the frames it needs. Here a parser is a record with the same fields, a
method is a function from the record to the record it leaves or to the text of its `InvalidRecipe`,
and `frame`, which may load, gives the record back as well. A dictionary is a function with `none`
where there is no entry. Bytes are `UInt8`, and Python strings are lists of code points.
-/

namespace JobScripts.Recipe

open Lib Lib.Json

/-! ## Frames -/

/-- What a frame is open in. -/
inductive Kind
  | object | array
  deriving DecidableEq

/-- What a container is to the recipe. -/
inductive Scope
  | root | field | matches | fields | other
  deriving DecidableEq

/-- What a frame reads next. -/
inductive FrameState
  | keyOrEnd | key | colon | value | commaOrEnd | valueOrEnd
  deriving DecidableEq

/-- An open container. -/
structure Frame where
  kind : Kind
  scope : Scope
  state : FrameState
  key : List ℕ := []
  seen : List (List ℕ) := []
  name_valid : Bool := false
  variants_valid : Bool := false

/-- The JSON type of a value, as `start_value` tells it from the first byte. -/
inductive JsonKind
  | object | array | string | number | literal
  deriving DecidableEq

/-- `_REQUIRED_KEYS`: the keys a recipe must give, and the JSON type of each, by scope. -/
def requiredKeys : Scope → List (List ℕ × JsonKind)
  | .root => [(codes "name", .string), (codes "matches", .array), (codes "fields", .array)]
  | .field => [(codes "name", .string), (codes "variants", .array)]
  | .matches | .fields | .other => []

/-- The JSON type that the next value in a frame must have, if any. -/
def requiredKind (frame : Frame) : Option JsonKind :=
  match frame.scope with
  | .root | .field => (requiredKeys frame.scope).lookup frame.key
  | .matches => some .string
  | .fields => some .object
  | .other => none

/-- The JSON type of a value by its first byte. -/
def kindOf (byte : UInt8) : JsonKind :=
  if byte = openObject then .object
  else if byte = openArray then .array
  else if byte = quote then .string
  else if byte = minus || isDigit byte then .number
  else .literal

/-- `_LITERALS`: the literal that a byte starts, if it starts one. -/
def literalOf (byte : UInt8) : Option (List UInt8) :=
  if byte = 0x74 then some Literal.true.text
  else if byte = 0x66 then some Literal.false.text
  else if byte = 0x6E then some Literal.null.text
  else none

/-- The scope of an array, by the frame that holds it. -/
def arrayScope (parent : Frame) : Scope :=
  if parent.scope = .root then
    if parent.key = codes "matches" then .matches
    else if parent.key = codes "fields" then .fields
    else .other
  else .other

/-! ## The parser -/

/-- What the parser is inside of. -/
inductive Mode
  | root | default | string | escape | unicode | number | literal
  deriving DecidableEq

/-- What a string is read for. -/
inductive StringContext
  | none | key | value
  deriving DecidableEq

/-- Where the parser is in a number. -/
inductive NumberState
  | none | start | minus | zero | int | dot | fraction | exp | expSign | expDigits

/-- The fields of a `RecipeParser` that a checkpoint keeps. -/
structure Checkpoint where
  depth : ℕ
  mode : Mode
  root_name : Bool
  root_matches : Bool
  root_fields : Bool
  match_count : ℕ
  string_context : StringContext
  prefix_ : List ℕ
  truncated : Bool
  utf8_left : ℕ
  utf8_value : ℕ
  utf8_min : ℕ
  unicode_digits : List UInt8
  number_state : NumberState
  literal : List UInt8
  literal_pos : ℕ

/-- A `RecipeParser`: the fields of its checkpoint, the frames it holds, and the least depth it has
popped to. -/
structure Parser extends Checkpoint where
  frames : ℕ → Option Frame
  deleted_from : Option ℕ

/-- The fields of a parser that starts without a checkpoint. -/
def Checkpoint.initial : Checkpoint where
  depth := 1
  mode := .root
  root_name := false
  root_matches := false
  root_fields := false
  match_count := 0
  string_context := .none
  prefix_ := []
  truncated := false
  utf8_left := 0
  utf8_value := 0
  utf8_min := 0
  unicode_digits := []
  number_state := .none
  literal := []
  literal_pos := 0

/-- The frame of the recipe itself. -/
def rootFrame : Frame := { kind := .object, scope := .root, state := .keyOrEnd }

/-- `RecipeParser.__init__`: the parser at the start, with the root on its stack, or as a checkpoint left it. -/
def Parser.init : Option Checkpoint → Parser
  | none =>
    { Checkpoint.initial with
      frames := fun index => if index = 0 then some rootFrame else none
      deleted_from := none }
  | some checkpoint => { checkpoint with frames := fun _ => none, deleted_from := none }

namespace Parser

/-- The text of an `InvalidRecipe`, or the parser as a method leaves it. -/
abbrev Result := Except String Parser

/-- The current frame, changed in place. -/
def setFrame (p : Parser) (frame : Frame) : Parser :=
  { p with frames := Function.update p.frames (p.depth - 1) (some frame) }

/-- `push`: a frame comes on top of the stack. -/
def push (p : Parser) (frame : Frame) : Parser :=
  { p with frames := Function.update p.frames p.depth (some frame), depth := p.depth + 1 }

section

variable (U : UnicodeData) (adapter : String) (load_frame : ℕ → Option Frame)

/-- `frame`: the current frame, loaded if it is not held yet. -/
def frame (p : Parser) : Except String (Frame × Parser) :=
  let index := p.depth - 1
  match p.frames index with
  | some frame => .ok (frame, p)
  | none =>
    match load_frame index with
    | none => .error "recipe parser state is missing"
    | some frame =>
      .ok (frame, { p with frames := Function.update p.frames index (some frame) })

/-- `pop`: the top frame goes, and a field that is left has to be complete. -/
def pop (p : Parser) : Result := do
  let (current, p) ← p.frame load_frame
  if current.scope = .field && !(current.name_valid && current.variants_valid) then
    throw "each field needs a name and variants list"
  let depth := p.depth - 1
  return { p with depth, deleted_from := some (p.deleted_from.elim depth (min · depth)) }

/-- `start_string`: a string begins, in the role that it is read for. -/
def startString (p : Parser) (role : StringContext) : Parser :=
  { p with
    mode := .string, string_context := role, prefix_ := [], truncated := false, utf8_left := 0,
    utf8_value := 0, utf8_min := 0 }

/-- How many characters of a string `capture` keeps. -/
def keep (role : StringContext) (frame : Frame) : ℕ :=
  if role = .key then "variants".length
  else if frame.scope = .root && frame.key = codes "name" then (codes adapter).length + 1
  else if frame.scope = .matches then "https://".length
  else 0

/-- `capture`: a character of a string is kept, as far as its role needs one. -/
def capture (p : Parser) (character : ℕ) : Result := do
  let (frame, p) ← p.frame load_frame
  if p.prefix_.length < keep adapter p.string_context frame then
    return { p with prefix_ := p.prefix_ ++ [character] }
  else
    return { p with truncated := true }

/-- The transitions of `number`: the next state, or `none` when the byte ends the number. -/
def numberStep (state : NumberState) (byte : UInt8) : Except String (Option NumberState) :=
  let invalid := "invalid number in recipe JSON"
  match state with
  | .start =>
    if byte = Json.minus then .ok (some .minus)
    else if byte = Json.zero then .ok (some .zero)
    else if isNonzeroDigit byte then .ok (some .int)
    else .error invalid
  | .minus =>
    if byte = Json.zero then .ok (some .zero)
    else if isNonzeroDigit byte then .ok (some .int)
    else .error invalid
  | .zero =>
    if byte = Json.dot then .ok (some .dot)
    else if isExponent byte then .ok (some .exp)
    else if isDigit byte then .error invalid
    else .ok none
  | .int =>
    if byte = Json.dot then .ok (some .dot)
    else if isExponent byte then .ok (some .exp)
    else if isDigit byte then .ok (some .int)
    else .ok none
  | .dot => if isDigit byte then .ok (some .fraction) else .error invalid
  | .fraction =>
    if isExponent byte then .ok (some .exp)
    else if isDigit byte then .ok (some .fraction)
    else .ok none
  | .exp =>
    if byte = plus || byte = Json.minus then .ok (some .expSign)
    else if isDigit byte then .ok (some .expDigits)
    else .error invalid
  | .expSign => if isDigit byte then .ok (some .expDigits) else .error invalid
  | .expDigits => if isDigit byte then .ok (some .expDigits) else .ok none
  | .none => .error invalid

/-- `number`: whether the byte belongs to the number, and the parser it leaves. -/
def number (p : Parser) (byte : UInt8) : Except String (Bool × Parser) := do
  match ← numberStep p.number_state byte with
  | some state => return (true, { p with number_state := state })
  | none => return (false, { p with mode := .default })

/-- `start_value`: a value begins, of the kind that its place requires. -/
def startValue (p : Parser) (byte : UInt8) : Result := do
  let (parent, p) ← p.frame load_frame
  let kind := kindOf byte
  if (requiredKind parent).any (· ≠ kind) then
    throw "recipe field has the wrong JSON type"
  let parent := { parent with state := .commaOrEnd }
  match kind with
  | .object =>
    let scope := if parent.scope = .fields then Scope.field else .other
    return (p.setFrame parent).push { kind := .object, scope, state := .keyOrEnd }
  | .array =>
    let frame : Frame := { kind := .array, scope := arrayScope parent, state := .valueOrEnd }
    if parent.scope = .root && parent.key = codes "matches" then
      return { (p.setFrame parent).push frame with root_matches := true }
    else if parent.scope = .root && parent.key = codes "fields" then
      return { (p.setFrame parent).push frame with root_fields := true }
    else if parent.scope = .field && parent.key = codes "variants" then
      return (p.setFrame { parent with variants_valid := true }).push frame
    else
      return (p.setFrame parent).push frame
  | .string => return (p.setFrame parent).startString .value
  | .number =>
    let (_, p) ← { p.setFrame parent with mode := .number, number_state := .start }.number byte
    return p
  | .literal =>
    match literalOf byte with
    | some literal =>
      return { p.setFrame parent with mode := .literal, literal, literal_pos := 1 }
    | none => throw "invalid recipe JSON value"

/-- What `string` does at the closing quotation mark. -/
def endString (p : Parser) : Result := do
  let (frame, p) ← { p with mode := .default }.frame load_frame
  if p.string_context = .key then
    let key := if !p.truncated then p.prefix_ else []
    let frame := { frame with key, state := .colon }
    if ((requiredKeys frame.scope).lookup key).isSome then
      if key ∈ frame.seen then
        throw "duplicate recipe field"
      return p.setFrame { frame with seen := frame.seen ++ [key] }
    else
      return p.setFrame frame
  else if frame.scope = .root && frame.key = codes "name" then
    return { p with root_name := !p.truncated && U.lower p.prefix_ = codes adapter }
  else if frame.scope = .field && frame.key = codes "name" then
    return p.setFrame { frame with name_valid := true }
  else if frame.scope = .matches then
    if !(codes "https://").isPrefixOf p.prefix_ then
      throw "matches must contain only https:// patterns"
    return { p with match_count := p.match_count + 1 }
  else
    return p

/-- What `string` does inside a UTF-8 sequence. -/
def continueUtf8 (p : Parser) (byte : UInt8) : Result :=
  if byte.toNat &&& 0xC0 ≠ 0x80 then .error "invalid UTF-8 in recipe JSON"
  else
    let p := { p with
      utf8_value := p.utf8_value <<< 6 ||| (byte.toNat &&& 0x3F)
      utf8_left := p.utf8_left - 1 }
    if p.utf8_left = 0 then
      if p.utf8_value < p.utf8_min || p.utf8_value > 0x10FFFF || isSurrogate p.utf8_value then
        .error "invalid UTF-8 in recipe JSON"
      else p.capture adapter load_frame p.utf8_value
    else .ok p

/-- `string`: a byte inside of a string. -/
def string (p : Parser) (byte : UInt8) : Result :=
  if p.utf8_left ≠ 0 then p.continueUtf8 adapter load_frame byte
  else if byte = quote then p.endString U adapter load_frame
  else if byte = backslash then .ok { p with mode := .escape }
  else if byte < 0x20 then .error "control character in recipe JSON string"
  else if byte < 0x80 then p.capture adapter load_frame byte.toNat
  else if 0xC2 ≤ byte && byte ≤ 0xDF then
    .ok { p with utf8_left := 1, utf8_value := byte.toNat &&& 0x1F, utf8_min := 0x80 }
  else if 0xE0 ≤ byte && byte ≤ 0xEF then
    .ok { p with utf8_left := 2, utf8_value := byte.toNat &&& 0x0F, utf8_min := 0x800 }
  else if 0xF0 ≤ byte && byte ≤ 0xF4 then
    .ok { p with utf8_left := 3, utf8_value := byte.toNat &&& 0x07, utf8_min := 0x10000 }
  else .error "invalid UTF-8 in recipe JSON"

/-- `int(digits, 16)`, of digits that are hexadecimal. -/
def hexNumber (digits : List UInt8) : ℕ :=
  digits.foldl (fun n digit => n * 16 + (hexValue digit).getD 0) 0

/-- `step` in the mode `"default"`, between the tokens of a container. -/
def stepDefault (p : Parser) (byte : UInt8) : Result := do
  if isSpace byte then
    return p
  if p.depth = 0 then
    throw "trailing data after recipe JSON"
  let (frame, p) ← p.frame load_frame
  match frame.kind, frame.state with
  | .object, .keyOrEnd =>
    if byte = closeObject then p.pop load_frame
    else if byte = quote then return p.startString .key
    else throw "invalid recipe JSON object"
  | .object, .key =>
    if byte = quote then return p.startString .key
    else throw "invalid recipe JSON object"
  | .object, .colon =>
    if byte = colon then return p.setFrame { frame with state := .value }
    else throw "invalid recipe JSON object"
  | .object, .value => p.startValue load_frame byte
  | .object, _ =>
    if byte = comma then return p.setFrame { frame with state := .key }
    else if byte = closeObject then p.pop load_frame
    else throw "invalid recipe JSON object"
  | .array, .valueOrEnd =>
    if byte = closeArray then p.pop load_frame else p.startValue load_frame byte
  | .array, .value => p.startValue load_frame byte
  | .array, _ =>
    if byte = comma then return p.setFrame { frame with state := .value }
    else if byte = closeArray then p.pop load_frame
    else throw "invalid recipe JSON array"

/-- `step`. A byte that ends a number is read again between tokens. -/
def step (p : Parser) (byte : UInt8) : Result :=
  match p.mode with
  | .root =>
    if isSpace byte then .ok p
    else if byte = openObject then .ok { p with mode := .default }
    else .error "a recipe is an object"
  | .string => p.string U adapter load_frame byte
  | .escape =>
    if byte = unicodeEscape then .ok { p with mode := .unicode, unicode_digits := [] }
    else
      match escapeValue byte with
      | some character => do
        let p ← p.capture adapter load_frame character
        return { p with mode := .string }
      | none => .error "invalid escape in recipe JSON"
  | .unicode =>
    if (hexValue byte).isNone then .error "invalid Unicode escape in recipe JSON"
    else do
      let p := { p with unicode_digits := p.unicode_digits ++ [byte] }
      if p.unicode_digits.length = 4 then
        let p ← p.capture adapter load_frame (hexNumber p.unicode_digits)
        return { p with mode := .string }
      else return p
  | .number => do
    let (inside, p) ← p.number byte
    if inside then return p else p.stepDefault load_frame byte
  | .literal =>
    if p.literal[p.literal_pos]? ≠ some byte then .error "invalid recipe JSON literal"
    else
      let p := { p with literal_pos := p.literal_pos + 1 }
      if p.literal_pos = p.literal.length then .ok { p with mode := .default } else .ok p
  | .default => p.stepDefault load_frame byte

/-- `feed`: the bytes of a chunk one after the other, as long as none is refused. -/
def feed (p : Parser) (chunk : List UInt8) : Result :=
  chunk.foldlM (fun p byte => p.step U adapter load_frame byte) p

end

/-- The states in which a number may end. -/
def numberEnds : NumberState → Bool
  | .zero | .int | .fraction | .expDigits => true
  | _ => false

/-- `finish`: the text is over, and nothing may be open or missing. -/
def finish (p : Parser) : Except String Unit :=
  let mode := if p.mode = .number && numberEnds p.number_state then .default else p.mode
  if mode ≠ .default || p.depth ≠ 0 ||
      !(p.root_name && p.root_matches && p.root_fields && p.match_count ≠ 0) then
    .error "recipe is incomplete or missing a required field"
  else .ok ()

/-- `checkpoint`: what is stored of a parser between two chunks. -/
def checkpoint (p : Parser) : Checkpoint := p.toCheckpoint

/-- `changed_frames`: the frames held that are still open. -/
def changedFrames (p : Parser) (index : ℕ) : Option Frame :=
  if index < p.depth then p.frames index else none

end Parser

end JobScripts.Recipe
