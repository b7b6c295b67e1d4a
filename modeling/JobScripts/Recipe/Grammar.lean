import JobScripts.Recipe.Machine

/-!
# The machine reads the grammar

What the machine does with a spelling of a value. `effect` is the machine's work on a whole value:
the checks of the recipe, made on the tree in the order in which the machine meets them. `run_value`
says that reading a spelling has the effect of its value, by induction on the spelling, together
with the same for the items of an array and the members of an object.
-/

namespace JobScripts.Recipe

open Lib Lib.Json

section

variable {U : UnicodeData} {adapter : String}

/-! ## Reading bytes -/

/-- One byte, then the rest. -/
theorem run_cons (m : Machine) (byte : UInt8) (bytes : List UInt8) :
    m.run U adapter (byte :: bytes) = m.step U adapter byte >>= fun m => m.run U adapter bytes :=
  rfl

/-- A step that goes through. -/
theorem run_cons_ok {m m' : Machine} {byte : UInt8} (h : m.step U adapter byte = .ok m')
    (bytes : List UInt8) : m.run U adapter (byte :: bytes) = m'.run U adapter bytes := by
  rw [run_cons, h]
  rfl

variable {frame : Frame} {rest : List Frame} {stack : List Frame} {facts : Facts} {s : Captured}

/-- White space between tokens changes nothing. -/
theorem run_space {w : List UInt8} (hw : Space w) (r : List UInt8) :
    Machine.run U adapter ⟨stack, facts, .default⟩ (w ++ r) =
      Machine.run U adapter ⟨stack, facts, .default⟩ r := by
  induction w with
  | nil => rfl
  | cons b w ih =>
    have hb := hw b List.mem_cons_self
    have hstep : Machine.step U adapter ⟨stack, facts, .default⟩ b =
        .ok ⟨stack, facts, .default⟩ := by
      simp only [Machine.step, Machine.stepDefault, hb, if_true]
    rw [List.cons_append, run_cons_ok hstep]
    exact ih fun b' hb' => hw b' (List.mem_cons_of_mem _ hb')

/-! ## UTF-8 -/

/-- The bits of a continuation byte. -/
theorem continuation_bits {b : ℕ} (hb : b < 256) :
    (b &&& 0xC0 = 0x80 ↔ 128 ≤ b ∧ b < 192) ∧ (128 ≤ b ∧ b < 192 → b &&& 0x3F = b - 128) := by
  revert b
  decide +kernel

/-- The bits of a leading byte. -/
theorem leading_bits {b : ℕ} (hb : b < 256) :
    (192 ≤ b ∧ b < 224 → b &&& 0x1F = b - 192) ∧ (224 ≤ b ∧ b < 240 → b &&& 0x0F = b - 224) ∧
      (240 ≤ b ∧ b < 248 → b &&& 0x07 = b - 240) := by
  revert b
  decide +kernel

/-- Six more bits. -/
theorem shift_or {v x : ℕ} (hx : x < 64) : v <<< 6 ||| x = v * 64 + x := by
  rw [← Nat.shiftLeft_add_eq_or_of_lt (by omega : x < 2 ^ 6), Nat.shiftLeft_eq]

/-- A continuation byte with another to follow. -/
theorem step_continuation (m : Machine) {left value min : ℕ} {byte : UInt8}
    (hm : m.mode = .string s (some ⟨left + 2, value, min⟩)) (hb : 128 ≤ byte.toNat)
    (hb' : byte.toNat < 192) :
    m.step U adapter byte =
      .ok { m with mode := .string s (some ⟨left + 1, value * 64 + (byte.toNat - 128), min⟩) } := by
  have hbits := continuation_bits byte.toNat_lt
  unfold Machine.step
  rw [hm]
  simp only [Machine.stepUtf8]
  rw [if_neg (not_not_intro (hbits.1.mpr ⟨hb, hb'⟩)), hbits.2 ⟨hb, hb'⟩, shift_or (by omega),
    if_neg (by omega)]
  rfl

/-- The last continuation byte. -/
theorem step_last_continuation {value min : ℕ} {byte : UInt8} (hb : 128 ≤ byte.toNat)
    (hb' : byte.toNat < 192) :
    Machine.step U adapter ⟨frame :: rest, facts, .string s (some ⟨1, value, min⟩)⟩ byte =
      if value * 64 + (byte.toNat - 128) < min || value * 64 + (byte.toNat - 128) > 0x10FFFF ||
          isSurrogate (value * 64 + (byte.toNat - 128)) then
        .error "invalid UTF-8 in recipe JSON"
      else .ok ⟨frame :: rest, facts,
        .string (s.push adapter frame (value * 64 + (byte.toNat - 128))) none⟩ := by
  have hbits := continuation_bits byte.toNat_lt
  unfold Machine.step
  simp only [Machine.stepUtf8]
  rw [if_neg (not_not_intro (hbits.1.mpr ⟨hb, hb'⟩)), hbits.2 ⟨hb, hb'⟩, shift_or (by omega),
    if_pos trivial]
  rfl

/-- A leading byte opens a sequence. -/
theorem step_leading {byte : UInt8} :
    (0xC2 ≤ byte.toNat ∧ byte.toNat ≤ 0xDF →
      Machine.step U adapter ⟨frame :: rest, facts, .string s none⟩ byte =
        .ok ⟨frame :: rest, facts, .string s (some ⟨1, byte.toNat - 192, 0x80⟩)⟩) ∧
    (0xE0 ≤ byte.toNat ∧ byte.toNat ≤ 0xEF →
      Machine.step U adapter ⟨frame :: rest, facts, .string s none⟩ byte =
        .ok ⟨frame :: rest, facts, .string s (some ⟨2, byte.toNat - 224, 0x800⟩)⟩) ∧
    (0xF0 ≤ byte.toNat ∧ byte.toNat ≤ 0xF4 →
      Machine.step U adapter ⟨frame :: rest, facts, .string s none⟩ byte =
        .ok ⟨frame :: rest, facts, .string s (some ⟨3, byte.toNat - 240, 0x10000⟩)⟩) := by
  have hbits := leading_bits byte.toNat_lt
  have hq : 0x80 ≤ byte.toNat → byte ≠ quote ∧ byte ≠ backslash := fun h =>
    ⟨by rintro rfl; simp [quote] at h, by rintro rfl; simp [backslash] at h⟩
  simp only [Machine.step, Machine.stepString, Bool.and_eq_true, decide_eq_true_eq,
    UInt8.lt_iff_toNat_lt, UInt8.le_iff_toNat_le, UInt8.reduceToNat]
  refine ⟨fun h => ?_, fun h => ?_, fun h => ?_⟩
  · obtain ⟨h₁, h₂⟩ := hq (by omega)
    rw [if_neg h₁, if_neg h₂, if_neg (by omega), if_neg (by omega), if_pos h,
      hbits.1 (by omega)]
  · obtain ⟨h₁, h₂⟩ := hq (by omega)
    rw [if_neg h₁, if_neg h₂, if_neg (by omega), if_neg (by omega), if_neg (by omega), if_pos h,
      hbits.2.1 (by omega)]
  · obtain ⟨h₁, h₂⟩ := hq (by omega)
    rw [if_neg h₁, if_neg h₂, if_neg (by omega), if_neg (by omega), if_neg (by omega),
      if_neg (by omega), if_pos h, hbits.2.2 (by omega)]

/-- An ASCII character that is neither a quotation mark nor a backslash nor a control character. -/
theorem step_ascii {byte : UInt8} (h : 0x20 ≤ byte.toNat) (h' : byte.toNat < 0x80)
    (hq : byte ≠ quote) (hb : byte ≠ backslash) :
    Machine.step U adapter ⟨frame :: rest, facts, .string s none⟩ byte =
      .ok ⟨frame :: rest, facts, .string (s.push adapter frame byte.toNat) none⟩ := by
  simp only [Machine.step, Machine.stepString, UInt8.lt_iff_toNat_lt, UInt8.reduceToNat]
  rw [if_neg hq, if_neg hb, if_neg (by omega), if_pos h']
  rfl

/-- The last byte of a sequence that spells `v`. -/
theorem step_last_of_eq {value min v : ℕ} {byte : UInt8} (hb : 128 ≤ byte.toNat)
    (hb' : byte.toNat < 192) (hv : value * 64 + (byte.toNat - 128) = v) (hmin : min ≤ v)
    (hmax : v ≤ 0x10FFFF) (hs : isSurrogate v = false) :
    Machine.step U adapter ⟨frame :: rest, facts, .string s (some ⟨1, value, min⟩)⟩ byte =
      .ok ⟨frame :: rest, facts, .string (s.push adapter frame v) none⟩ := by
  rw [step_last_continuation hb hb', hv, if_neg]
  simp only [Bool.or_eq_true, decide_eq_true_eq, hs, Bool.false_eq_true, or_false]
  omega

/-- The bytes of a character capture it. -/
theorem run_raw (c : Char) (hc : 0x20 ≤ c.toNat) (hq : c.toNat ≠ 0x22) (hb : c.toNat ≠ 0x5C)
    (r : List UInt8) :
    Machine.run U adapter ⟨frame :: rest, facts, .string s none⟩ (String.utf8EncodeChar c ++ r) =
      Machine.run U adapter
        ⟨frame :: rest, facts, .string (s.push adapter frame c.toNat) none⟩ r := by
  have hs := isSurrogate_toNat c
  have hmax : c.toNat ≤ 0x10FFFF := by
    have hvalid := c.valid
    have hn : c.toNat = c.val.toNat := rfl
    unfold UInt32.isValidChar Nat.isValidChar at hvalid
    omega
  have hbyte : ∀ n, n < 256 → (UInt8.ofNat n).toNat = n := fun n hn => UInt8.toNat_ofNat_of_lt hn
  have hval : c.val.toNat = c.toNat := rfl
  unfold String.utf8EncodeChar
  rw [hval]
  dsimp only
  generalize c.toNat = v at *
  split_ifs with h1 h2 h3
  · have e₁ := hbyte v (by omega)
    have hq' : UInt8.ofNat v ≠ quote := fun h => hq (by rw [← e₁, h]; rfl)
    have hb' : UInt8.ofNat v ≠ backslash := fun h => hb (by rw [← e₁, h]; rfl)
    rw [List.cons_append, run_cons_ok (step_ascii (by omega) (by omega) hq' hb'), e₁]
    rfl
  · have e₁ := hbyte (v / 64 % 32 + 0xC0) (by omega)
    have e₂ := hbyte (v % 64 + 0x80) (by omega)
    rw [List.cons_append, run_cons_ok (step_leading.1 (by omega)), List.cons_append,
      run_cons_ok (step_last_of_eq (by omega) (by omega) (by omega) (by omega) hmax hs)]
    rfl
  · have e₁ := hbyte (v / 4096 % 16 + 0xE0) (by omega)
    have e₂ := hbyte (v / 64 % 64 + 0x80) (by omega)
    have e₃ := hbyte (v % 64 + 0x80) (by omega)
    rw [List.cons_append, run_cons_ok (step_leading.2.1 (by omega)), List.cons_append,
      run_cons_ok (step_continuation _ rfl (by omega) (by omega)), List.cons_append,
      run_cons_ok (step_last_of_eq (by omega) (by omega) (by omega) (by omega) hmax hs)]
    rfl
  · have e₁ := hbyte (v / 262144 % 8 + 0xF0) (by omega)
    have e₂ := hbyte (v / 4096 % 64 + 0x80) (by omega)
    have e₃ := hbyte (v / 64 % 64 + 0x80) (by omega)
    have e₄ := hbyte (v % 64 + 0x80) (by omega)
    rw [List.cons_append, run_cons_ok (step_leading.2.2 (by omega)), List.cons_append,
      run_cons_ok (step_continuation _ rfl (by omega) (by omega)), List.cons_append,
      run_cons_ok (step_continuation _ rfl (by omega) (by omega)), List.cons_append,
      run_cons_ok (step_last_of_eq (by omega) (by omega) (by omega) (by omega) hmax hs)]
    rfl

/-! ## Strings -/

/-- What is kept of a string after more characters. -/
def Captured.pushAll (adapter : String) (frame : Frame) (s : Captured) (units : List ℕ) :
    Captured :=
  units.foldl (fun s u => s.push adapter frame u) s

/-- A backslash begins an escape. -/
theorem step_backslash :
    Machine.step U adapter ⟨frame :: rest, facts, .string s none⟩ backslash =
      .ok ⟨frame :: rest, facts, .escape s⟩ := rfl

/-- A two-character escape captures its character. -/
theorem step_escape {byte : UInt8} {u : ℕ} (h : escapeValue byte = some u) :
    Machine.step U adapter ⟨frame :: rest, facts, .escape s⟩ byte =
      .ok ⟨frame :: rest, facts, .string (s.push adapter frame u) none⟩ := by
  have hu : byte ≠ unicodeEscape := by
    rintro rfl
    simp [escapeValue, unicodeEscape] at h
  simp only [Machine.step]
  rw [if_neg hu, h]
  rfl

/-- Four hexadecimal digits capture their number. -/
theorem run_hex {a b c d : UInt8} {va vb vc vd : ℕ} (ha : hexValue a = some va)
    (hb : hexValue b = some vb) (hc : hexValue c = some vc) (hd : hexValue d = some vd)
    (r : List UInt8) :
    Machine.run U adapter ⟨frame :: rest, facts, .unicode s []⟩ (a :: b :: c :: d :: r) =
      Machine.run U adapter ⟨frame :: rest, facts,
        .string (s.push adapter frame (((va * 16 + vb) * 16 + vc) * 16 + vd)) none⟩ r := by
  have hsome : ∀ {x : UInt8} {v : ℕ}, hexValue x = some v → ¬(hexValue x).isNone = true := by
    intro x v h
    simp [h]
  have h₁ : Machine.step U adapter ⟨frame :: rest, facts, .unicode s []⟩ a =
      .ok ⟨frame :: rest, facts, .unicode s [a]⟩ := by
    simp only [Machine.step, if_neg (hsome ha)]
    rfl
  have h₂ : Machine.step U adapter ⟨frame :: rest, facts, .unicode s [a]⟩ b =
      .ok ⟨frame :: rest, facts, .unicode s [a, b]⟩ := by
    simp only [Machine.step, if_neg (hsome hb)]
    rfl
  have h₃ : Machine.step U adapter ⟨frame :: rest, facts, .unicode s [a, b]⟩ c =
      .ok ⟨frame :: rest, facts, .unicode s [a, b, c]⟩ := by
    simp only [Machine.step, if_neg (hsome hc)]
    rfl
  have hnumber : Parser.hexNumber [a, b, c, d] = ((va * 16 + vb) * 16 + vc) * 16 + vd := by
    simp [Parser.hexNumber, ha, hb, hc, hd]
  have h₄ : Machine.step U adapter ⟨frame :: rest, facts, .unicode s [a, b, c]⟩ d =
      .ok ⟨frame :: rest, facts,
        .string (s.push adapter frame (((va * 16 + vb) * 16 + vc) * 16 + vd)) none⟩ := by
    simp only [Machine.step, if_neg (hsome hd)]
    rw [← hnumber]
    rfl
  rw [run_cons_ok h₁, run_cons_ok h₂, run_cons_ok h₃, run_cons_ok h₄]

/-- The inside of a string captures its units. -/
theorem run_chars {units : List ℕ} {w : List UInt8} (h : Chars units w) (r : List UInt8) :
    ∀ s, Machine.run U adapter ⟨frame :: rest, facts, .string s none⟩ (w ++ r) =
      Machine.run U adapter
        ⟨frame :: rest, facts, .string (s.pushAll adapter frame units) none⟩ r := by
  induction h with
  | nil => exact fun s => rfl
  | raw c hc hq hb _ ih =>
    intro s
    rw [List.append_assoc, run_raw c hc hq hb, ih]
    rfl
  | escape b u hu _ ih =>
    intro s
    rw [List.cons_append, run_cons_ok step_backslash, List.cons_append,
      run_cons_ok (step_escape hu), ih]
    rfl
  | unicode a b c d va vb vc vd ha hb hc hd _ ih =>
    intro s
    have hu : Machine.step U adapter ⟨frame :: rest, facts, .escape s⟩ unicodeEscape =
        .ok ⟨frame :: rest, facts, .unicode s []⟩ := rfl
    simp only [List.cons_append]
    rw [run_cons_ok step_backslash, run_cons_ok hu, run_hex ha hb hc hd, ih]
    rfl

/-- What is kept of a string: its beginning, and whether there was more. -/
theorem pushAll_eq (frame : Frame) (s : Captured) (units : List ℕ)
    (hs : s.prefix_.length ≤ Parser.keep adapter s.role frame)
    (ht : s.truncated = true → s.prefix_.length = Parser.keep adapter s.role frame) :
    s.pushAll adapter frame units =
      ⟨s.role, (s.prefix_ ++ units).take (Parser.keep adapter s.role frame),
        s.truncated || Parser.keep adapter s.role frame < (s.prefix_ ++ units).length⟩ := by
  induction units generalizing s with
  | nil =>
    obtain ⟨role, pre, truncated⟩ := s
    dsimp only at hs ht ⊢
    rw [List.append_nil, List.take_of_length_le hs, decide_eq_false (by omega), Bool.or_false]
    rfl
  | cons u units ih =>
    obtain ⟨role, pre, truncated⟩ := s
    dsimp only at hs ht ⊢
    have hcons : Captured.pushAll adapter frame ⟨role, pre, truncated⟩ (u :: units) =
        Captured.pushAll adapter frame (Captured.push adapter ⟨role, pre, truncated⟩ frame u)
          units := rfl
    rw [hcons]
    unfold Captured.push
    dsimp only
    split
    next hlt =>
      have htrunc : truncated = false := by
        by_contra hne
        have := ht (by simpa using hne)
        omega
      rw [ih _ (by simp; omega) (by simp [htrunc])]
      simp
    next hge =>
      have hlen : pre.length = Parser.keep adapter role frame := by omega
      rw [ih _ (by simpa using hs) (by simpa using hlen)]
      simp only [Bool.true_or, List.length_append, List.length_cons, Captured.mk.injEq, true_and]
      constructor
      · rw [← hlen, List.take_left, List.take_left]
      · rw [eq_comm, Bool.or_eq_true, decide_eq_true_eq]
        exact .inr (by omega)

/-- What is kept of a string that is read from its beginning. -/
def readString (adapter : String) (role : StringContext) (frame : Frame) (units : List ℕ) :
    Captured :=
  ⟨role, units.take (Parser.keep adapter role frame),
    Parser.keep adapter role frame < units.length⟩

/-- A whole string and its closing quotation mark. -/
theorem run_string {units : List ℕ} {w : List UInt8} (h : Chars units w) (role : StringContext)
    (r : List UInt8) :
    Machine.run U adapter ⟨frame :: rest, facts, .string ⟨role, [], false⟩ none⟩
        (w ++ quote :: r) =
      Machine.endString U adapter ⟨frame :: rest, facts, .default⟩
        (readString adapter role frame units) >>= fun m => m.run U adapter r := by
  have hread : Captured.pushAll adapter frame ⟨role, [], false⟩ units =
      readString adapter role frame units := by
    rw [pushAll_eq frame ⟨role, [], false⟩ units (Nat.zero_le _) (by simp)]
    simp [readString]
  rw [run_chars h, hread]
  rfl

/-! ## Numbers -/

/-- What may follow in a number, by the state the machine is in. -/
def Residual : NumberState → List UInt8 → Prop
  | .start => Number
  | .minus => Unsigned
  | .zero => FractionExponent
  | .int => IntRest
  | .dot => Digits1Exponent
  | .fraction => DigitsExponent
  | .exp => ExponentDigits
  | .expSign => Digits1
  | .expDigits => Digits
  | .none => fun _ => False

/-- A byte that may stand after a value: white space, a comma or a closing bracket. -/
def terminator (b : UInt8) : Bool :=
  isSpace b || b = comma || b = closeArray || b = closeObject

/-- A text that begins with such a byte. -/
def Terminated (r : List UInt8) : Prop := ∃ b r', r = b :: r' ∧ terminator b = true

/-- The states in which a number may end are those in which nothing need follow. -/
theorem residual_nil_iff (state : NumberState) :
    Residual state [] ↔ Parser.numberEnds state = true := by
  have hexp : Exponent [] := .inl rfl
  have hfrac : FractionExponent [] := ⟨[], [], rfl, .inl rfl, hexp⟩
  have hdigits : Digits [] := by simp [Digits]
  cases state with
  | zero => exact iff_of_true hfrac rfl
  | int => exact iff_of_true ⟨[], [], rfl, hdigits, hfrac⟩ rfl
  | fraction => exact iff_of_true ⟨[], [], rfl, hdigits, hexp⟩ rfl
  | expDigits => exact iff_of_true hdigits rfl
  | none => exact iff_of_false id (by simp [Parser.numberEnds])
  | dot | expSign =>
    refine iff_of_false ?_ (by simp [Parser.numberEnds])
    rintro ⟨d, ds, h, -⟩
    simp at h
  | exp =>
    refine iff_of_false ?_ (by simp [Parser.numberEnds])
    rintro ⟨sign, ds, h, -, d, ds', rfl, -⟩
    simp at h
  | minus =>
    refine iff_of_false ?_ (by simp [Parser.numberEnds])
    rintro ⟨i, fe, h, rfl | ⟨d, ds, rfl, -⟩, -⟩ <;> simp at h
  | start =>
    refine iff_of_false ?_ (by simp [Parser.numberEnds])
    rw [show Residual .start [] = Number [] from rfl, number_iff]
    rintro (⟨i, fe, h, rfl | ⟨d, ds, rfl, -⟩, -⟩ | ⟨w', h, -⟩) <;> simp at h

/-- One byte of a number: what may follow is what may follow in the next state. -/
theorem residual_cons_iff (state : NumberState) (b : UInt8) (w : List UInt8) :
    Residual state (b :: w) ↔
      ∃ state', Parser.numberStep state b = .ok (some state') ∧ Residual state' w := by
  have hnd := isNonzeroDigit_iff b
  have hdig : isDigit b = true → isExponent b = false ∧ b ≠ Json.dot := isDigit_not
  cases state with
  | none => simp [Residual, Parser.numberStep]
  -- The exponent: digits, or its sign.
  | expDigits =>
    rw [show Residual .expDigits (b :: w) = Digits (b :: w) from rfl, digits_cons_iff]
    simp only [Parser.numberStep]
    by_cases hd : isDigit b = true
    · simp [hd, Residual]
    · simp [hd]
  | expSign =>
    rw [show Residual .expSign (b :: w) = Digits1 (b :: w) from rfl, digits1_cons_iff]
    simp only [Parser.numberStep]
    by_cases hd : isDigit b = true
    · simp [hd, Residual]
    · simp [hd]
  | exp =>
    rw [show Residual .exp (b :: w) = ExponentDigits (b :: w) from rfl, exponentDigits_cons_iff]
    simp only [Parser.numberStep]
    by_cases hsign : b = plus ∨ b = Json.minus
    · have hd : isDigit b = false := by rcases hsign with rfl | rfl <;> decide
      simp [hsign, hd, Residual]
    · by_cases hd : isDigit b = true
      · simp [hsign, hd, Residual]
      · simp [hsign, hd]
  -- The fraction, which an exponent may follow.
  | fraction =>
    rw [show Residual .fraction (b :: w) = DigitsExponent (b :: w) from rfl,
      digitsExponent_cons_iff, exponent_cons_iff]
    simp only [Parser.numberStep]
    by_cases he : isExponent b = true
    · have hd : isDigit b = false := by
        by_contra hd
        simp [(hdig (by simpa using hd)).1] at he
      simp [he, hd, Residual]
    · by_cases hd : isDigit b = true
      · simp [he, hd, Residual]
      · simp [he, hd]
  | dot =>
    have hcons : Residual .dot (b :: w) ↔ isDigit b = true ∧ DigitsExponent w := by
      constructor
      · rintro ⟨d, ds, heq, hd, hds⟩
        obtain ⟨rfl, rfl⟩ := List.cons.inj heq
        exact ⟨hd, hds⟩
      · rintro ⟨hd, hds⟩
        exact ⟨b, w, rfl, hd, hds⟩
    rw [hcons]
    simp only [Parser.numberStep]
    by_cases hd : isDigit b = true
    · simp [hd, Residual]
    · simp [hd]
  -- The integral part, which a fraction or an exponent may follow; behind a zero no digit does.
  | int =>
    rw [show Residual .int (b :: w) = IntRest (b :: w) from rfl, intRest_cons_iff,
      fractionExponent_cons_iff, exponent_cons_iff]
    simp only [Parser.numberStep]
    by_cases hdot : b = Json.dot
    · have hd : isDigit b = false := by rw [hdot]; decide
      have he : isExponent b = false := by rw [hdot]; decide
      simp [hdot, Residual, hdot ▸ hd, hdot ▸ he]
    · by_cases he : isExponent b = true
      · have hd : isDigit b = false := by
          by_contra hd
          simp [(hdig (by simpa using hd)).1] at he
        simp [hdot, he, hd, Residual]
      · by_cases hd : isDigit b = true
        · simp [hdot, he, hd, Residual]
        · simp [hdot, he, hd]
  | zero =>
    rw [show Residual .zero (b :: w) = FractionExponent (b :: w) from rfl,
      fractionExponent_cons_iff, exponent_cons_iff]
    simp only [Parser.numberStep]
    by_cases hdot : b = Json.dot
    · have he : isExponent b = false := by rw [hdot]; decide
      simp [hdot, Residual, hdot ▸ he]
    · by_cases he : isExponent b = true
      · simp [hdot, he, Residual]
      · by_cases hd : isDigit b = true
        · simp [hdot, he, hd]
        · simp [hdot, he, hd]
  -- The sign, and the first byte.
  | minus =>
    rw [show Residual .minus (b :: w) = Unsigned (b :: w) from rfl, unsigned_cons_iff]
    simp only [Parser.numberStep]
    by_cases hz : b = Json.zero
    · have hn : isNonzeroDigit b = false := by rw [hz]; decide
      simp [hz, Residual, hz ▸ hn]
    · by_cases hn : isNonzeroDigit b = true
      · simp [hz, hn, Residual]
      · simp [hz, hn]
  | start =>
    rw [show Residual .start (b :: w) = Number (b :: w) from rfl, number_iff, unsigned_cons_iff]
    simp only [Parser.numberStep]
    by_cases hm : b = Json.minus
    · have hz : Json.minus ≠ Json.zero := by decide
      have hn : isNonzeroDigit Json.minus = false := by decide
      simp [hm, Residual, hz, hn]
    · by_cases hz : b = Json.zero
      · have hn : isNonzeroDigit b = false := by rw [hz]; decide
        simp [hz, Residual, hz ▸ hn, hz ▸ hm]
      · by_cases hn : isNonzeroDigit b = true
        · simp [hm, hz, hn, Residual]
        · simp [hm, hz, hn]

/-- A number that may end leaves the byte after it to the container. -/
theorem step_number_end {state : NumberState} (hs : Parser.numberEnds state = true) {b : UInt8}
    (hb : terminator b = true) :
    Machine.step U adapter ⟨stack, facts, .number state⟩ b =
      Machine.stepDefault ⟨stack, facts, .default⟩ b := by
  have hclass : isDigit b = false ∧ isExponent b = false ∧ b ≠ Json.dot := by
    simp only [terminator, isSpace, Bool.or_eq_true, decide_eq_true_eq, or_assoc] at hb
    rcases hb with rfl | rfl | rfl | rfl | rfl | rfl | rfl <;> decide
  have hnone : Parser.numberStep state b = .ok none := by
    cases state <;> simp [Parser.numberEnds] at hs <;> simp [Parser.numberStep, hclass]
  simp only [Machine.step, hnone]
  rfl

/-- The rest of a number is read up to the byte after it. -/
theorem run_residual {w : List UInt8} : ∀ {state : NumberState}, Residual state w →
    ∀ {b : UInt8} {r : List UInt8}, terminator b = true →
      Machine.run U adapter ⟨stack, facts, .number state⟩ (w ++ b :: r) =
        Machine.run U adapter ⟨stack, facts, .default⟩ (b :: r) := by
  induction w with
  | nil =>
    intro state h b r hb
    rw [List.nil_append, run_cons, run_cons,
      step_number_end ((residual_nil_iff state).mp h) hb]
    rfl
  | cons c w ih =>
    intro state h b r hb
    obtain ⟨state', hstep, hres⟩ := (residual_cons_iff state c w).mp h
    have hmachine : Machine.step U adapter ⟨stack, facts, .number state⟩ c =
        .ok ⟨stack, facts, .number state'⟩ := by
      simp only [Machine.step, hstep]
    rw [List.cons_append, run_cons_ok hmachine, ih hres hb]

/-! ## The effect of a value -/

/-- The JSON type of a value. -/
def valueKind : Value → JsonKind
  | .literal _ => .literal
  | .number => .number
  | .string _ => .string
  | .array _ => .array
  | .object _ => .object

/-- The check at the end of a container. -/
def leaveFrame (frame : Frame) : Except String Unit :=
  if frame.scope = .field && !(frame.name_valid && frame.variants_valid) then
    .error "each field needs a name and variants list"
  else .ok ()

section

variable (U : UnicodeData) (adapter : String)

mutual

/-- What the machine makes of a value: the frame that holds it, and the facts. -/
def effect (frame : Frame) (facts : Facts) (value : Value) : Except String (Frame × Facts) :=
  if wrongKind frame (valueKind value) then
    .error "recipe field has the wrong JSON type"
  else
    let parent := { frame with state := .commaOrEnd }
    match value with
    | .literal _ | .number => .ok (parent, facts)
    | .string units => endText U adapter parent facts (readString adapter .value parent units)
    | .array items => do
      let (inner, facts) ← effectItems (arrayFrame parent) (facts.openArray parent) items
      leaveFrame inner
      return (parent.openArray, facts)
    | .object members => do
      let (inner, facts) ← effectMembers (objectFrame parent) facts members
      leaveFrame inner
      return (parent, facts)

/-- What the machine makes of the items of an array. -/
def effectItems (frame : Frame) (facts : Facts) : Items → Except String (Frame × Facts)
  | .nil => .ok (frame, facts)
  | .cons value rest => do
    let (frame, facts) ← effect frame facts value
    effectItems frame facts rest

/-- What the machine makes of the members of an object. -/
def effectMembers (frame : Frame) (facts : Facts) : Members → Except String (Frame × Facts)
  | .nil => .ok (frame, facts)
  | .cons key value rest => do
    let frame ← endKey frame (readString adapter .key frame key)
    let (frame, facts) ← effect frame facts value
    effectMembers frame facts rest

end

end

/-- The end of a string value keeps what the frame is. -/
theorem endText_frame {frame frame' : Frame} {facts facts' : Facts} {s : Captured}
    (h : endText U adapter frame facts s = .ok (frame', facts')) :
    frame'.kind = frame.kind ∧ frame'.scope = frame.scope ∧ frame'.key = frame.key ∧
      frame'.state = frame.state := by
  unfold endText at h
  split_ifs at h <;> obtain ⟨rfl, rfl⟩ := Prod.mk.inj (Except.ok.inj h) <;>
    exact ⟨rfl, rfl, rfl, rfl⟩

/-- An array under `variants` keeps what the frame is. -/
theorem openArray_frame (frame : Frame) :
    frame.openArray.kind = frame.kind ∧ frame.openArray.scope = frame.scope ∧
      frame.openArray.key = frame.key ∧ frame.openArray.state = frame.state := by
  unfold Frame.openArray
  split <;> exact ⟨rfl, rfl, rfl, rfl⟩

/-- A value leaves its frame what it is, with a comma or the end to come. -/
theorem effect_frame {frame frame' : Frame} {facts facts' : Facts} {value : Value}
    (h : effect U adapter frame facts value = .ok (frame', facts')) :
    frame'.kind = frame.kind ∧ frame'.scope = frame.scope ∧ frame'.key = frame.key ∧
      frame'.state = .commaOrEnd := by
  unfold effect at h
  split at h
  · contradiction
  · cases value with
    | literal | number =>
      obtain ⟨rfl, rfl⟩ := Prod.mk.inj (Except.ok.inj h)
      exact ⟨rfl, rfl, rfl, rfl⟩
    | string units => exact endText_frame h
    | array items =>
      simp only [bind, Except.bind, pure, Except.pure] at h
      split at h
      · contradiction
      · split at h
        · contradiction
        · obtain ⟨rfl, rfl⟩ := Prod.mk.inj (Except.ok.inj h)
          exact openArray_frame _
    | object members =>
      simp only [bind, Except.bind, pure, Except.pure] at h
      split at h
      · contradiction
      · split at h
        · contradiction
        · obtain ⟨rfl, rfl⟩ := Prod.mk.inj (Except.ok.inj h)
          exact ⟨rfl, rfl, rfl, rfl⟩

/-- What the frame reads next does not matter for the effect of a value. -/
theorem effect_state (frame : Frame) (state : FrameState) (facts : Facts) (value : Value) :
    effect U adapter { frame with state } facts value = effect U adapter frame facts value := by
  unfold effect
  rfl

/-- A key leaves its frame what it is, with a colon to come. -/
theorem endKey_frame {frame frame' : Frame} {s : Captured} (h : endKey frame s = .ok frame') :
    frame'.kind = frame.kind ∧ frame'.scope = frame.scope ∧ frame'.state = .colon := by
  unfold endKey at h
  dsimp only at h
  generalize (if (!s.truncated) = true then s.prefix_ else []) = key at h
  split_ifs at h <;> obtain rfl := Except.ok.inj h <;> exact ⟨rfl, rfl, rfl⟩

/-- What the frame reads next does not matter for a key. -/
theorem endKey_state (frame : Frame) (state : FrameState) (s : Captured) :
    endKey { frame with state } s = endKey frame s := by
  unfold endKey
  rfl

/-! ## Reading a value -/

/-- A frame that reads a value next. -/
def ExpectsValue (frame : Frame) : Prop :=
  frame.state = .value ∨ frame.kind = .array ∧ frame.state = .valueOrEnd

/-- Where a value is expected, a byte that is neither white space nor the end of an empty array
begins one. -/
theorem step_expects (hf : ExpectsValue frame) {b : UInt8} (hs : isSpace b = false)
    (hb : ¬(frame.kind = .array ∧ frame.state = .valueOrEnd ∧ b = closeArray)) :
    Machine.step U adapter ⟨frame :: rest, facts, .default⟩ b = beginValue frame rest facts b := by
  obtain ⟨kind, scope, state, key, seen, name_valid, variants_valid⟩ := frame
  simp only [Machine.step, Machine.stepDefault, hs, Bool.false_eq_true, if_false]
  rcases hf with rfl | ⟨rfl, rfl⟩
  · cases kind <;> rfl
  · dsimp only
    rw [if_neg fun hclose => hb ⟨rfl, rfl, hclose⟩]

/-- The first byte of a number. -/
theorem number_head {b : UInt8} (h : b = Json.minus ∨ isDigit b = true) :
    kindOf b = .number ∧ isSpace b = false ∧ b ≠ closeArray := by
  simp only [isDigit, Bool.and_eq_true, decide_eq_true_eq, UInt8.le_iff_toNat_le,
    UInt8.reduceToNat] at h
  have hne : b ≠ openObject ∧ b ≠ openArray ∧ b ≠ quote ∧ b ≠ closeArray ∧ isSpace b = false := by
    simp only [openObject, openArray, quote, closeArray, Json.minus, isSpace, ne_eq,
      ← UInt8.toNat_inj, UInt8.reduceToNat, Bool.or_eq_false_iff, decide_eq_false_iff_not] at h ⊢
    omega
  obtain ⟨h₁, h₂, h₃, h₄, h₅⟩ := hne
  refine ⟨?_, h₅, h₄⟩
  have hnum : (b = Json.minus || isDigit b) = true := by
    simp only [isDigit, Bool.or_eq_true, decide_eq_true_eq, Bool.and_eq_true,
      UInt8.le_iff_toNat_le, UInt8.reduceToNat]
    exact h
  unfold kindOf
  rw [if_neg h₁, if_neg h₂, if_neg h₃, if_pos hnum]

/-- The first step of a number goes on from a minus or a digit. -/
theorem numberStep_start {b : UInt8} {state : NumberState}
    (h : Parser.numberStep .start b = .ok (some state)) :
    b = Json.minus ∨ isDigit b = true := by
  simp only [Parser.numberStep] at h
  split_ifs at h with hm hz hn
  · exact .inl hm
  · exact .inr (by rw [hz]; rfl)
  · exact .inr ((isNonzeroDigit_iff b).mp hn).1

/-- The rest of a literal name. -/
theorem run_literal : ∀ {w : List UInt8}, w ≠ [] → ∀ r,
    Machine.run U adapter ⟨stack, facts, .literal w⟩ (w ++ r) =
      Machine.run U adapter ⟨stack, facts, .default⟩ r
  | [b], _, r => by
    have hstep : Machine.step U adapter ⟨stack, facts, .literal [b]⟩ b =
        .ok ⟨stack, facts, .default⟩ := by
      simp [Machine.step]
    rw [List.cons_append, run_cons_ok hstep, List.nil_append]
  | b :: c :: w, _, r => by
    have hstep : Machine.step U adapter ⟨stack, facts, .literal (b :: c :: w)⟩ b =
        .ok ⟨stack, facts, .literal (c :: w)⟩ := by
      simp [Machine.step]
    rw [List.cons_append, run_cons_ok hstep, run_literal (by simp) r]

/-- A value ends at the end of its container. -/
theorem run_close (facts : Facts) {b : UInt8} (r : List UInt8)
    (hclose : Machine.step U adapter ⟨frame :: rest, facts, .default⟩ b =
      popFrame frame rest facts) :
    Machine.run U adapter ⟨frame :: rest, facts, .default⟩ (b :: r) =
      leaveFrame frame >>= fun _ => Machine.run U adapter ⟨rest, facts, .default⟩ r := by
  rw [run_cons, hclose]
  unfold popFrame leaveFrame
  split <;> rfl

/-- A bracket closes an array between its items. -/
theorem step_closeArray (hk : frame.kind = .array)
    (hs : frame.state = .valueOrEnd ∨ frame.state = .commaOrEnd) :
    Machine.step U adapter ⟨frame :: rest, facts, .default⟩ closeArray =
      popFrame frame rest facts := by
  obtain ⟨kind, scope, state, key, seen, name_valid, variants_valid⟩ := frame
  obtain rfl : kind = .array := hk
  rcases hs with hs | hs <;> obtain rfl := hs <;> rfl

/-- A brace closes an object between its members. -/
theorem step_closeObject (hk : frame.kind = .object)
    (hs : frame.state = .keyOrEnd ∨ frame.state = .commaOrEnd) :
    Machine.step U adapter ⟨frame :: rest, facts, .default⟩ closeObject =
      popFrame frame rest facts := by
  obtain ⟨kind, scope, state, key, seen, name_valid, variants_valid⟩ := frame
  obtain rfl : kind = .object := hk
  rcases hs with hs | hs <;> obtain rfl := hs <;> rfl

/-- White space, then a byte that may stand after a value. -/
theorem terminated_append {s r : List UInt8} (hs : Space s) (hr : Terminated r) :
    Terminated (s ++ r) := by
  match s, hs with
  | [], _ => exact hr
  | b :: s, hs =>
    refine ⟨b, s ++ r, rfl, ?_⟩
    simp [terminator, hs b List.mem_cons_self]

/-- A comma may stand after a value. -/
theorem terminated_comma (r : List UInt8) : Terminated (comma :: r) := ⟨comma, r, rfl, rfl⟩

/-- A literal name where a value is expected. -/
theorem run_literalText (hf : ExpectsValue frame) (l : Literal) (r : List UInt8) :
    Machine.run U adapter ⟨frame :: rest, facts, .default⟩ (l.text ++ r) =
      effect U adapter frame facts (.literal l) >>= fun x =>
        Machine.run U adapter ⟨x.1 :: rest, x.2, .default⟩ r := by
  have hbegin : ∃ b w, l.text = b :: w ∧ w ≠ [] ∧ isSpace b = false ∧ b ≠ closeArray ∧
      kindOf b = .literal ∧ literalOf b = some (b :: w) := by
    cases l <;> exact ⟨_, _, rfl, by simp, by decide, by decide, by decide, by decide⟩
  obtain ⟨b, w, htext, hw, hspace, hclose, hkind, hlit⟩ := hbegin
  rw [htext, List.cons_append, run_cons, step_expects hf hspace fun h => hclose h.2.2]
  unfold beginValue effect
  rw [hkind, hlit, show valueKind (.literal l) = .literal from rfl]
  split_ifs
  · rfl
  · exact run_literal hw r

/-- A number where a value is expected. -/
theorem run_number (hf : ExpectsValue frame) {w r : List UInt8} (hw : Number w)
    (hr : Terminated r) :
    Machine.run U adapter ⟨frame :: rest, facts, .default⟩ (w ++ r) =
      effect U adapter frame facts .number >>= fun x =>
        Machine.run U adapter ⟨x.1 :: rest, x.2, .default⟩ r := by
  obtain ⟨c, r', rfl, hc⟩ := hr
  match w, hw with
  | [], hw => exact absurd ((residual_nil_iff .start).mp hw) (by simp [Parser.numberEnds])
  | b :: w, hw =>
    obtain ⟨state, hstep, hres⟩ := (residual_cons_iff .start b w).mp hw
    obtain ⟨hkind, hspace, hclose⟩ := number_head (numberStep_start hstep)
    rw [List.cons_append, run_cons, step_expects hf hspace fun h => hclose h.2.2]
    unfold beginValue effect
    rw [hkind, hstep, show valueKind .number = .number from rfl]
    split_ifs
    · rfl
    · exact run_residual hres hc

/-- A key ends. -/
theorem endString_key {mode : Reading} (hs : s.role = .key) :
    Machine.endString U adapter ⟨frame :: rest, facts, mode⟩ s =
      endKey frame s >>= fun f => .ok ⟨f :: rest, facts, .default⟩ := by
  simp only [Machine.endString, if_pos hs]
  cases endKey frame s <;> rfl

/-- A string value ends. -/
theorem endString_value {mode : Reading} (hs : s.role = .value) :
    Machine.endString U adapter ⟨frame :: rest, facts, mode⟩ s =
      endText U adapter frame facts s >>= fun x => .ok ⟨x.1 :: rest, x.2, .default⟩ := by
  simp only [Machine.endString, hs, reduceCtorEq, if_false]
  cases endText U adapter frame facts s <;> rfl

/-- A string where a value is expected. -/
theorem run_stringText (hf : ExpectsValue frame) {units : List ℕ} {w : List UInt8}
    (hw : Chars units w) (r : List UInt8) :
    Machine.run U adapter ⟨frame :: rest, facts, .default⟩ (quote :: (w ++ quote :: r)) =
      effect U adapter frame facts (.string units) >>= fun x =>
        Machine.run U adapter ⟨x.1 :: rest, x.2, .default⟩ r := by
  rw [run_cons, step_expects hf (by decide) fun h => absurd h.2.2 (by decide)]
  unfold beginValue effect
  rw [show kindOf quote = .string from rfl, show valueKind (.string units) = .string from rfl]
  split_ifs
  · rfl
  · refine (run_string hw .value r).trans ?_
    rw [endString_value rfl, bind_assoc]
    rfl

/-- An array where a value is expected, by what its inside does. -/
theorem run_arrayText (hf : ExpectsValue frame) {items : Items} {w r : List UInt8}
    (hinside : ∀ (inner : Frame) (below : List Frame) (facts : Facts), inner.kind = .array →
      inner.state = .valueOrEnd →
      Machine.run U adapter ⟨inner :: below, facts, .default⟩ (w ++ closeArray :: r) =
        effectItems U adapter inner facts items >>= fun x => leaveFrame x.1 >>= fun _ =>
          Machine.run U adapter ⟨below, x.2, .default⟩ r) :
    Machine.run U adapter ⟨frame :: rest, facts, .default⟩ (openArray :: (w ++ closeArray :: r)) =
      effect U adapter frame facts (.array items) >>= fun x =>
        Machine.run U adapter ⟨x.1 :: rest, x.2, .default⟩ r := by
  rw [run_cons, step_expects hf (by decide) fun h => absurd h.2.2 (by decide)]
  unfold beginValue effect
  rw [show kindOf openArray = .array from rfl, show valueKind (.array items) = .array from rfl]
  split_ifs
  · rfl
  · refine (hinside _ _ _ rfl rfl).trans ?_
    simp only [bind_assoc, pure_bind]

/-- An object where a value is expected, by what its inside does. -/
theorem run_objectText (hf : ExpectsValue frame) {members : Members} {w r : List UInt8}
    (hinside : ∀ (inner : Frame) (below : List Frame) (facts : Facts), inner.kind = .object →
      inner.state = .keyOrEnd →
      Machine.run U adapter ⟨inner :: below, facts, .default⟩ (w ++ closeObject :: r) =
        effectMembers U adapter inner facts members >>= fun x => leaveFrame x.1 >>= fun _ =>
          Machine.run U adapter ⟨below, x.2, .default⟩ r) :
    Machine.run U adapter ⟨frame :: rest, facts, .default⟩
        (openObject :: (w ++ closeObject :: r)) =
      effect U adapter frame facts (.object members) >>= fun x =>
        Machine.run U adapter ⟨x.1 :: rest, x.2, .default⟩ r := by
  rw [run_cons, step_expects hf (by decide) fun h => absurd h.2.2 (by decide)]
  unfold beginValue effect
  rw [show kindOf openObject = .object from rfl,
    show valueKind (.object members) = .object from rfl]
  split_ifs
  · rfl
  · refine (hinside _ _ _ rfl rfl).trans ?_
    simp only [bind_assoc, pure_bind]

/-- A key where one is expected, and its colon. -/
theorem run_key (hk : frame.kind = .object) (hs : frame.state = .keyOrEnd ∨ frame.state = .key)
    {key : List ℕ} {k s : List UInt8} (hkey : Chars key k) (hspace : Space s) (r : List UInt8) :
    Machine.run U adapter ⟨frame :: rest, facts, .default⟩
        (quote :: (k ++ quote :: (s ++ colon :: r))) =
      endKey frame (readString adapter .key frame key) >>= fun f =>
        Machine.run U adapter ⟨{ f with state := .value } :: rest, facts, .default⟩ r := by
  have hquote : Machine.step U adapter ⟨frame :: rest, facts, .default⟩ quote =
      .ok ⟨frame :: rest, facts, .string ⟨.key, [], false⟩ none⟩ := by
    obtain ⟨kind, scope, state, key, seen, name_valid, variants_valid⟩ := frame
    obtain rfl : kind = .object := hk
    rcases hs with hs | hs <;> obtain rfl := hs <;> rfl
  rw [run_cons_ok hquote, run_string hkey, endString_key rfl]
  cases hend : endKey frame (readString adapter .key frame key) with
  | error e => rfl
  | ok f =>
    obtain ⟨hfkind, -, hfstate⟩ := endKey_frame hend
    have hcolon : Machine.step U adapter ⟨f :: rest, facts, .default⟩ colon =
        .ok ⟨{ f with state := .value } :: rest, facts, .default⟩ := by
      obtain ⟨kind, scope, state, key, seen, name_valid, variants_valid⟩ := f
      obtain rfl : kind = .object := hfkind.trans hk
      obtain rfl : state = .colon := hfstate
      rfl
    refine (run_space hspace _).trans ?_
    rw [run_cons_ok hcolon]
    rfl

/-- A comma between the items of an array. -/
theorem step_comma_array (hk : frame.kind = .array) (hs : frame.state = .commaOrEnd) :
    Machine.step U adapter ⟨frame :: rest, facts, .default⟩ comma =
      .ok ⟨{ frame with state := .value } :: rest, facts, .default⟩ := by
  obtain ⟨kind, scope, state, key, seen, name_valid, variants_valid⟩ := frame
  obtain rfl : kind = .array := hk
  obtain rfl : state = .commaOrEnd := hs
  rfl

/-- A comma between the members of an object. -/
theorem step_comma_object (hk : frame.kind = .object) (hs : frame.state = .commaOrEnd) :
    Machine.step U adapter ⟨frame :: rest, facts, .default⟩ comma =
      .ok ⟨{ frame with state := .key } :: rest, facts, .default⟩ := by
  obtain ⟨kind, scope, state, key, seen, name_valid, variants_valid⟩ := frame
  obtain rfl : kind = .object := hk
  obtain rfl : state = .commaOrEnd := hs
  rfl

/-- What the frame reads next does not matter for the effect of items. -/
theorem effectItems_cons_state (frame : Frame) (state : FrameState) (facts : Facts) (value : Value)
    (items : Items) :
    effectItems U adapter { frame with state } facts (.cons value items) =
      effectItems U adapter frame facts (.cons value items) := by
  unfold effectItems
  rw [effect_state]

/-- What the frame reads next does not matter for the effect of members. -/
theorem effectMembers_cons_state (frame : Frame) (state : FrameState) (facts : Facts)
    (key : List ℕ) (value : Value) (members : Members) :
    effectMembers U adapter { frame with state } facts (.cons key value members) =
      effectMembers U adapter frame facts (.cons key value members) := by
  unfold effectMembers
  rw [endKey_state]
  rfl

mutual

/-- Reading a value has its effect. -/
theorem run_value {value : Value} {w : List UInt8} (h : Spells value w) {frame : Frame}
    {rest : List Frame} {facts : Facts} {r : List UInt8} (hf : ExpectsValue frame)
    (hr : value = .number → Terminated r) :
    Machine.run U adapter ⟨frame :: rest, facts, .default⟩ (w ++ r) =
      effect U adapter frame facts value >>= fun x =>
        Machine.run U adapter ⟨x.1 :: rest, x.2, .default⟩ r := by
  match h with
  | .literal l => exact run_literalText hf l r
  | .number hw => exact run_number hf hw (hr rfl)
  | .string hw =>
    rw [List.cons_append, List.append_assoc]
    exact run_stringText hf hw r
  | .emptyArray hs =>
    rw [List.cons_append, List.append_assoc]
    refine run_arrayText hf fun inner below facts hk hstate => ?_
    rw [run_space hs]
    exact run_close facts r (step_closeArray hk (.inl hstate))
  | .array hitems =>
    rw [List.cons_append, List.append_assoc]
    exact run_arrayText hf fun inner below facts hk hstate =>
      run_items hitems hk (.inr ⟨hk, hstate⟩)
  | .emptyObject hs =>
    rw [List.cons_append, List.append_assoc]
    refine run_objectText hf fun inner below facts hk hstate => ?_
    rw [run_space hs]
    exact run_close facts r (step_closeObject hk (.inl hstate))
  | .object hmembers =>
    rw [List.cons_append, List.append_assoc]
    exact run_objectText hf fun inner below facts hk hstate =>
      run_members hmembers hk (.inl hstate)

/-- Reading a value with white space around it has its effect. -/
theorem run_element {value : Value} {w : List UInt8} (h : SpellsElement value w) {frame : Frame}
    {rest : List Frame} {facts : Facts} {r : List UInt8} (hf : ExpectsValue frame)
    (hr : Terminated r) :
    Machine.run U adapter ⟨frame :: rest, facts, .default⟩ (w ++ r) =
      effect U adapter frame facts value >>= fun x =>
        Machine.run U adapter ⟨x.1 :: rest, x.2, .default⟩ r := by
  match h with
  | .mk hs hw hs' =>
    rw [List.append_assoc, List.append_assoc, run_space hs,
      run_value hw hf fun _ => terminated_append hs' hr]
    exact bind_congr_ok fun x _ => run_space hs' r

/-- Reading the items of an array, and its end. -/
theorem run_items {items : Items} {w : List UInt8} (h : SpellsItems items w) {frame : Frame}
    {rest : List Frame} {facts : Facts} {r : List UInt8} (hk : frame.kind = .array)
    (hf : ExpectsValue frame) :
    Machine.run U adapter ⟨frame :: rest, facts, .default⟩ (w ++ closeArray :: r) =
      effectItems U adapter frame facts items >>= fun x => leaveFrame x.1 >>= fun _ =>
        Machine.run U adapter ⟨rest, x.2, .default⟩ r := by
  match h with
  | .one hw =>
    rw [run_element hw hf ⟨closeArray, r, rfl, rfl⟩]
    unfold effectItems
    rw [bind_assoc]
    refine bind_congr_ok fun x hx => ?_
    obtain ⟨hkind, -, -, hstate⟩ := effect_frame hx
    exact run_close x.2 r (step_closeArray (hkind.trans hk) (.inr hstate))
  | .more hw hrest =>
    rw [List.append_assoc, List.cons_append, run_element hw hf (terminated_comma _)]
    unfold effectItems
    rw [bind_assoc]
    refine bind_congr_ok fun x hx => ?_
    obtain ⟨hkind, -, -, hstate⟩ := effect_frame hx
    rw [run_cons_ok (step_comma_array (hkind.trans hk) hstate)]
    refine (run_items hrest ?_ ?_).trans ?_
    · exact hkind.trans hk
    · exact .inl rfl
    · match hrest with
      | .one _ | .more _ _ => rw [effectItems_cons_state]

/-- Reading one member of an object. -/
theorem run_member {key : List ℕ} {value : Value} {w : List UInt8} (h : SpellsMember key value w)
    {frame : Frame} {rest : List Frame} {facts : Facts} {r : List UInt8}
    (hk : frame.kind = .object) (hs : frame.state = .keyOrEnd ∨ frame.state = .key)
    (hr : Terminated r) :
    Machine.run U adapter ⟨frame :: rest, facts, .default⟩ (w ++ r) =
      endKey frame (readString adapter .key frame key) >>= fun f =>
        effect U adapter f facts value >>= fun x =>
          Machine.run U adapter ⟨x.1 :: rest, x.2, .default⟩ r := by
  match h with
  | .mk hspace hkey hspace' hw =>
    simp only [List.append_assoc, List.cons_append]
    rw [run_space hspace, run_key hk hs hkey hspace']
    refine bind_congr_ok fun f _ => ?_
    rw [run_element hw (.inl rfl) hr, effect_state]

/-- Reading the members of an object, and its end. -/
theorem run_members {members : Members} {w : List UInt8} (h : SpellsMembers members w)
    {frame : Frame} {rest : List Frame} {facts : Facts} {r : List UInt8}
    (hk : frame.kind = .object) (hs : frame.state = .keyOrEnd ∨ frame.state = .key) :
    Machine.run U adapter ⟨frame :: rest, facts, .default⟩ (w ++ closeObject :: r) =
      effectMembers U adapter frame facts members >>= fun x => leaveFrame x.1 >>= fun _ =>
        Machine.run U adapter ⟨rest, x.2, .default⟩ r := by
  match h with
  | .one hw =>
    rw [run_member hw hk hs ⟨closeObject, r, rfl, rfl⟩]
    unfold effectMembers
    rw [bind_assoc]
    refine bind_congr_ok fun f hfk => ?_
    rw [bind_assoc]
    refine bind_congr_ok fun x hx => ?_
    have hkind := (effect_frame hx).1.trans ((endKey_frame hfk).1.trans hk)
    exact run_close x.2 r (step_closeObject hkind (.inr (effect_frame hx).2.2.2))
  | .more hw hrest =>
    rw [List.append_assoc, List.cons_append, run_member hw hk hs (terminated_comma _)]
    unfold effectMembers
    rw [bind_assoc]
    refine bind_congr_ok fun f hfk => ?_
    rw [bind_assoc]
    refine bind_congr_ok fun x hx => ?_
    have hkind := (effect_frame hx).1.trans ((endKey_frame hfk).1.trans hk)
    rw [run_cons_ok (step_comma_object hkind (effect_frame hx).2.2.2)]
    refine (run_members hrest ?_ ?_).trans ?_
    · exact hkind
    · exact .inr rfl
    · match hrest with
      | .one _ | .more _ _ => rw [effectMembers_cons_state]

end

end

end JobScripts.Recipe
