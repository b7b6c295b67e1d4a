import JobScripts.Recipe.Grammar

/-!
# What the machine accepts is spelled

A text that the machine accepts is taken apart, by induction on its length: where a value is
expected, one is spelled, and where the inside of a container is expected, its items or members are,
up to the closing bracket (`spelled`). With what reading a spelling does, a text is accepted exactly
when it spells an object whose effect goes through and leaves every fact in place
(`exists_text`, `accepts_text_iff`).
-/

namespace JobScripts.Recipe

open Lib Lib.Json

section

variable {U : UnicodeData} {adapter : String} {frame : Frame} {rest : List Frame} {facts : Facts}
  {s : Captured}

/-! ## Accepting -/

variable (U adapter) in
/-- The machine reads the text to its end and accepts it. -/
def Accepts (m : Machine) (bytes : List UInt8) : Prop :=
  ∃ m', m.run U adapter bytes = .ok m' ∧ m'.Done

/-- The first byte of an accepted text is read. -/
theorem accepts_cons_iff {m : Machine} {b : UInt8} {bs : List UInt8} :
    Accepts U adapter m (b :: bs) ↔
      ∃ m', m.step U adapter b = .ok m' ∧ Accepts U adapter m' bs := by
  unfold Accepts
  rw [run_cons]
  cases m.step U adapter b with
  | error e => simp [bind, Except.bind]
  | ok m' => simp [bind, Except.bind]

/-- Inside a container the text is not over. -/
theorem accepts_ne_nil {mode : Reading} {bs : List UInt8}
    (h : Accepts U adapter ⟨frame :: rest, facts, mode⟩ bs) : ∃ b bs', bs = b :: bs' := by
  match bs with
  | [] =>
    obtain ⟨m', hm', hdone⟩ := h
    obtain rfl := Except.ok.inj hm'
    simp [Machine.Done] at hdone
  | b :: bs' => exact ⟨b, bs', rfl⟩

/-- Texts that the machine reads alike are accepted alike. -/
theorem Accepts.of_run_eq {m m' : Machine} {bs bs' : List UInt8}
    (h : Accepts U adapter m bs) (heq : m.run U adapter bs = m'.run U adapter bs') :
    Accepts U adapter m' bs' := by
  unfold Accepts at h ⊢
  rwa [← heq]

/-- What goes before goes through. -/
theorem Accepts.of_bind {m : Machine} {bs bs' : List UInt8} {A : Type} {x : Except String A}
    {f : A → Machine} (h : Accepts U adapter m bs)
    (heq : m.run U adapter bs = x >>= fun a => (f a).run U adapter bs') :
    ∃ a, x = .ok a ∧ Accepts U adapter (f a) bs' := by
  cases x with
  | error e =>
    obtain ⟨m', hm', -⟩ := h
    rw [heq] at hm'
    contradiction
  | ok a => exact ⟨a, rfl, h.of_run_eq heq⟩

/-- A number that is a scalar value has a character. -/
theorem exists_char {n : ℕ} (hmax : n ≤ 0x10FFFF) (hs : isSurrogate n = false) :
    ∃ c : Char, c.toNat = n := by
  have hvalid : n.isValidChar := by
    simp only [isSurrogate, Bool.and_eq_false_iff, decide_eq_false_iff_not] at hs
    unfold Nat.isValidChar
    omega
  exact ⟨Char.ofNatAux n hvalid, rfl⟩

/-- A continuation byte, if the text is accepted inside a sequence. -/
theorem continuation_of_accepts {utf8 : Utf8} {bs : List UInt8}
    (h : Accepts U adapter ⟨frame :: rest, facts, .string s (some utf8)⟩ bs) :
    ∃ b bs', bs = b :: bs' ∧ 128 ≤ b.toNat ∧ b.toNat < 192 := by
  obtain ⟨b, bs', rfl⟩ := accepts_ne_nil h
  obtain ⟨m', hstep, -⟩ := accepts_cons_iff.mp h
  refine ⟨b, bs', rfl, (continuation_bits b.toNat_lt).1.mp ?_⟩
  by_contra hne
  simp only [Machine.step, Machine.stepUtf8, if_pos hne] at hstep
  contradiction

/-- The sequence that ends here spells a character. -/
theorem last_of_accepts {value min : ℕ} {bs : List UInt8}
    (h : Accepts U adapter ⟨frame :: rest, facts, .string s (some ⟨1, value, min⟩)⟩ bs) :
    ∃ b bs', ∃ c : Char, bs = b :: bs' ∧ 128 ≤ b.toNat ∧ b.toNat < 192 ∧
      c.toNat = value * 64 + (b.toNat - 128) ∧ min ≤ c.toNat ∧ c.toNat ≤ 0x10FFFF := by
  obtain ⟨b, bs', rfl, hb, hb'⟩ := continuation_of_accepts h
  obtain ⟨m', hstep, -⟩ := accepts_cons_iff.mp h
  rw [step_last_continuation hb hb'] at hstep
  split_ifs at hstep with hbad
  simp only [Bool.or_eq_true, decide_eq_true_eq, not_or, Nat.not_lt] at hbad
  obtain ⟨⟨hmin, hmax⟩, hsur⟩ := hbad
  obtain ⟨c, hc⟩ := exists_char hmax (by simpa using hsur)
  exact ⟨b, bs', c, rfl, hb, hb', hc, by omega, by omega⟩

/-- A sequence goes on with a continuation byte. -/
theorem more_of_accepts {left value min : ℕ} {bs : List UInt8}
    (h : Accepts U adapter ⟨frame :: rest, facts, .string s (some ⟨left + 2, value, min⟩)⟩ bs) :
    ∃ b bs', bs = b :: bs' ∧ 128 ≤ b.toNat ∧ b.toNat < 192 ∧
      Accepts U adapter ⟨frame :: rest, facts,
        .string s (some ⟨left + 1, value * 64 + (b.toNat - 128), min⟩)⟩ bs' := by
  obtain ⟨b, bs', rfl, hb, hb'⟩ := continuation_of_accepts h
  exact ⟨b, bs', rfl, hb, hb', h.of_run_eq (run_cons_ok (step_continuation _ rfl hb hb') bs')⟩

/-- Bytes are equal when their numbers are. -/
theorem ofNat_eq_of_toNat {n : ℕ} {b : UInt8} (hn : n = b.toNat) : UInt8.ofNat n = b := by
  rw [hn, UInt8.ofNat_toNat]

/-- A byte beyond ASCII in a string begins the spelling of a character. -/
theorem exists_raw {b : UInt8} {bs : List UInt8} (hb : 0x80 ≤ b.toNat)
    (h : Accepts U adapter ⟨frame :: rest, facts, .string s none⟩ (b :: bs)) :
    ∃ (c : Char) (r : List UInt8), b :: bs = String.utf8EncodeChar c ++ r ∧ 0x80 ≤ c.toNat := by
  have hcases : 0xC2 ≤ b.toNat ∧ b.toNat ≤ 0xDF ∨ 0xE0 ≤ b.toNat ∧ b.toNat ≤ 0xEF ∨
      0xF0 ≤ b.toNat ∧ b.toNat ≤ 0xF4 := by
    by_contra hne
    obtain ⟨m', hstep, -⟩ := accepts_cons_iff.mp h
    have hq : b ≠ quote := by rintro rfl; simp [quote] at hb
    have hs : b ≠ backslash := by rintro rfl; simp [backslash] at hb
    simp only [Machine.step, Machine.stepString, if_neg hq, if_neg hs, Bool.and_eq_true,
      decide_eq_true_eq, UInt8.lt_iff_toNat_lt, UInt8.le_iff_toNat_le, UInt8.reduceToNat] at hstep
    rw [if_neg (by omega), if_neg (by omega), if_neg (by omega), if_neg (by omega),
      if_neg (by omega)] at hstep
    contradiction
  rcases hcases with hrange | hrange | hrange
  · obtain ⟨b₂, r, c, rfl, h₂, h₂', hc, hmin, -⟩ :=
      last_of_accepts (h.of_run_eq (run_cons_ok (step_leading.1 hrange) bs))
    refine ⟨c, r, ?_, hmin⟩
    have hval : c.val.toNat = c.toNat := rfl
    unfold String.utf8EncodeChar
    rw [hval, hc]
    dsimp only
    rw [if_neg (by omega), if_pos (by omega), ofNat_eq_of_toNat (b := b) (by omega),
      ofNat_eq_of_toNat (b := b₂) (by omega)]
    rfl
  · obtain ⟨b₂, bs₂, rfl, h₂, h₂', hacc⟩ :=
      more_of_accepts (h.of_run_eq (run_cons_ok (step_leading.2.1 hrange) bs))
    obtain ⟨b₃, r, c, rfl, h₃, h₃', hc, hmin, -⟩ := last_of_accepts hacc
    refine ⟨c, r, ?_, by omega⟩
    have hval : c.val.toNat = c.toNat := rfl
    unfold String.utf8EncodeChar
    rw [hval, hc]
    dsimp only
    rw [if_neg (by omega), if_neg (by omega), if_pos (by omega),
      ofNat_eq_of_toNat (b := b) (by omega), ofNat_eq_of_toNat (b := b₂) (by omega),
      ofNat_eq_of_toNat (b := b₃) (by omega)]
    rfl
  · obtain ⟨b₂, bs₂, rfl, h₂, h₂', hacc⟩ :=
      more_of_accepts (h.of_run_eq (run_cons_ok (step_leading.2.2 hrange) bs))
    obtain ⟨b₃, bs₃, rfl, h₃, h₃', hacc⟩ := more_of_accepts hacc
    obtain ⟨b₄, r, c, rfl, h₄, h₄', hc, hmin, hmax⟩ := last_of_accepts hacc
    refine ⟨c, r, ?_, by omega⟩
    have hval : c.val.toNat = c.toNat := rfl
    unfold String.utf8EncodeChar
    rw [hval, hc]
    dsimp only
    rw [if_neg (by omega), if_neg (by omega), if_neg (by omega),
      ofNat_eq_of_toNat (b := b) (by omega), ofNat_eq_of_toNat (b := b₂) (by omega),
      ofNat_eq_of_toNat (b := b₃) (by omega), ofNat_eq_of_toNat (b := b₄) (by omega)]
    rfl

/-- A number is left only where it may end. -/
theorem numberEnds_of_numberStep {state : NumberState} {b : UInt8}
    (h : Parser.numberStep state b = .ok none) : Parser.numberEnds state = true := by
  cases state with
  | zero | int | fraction | expDigits => rfl
  | none => contradiction
  | start | minus | dot | exp | expSign =>
    simp only [Parser.numberStep] at h
    split_ifs at h <;> simp at h

/-- After a value only a comma or the end of the container goes on. -/
theorem terminator_of_stepDefault {mode : Reading} {b : UInt8} {m' : Machine}
    (hf : frame.state = .commaOrEnd)
    (h : Machine.stepDefault ⟨frame :: rest, facts, mode⟩ b = .ok m') : terminator b = true := by
  unfold Machine.stepDefault at h
  unfold terminator
  by_cases hs : isSpace b = true
  · simp [hs]
  · obtain ⟨kind, scope, state, key, seen, name_valid, variants_valid⟩ := frame
    obtain rfl : state = .commaOrEnd := hf
    rw [if_neg hs] at h
    cases kind with
    | object =>
      dsimp only at h
      split_ifs at h with hc he
      · simp [hc]
      · simp [he]
    | array =>
      dsimp only at h
      split_ifs at h with hc he
      · simp [hc]
      · simp [he]

/-- An ASCII byte is the spelling of its character. -/
theorem exists_ascii {b : UInt8} (hb : b.toNat < 0x80) :
    ∃ c : Char, String.utf8EncodeChar c = [b] ∧ c.toNat = b.toNat := by
  have hs : isSurrogate b.toNat = false := by
    simp only [isSurrogate, Bool.and_eq_false_iff, decide_eq_false_iff_not]
    omega
  obtain ⟨c, hc⟩ := exists_char (n := b.toNat) (by omega) hs
  refine ⟨c, ?_, hc⟩
  have hval : c.val.toNat = c.toNat := rfl
  unfold String.utf8EncodeChar
  rw [hval, hc]
  dsimp only
  rw [if_pos (by omega), ofNat_eq_of_toNat (b := b) rfl]

/-- A hexadecimal digit, if the text is accepted inside a `\u` escape. -/
theorem hex_of_accepts {digits : List UInt8} {bs : List UInt8} (hlen : digits.length < 4)
    (h : Accepts U adapter ⟨frame :: rest, facts, .unicode s digits⟩ bs) :
    ∃ b bs' v, bs = b :: bs' ∧ hexValue b = some v ∧ (digits.length < 3 →
      Accepts U adapter ⟨frame :: rest, facts, .unicode s (digits ++ [b])⟩ bs') := by
  obtain ⟨b, bs', rfl⟩ := accepts_ne_nil h
  obtain ⟨m', hstep, hacc⟩ := accepts_cons_iff.mp h
  simp only [Machine.step] at hstep
  by_cases hnone : (hexValue b).isNone = true
  · rw [if_pos hnone] at hstep
    contradiction
  · have hsome : hexValue b ≠ none := by simpa using hnone
    obtain ⟨v, hv⟩ := Option.ne_none_iff_exists'.mp hsome
    refine ⟨b, bs', v, rfl, hv, fun hlt => ?_⟩
    rw [if_neg hnone, if_neg (by rw [List.length_append, List.length_singleton]; omega)] at hstep
    rwa [Except.ok.inj hstep]

/-- Where a string goes on, there is its end or the spelling of one more unit. -/
theorem exists_unit {bs : List UInt8}
    (h : Accepts U adapter ⟨frame :: rest, facts, .string s none⟩ bs) :
    (∃ r, bs = quote :: r) ∨ ∃ u w r, bs = w ++ r ∧ w ≠ [] ∧
      ∀ units w', Chars units w' → Chars (u :: units) (w ++ w') := by
  obtain ⟨b, bs, rfl⟩ := accepts_ne_nil h
  by_cases hq : b = quote
  · exact .inl ⟨bs, by rw [hq]⟩
  refine .inr ?_
  by_cases hb : b = backslash
  · -- An escape: the byte after the backslash tells which.
    subst hb
    have hesc := h.of_run_eq (run_cons_ok step_backslash bs)
    obtain ⟨b, bs, rfl⟩ := accepts_ne_nil hesc
    by_cases hu : b = unicodeEscape
    · subst hu
      have hstep : Machine.step U adapter ⟨frame :: rest, facts, .escape s⟩ unicodeEscape =
          .ok ⟨frame :: rest, facts, .unicode s []⟩ := rfl
      have hacc := hesc.of_run_eq (run_cons_ok hstep bs)
      obtain ⟨d₁, bs, v₁, rfl, h₁, hnext⟩ := hex_of_accepts (by simp) hacc
      obtain ⟨d₂, bs, v₂, rfl, h₂, hnext⟩ := hex_of_accepts (by simp) (hnext (by simp))
      obtain ⟨d₃, bs, v₃, rfl, h₃, hnext⟩ := hex_of_accepts (by simp) (hnext (by simp))
      obtain ⟨d₄, bs, v₄, rfl, h₄, -⟩ := hex_of_accepts (by simp) (hnext (by simp))
      exact ⟨_, [backslash, unicodeEscape, d₁, d₂, d₃, d₄], bs, rfl, by simp, fun units w' hw =>
        .unicode d₁ d₂ d₃ d₄ v₁ v₂ v₃ v₄ h₁ h₂ h₃ h₄ hw⟩
    · obtain ⟨m', hstep, -⟩ := accepts_cons_iff.mp hesc
      simp only [Machine.step, if_neg hu] at hstep
      cases hv : escapeValue b with
      | none =>
        rw [hv] at hstep
        contradiction
      | some u =>
        exact ⟨u, [backslash, b], bs, rfl, by simp, fun units w' hw => .escape b u hv hw⟩
  · by_cases hctl : b.toNat < 0x20
    · obtain ⟨m', hstep, -⟩ := accepts_cons_iff.mp h
      have hlt : b < 0x20 := by simpa [UInt8.lt_iff_toNat_lt] using hctl
      simp only [Machine.step, Machine.stepString, if_neg hq, if_neg hb, if_pos hlt] at hstep
      contradiction
    · by_cases hascii : b.toNat < 0x80
      · obtain ⟨c, hc, hcb⟩ := exists_ascii hascii
        have hcq : c.toNat ≠ 0x22 := fun he => hq (UInt8.toNat_inj.mp (hcb.symm.trans he))
        have hcs : c.toNat ≠ 0x5C := fun he => hb (UInt8.toNat_inj.mp (hcb.symm.trans he))
        refine ⟨c.toNat, [b], bs, rfl, by simp, fun units w' hw => ?_⟩
        rw [← hc]
        exact .raw c (by omega) hcq hcs hw
      · obtain ⟨c, r, heq, hc⟩ := exists_raw (by omega) h
        refine ⟨c.toNat, String.utf8EncodeChar c, r, heq, ?_, fun units w' hw =>
          .raw c (by omega) (by omega) (by omega) hw⟩
        intro hnil
        have hlen := congrArg List.length hnil
        have hpos := c.utf8Size_pos
        rw [String.length_utf8EncodeChar, List.length_nil] at hlen
        omega

/-- Inside a string, its characters are spelled up to a quotation mark. -/
theorem exists_chars (n : ℕ) : ∀ (bs : List UInt8) (s : Captured), bs.length = n →
    Accepts U adapter ⟨frame :: rest, facts, .string s none⟩ bs →
    ∃ units w r, bs = w ++ quote :: r ∧ Chars units w := by
  induction n using Nat.strongRecOn with
  | ind n ih =>
    intro bs s hn h
    rcases exists_unit h with ⟨r, rfl⟩ | ⟨u, w, r, rfl, hw, hchars⟩
    · exact ⟨[], [], r, rfl, .nil⟩
    · have hone : Chars [u] w := by simpa using hchars [] [] .nil
      have hpos := List.length_pos_iff.mpr hw
      rw [List.length_append] at hn
      obtain ⟨units, w', r', rfl, hw'⟩ :=
        ih r.length (by omega) r _ rfl (h.of_run_eq (run_chars hone r s))
      exact ⟨u :: units, w ++ w', r', by rw [List.append_assoc], hchars units w' hw'⟩

/-- Inside a number, the rest of one is spelled up to a byte that may stand after it. -/
theorem exists_residual : ∀ (bs : List UInt8) (state : NumberState),
    frame.state = .commaOrEnd →
    Accepts U adapter ⟨frame :: rest, facts, .number state⟩ bs →
    ∃ w r, bs = w ++ r ∧ Residual state w ∧ Terminated r := by
  intro bs
  induction bs with
  | nil =>
    intro state _ h
    obtain ⟨b, bs', hne⟩ := accepts_ne_nil h
    simp at hne
  | cons b bs ih =>
    intro state hf h
    obtain ⟨m', hstep, hacc⟩ := accepts_cons_iff.mp h
    simp only [Machine.step] at hstep
    cases hnum : Parser.numberStep state b with
    | error e =>
      rw [hnum] at hstep
      contradiction
    | ok next =>
      rw [hnum] at hstep
      cases next with
      | some state' =>
        rw [← Except.ok.inj hstep] at hacc
        obtain ⟨w, r, rfl, hres, hr⟩ := ih state' hf hacc
        exact ⟨b :: w, r, rfl, (residual_cons_iff state b w).mpr ⟨state', hnum, hres⟩, hr⟩
      | none =>
        have hends : Parser.numberEnds state = true := numberEnds_of_numberStep hnum
        refine ⟨[], b :: bs, rfl, (residual_nil_iff state).mpr hends, b, bs, rfl, ?_⟩
        exact terminator_of_stepDefault hf hstep

/-- The white space at the beginning of a text. -/
theorem exists_space (bs : List UInt8) :
    ∃ s r, bs = s ++ r ∧ Space s ∧ ∀ b r', r = b :: r' → isSpace b = false := by
  induction bs with
  | nil => exact ⟨[], [], rfl, by simp [Space], by simp⟩
  | cons b bs ih =>
    by_cases hb : isSpace b = true
    · obtain ⟨s, r, rfl, hs, hr⟩ := ih
      refine ⟨b :: s, r, rfl, ?_, hr⟩
      intro b' hb'
      rcases List.mem_cons.mp hb' with rfl | hmem
      · exact hb
      · exact hs b' hmem
    · refine ⟨[], b :: bs, rfl, by simp [Space], fun b' r' heq => ?_⟩
      obtain ⟨rfl, -⟩ := List.cons.inj heq
      simpa using hb

/-- The first byte that is not white space, where a container is open. -/
theorem exists_token {bs : List UInt8}
    (h : Accepts U adapter ⟨frame :: rest, facts, .default⟩ bs) :
    ∃ s b r, bs = s ++ b :: r ∧ Space s ∧ isSpace b = false ∧
      Accepts U adapter ⟨frame :: rest, facts, .default⟩ (b :: r) := by
  obtain ⟨s, r, rfl, hs, hr⟩ := exists_space bs
  have hacc := h.of_run_eq (run_space hs r)
  obtain ⟨b, r, rfl⟩ := accepts_ne_nil hacc
  exact ⟨s, b, r, rfl, hs, hr b r rfl, hacc⟩

/-- Inside a literal name, the rest of it is spelled. -/
theorem exists_literal : ∀ (w bs : List UInt8), w ≠ [] →
    Accepts U adapter ⟨frame :: rest, facts, .literal w⟩ bs → ∃ r, bs = w ++ r := by
  intro w
  induction w with
  | nil => exact fun bs hne => absurd rfl hne
  | cons b w ih =>
    intro bs _ h
    obtain ⟨b', bs', rfl⟩ := accepts_ne_nil h
    obtain ⟨m', hstep, hacc⟩ := accepts_cons_iff.mp h
    simp only [Machine.step] at hstep
    split_ifs at hstep with hne hnil
    · exact ⟨bs', by rw [hnil, not_not.mp hne, List.cons_append, List.nil_append]⟩
    · rw [← Except.ok.inj hstep] at hacc
      obtain ⟨r, rfl⟩ := ih bs' hnil hacc
      exact ⟨r, by rw [not_not.mp hne, List.cons_append]⟩

/-- What a value may begin with, and what the machine does there. -/
theorem beginValue_cases {b : UInt8} {m' : Machine} (h : beginValue frame rest facts b = .ok m') :
    let parent := { frame with state := .commaOrEnd }
    (b = openObject ∧ m' = ⟨objectFrame parent :: parent :: rest, facts, .default⟩) ∨
    (b = openArray ∧ m' =
      ⟨arrayFrame parent :: parent.openArray :: rest, facts.openArray parent, .default⟩) ∨
    (b = quote ∧ m' = ⟨parent :: rest, facts, .string ⟨.value, [], false⟩ none⟩) ∨
    (∃ state, Parser.numberStep .start b = .ok (some state) ∧
      m' = ⟨parent :: rest, facts, .number state⟩) ∨
    ∃ (l : Literal) (w : List UInt8), l.text = b :: w ∧ w ≠ [] ∧
      m' = ⟨parent :: rest, facts, .literal w⟩ := by
  intro parent
  unfold beginValue at h
  split_ifs at h
  cases hkind : kindOf b with
  | object =>
    rw [hkind] at h
    refine .inl ⟨?_, (Except.ok.inj h).symm⟩
    unfold kindOf at hkind
    split_ifs at hkind with h₁
    exact h₁
  | array =>
    rw [hkind] at h
    refine .inr (.inl ⟨?_, (Except.ok.inj h).symm⟩)
    unfold kindOf at hkind
    split_ifs at hkind with h₁ h₂
    exact h₂
  | string =>
    rw [hkind] at h
    refine .inr (.inr (.inl ⟨?_, (Except.ok.inj h).symm⟩))
    unfold kindOf at hkind
    split_ifs at hkind with h₁ h₂ h₃
    exact h₃
  | number =>
    rw [hkind] at h
    cases hnum : Parser.numberStep .start b with
    | error e =>
      rw [hnum] at h
      contradiction
    | ok next =>
      cases next with
      | none =>
        have hends := numberEnds_of_numberStep hnum
        contradiction
      | some state =>
        rw [hnum] at h
        exact .inr (.inr (.inr (.inl ⟨state, rfl, (Except.ok.inj h).symm⟩)))
  | literal =>
    rw [hkind] at h
    refine .inr (.inr (.inr (.inr ?_)))
    unfold literalOf at h
    split_ifs at h with h₁ h₂ h₃
    · exact ⟨.true, _, by rw [h₁]; rfl, by simp [Literal.text], (Except.ok.inj h).symm⟩
    · exact ⟨.false, _, by rw [h₂]; rfl, by simp [Literal.text], (Except.ok.inj h).symm⟩
    · exact ⟨.null, _, by rw [h₃]; rfl, by simp [Literal.text], (Except.ok.inj h).symm⟩

variable (U adapter) in
/-- What is spelled at the beginning of a text that is accepted inside a container: a value, the
items of an array up to its end, the members of an object up to its end. -/
structure Spelled (bs : List UInt8) : Prop where
  value : ∀ {frame rest facts}, Accepts U adapter ⟨frame :: rest, facts, .default⟩ bs →
    ExpectsValue frame →
    (∃ s value w r, bs = s ++ (w ++ r) ∧ Space s ∧ Spells value w ∧
      (value = .number → Terminated r)) ∨
    (frame.kind = .array ∧ frame.state = .valueOrEnd ∧ ∃ s r, bs = s ++ closeArray :: r ∧ Space s)
  items : ∀ {frame rest facts}, Accepts U adapter ⟨frame :: rest, facts, .default⟩ bs →
    frame.kind = .array → ExpectsValue frame →
    (∃ items w r, bs = w ++ closeArray :: r ∧ SpellsItems items w) ∨
    (frame.state = .valueOrEnd ∧ ∃ s r, bs = s ++ closeArray :: r ∧ Space s)
  members : ∀ {frame rest facts}, Accepts U adapter ⟨frame :: rest, facts, .default⟩ bs →
    frame.kind = .object → (frame.state = .keyOrEnd ∨ frame.state = .key) →
    (∃ members w r, bs = w ++ closeObject :: r ∧ SpellsMembers members w) ∨
    (frame.state = .keyOrEnd ∧ ∃ s r, bs = s ++ closeObject :: r ∧ Space s)

/-- A value is spelled, when what it may hold is. -/
theorem spelled_value {b : UInt8} {bs : List UInt8} {m' : Machine}
    (hinside : Spelled U adapter bs) (hbegin : beginValue frame rest facts b = .ok m')
    (h : Accepts U adapter m' bs) :
    ∃ value w r, b :: bs = w ++ r ∧ Spells value w ∧ (value = .number → Terminated r) := by
  obtain ⟨rfl, rfl⟩ | ⟨rfl, rfl⟩ | ⟨rfl, rfl⟩ | ⟨state, hnum, rfl⟩ | ⟨l, w, htext, hw, rfl⟩ :=
    beginValue_cases hbegin
  · rcases hinside.members h rfl (.inl rfl) with ⟨members, w, r, rfl, hw⟩ | ⟨-, s, r, rfl, hs⟩
    · exact ⟨.object members, openObject :: (w ++ [closeObject]), r, by simp, .object hw, by simp⟩
    · exact ⟨.object .nil, openObject :: (s ++ [closeObject]), r, by simp, .emptyObject hs,
        by simp⟩
  · rcases hinside.items h rfl (.inr ⟨rfl, rfl⟩) with ⟨items, w, r, rfl, hw⟩ | ⟨-, s, r, rfl, hs⟩
    · exact ⟨.array items, openArray :: (w ++ [closeArray]), r, by simp, .array hw, by simp⟩
    · exact ⟨.array .nil, openArray :: (s ++ [closeArray]), r, by simp, .emptyArray hs, by simp⟩
  · obtain ⟨units, w, r, rfl, hw⟩ := exists_chars _ bs _ rfl h
    exact ⟨.string units, quote :: (w ++ [quote]), r, by simp, .string hw, by simp⟩
  · obtain ⟨w, r, rfl, hres, hr⟩ := exists_residual bs state rfl h
    exact ⟨.number, b :: w, r, rfl,
      .number ((residual_cons_iff .start b w).mpr ⟨state, hnum, hres⟩), fun _ => hr⟩
  · obtain ⟨r, rfl⟩ := exists_literal w bs hw h
    exact ⟨.literal l, l.text, r, by rw [htext, List.cons_append], .literal l, by simp⟩

/-- A value with white space around it, and the byte after it. -/
theorem spelled_element {s w r : List UInt8} {value : Value} (hf : ExpectsValue frame)
    (hs : Space s) (hw : Spells value w) (hr : value = .number → Terminated r)
    (h : Accepts U adapter ⟨frame :: rest, facts, .default⟩ (s ++ (w ++ r))) :
    ∃ w' b r' x, s ++ (w ++ r) = w' ++ b :: r' ∧ SpellsElement value w' ∧ isSpace b = false ∧
      effect U adapter frame facts value = .ok x ∧
      Accepts U adapter ⟨x.1 :: rest, x.2, .default⟩ (b :: r') := by
  have hacc := h.of_run_eq (run_space hs (w ++ r))
  obtain ⟨x, hx, hacc⟩ := hacc.of_bind (run_value hw hf hr)
  obtain ⟨s', b, r', rfl, hs', hb, hacc⟩ := exists_token hacc
  exact ⟨s ++ (w ++ s'), b, r', x, by simp, .mk hs hw hs', hb, hx, hacc⟩

/-- The byte after an item is a comma or the end of the array. -/
theorem comma_or_closeArray {b : UInt8} {r : List UInt8} (hk : frame.kind = .array)
    (hstate : frame.state = .commaOrEnd) (hb : isSpace b = false)
    (h : Accepts U adapter ⟨frame :: rest, facts, .default⟩ (b :: r)) :
    b = comma ∨ b = closeArray := by
  obtain ⟨m', hstep, -⟩ := accepts_cons_iff.mp h
  obtain ⟨kind, scope, state, key, seen, name_valid, variants_valid⟩ := frame
  obtain rfl : kind = .array := hk
  obtain rfl : state = .commaOrEnd := hstate
  simp only [Machine.step, Machine.stepDefault, hb, Bool.false_eq_true, if_false] at hstep
  split_ifs at hstep with hc he
  · exact .inl hc
  · exact .inr he

/-- The byte after a member is a comma or the end of the object. -/
theorem comma_or_closeObject {b : UInt8} {r : List UInt8} (hk : frame.kind = .object)
    (hstate : frame.state = .commaOrEnd) (hb : isSpace b = false)
    (h : Accepts U adapter ⟨frame :: rest, facts, .default⟩ (b :: r)) :
    b = comma ∨ b = closeObject := by
  obtain ⟨m', hstep, -⟩ := accepts_cons_iff.mp h
  obtain ⟨kind, scope, state, key, seen, name_valid, variants_valid⟩ := frame
  obtain rfl : kind = .object := hk
  obtain rfl : state = .commaOrEnd := hstate
  simp only [Machine.step, Machine.stepDefault, hb, Bool.false_eq_true, if_false] at hstep
  split_ifs at hstep with hc he
  · exact .inl hc
  · exact .inr he

/-- The byte that begins a member is a quotation mark, or the end of an empty object. -/
theorem quote_or_closeObject {b : UInt8} {r : List UInt8} (hk : frame.kind = .object)
    (hstate : frame.state = .keyOrEnd ∨ frame.state = .key) (hb : isSpace b = false)
    (h : Accepts U adapter ⟨frame :: rest, facts, .default⟩ (b :: r)) :
    b = quote ∧ Accepts U adapter ⟨frame :: rest, facts, .string ⟨.key, [], false⟩ none⟩ r ∨
      frame.state = .keyOrEnd ∧ b = closeObject := by
  obtain ⟨m', hstep, hacc⟩ := accepts_cons_iff.mp h
  obtain ⟨kind, scope, state, key, seen, name_valid, variants_valid⟩ := frame
  obtain rfl : kind = .object := hk
  simp only [Machine.step, Machine.stepDefault, hb, Bool.false_eq_true, if_false] at hstep
  rcases hstate with hstate | hstate
  · obtain rfl : state = .keyOrEnd := hstate
    dsimp only at hstep
    split_ifs at hstep with hc hq
    · exact .inr ⟨rfl, hc⟩
    · obtain rfl := Except.ok.inj hstep
      exact .inl ⟨hq, hacc⟩
  · obtain rfl : state = .key := hstate
    dsimp only at hstep
    split_ifs at hstep with hq
    obtain rfl := Except.ok.inj hstep
    exact .inl ⟨hq, hacc⟩

/-- A colon follows a key. -/
theorem colon_of_accepts {b : UInt8} {r : List UInt8} (hk : frame.kind = .object)
    (hstate : frame.state = .colon) (hb : isSpace b = false)
    (h : Accepts U adapter ⟨frame :: rest, facts, .default⟩ (b :: r)) : b = colon := by
  obtain ⟨m', hstep, -⟩ := accepts_cons_iff.mp h
  obtain ⟨kind, scope, state, key, seen, name_valid, variants_valid⟩ := frame
  obtain rfl : kind = .object := hk
  obtain rfl : state = .colon := hstate
  simp only [Machine.step, Machine.stepDefault, hb, Bool.false_eq_true, if_false] at hstep
  split_ifs at hstep with hc
  exact hc

/-- A key and its colon are spelled, or the object is empty. -/
theorem spelled_key {bs : List UInt8} (hk : frame.kind = .object)
    (hstate : frame.state = .keyOrEnd ∨ frame.state = .key)
    (h : Accepts U adapter ⟨frame :: rest, facts, .default⟩ bs) :
    (∃ s key k s' r, ∃ f : Frame, bs = s ++ quote :: (k ++ quote :: (s' ++ colon :: r)) ∧ Space s ∧
      Chars key k ∧ Space s' ∧ f.kind = .object ∧
      Accepts U adapter ⟨{ f with state := .value } :: rest, facts, .default⟩ r) ∨
    (frame.state = .keyOrEnd ∧ ∃ s r, bs = s ++ closeObject :: r ∧ Space s) := by
  obtain ⟨s, b, r, rfl, hs, hb, hacc⟩ := exists_token h
  rcases quote_or_closeObject hk hstate hb hacc with ⟨rfl, hstring⟩ | ⟨hend, rfl⟩
  · obtain ⟨key, k, r, rfl, hkey⟩ := exists_chars _ r _ rfl hstring
    have hend : Machine.run U adapter ⟨frame :: rest, facts, .string ⟨.key, [], false⟩ none⟩
        (k ++ quote :: r) = endKey frame (readString adapter .key frame key) >>= fun f =>
          Machine.run U adapter ⟨f :: rest, facts, .default⟩ r := by
      rw [run_string hkey, endString_key rfl, bind_assoc]
      rfl
    obtain ⟨f, hf, hacc'⟩ := hstring.of_bind hend
    obtain ⟨hfkind, -, hfstate⟩ := endKey_frame hf
    obtain ⟨s', b, r, rfl, hs', hb, htoken⟩ := exists_token hacc'
    obtain rfl := colon_of_accepts (hfkind.trans hk) hfstate hb htoken
    obtain ⟨f', hf', hvalue⟩ := hacc.of_bind (run_key hk hstate hkey hs' r)
    obtain rfl : f = f' := Except.ok.inj (hf.symm.trans hf')
    exact .inl ⟨s, key, k, s', r, f, rfl, hs, hkey, hs', hfkind.trans hk, hvalue⟩
  · exact .inr ⟨hend, s, r, rfl, hs⟩

/-- Where the machine accepts, a value, items or members are spelled. -/
theorem spelled (n : ℕ) : ∀ bs : List UInt8, bs.length = n → Spelled U adapter bs := by
  induction n using Nat.strongRecOn with
  | ind n ih =>
    intro bs hn
    -- A value where one is expected, or the end of an empty array.
    have hvalue : ∀ {frame rest facts}, Accepts U adapter ⟨frame :: rest, facts, .default⟩ bs →
        ExpectsValue frame →
        (∃ s value w r, bs = s ++ (w ++ r) ∧ Space s ∧ Spells value w ∧
          (value = .number → Terminated r)) ∨
        (frame.kind = .array ∧ frame.state = .valueOrEnd ∧
          ∃ s r, bs = s ++ closeArray :: r ∧ Space s) := by
      intro frame rest facts h hf
      obtain ⟨s, b, r, rfl, hs, hb, hacc⟩ := exists_token h
      by_cases hclose : frame.kind = .array ∧ frame.state = .valueOrEnd ∧ b = closeArray
      · obtain ⟨hk, hstate, rfl⟩ := hclose
        exact .inr ⟨hk, hstate, s, r, rfl, hs⟩
      · obtain ⟨m', hstep, hacc'⟩ := accepts_cons_iff.mp hacc
        rw [step_expects hf hb hclose] at hstep
        have hlen : r.length < n := by
          rw [← hn, List.length_append, List.length_cons]
          omega
        obtain ⟨value, w, r', heq, hw, hr⟩ := spelled_value (ih r.length hlen r rfl) hstep hacc'
        exact .inl ⟨s, value, w, r', by rw [heq], hs, hw, hr⟩
    refine ⟨hvalue, ?_, ?_⟩
    -- The elements of an array.
    · intro frame rest facts h hk hf
      rcases hvalue h hf with ⟨s, value, w, r, rfl, hs, hw, hr⟩ | ⟨-, hstate, hempty⟩
      · refine .inl ?_
        obtain ⟨w', b, r', x, heq, hw', hb, hx, hacc⟩ := spelled_element hf hs hw hr h
        obtain ⟨hkind, -, -, hstate⟩ := effect_frame hx
        rw [heq] at hn ⊢
        rcases comma_or_closeArray (hkind.trans hk) hstate hb hacc with rfl | rfl
        · have hlen : r'.length < n := by
            rw [← hn, List.length_append, List.length_cons]
            omega
          have hnext := hacc.of_run_eq (run_cons_ok (step_comma_array (hkind.trans hk) hstate) r')
          rcases (ih r'.length hlen r' rfl).items hnext (hkind.trans hk) (.inl rfl) with
            ⟨items, w'', r'', rfl, hitems⟩ | ⟨hbad, -⟩
          · exact ⟨.cons value items, w' ++ comma :: w'', r'', by simp, .more hw' hitems⟩
          · contradiction
        · exact ⟨.cons value .nil, w', r', rfl, .one hw'⟩
      · exact .inr ⟨hstate, hempty⟩
    -- The members of an object.
    · intro frame rest facts h hk hstate
      rcases spelled_key hk hstate h with
        ⟨s, key, k, s', r, f, rfl, hs, hkey, hs', hfk, hacc⟩ | hempty
      · refine .inl ?_
        have hlen : r.length < n := by
          rw [← hn]
          simp only [List.length_append, List.length_cons]
          omega
        have hexpects : ExpectsValue { f with state := .value } := .inl rfl
        rcases (ih r.length hlen r rfl).value hacc hexpects with
          ⟨t, value, w, r₁, rfl, ht, hw, hr⟩ | ⟨hbad, -⟩
        · obtain ⟨w', b, r', x, heq, hw', hb, hx, hacc⟩ := spelled_element hexpects ht hw hr hacc
          obtain ⟨hkind, -, -, hstate'⟩ := effect_frame hx
          have hmember := SpellsMember.mk hs hkey hs' hw'
          rw [heq] at hlen ⊢
          rcases comma_or_closeObject (hkind.trans hfk) hstate' hb hacc with rfl | rfl
          · have hlen' : r'.length < n := by
              rw [List.length_append, List.length_cons] at hlen
              omega
            have hnext :=
              hacc.of_run_eq (run_cons_ok (step_comma_object (hkind.trans hfk) hstate') r')
            rcases (ih r'.length hlen' r' rfl).members hnext (hkind.trans hfk) (.inr rfl) with
              ⟨members, w'', r'', rfl, hmembers⟩ | ⟨hbad, -⟩
            · exact ⟨.cons key value members, _ ++ comma :: w'', r'', by simp,
                .more hmember hmembers⟩
            · contradiction
          · exact ⟨.cons key value .nil, _, r', by simp, .one hmember⟩
        · exact absurd (hbad.symm.trans hfk) (by simp)
      · exact .inr hempty

/-! ## Whole texts -/

/-- Every fact that the end of the text asks for. -/
def Facts.Complete (facts : Facts) : Prop :=
  facts.root_name = true ∧ facts.root_matches = true ∧ facts.root_fields = true ∧
    facts.match_count ≠ 0

/-- The facts before the first byte. -/
def Facts.initial : Facts := ⟨false, false, false, 0⟩

/-- White space before the recipe changes nothing. -/
theorem run_space_root {w : List UInt8} (hw : Space w) (r : List UInt8) :
    Machine.run U adapter .initial (w ++ r) = Machine.run U adapter .initial r := by
  induction w with
  | nil => rfl
  | cons b w ih =>
    have hstep : Machine.step U adapter .initial b = .ok .initial := by
      simp only [Machine.step, Machine.initial, hw b List.mem_cons_self, if_true]
    rw [List.cons_append, run_cons_ok hstep]
    exact ih fun b' hb' => hw b' (List.mem_cons_of_mem _ hb')

/-- After the recipe there is white space, and the facts are looked at. -/
theorem accepts_end_iff (facts : Facts) (r : List UInt8) :
    Accepts U adapter ⟨[], facts, .default⟩ r ↔ Space r ∧ facts.Complete := by
  induction r with
  | nil =>
    constructor
    · rintro ⟨m', hm', hdone⟩
      obtain rfl := Except.ok.inj hm'
      exact ⟨by simp [Space], hdone.2.2⟩
    · rintro ⟨-, hfacts⟩
      exact ⟨_, rfl, .inl rfl, rfl, hfacts⟩
  | cons b r ih =>
    rw [accepts_cons_iff]
    by_cases hb : isSpace b = true
    · have hstep : Machine.step U adapter ⟨[], facts, .default⟩ b = .ok ⟨[], facts, .default⟩ := by
        simp only [Machine.step, Machine.stepDefault, hb, if_true]
      rw [hstep]
      simp only [Except.ok.injEq, exists_eq_left', ih]
      simp [Space, hb]
    · refine iff_of_false ?_ fun h => hb (h.1 b List.mem_cons_self)
      rintro ⟨m', hstep, -⟩
      simp only [Machine.step, Machine.stepDefault, if_neg hb] at hstep
      contradiction

/-- The root is left without a check. -/
theorem leaveFrame_root {f : Frame} (hf : f.scope = .root) : leaveFrame f = .ok () := by
  simp [leaveFrame, hf]

/-- Members leave their frame what it is. -/
theorem effectMembers_frame : ∀ {members : Members} {frame : Frame} {facts : Facts}
    {x : Frame × Facts}, effectMembers U adapter frame facts members = .ok x →
      x.1.scope = frame.scope
  | .nil, frame, facts, x, h => by
    unfold effectMembers at h
    obtain rfl := Except.ok.inj h
    rfl
  | .cons key value members, frame, facts, x, h => by
    unfold effectMembers at h
    simp only [bind, Except.bind] at h
    split at h
    · contradiction
    next f hf =>
      split at h
      · contradiction
      next y hy =>
        have hscope : y.1.scope = f.scope := (effect_frame hy).2.1
        rw [effectMembers_frame h, hscope, (endKey_frame hf).2.1]

/-- The members of the recipe, and its end. -/
theorem run_root_members {members : Members} {w : List UInt8} (hw : SpellsMembers members w)
    (r : List UInt8) :
    Machine.run U adapter ⟨[rootFrame], .initial, .default⟩ (w ++ closeObject :: r) =
      effectMembers U adapter rootFrame .initial members >>= fun x =>
        Machine.run U adapter ⟨[], x.2, .default⟩ r := by
  rw [run_members hw rfl (.inl rfl)]
  refine bind_congr_ok fun x hx => ?_
  rw [leaveFrame_root (effectMembers_frame hx)]
  rfl

/-- An empty recipe, and its end. -/
theorem run_root_empty {s : List UInt8} (hs : Space s) (r : List UInt8) :
    Machine.run U adapter ⟨[rootFrame], .initial, .default⟩ (s ++ closeObject :: r) =
      Machine.run U adapter ⟨[], .initial, .default⟩ r := by
  rw [run_space hs]
  exact run_close .initial r (step_closeObject rfl (.inl rfl))

/-- What the machine does with a text that spells an object. -/
theorem run_text {members : Members} {bs : List UInt8} (h : IsText (.object members) bs) :
    ∃ r, Space r ∧ Machine.run U adapter .initial bs =
      effectMembers U adapter rootFrame .initial members >>= fun x =>
        Machine.run U adapter ⟨[], x.2, .default⟩ r := by
  have hopen : Machine.step U adapter .initial openObject = .ok ⟨[rootFrame], .initial, .default⟩ :=
    rfl
  obtain ⟨hs, hw, hs'⟩ := h
  refine ⟨_, hs', ?_⟩
  rw [run_space_root hs]
  match hw with
  | .emptyObject hspace =>
    rw [List.cons_append, run_cons_ok hopen, List.append_assoc]
    exact run_root_empty hspace _
  | .object hmembers =>
    rw [List.cons_append, run_cons_ok hopen, List.append_assoc]
    exact run_root_members hmembers _

/-- A text that spells an object is accepted exactly when its effect goes through and leaves every
fact. -/
theorem accepts_text_iff {members : Members} {bs : List UInt8} (h : IsText (.object members) bs) :
    Accepts U adapter .initial bs ↔ ∃ x,
      effectMembers U adapter rootFrame .initial members = .ok x ∧ x.2.Complete := by
  obtain ⟨r, hr, hrun⟩ := run_text (U := U) h
  constructor
  · intro hacc
    obtain ⟨x, hx, hend⟩ := hacc.of_bind hrun
    exact ⟨x, hx, ((accepts_end_iff x.2 r).mp hend).2⟩
  · rintro ⟨x, hx, hcomplete⟩
    rw [hx] at hrun
    obtain ⟨m', hm', hdone⟩ := (accepts_end_iff (U := U) x.2 r).mpr ⟨hr, hcomplete⟩
    exact ⟨m', hrun.trans hm', hdone⟩

/-- An accepted text spells an object. -/
theorem exists_text {bs : List UInt8} (h : Accepts U adapter .initial bs) :
    ∃ members, IsText (.object members) bs := by
  obtain ⟨s, r, rfl, hs, hr⟩ := exists_space bs
  have hacc := h.of_run_eq (run_space_root hs r)
  obtain ⟨b, r, rfl⟩ := accepts_ne_nil hacc
  obtain ⟨m', hstep, hinside⟩ := accepts_cons_iff.mp hacc
  simp only [Machine.step, Machine.initial, hr b r rfl, Bool.false_eq_true, if_false] at hstep
  split_ifs at hstep with hb
  obtain rfl := Except.ok.inj hstep
  rcases (spelled _ r rfl).members hinside rfl (.inl rfl) with
    ⟨members, w, r', rfl, hw⟩ | ⟨-, w, r', rfl, hw⟩
  · obtain ⟨x, hx, hend⟩ := hinside.of_bind (run_root_members hw r')
    have hspace := ((accepts_end_iff x.2 r').mp hend).1
    refine ⟨members, ?_⟩
    have htext := SpellsElement.mk hs (.object hw) hspace
    simpa [IsText, hb, List.append_assoc] using htext
  · have hend := hinside.of_run_eq (run_root_empty hw r')
    have hspace := ((accepts_end_iff _ r').mp hend).1
    refine ⟨.nil, ?_⟩
    have htext := SpellsElement.mk hs (.emptyObject hw) hspace
    simpa [IsText, hb, List.append_assoc] using htext

end

end JobScripts.Recipe
