import JobScripts.Recipe.Spelled

/-!
# What a recipe is

The requirement, stated on the decoded value and without the parser: `IsRoot` says which members an
object must have, and `IsRecipe` that a text spells such an object. Keys and strings are compared as
decoded, with surrogate pairs joined. The effect of the members of the root meets the requirement
exactly when no surrogate pair is escaped in the root's name (`accepts_iff`): the parser keeps the
two escapes of a pair as two characters, so that a name with one is never the adapter's. Everywhere
else what it compares with has no character that a pair could spell, and the two readings agree.
-/

namespace JobScripts.Recipe

open Lib Lib.Json

/-! ## The requirement -/

/-- The values of the members with a key. -/
def keyed (members : Members) (key : String) : List Value :=
  (members.toList.filter fun m => joinPairs m.1 = codes key).map (·.2)

/-- An entry of `matches`. -/
def IsMatch : Value → Prop
  | .string units => codes "https://" <+: joinPairs units
  | _ => False

/-- An entry of `fields`. -/
def IsField : Value → Prop
  | .object members =>
    (∃ units, keyed members "name" = [.string units]) ∧
      ∃ items, keyed members "variants" = [.array items]
  | _ => False

/-- The root of a recipe for an adapter, by its members. -/
structure IsRoot (U : UnicodeData) (adapter : String) (members : Members) : Prop where
  name : ∃ units, keyed members "name" = [.string units] ∧
    U.lower (joinPairs units) = codes adapter
  matches_ : ∃ items, keyed members "matches" = [.array items] ∧ items.toList ≠ [] ∧
    ∀ value ∈ items.toList, IsMatch value
  fields : ∃ items, keyed members "fields" = [.array items] ∧ ∀ value ∈ items.toList, IsField value

/-- A text that spells a recipe for an adapter. -/
def IsRecipe (U : UnicodeData) (adapter : String) (bytes : List UInt8) : Prop :=
  ∃ members, IsText (.object members) bytes ∧ IsRoot U adapter members

/-- The name of the root is spelled with an escaped surrogate pair. -/
def PairInName (bytes : List UInt8) : Prop :=
  ∃ members units, IsText (.object members) bytes ∧ keyed members "name" = [.string units] ∧
    hasPair units = true

section

variable {U : UnicodeData} {adapter : String}

/-! ## Keys -/

/-- What the parser keeps of a key: all of it, or nothing when it is longer than any it knows. -/
def keptKey (key : List ℕ) : List ℕ := if key.length ≤ "variants".length then key else []

/-- A key is kept as one that the parser knows exactly when it is that key, decoded. -/
theorem keptKey_eq_iff {k : String} (hplain : ∀ u ∈ codes k, isPlain u = true)
    (hlen : (codes k).length ≤ "variants".length) (hne : codes k ≠ []) (key : List ℕ) :
    keptKey key = codes k ↔ joinPairs key = codes k := by
  rw [joinPairs_eq_iff hplain]
  unfold keptKey
  split
  next => exact Iff.rfl
  next hlong =>
    refine iff_of_false (fun h => hne h.symm) fun h => hlong ?_
    rw [h]
    exact hlen

/-- The end of a key, by what is kept of it. -/
theorem endKey_readString (frame : Frame) (key : List ℕ) :
    endKey frame (readString adapter .key frame key) =
      if ((requiredKeys frame.scope).lookup (keptKey key)).isSome then
        if keptKey key ∈ frame.seen then .error "duplicate recipe field"
        else .ok { frame with
          key := keptKey key, state := .colon, seen := frame.seen ++ [keptKey key] }
      else .ok { frame with key := keptKey key, state := .colon } := by
  have hkeep : Parser.keep adapter .key frame = "variants".length := rfl
  have hkey : (if !(readString adapter .key frame key).truncated then
      (readString adapter .key frame key).prefix_ else []) = keptKey key := by
    unfold readString keptKey
    rw [hkeep]
    by_cases hlen : key.length ≤ "variants".length
    · rw [if_pos hlen, if_pos (by simpa using hlen), List.take_of_length_le hlen]
    · rw [if_neg hlen, if_neg (by simpa using hlen)]
  unfold endKey
  rw [hkey]

/-- A key that is not required. -/
theorem endKey_free {frame : Frame} {key : List ℕ}
    (h : (requiredKeys frame.scope).lookup (keptKey key) = none) :
    endKey frame (readString adapter .key frame key) =
      .ok { frame with key := keptKey key, state := .colon } := by
  rw [endKey_readString, h]
  rfl

/-! ## Where nothing is required -/

/-- No required type: the key is none of the required ones. -/
theorem requiredKind_eq_none {frame : Frame} (h : requiredKind frame = none) :
    frame.scope ≠ .matches ∧ frame.scope ≠ .fields ∧
      (frame.scope = .root → frame.key ≠ codes "name" ∧ frame.key ≠ codes "matches" ∧
        frame.key ≠ codes "fields") ∧
      (frame.scope = .field → frame.key ≠ codes "name" ∧ frame.key ≠ codes "variants") := by
  obtain ⟨kind, scope, state, key, seen, name_valid, variants_valid⟩ := frame
  cases scope with
  | root | field =>
    simp only [requiredKind, requiredKeys, List.lookup_eq_none_iff] at h
    simp at h
    simp [h]
  | «matches» | fields => simp [requiredKind] at h
  | other => simp

mutual

/-- Where nothing is required, any value goes through and changes nothing. -/
theorem effect_free (value : Value) {frame : Frame} (h : requiredKind frame = none)
    (facts : Facts) :
    effect U adapter frame facts value = .ok ({ frame with state := .commaOrEnd }, facts) := by
  obtain ⟨hm, hf, hroot, hfield⟩ := requiredKind_eq_none h
  unfold effect
  have hkind : wrongKind frame (valueKind value) = false := by simp [wrongKind, h]
  rw [hkind, if_neg (by simp)]
  match value with
  | .literal _ | .number => rfl
  | .string units =>
    unfold endText
    simp only [Bool.and_eq_true, decide_eq_true_eq]
    rw [if_neg fun hc => (hroot hc.1).1 hc.2, if_neg fun hc => (hfield hc.1).1 hc.2, if_neg hm]
  | .array items =>
    have hscope : (arrayFrame { frame with state := .commaOrEnd }).scope = .other := by
      simp only [arrayFrame, arrayScope]
      split_ifs with hr h₁ h₂
      · exact absurd h₁ (hroot hr).2.1
      · exact absurd h₂ (hroot hr).2.2
      · rfl
      · rfl
    have hfacts : facts.openArray { frame with state := .commaOrEnd } = facts := by
      simp only [Facts.openArray, Bool.and_eq_true, decide_eq_true_eq]
      rw [if_neg fun hc => (hroot hc.1).2.1 hc.2, if_neg fun hc => (hroot hc.1).2.2 hc.2]
    have hparent : Frame.openArray { frame with state := .commaOrEnd } =
        { frame with state := .commaOrEnd } := by
      simp only [Frame.openArray, Bool.and_eq_true, decide_eq_true_eq]
      rw [if_neg fun hc => (hfield hc.1).2 hc.2]
    obtain ⟨inner, hinner, hother⟩ := effectItems_free items hscope facts
    dsimp only
    rw [hfacts, hparent, hinner]
    simp [bind, Except.bind, pure, Except.pure, leaveFrame, hother]
  | .object members =>
    have hscope : (objectFrame { frame with state := .commaOrEnd }).scope = .other := by
      simp [objectFrame, hf]
    obtain ⟨inner, hinner, hother⟩ := effectMembers_free members hscope facts
    dsimp only
    rw [hinner]
    simp [bind, Except.bind, pure, Except.pure, leaveFrame, hother]

/-- The items of an array that the recipe does not care about. -/
theorem effectItems_free (items : Items) {frame : Frame} (h : frame.scope = .other)
    (facts : Facts) :
    ∃ inner, effectItems U adapter frame facts items = .ok (inner, facts) ∧
      inner.scope = .other := by
  match items with
  | .nil => exact ⟨frame, rfl, h⟩
  | .cons value items =>
    have hfree : requiredKind frame = none := by simp [requiredKind, h]
    have hnext : { frame with state := .commaOrEnd }.scope = .other := h
    obtain ⟨inner, hinner, hother⟩ := effectItems_free items hnext facts
    refine ⟨inner, ?_, hother⟩
    unfold effectItems
    rw [effect_free value hfree facts]
    exact hinner

/-- The members of an object that the recipe does not care about. -/
theorem effectMembers_free (members : Members) {frame : Frame} (h : frame.scope = .other)
    (facts : Facts) :
    ∃ inner, effectMembers U adapter frame facts members = .ok (inner, facts) ∧
      inner.scope = .other := by
  match members with
  | .nil => exact ⟨frame, rfl, h⟩
  | .cons key value members =>
    have hfree : requiredKind { frame with key := keptKey key, state := .colon } = none := by
      simp [requiredKind, h]
    have hnext : { frame with key := keptKey key, state := .commaOrEnd }.scope = .other := h
    obtain ⟨inner, hinner, hother⟩ := effectMembers_free members hnext facts
    refine ⟨inner, ?_, hother⟩
    unfold effectMembers
    rw [endKey_free (by simp [requiredKeys, h])]
    dsimp only [bind, Except.bind]
    rw [effect_free value hfree facts]
    exact hinner

end

/-! ## Members, one by one -/

/-- A member whose key is not required changes nothing but the frame's key. -/
theorem effectMembers_cons_free {frame : Frame} {key : List ℕ}
    (hlookup : (requiredKeys frame.scope).lookup (keptKey key) = none)
    (hscope : frame.scope = .root ∨ frame.scope = .field) (value : Value) (members : Members)
    (facts : Facts) :
    effectMembers U adapter frame facts (.cons key value members) =
      effectMembers U adapter { frame with key := keptKey key, state := .commaOrEnd } facts
        members := by
  have hfree : requiredKind { frame with key := keptKey key, state := .colon } = none := by
    rcases hscope with hs | hs <;> simp only [requiredKind, hs] <;> rwa [hs] at hlookup
  conv_lhs => unfold effectMembers
  rw [endKey_free hlookup]
  dsimp only [bind, Except.bind]
  rw [effect_free value hfree facts]

/-- The frame after a required key. -/
def Frame.withKey (frame : Frame) (key : List ℕ) : Frame :=
  { frame with key, state := .colon, seen := frame.seen ++ [key] }

/-- A member whose key is required: the key is new, and the value has its effect. -/
theorem effectMembers_cons_required {frame : Frame} {key : List ℕ}
    (hlookup : ((requiredKeys frame.scope).lookup (keptKey key)).isSome = true) (value : Value)
    (members : Members) (facts : Facts) :
    effectMembers U adapter frame facts (.cons key value members) =
      if keptKey key ∈ frame.seen then .error "duplicate recipe field"
      else effect U adapter (frame.withKey (keptKey key)) facts value >>= fun x =>
        effectMembers U adapter x.1 x.2 members := by
  conv_lhs => unfold effectMembers
  rw [endKey_readString, if_pos hlookup]
  split <;> rfl

/-- What must still be true of the members to come, for one key: nothing more under it when it was
seen, and what came was good; otherwise exactly one good value. -/
def Slot (seen done : Prop) (values : List Value) (good : Value → Prop) : Prop :=
  seen ∧ values = [] ∧ done ∨ ¬seen ∧ ∃ value, values = [value] ∧ good value

/-- No member is left. -/
theorem slot_nil {seen done : Prop} {good : Value → Prop} :
    Slot seen done [] good ↔ seen ∧ done := by
  simp [Slot]

/-- The next member has the key. -/
theorem slot_cons {seen done : Prop} {value : Value} {values : List Value}
    {good : Value → Prop} :
    Slot seen done (value :: values) good ↔ ¬seen ∧ values = [] ∧ good value := by
  simp only [Slot, List.cons.injEq, reduceCtorEq, false_and, and_false, false_or]
  constructor
  · rintro ⟨hs, v, ⟨rfl, rfl⟩, hv⟩
    exact ⟨hs, rfl, hv⟩
  · rintro ⟨hs, rfl, hv⟩
    exact ⟨hs, value, ⟨rfl, rfl⟩, hv⟩

/-- A key that was seen. -/
theorem slot_seen {seen done : Prop} {values : List Value} {good : Value → Prop} (h : seen) :
    Slot seen done values good ↔ values = [] ∧ done := by
  simp [Slot, h]

/-- A key that was not seen. -/
theorem slot_not_seen {seen done : Prop} {values : List Value} {good : Value → Prop}
    (h : ¬seen) : Slot seen done values good ↔ ∃ value, values = [value] ∧ good value := by
  simp [Slot, h]

/-! ## Fields -/

/-- The name of a field. -/
theorem effect_field_name {frame : Frame} (hs : frame.scope = .field)
    (hk : frame.key = codes "name") (facts : Facts) (value : Value) :
    effect U adapter frame facts value =
      if valueKind value = .string then
        .ok ({ frame with state := .commaOrEnd, name_valid := true }, facts)
      else .error "recipe field has the wrong JSON type" := by
  have hreq : requiredKind frame = some .string := by
    simp only [requiredKind, hs, hk]
    decide
  unfold effect
  simp only [wrongKind, hreq, Option.any_some]
  cases value with
  | string units => simp [valueKind, endText, hs, hk]
  | literal | number | array | object => simp [valueKind]

/-- The variants of a field. -/
theorem effect_field_variants {frame : Frame} (hs : frame.scope = .field)
    (hk : frame.key = codes "variants") (facts : Facts) (value : Value) :
    effect U adapter frame facts value =
      if valueKind value = .array then
        .ok ({ frame with state := .commaOrEnd, variants_valid := true }, facts)
      else .error "recipe field has the wrong JSON type" := by
  obtain ⟨kind, scope, state, key, seen, name_valid, variants_valid⟩ := frame
  obtain rfl : scope = .field := hs
  obtain rfl : key = codes "variants" := hk
  have hreq : requiredKind ⟨kind, .field, state, codes "variants", seen, name_valid,
      variants_valid⟩ = some .array := by
    show (requiredKeys .field).lookup (codes "variants") = some .array
    decide
  unfold effect
  simp only [wrongKind, hreq, Option.any_some]
  cases value with
  | array items =>
    let parent : Frame :=
      ⟨kind, .field, .commaOrEnd, codes "variants", seen, name_valid, variants_valid⟩
    obtain ⟨inner, hinner, hother⟩ : ∃ inner, effectItems U adapter (arrayFrame parent) facts
        items = .ok (inner, facts) ∧ inner.scope = .other := effectItems_free items rfl facts
    have hfacts : facts.openArray parent = facts := by simp [Facts.openArray, parent]
    simp [valueKind, parent, hfacts, hinner, bind, Except.bind, pure, Except.pure, leaveFrame,
      hother, Frame.openArray]
  | literal | number | string | object => simp [valueKind]

/-- The keys that the parser knows. -/
theorem keptKey_eq_codes_iff {k : String}
    (hk : k = "name" ∨ k = "matches" ∨ k = "fields" ∨ k = "variants") (key : List ℕ) :
    keptKey key = codes k ↔ joinPairs key = codes k := by
  rcases hk with rfl | rfl | rfl | rfl <;>
    exact keptKey_eq_iff (by decide) (by decide) (by decide) key

/-- The values with a key, by the first member. -/
theorem keyed_cons {k : String} (hk : k = "name" ∨ k = "matches" ∨ k = "fields" ∨ k = "variants")
    (key : List ℕ) (value : Value) (members : Members) :
    keyed (.cons key value members) k =
      if keptKey key = codes k then value :: keyed members k else keyed members k := by
  unfold keyed
  rw [show (Members.cons key value members).toList = (key, value) :: members.toList from rfl]
  by_cases h : joinPairs key = codes k
  · simp [h, (keptKey_eq_codes_iff hk key).mpr h]
  · simp [h, mt (keptKey_eq_codes_iff hk key).mp h]

/-- The keys of a field: the two required ones are told apart, and any other is not required. -/
theorem field_key_cases (key : List ℕ) :
    keptKey key = codes "name" ∨ keptKey key = codes "variants" ∨
      (requiredKeys .field).lookup (keptKey key) = none := by
  by_cases hn : keptKey key = codes "name"
  · exact .inl hn
  · by_cases hv : keptKey key = codes "variants"
    · exact .inr (.inl hv)
    · refine .inr (.inr ?_)
      simp [requiredKeys, hn, hv]

/-- A value that is a string. -/
def IsString (value : Value) : Prop := valueKind value = .string

/-- A value that is an array. -/
def IsArray (value : Value) : Prop := valueKind value = .array

variable (U adapter) in
/-- The members of a field go through exactly when they are what a field needs. -/
theorem field_members_iff : ∀ (members : Members) {frame : Frame}, frame.scope = .field →
    (frame.name_valid = true → codes "name" ∈ frame.seen) →
    (frame.variants_valid = true → codes "variants" ∈ frame.seen) → ∀ facts facts' : Facts,
    ((effectMembers U adapter frame facts members >>= fun x => leaveFrame x.1 >>= fun _ =>
        .ok x.2) = Except.ok facts' ↔
      facts' = facts ∧
        Slot (codes "name" ∈ frame.seen) (frame.name_valid = true) (keyed members "name")
          IsString ∧
        Slot (codes "variants" ∈ frame.seen) (frame.variants_valid = true)
          (keyed members "variants") IsArray)
  | .nil, frame, hs, hn, hv, facts, facts' => by
    have hname : keyed .nil "name" = [] := rfl
    have hvariants : keyed .nil "variants" = [] := rfl
    rw [hname, hvariants, slot_nil, slot_nil]
    unfold effectMembers leaveFrame
    simp only [bind, Except.bind, hs, decide_true, Bool.true_and]
    -- Without a member left, both slots have to be filled already.
    by_cases hvalid : frame.name_valid = true ∧ frame.variants_valid = true
    · simp [hvalid, hn hvalid.1, hv hvalid.2, eq_comm]
    · have hinvalid : (!(frame.name_valid && frame.variants_valid)) = true := by
        rw [Bool.not_eq_true', ← Bool.not_eq_true, Bool.and_eq_true]
        exact hvalid
      rw [if_pos hinvalid]
      simp only [reduceCtorEq, false_iff]
      rintro ⟨-, ⟨-, h₁⟩, -, h₂⟩
      exact hvalid ⟨h₁, h₂⟩
  | .cons key value members, frame, hs, hn, hv, facts, facts' => by
    rw [keyed_cons (.inl rfl), keyed_cons (.inr (.inr (.inr rfl)))]
    rcases field_key_cases key with hkey | hkey | hkey
    -- A member `name` fills its slot, once and with a string.
    · have hne : keptKey key ≠ codes "variants" := by
        rw [hkey]
        decide
      rw [if_pos hkey, if_neg hne, slot_cons, effectMembers_cons_required (by rw [hs, hkey]; decide)]
      by_cases hseen : codes "name" ∈ frame.seen
      · rw [if_pos (by rwa [hkey])]
        simp [hseen, bind, Except.bind]
      · let inner := frame.withKey (keptKey key)
        have hscope : inner.scope = .field := hs
        have hinner : inner.key = codes "name" := hkey
        have hself : codes "name" ∈ inner.seen := by simp [inner, Frame.withKey, hkey]
        have hother : codes "variants" ∈ inner.seen ↔ codes "variants" ∈ frame.seen := by
          simp [inner, Frame.withKey, hne.symm]
        rw [if_neg (by rwa [hkey]), effect_field_name hscope hinner]
        by_cases hvalue : valueKind value = .string
        · rw [if_pos hvalue]
          simp only [bind, Except.bind]
          refine (field_members_iff members ?_ ?_ ?_ facts facts').trans ?_
          · exact hs
          · exact fun _ => hself
          · exact fun h => hother.mpr (hv h)
          · rw [slot_seen hself, hother]
            simp [hseen, IsString, hvalue, inner, Frame.withKey]
        · rw [if_neg hvalue]
          simp [bind, Except.bind, IsString, hvalue]
    -- A member `variants` fills the other, once and with an array.
    · have hne : keptKey key ≠ codes "name" := by
        rw [hkey]
        decide
      rw [if_neg hne, if_pos hkey, slot_cons, effectMembers_cons_required (by rw [hs, hkey]; decide)]
      by_cases hseen : codes "variants" ∈ frame.seen
      · rw [if_pos (by rwa [hkey])]
        simp [hseen, bind, Except.bind]
      · let inner := frame.withKey (keptKey key)
        have hscope : inner.scope = .field := hs
        have hinner : inner.key = codes "variants" := hkey
        have hself : codes "variants" ∈ inner.seen := by simp [inner, Frame.withKey, hkey]
        have hother : codes "name" ∈ inner.seen ↔ codes "name" ∈ frame.seen := by
          simp [inner, Frame.withKey, hne.symm]
        rw [if_neg (by rwa [hkey]), effect_field_variants hscope hinner]
        by_cases hvalue : valueKind value = .array
        · rw [if_pos hvalue]
          simp only [bind, Except.bind]
          refine (field_members_iff members ?_ ?_ ?_ facts facts').trans ?_
          · exact hs
          · exact fun h => hother.mpr (hn h)
          · exact fun _ => hself
          · rw [slot_seen hself, hother]
            simp [hseen, IsArray, hvalue, inner, Frame.withKey]
        · rw [if_neg hvalue]
          simp [bind, Except.bind, IsArray, hvalue]
    -- Any other member leaves both slots as they are.
    · have hname : keptKey key ≠ codes "name" := by
        intro h
        rw [h] at hkey
        exact absurd hkey (by decide)
      have hvariants : keptKey key ≠ codes "variants" := by
        intro h
        rw [h] at hkey
        exact absurd hkey (by decide)
      rw [if_neg hname, if_neg hvariants, effectMembers_cons_free (by rwa [hs]) (.inr hs)]
      refine field_members_iff members ?_ ?_ ?_ facts facts'
      · exact hs
      · exact hn
      · exact hv

/-- Exactly one value, and it is a string. -/
theorem exists_isString_iff {values : List Value} :
    (∃ value, values = [value] ∧ IsString value) ↔ ∃ units, values = [.string units] := by
  constructor
  · rintro ⟨value, rfl, hvalue⟩
    cases value with
    | string units => exact ⟨units, rfl⟩
    | literal | number | array | object => contradiction
  · rintro ⟨units, rfl⟩
    exact ⟨_, rfl, rfl⟩

/-- Exactly one value, and it is an array. -/
theorem exists_isArray_iff {values : List Value} :
    (∃ value, values = [value] ∧ IsArray value) ↔ ∃ items, values = [.array items] := by
  constructor
  · rintro ⟨value, rfl, hvalue⟩
    cases value with
    | array items => exact ⟨items, rfl⟩
    | literal | number | string | object => contradiction
  · rintro ⟨items, rfl⟩
    exact ⟨_, rfl, rfl⟩

/-- An entry of `fields` goes through exactly when it is a field. -/
theorem effect_fields_iff {frame : Frame} (hs : frame.scope = .fields) (facts : Facts)
    (value : Value) (x : Frame × Facts) :
    effect U adapter frame facts value = .ok x ↔
      x = ({ frame with state := .commaOrEnd }, facts) ∧ IsField value := by
  have hreq : requiredKind frame = some .object := by simp [requiredKind, hs]
  unfold effect
  simp only [wrongKind, hreq, Option.any_some]
  cases value with
  | object members =>
    let inner := objectFrame { frame with state := .commaOrEnd }
    have hscope : inner.scope = .field := by simp [inner, objectFrame, hs]
    have hseen : inner.seen = [] := rfl
    have hmembers := field_members_iff U adapter members hscope
      (fun h => by simp [inner, objectFrame] at h) (fun h => by simp [inner, objectFrame] at h) facts
    simp only [hseen, List.not_mem_nil, slot_not_seen, not_false_eq_true, exists_isString_iff,
      exists_isArray_iff] at hmembers
    have hkind : valueKind (.object members) = .object := rfl
    rw [hkind, if_neg (by simp)]
    constructor
    · intro h
      obtain ⟨y, hy, h⟩ := exists_of_bind_eq_ok h
      obtain ⟨u, hu, h⟩ := exists_of_bind_eq_ok h
      have hall : (effectMembers U adapter inner facts members >>= fun x => leaveFrame x.1 >>= fun _ =>
          .ok x.2) = Except.ok y.2 := by
        rw [hy]
        exact congrArg (· >>= fun _ => Except.ok y.2) hu
      obtain ⟨hfacts, hfield⟩ := (hmembers y.2).mp hall
      rw [hfacts] at h
      exact ⟨(Except.ok.inj h).symm, hfield⟩
    · rintro ⟨rfl, hfield⟩
      obtain ⟨y, hy, h⟩ := exists_of_bind_eq_ok ((hmembers facts).mpr ⟨rfl, hfield⟩)
      obtain ⟨u, hu, h⟩ := exists_of_bind_eq_ok h
      obtain ⟨f, facts'⟩ := y
      obtain rfl : facts' = facts := Except.ok.inj h
      show (effectMembers U adapter inner facts' members >>= _) = _
      rw [hy]
      show (leaveFrame f >>= _) = _
      rw [hu]
      rfl
  | literal | number | string | array => simp [valueKind, IsField]

/-- The entries of `fields` go through exactly when all are fields. -/
theorem effectItems_fields_iff (facts facts' : Facts) : ∀ (items : Items) {frame : Frame},
    frame.scope = .fields →
    ((∃ f, effectItems U adapter frame facts items = .ok (f, facts')) ↔
      facts' = facts ∧ ∀ value ∈ items.toList, IsField value)
  | .nil, frame, hs => by
    simp [effectItems, Items.toList, eq_comm]
  | .cons value items, frame, hs => by
    let next : Frame := { frame with state := .commaOrEnd }
    have hnext : next.scope = .fields := hs
    have hrest := effectItems_fields_iff facts facts' items hnext
    have hlist : (Items.cons value items).toList = value :: items.toList := rfl
    rw [hlist, List.forall_mem_cons]
    unfold effectItems
    constructor
    · rintro ⟨f, h⟩
      obtain ⟨x, hx, h⟩ := exists_of_bind_eq_ok h
      obtain ⟨rfl, hfield⟩ := (effect_fields_iff hs facts value x).mp hx
      obtain ⟨hfacts, hall⟩ := hrest.mp ⟨f, h⟩
      exact ⟨hfacts, hfield, hall⟩
    · rintro ⟨hfacts, hfield, hall⟩
      obtain ⟨f, hf⟩ := hrest.mpr ⟨hfacts, hall⟩
      refine ⟨f, ?_⟩
      rw [(effect_fields_iff hs facts value _).mpr ⟨rfl, hfield⟩]
      exact hf

/-! ## Matches -/

/-- An entry of `matches` goes through exactly when it is one. -/
theorem effect_matches_iff {frame : Frame} (hs : frame.scope = .matches) (facts : Facts)
    (value : Value) (x : Frame × Facts) :
    effect U adapter frame facts value = .ok x ↔
      x = ({ frame with state := .commaOrEnd },
        { facts with match_count := facts.match_count + 1 }) ∧ IsMatch value := by
  have hreq : requiredKind frame = some .string := by simp [requiredKind, hs]
  unfold effect
  simp only [wrongKind, hreq, Option.any_some]
  cases value with
  | string units =>
    let parent : Frame := { frame with state := .commaOrEnd }
    have hkeep : Parser.keep adapter .value parent = "https://".length := by
      simp [Parser.keep, parent, hs]
    have hpre : (codes "https://").isPrefixOf (readString adapter .value parent units).prefix_ =
        true ↔ IsMatch (.string units) := by
      rw [List.isPrefixOf_iff_prefix]
      unfold readString
      rw [hkeep, List.prefix_take_iff, and_iff_left (by decide)]
      exact (prefix_joinPairs_iff (by decide) units).symm
    have hkind : valueKind (.string units) = .string := rfl
    rw [hkind, if_neg (by simp)]
    show endText U adapter parent facts (readString adapter .value parent units) = .ok x ↔ _
    unfold endText
    rw [if_neg (by simp [parent, hs]), if_neg (by simp [parent, hs]), if_pos hs]
    by_cases hmatch : IsMatch (.string units)
    · rw [if_neg (by simp [hpre.mpr hmatch])]
      simp [hmatch, parent, eq_comm]
    · rw [if_pos (by simp [mt hpre.mp hmatch])]
      simp [hmatch]
  | literal | number | object | array => simp [valueKind, IsMatch]

/-- The entries of `matches` go through exactly when all are, and are counted. -/
theorem effectItems_matches_iff (facts' : Facts) : ∀ (items : Items) {frame : Frame}
    (facts : Facts), frame.scope = .matches →
    ((∃ f, effectItems U adapter frame facts items = .ok (f, facts')) ↔
      facts' = { facts with match_count := facts.match_count + items.toList.length } ∧
        ∀ value ∈ items.toList, IsMatch value)
  | .nil, frame, facts, hs => by
    simp [effectItems, Items.toList, eq_comm]
  | .cons value items, frame, facts, hs => by
    let next : Frame := { frame with state := .commaOrEnd }
    have hnext : next.scope = .matches := hs
    have hrest := effectItems_matches_iff facts' items
      { facts with match_count := facts.match_count + 1 } hnext
    have hlist : (Items.cons value items).toList = value :: items.toList := rfl
    have hcount : facts.match_count + (items.toList.length + 1) =
        facts.match_count + 1 + items.toList.length := by omega
    rw [hlist, List.forall_mem_cons, List.length_cons, hcount]
    unfold effectItems
    constructor
    · rintro ⟨f, h⟩
      obtain ⟨x, hx, h⟩ := exists_of_bind_eq_ok h
      obtain ⟨rfl, hmatch⟩ := (effect_matches_iff hs facts value x).mp hx
      obtain ⟨hfacts, hall⟩ := hrest.mp ⟨f, h⟩
      exact ⟨hfacts, hmatch, hall⟩
    · rintro ⟨hfacts, hmatch, hall⟩
      obtain ⟨f, hf⟩ := hrest.mpr ⟨hfacts, hall⟩
      refine ⟨f, ?_⟩
      rw [(effect_matches_iff hs facts value _).mpr ⟨rfl, hmatch⟩]
      exact hf

/-! ## The root -/

variable (U adapter) in
/-- What is kept of the root's name is the adapter's exactly when the name is, and no pair is
escaped in it. -/
theorem name_read_iff (frame : Frame) (hs : frame.scope = .root) (hk : frame.key = codes "name")
    (units : List ℕ) :
    (!(readString adapter .value frame units).truncated &&
      U.lower (readString adapter .value frame units).prefix_ = codes adapter) = true ↔
    hasPair units = false ∧ U.lower (joinPairs units) = codes adapter := by
  have hkeep : Parser.keep adapter .value frame = (codes adapter).length + 1 := by
    simp [Parser.keep, hs, hk]
  unfold readString
  rw [hkeep, Bool.and_eq_true, Bool.not_eq_true', decide_eq_false_iff_not, decide_eq_true_eq]
  constructor
  · rintro ⟨hlen, hlower⟩
    rw [List.take_of_length_le (by omega)] at hlower
    have hpair : hasPair units = false := by
      by_contra hne
      -- A surrogate stays in lower case, and the adapter has none.
      obtain ⟨u, hu, hsur⟩ := exists_isSurrogate_of_hasPair (by simpa using hne)
      have hmem := U.mem_lower_of_isSurrogate hu hsur
      rw [hlower] at hmem
      rw [isSurrogate_of_mem_codes hmem] at hsur
      contradiction
    exact ⟨hpair, by rw [joinPairs_of_not_hasPair hpair, hlower]⟩
  · rintro ⟨hpair, hlower⟩
    rw [joinPairs_of_not_hasPair hpair] at hlower
    have hlen := U.length_le_length_lower units
    rw [hlower] at hlen
    exact ⟨by omega, by rw [List.take_of_length_le (by omega), hlower]⟩

/-- A name that the parser takes for the adapter's. -/
def GoodName (U : UnicodeData) (adapter : String) (value : Value) : Prop :=
  ∃ units, value = .string units ∧ hasPair units = false ∧
    U.lower (joinPairs units) = codes adapter

/-- What `matches` must be. -/
def GoodMatches (value : Value) : Prop :=
  ∃ items, value = .array items ∧ items.toList ≠ [] ∧ ∀ value ∈ items.toList, IsMatch value

/-- What `fields` must be. -/
def GoodFields (value : Value) : Prop :=
  ∃ items, value = .array items ∧ ∀ value ∈ items.toList, IsField value

/-- A value in the root leaves the frame as it is. -/
theorem effect_root_frame {frame : Frame} {facts : Facts} {value : Value} {x : Frame × Facts}
    (h : effect U adapter frame facts value = .ok x) (hs : frame.scope = .root) :
    x.1 = { frame with state := .commaOrEnd } := by
  unfold effect at h
  split at h
  · contradiction
  · cases value with
    | literal | number =>
      obtain rfl := Except.ok.inj h
      rfl
    | string units =>
      dsimp only at h
      unfold endText at h
      split_ifs at h with h₁ h₂ h₃ h₄
      · obtain rfl := Except.ok.inj h
        rfl
      · simp [hs] at h₂
      · obtain rfl := Except.ok.inj h
        rfl
      · obtain rfl := Except.ok.inj h
        rfl
    | array items =>
      obtain ⟨y, -, h⟩ := exists_of_bind_eq_ok h
      obtain ⟨u, -, h⟩ := exists_of_bind_eq_ok h
      obtain rfl := Except.ok.inj h
      simp [Frame.openArray, hs]
    | object members =>
      obtain ⟨y, -, h⟩ := exists_of_bind_eq_ok h
      obtain ⟨u, -, h⟩ := exists_of_bind_eq_ok h
      obtain rfl := Except.ok.inj h
      rfl

/-- The name of the root. -/
theorem effect_root_name {frame : Frame} (hs : frame.scope = .root) (hk : frame.key = codes "name")
    (facts facts' : Facts) (value : Value) :
    effect U adapter frame facts value = .ok ({ frame with state := .commaOrEnd }, facts') ↔
      IsString value ∧ ∃ good : Bool, (good = true ↔ GoodName U adapter value) ∧
        facts' = { facts with root_name := good } := by
  have hreq : requiredKind frame = some .string := by
    simp only [requiredKind, hs, hk]
    decide
  unfold effect
  simp only [wrongKind, hreq, Option.any_some]
  cases value with
  | string units =>
    let parent : Frame := { frame with state := .commaOrEnd }
    have hread := name_read_iff U adapter parent hs hk units
    have hgood : GoodName U adapter (.string units) ↔
        hasPair units = false ∧ U.lower (joinPairs units) = codes adapter := by
      simp [GoodName]
    rw [← hgood] at hread
    have hkind : valueKind (.string units) = .string := rfl
    rw [hkind, if_neg (by simp)]
    show endText U adapter parent facts (readString adapter .value parent units) = _ ↔ _
    unfold endText
    rw [if_pos (by simp [parent, hs, hk])]
    constructor
    · intro h
      exact ⟨rfl, _, hread, (Prod.mk.inj (Except.ok.inj h)).2.symm⟩
    · rintro ⟨-, good, hiff, rfl⟩
      rw [Bool.eq_iff_iff.mpr (hread.trans hiff.symm)]
  | literal | number | object | array => simp [valueKind, IsString]

/-- Items leave their frame what it is. -/
theorem effectItems_frame : ∀ {items : Items} {frame : Frame} {facts : Facts} {x : Frame × Facts},
    effectItems U adapter frame facts items = .ok x → x.1.scope = frame.scope
  | .nil, frame, facts, x, h => by
    unfold effectItems at h
    obtain rfl := Except.ok.inj h
    rfl
  | .cons value items, frame, facts, x, h => by
    unfold effectItems at h
    obtain ⟨y, hy, h⟩ := exists_of_bind_eq_ok h
    rw [effectItems_frame h, (effect_frame hy).2.1]

/-- An array in the root, by its items. -/
theorem effect_root_array {frame : Frame} (hs : frame.scope = .root)
    (hreq : requiredKind frame = some .array) (facts facts' : Facts) (value : Value) :
    effect U adapter frame facts value = .ok ({ frame with state := .commaOrEnd }, facts') ↔
      ∃ items, value = .array items ∧ ∃ f, effectItems U adapter
        (arrayFrame { frame with state := .commaOrEnd })
        (facts.openArray { frame with state := .commaOrEnd }) items = .ok (f, facts') := by
  unfold effect
  simp only [wrongKind, hreq, Option.any_some]
  cases value with
  | array items =>
    let parent : Frame := { frame with state := .commaOrEnd }
    have hparent : parent.openArray = parent := by simp [Frame.openArray, parent, hs]
    have hleave : ∀ {x}, effectItems U adapter (arrayFrame parent) (facts.openArray parent) items =
        .ok x → leaveFrame x.1 = .ok () := by
      intro x hx
      have hscope : x.1.scope ≠ .field := by
        rw [effectItems_frame hx]
        simp only [arrayFrame, arrayScope]
        split_ifs <;> simp
      simp [leaveFrame, hscope]
    have hkind : valueKind (.array items) = .array := rfl
    rw [hkind, if_neg (by simp)]
    simp only [Value.array.injEq, exists_eq_left']
    constructor
    · intro h
      obtain ⟨⟨f, facts₁⟩, hx, h⟩ := exists_of_bind_eq_ok h
      obtain ⟨u, -, h⟩ := exists_of_bind_eq_ok h
      obtain rfl : facts₁ = facts' := (Prod.mk.inj (Except.ok.inj h)).2
      exact ⟨f, hx⟩
    · rintro ⟨f, hx⟩
      show (effectItems U adapter (arrayFrame parent) (facts.openArray parent) items >>= _) = _
      rw [hx]
      show (leaveFrame f >>= _) = _
      rw [hleave hx]
      show Except.ok (parent.openArray, facts') = _
      rw [hparent]
  | literal | number | object | string => simp [valueKind]

/-- The facts about the recipe are about members that were seen. -/
structure Tracks (seen : List (List ℕ)) (facts : Facts) : Prop where
  name : facts.root_name = true → codes "name" ∈ seen
  matches_ : facts.root_matches = true → codes "matches" ∈ seen
  count : codes "matches" ∉ seen → facts.match_count = 0
  fields : facts.root_fields = true → codes "fields" ∈ seen

variable (U adapter) in
/-- What must still be true of the members of the root, after some are seen. -/
def RootSlots (seen : List (List ℕ)) (facts : Facts) (members : Members) : Prop :=
  Slot (codes "name" ∈ seen) (facts.root_name = true) (keyed members "name")
    (GoodName U adapter) ∧
  Slot (codes "matches" ∈ seen) (facts.root_matches = true ∧ facts.match_count ≠ 0)
    (keyed members "matches") GoodMatches ∧
  Slot (codes "fields" ∈ seen) (facts.root_fields = true) (keyed members "fields") GoodFields

/-- A required member of the root. -/
theorem root_required_iff {frame : Frame} (hs : frame.scope = .root) {key : List ℕ}
    (hlookup : ((requiredKeys .root).lookup (keptKey key)).isSome = true) (value : Value)
    (members : Members) (facts : Facts) :
    (∃ x, effectMembers U adapter frame facts (.cons key value members) = .ok x ∧
      x.2.Complete) ↔
    keptKey key ∉ frame.seen ∧ ∃ facts',
      effect U adapter (frame.withKey (keptKey key)) facts value =
        .ok ({ frame.withKey (keptKey key) with state := .commaOrEnd }, facts') ∧
      ∃ x, effectMembers U adapter { frame.withKey (keptKey key) with state := .commaOrEnd } facts'
        members = .ok x ∧ x.2.Complete := by
  rw [effectMembers_cons_required (by rwa [hs])]
  by_cases hseen : keptKey key ∈ frame.seen
  · rw [if_pos hseen]
    simp [hseen]
  · rw [if_neg hseen]
    constructor
    · rintro ⟨x, h, hcomplete⟩
      obtain ⟨⟨f, facts'⟩, hx, h⟩ := exists_of_bind_eq_ok h
      have hframe := effect_root_frame hx hs
      dsimp only at hframe
      subst hframe
      exact ⟨hseen, facts', hx, x, h, hcomplete⟩
    · rintro ⟨-, facts', hx, x, h, hcomplete⟩
      exact ⟨x, by rw [hx]; exact h, hcomplete⟩

/-- The keys of the root: the three required ones are told apart, and any other is not required. -/
theorem root_key_cases (key : List ℕ) :
    keptKey key = codes "name" ∨ keptKey key = codes "matches" ∨ keptKey key = codes "fields" ∨
      (requiredKeys .root).lookup (keptKey key) = none := by
  by_cases hn : keptKey key = codes "name"
  · exact .inl hn
  · by_cases hm : keptKey key = codes "matches"
    · exact .inr (.inl hm)
    · by_cases hf : keptKey key = codes "fields"
      · exact .inr (.inr (.inl hf))
      · refine .inr (.inr (.inr ?_))
        simp [requiredKeys, hn, hm, hf]

/-- A key among those seen, after another one. -/
theorem mem_seen_append {k k' : List ℕ} (hne : k ≠ k') (seen : List (List ℕ)) :
    k ∈ seen ++ [k'] ↔ k ∈ seen := by
  simp [hne]

/-- What is left after the name. -/
theorem rootSlots_name (seen : List (List ℕ)) (facts : Facts) (good : Bool) (members : Members) :
    RootSlots U adapter (seen ++ [codes "name"]) { facts with root_name := good } members ↔
      (keyed members "name" = [] ∧ good = true) ∧
      Slot (codes "matches" ∈ seen) (facts.root_matches = true ∧ facts.match_count ≠ 0)
        (keyed members "matches") GoodMatches ∧
      Slot (codes "fields" ∈ seen) (facts.root_fields = true) (keyed members "fields")
        GoodFields := by
  have hself : codes "name" ∈ seen ++ [codes "name"] := by simp
  unfold RootSlots
  rw [slot_seen hself, mem_seen_append (by decide), mem_seen_append (by decide)]

/-- What is left after the matches. -/
theorem rootSlots_matches (seen : List (List ℕ)) (facts : Facts) (count : ℕ) (members : Members) :
    RootSlots U adapter (seen ++ [codes "matches"])
        { facts with root_matches := true, match_count := count } members ↔
      Slot (codes "name" ∈ seen) (facts.root_name = true) (keyed members "name")
        (GoodName U adapter) ∧
      (keyed members "matches" = [] ∧ count ≠ 0) ∧
      Slot (codes "fields" ∈ seen) (facts.root_fields = true) (keyed members "fields")
        GoodFields := by
  have hself : codes "matches" ∈ seen ++ [codes "matches"] := by simp
  unfold RootSlots
  rw [slot_seen hself, mem_seen_append (by decide), mem_seen_append (by decide)]
  simp

/-- What is left after the fields. -/
theorem rootSlots_fields (seen : List (List ℕ)) (facts : Facts) (members : Members) :
    RootSlots U adapter (seen ++ [codes "fields"]) { facts with root_fields := true } members ↔
      Slot (codes "name" ∈ seen) (facts.root_name = true) (keyed members "name")
        (GoodName U adapter) ∧
      Slot (codes "matches" ∈ seen) (facts.root_matches = true ∧ facts.match_count ≠ 0)
        (keyed members "matches") GoodMatches ∧
      keyed members "fields" = [] := by
  have hself : codes "fields" ∈ seen ++ [codes "fields"] := by simp
  unfold RootSlots
  rw [slot_seen hself, mem_seen_append (by decide), mem_seen_append (by decide)]
  simp

/-- The matches of the root. -/
theorem effect_root_matches {frame : Frame} (hs : frame.scope = .root)
    (hk : frame.key = codes "matches") (facts facts' : Facts) (value : Value) :
    effect U adapter frame facts value = .ok ({ frame with state := .commaOrEnd }, facts') ↔
      ∃ items, value = .array items ∧ facts' = { facts with
          root_matches := true, match_count := facts.match_count + items.toList.length } ∧
        ∀ value ∈ items.toList, IsMatch value := by
  have hreq : requiredKind frame = some .array := by
    simp only [requiredKind, hs, hk]
    decide
  have hopen : facts.openArray { frame with state := .commaOrEnd } =
      { facts with root_matches := true } := by
    simp [Facts.openArray, hs, hk]
  have harray : (arrayFrame { frame with state := .commaOrEnd }).scope = .matches := by
    simp [arrayFrame, arrayScope, hs, hk]
  rw [effect_root_array hs hreq, hopen]
  simp only [effectItems_matches_iff facts' _ _ harray]

/-- The fields of the root. -/
theorem effect_root_fields {frame : Frame} (hs : frame.scope = .root)
    (hk : frame.key = codes "fields") (facts facts' : Facts) (value : Value) :
    effect U adapter frame facts value = .ok ({ frame with state := .commaOrEnd }, facts') ↔
      ∃ items, value = .array items ∧ facts' = { facts with root_fields := true } ∧
        ∀ value ∈ items.toList, IsField value := by
  have hne : codes "fields" ≠ codes "matches" := by decide
  have hreq : requiredKind frame = some .array := by
    simp only [requiredKind, hs, hk]
    decide
  have hopen : facts.openArray { frame with state := .commaOrEnd } =
      { facts with root_fields := true } := by
    simp [Facts.openArray, hs, hk, hne]
  have harray : (arrayFrame { frame with state := .commaOrEnd }).scope = .fields := by
    simp [arrayFrame, arrayScope, hs, hk, hne]
  rw [effect_root_array hs hreq, hopen]
  simp only [effectItems_fields_iff _ facts' _ harray]

section Step

variable {key : List ℕ} {value : Value} {members : Members} {frame : Frame} {facts : Facts}
  (hs : frame.scope = .root) (ht : Tracks frame.seen facts)
  (ih : ∀ {frame : Frame} {facts : Facts}, frame.scope = .root → Tracks frame.seen facts →
    ((∃ x, effectMembers U adapter frame facts members = .ok x ∧ x.2.Complete) ↔
      RootSlots U adapter frame.seen facts members))

include hs ht ih

/-- The next member is the name. -/
theorem root_cons_name (hkey : keptKey key = codes "name") :
    (∃ x, effectMembers U adapter frame facts (.cons key value members) = .ok x ∧
      x.2.Complete) ↔ RootSlots U adapter frame.seen facts (.cons key value members) := by
  let next : Frame := { frame.withKey (codes "name") with state := .commaOrEnd }
  have hscope : (frame.withKey (codes "name")).scope = .root := hs
  have hnext : next.scope = .root := hs
  have htracks : ∀ good, Tracks next.seen { facts with root_name := good } := fun good =>
    ⟨fun _ => by simp [next, Frame.withKey], fun h => List.mem_append_left _ (ht.matches_ h),
      fun h => ht.count fun hmem => h (List.mem_append_left _ hmem),
      fun h => List.mem_append_left _ (ht.fields h)⟩
  have hrest := fun good => (ih hnext (htracks good)).trans (rootSlots_name _ _ _ _)
  unfold RootSlots
  rw [keyed_cons (.inl rfl), keyed_cons (.inr (.inl rfl)), keyed_cons (.inr (.inr (.inl rfl))),
    root_required_iff hs (by rw [hkey]; decide), hkey, if_pos rfl, if_neg (by decide),
    if_neg (by decide), slot_cons]
  constructor
  · rintro ⟨hseen, facts', heffect, hmembers⟩
    obtain ⟨-, good, hgood, rfl⟩ := (effect_root_name hscope rfl facts facts' value).mp heffect
    obtain ⟨⟨hnone, htrue⟩, hslots⟩ := (hrest good).mp hmembers
    exact ⟨⟨hseen, hnone, hgood.mp htrue⟩, hslots⟩
  · rintro ⟨⟨hseen, hnone, hgood⟩, hslots⟩
    have hstring : IsString value := by
      obtain ⟨units, rfl, -⟩ := hgood
      rfl
    exact ⟨hseen, _, (effect_root_name hscope rfl facts _ _).mpr
      ⟨hstring, true, iff_of_true rfl hgood, rfl⟩, (hrest true).mpr ⟨⟨hnone, rfl⟩, hslots⟩⟩

/-- The next member is the list of matches. -/
theorem root_cons_matches (hkey : keptKey key = codes "matches") :
    (∃ x, effectMembers U adapter frame facts (.cons key value members) = .ok x ∧
      x.2.Complete) ↔ RootSlots U adapter frame.seen facts (.cons key value members) := by
  let next : Frame := { frame.withKey (codes "matches") with state := .commaOrEnd }
  have hscope : (frame.withKey (codes "matches")).scope = .root := hs
  have hnext : next.scope = .root := hs
  have htracks : ∀ count, Tracks next.seen
      { facts with root_matches := true, match_count := count } := fun count =>
    ⟨fun h => List.mem_append_left _ (ht.name h), fun _ => by simp [next, Frame.withKey],
      fun h => absurd (by simp [next, Frame.withKey]) h,
      fun h => List.mem_append_left _ (ht.fields h)⟩
  have hrest := fun count => (ih hnext (htracks count)).trans (rootSlots_matches _ _ _ _)
  unfold RootSlots
  rw [keyed_cons (.inl rfl), keyed_cons (.inr (.inl rfl)), keyed_cons (.inr (.inr (.inl rfl))),
    root_required_iff hs (by rw [hkey]; decide), hkey, if_neg (by decide), if_pos rfl,
    if_neg (by decide), slot_cons]
  -- The entries are counted from zero, since `matches` was not seen.
  constructor
  · rintro ⟨hseen, facts', heffect, hmembers⟩
    obtain ⟨items, rfl, rfl, hall⟩ := (effect_root_matches hscope rfl facts facts' value).mp heffect
    obtain ⟨hname, ⟨hnone, hcount⟩, hfields⟩ := (hrest _).mp hmembers
    rw [ht.count hseen, Nat.zero_add] at hcount
    exact ⟨hname, ⟨hseen, hnone, items, rfl, mt List.length_eq_zero_iff.mpr hcount, hall⟩, hfields⟩
  · rintro ⟨hname, ⟨hseen, hnone, items, rfl, hne, hall⟩, hfields⟩
    have hcount : facts.match_count + items.toList.length ≠ 0 := by
      rw [ht.count hseen, Nat.zero_add]
      exact mt List.length_eq_zero_iff.mp hne
    exact ⟨hseen, _, (effect_root_matches hscope rfl facts _ _).mpr ⟨items, rfl, rfl, hall⟩,
      (hrest _).mpr ⟨hname, ⟨hnone, hcount⟩, hfields⟩⟩

/-- The next member is the list of fields. -/
theorem root_cons_fields (hkey : keptKey key = codes "fields") :
    (∃ x, effectMembers U adapter frame facts (.cons key value members) = .ok x ∧
      x.2.Complete) ↔ RootSlots U adapter frame.seen facts (.cons key value members) := by
  let next : Frame := { frame.withKey (codes "fields") with state := .commaOrEnd }
  have hscope : (frame.withKey (codes "fields")).scope = .root := hs
  have hnext : next.scope = .root := hs
  have htracks : Tracks next.seen { facts with root_fields := true } :=
    ⟨fun h => List.mem_append_left _ (ht.name h),
      fun h => List.mem_append_left _ (ht.matches_ h),
      fun h => ht.count fun hmem => h (List.mem_append_left _ hmem),
      fun _ => by simp [next, Frame.withKey]⟩
  have hrest := (ih hnext htracks).trans (rootSlots_fields _ _ _)
  unfold RootSlots
  rw [keyed_cons (.inl rfl), keyed_cons (.inr (.inl rfl)), keyed_cons (.inr (.inr (.inl rfl))),
    root_required_iff hs (by rw [hkey]; decide), hkey, if_neg (by decide), if_neg (by decide),
    if_pos rfl, slot_cons]
  constructor
  · rintro ⟨hseen, facts', heffect, hmembers⟩
    obtain ⟨items, rfl, rfl, hall⟩ := (effect_root_fields hscope rfl facts facts' value).mp heffect
    obtain ⟨hname, hmatches, hnone⟩ := hrest.mp hmembers
    exact ⟨hname, hmatches, hseen, hnone, items, rfl, hall⟩
  · rintro ⟨hname, hmatches, hseen, hnone, items, rfl, hall⟩
    exact ⟨hseen, _, (effect_root_fields hscope rfl facts _ _).mpr ⟨items, rfl, rfl, hall⟩,
      hrest.mpr ⟨hname, hmatches, hnone⟩⟩

/-- The next member is none of the required ones. -/
theorem root_cons_free (hkey : (requiredKeys .root).lookup (keptKey key) = none) :
    (∃ x, effectMembers U adapter frame facts (.cons key value members) = .ok x ∧
      x.2.Complete) ↔ RootSlots U adapter frame.seen facts (.cons key value members) := by
  have hne : ∀ k, ((requiredKeys .root).lookup (codes k)).isSome = true →
      keptKey key ≠ codes k := by
    intro k hk h
    rw [← h, hkey] at hk
    contradiction
  unfold RootSlots
  rw [keyed_cons (.inl rfl), keyed_cons (.inr (.inl rfl)), keyed_cons (.inr (.inr (.inl rfl))),
    if_neg (hne "name" (by decide)), if_neg (hne "matches" (by decide)),
    if_neg (hne "fields" (by decide)), effectMembers_cons_free (by rwa [hs]) (.inl hs)]
  refine ih ?_ ?_
  · exact hs
  · exact ht

end Step

/-- The members of the root go through, and leave every fact, exactly when they are what a recipe
needs. -/
theorem root_members_iff : ∀ (members : Members) {frame : Frame} {facts : Facts},
    frame.scope = .root → Tracks frame.seen facts →
    ((∃ x, effectMembers U adapter frame facts members = .ok x ∧ x.2.Complete) ↔
      RootSlots U adapter frame.seen facts members)
  | .nil, frame, facts, hs, ht => by
    have hnil : ∀ k, keyed .nil k = [] := fun k => rfl
    unfold RootSlots effectMembers
    simp only [hnil, slot_nil, Except.ok.injEq, exists_eq_left', Facts.Complete]
    constructor
    · rintro ⟨hn, hm, hf, hc⟩
      exact ⟨⟨ht.name hn, hn⟩, ⟨ht.matches_ hm, hm, hc⟩, ht.fields hf, hf⟩
    · rintro ⟨⟨-, hn⟩, ⟨-, hm, hc⟩, -, hf⟩
      exact ⟨hn, hm, hf, hc⟩
  | .cons key value members, frame, facts, hs, ht => by
    rcases root_key_cases key with hkey | hkey | hkey | hkey
    · exact root_cons_name hs ht (root_members_iff members) hkey
    · exact root_cons_matches hs ht (root_members_iff members) hkey
    · exact root_cons_fields hs ht (root_members_iff members) hkey
    · exact root_cons_free hs ht (root_members_iff members) hkey

/-! ## The parser accepts recipes -/

/-- A text is accepted exactly when it spells a recipe in whose name no pair is escaped. -/
theorem accepts_iff {members : Members} {bytes : List UInt8}
    (htext : IsText (.object members) bytes) :
    Accepts U adapter .initial bytes ↔ IsRoot U adapter members ∧
      ∃ units, keyed members "name" = [.string units] ∧ hasPair units = false := by
  have htracks : Tracks rootFrame.seen .initial := by constructor <;> simp [Facts.initial]
  rw [accepts_text_iff htext, root_members_iff members rfl htracks]
  unfold RootSlots
  have hnone : ∀ k, k ∉ rootFrame.seen := by simp [rootFrame]
  rw [slot_not_seen (hnone _), slot_not_seen (hnone _), slot_not_seen (hnone _)]
  constructor
  · rintro ⟨⟨_, hname, units, rfl, hpair, hlower⟩, ⟨_, hmatches, items, rfl, hne, hall⟩,
      _, hfields, items', rfl, hall'⟩
    exact ⟨⟨⟨units, hname, hlower⟩, ⟨items, hmatches, hne, hall⟩, items', hfields, hall'⟩, units,
      hname, hpair⟩
  · rintro ⟨⟨⟨units, hname, hlower⟩, ⟨items, hmatches, hne, hall⟩, items', hfields, hall'⟩, units',
      hname', hpair⟩
    obtain rfl : units = units' := by
      rw [hname] at hname'
      simpa using hname'
    exact ⟨⟨_, hname, units, rfl, hpair, hlower⟩, ⟨_, hmatches, items, rfl, hne, hall⟩,
      _, hfields, items', rfl, hall'⟩

/-- `RecipeParser(adapter, None, load_frame)`, then `feed` and `finish`. -/
def parse (U : UnicodeData) (adapter : String) (load_frame : ℕ → Option Frame)
    (bytes : List UInt8) : Except String Unit := do
  let p ← (Parser.init none).feed U adapter load_frame bytes
  p.finish

/-- The parser raises nothing exactly when the machine accepts. -/
theorem parse_ok_iff (load_frame : ℕ → Option Frame) (bytes : List UInt8) :
    parse U adapter load_frame bytes = .ok () ↔ Accepts U adapter .initial bytes := by
  have hagrees := feed_agrees U adapter bytes (represents_init load_frame)
  unfold parse Accepts
  match hp : (Parser.init none).feed U adapter load_frame bytes,
    hm : Machine.run U adapter .initial bytes with
  | .ok p, .ok m =>
    rw [hp, hm] at hagrees
    simp only [Except.ok.injEq, exists_eq_left']
    exact finish_eq_ok_iff hagrees
  | .error e, .error e' => simp [bind, Except.bind]
  | .ok p, .error e | .error e, .ok m =>
    rw [hp, hm] at hagrees
    exact hagrees.elim

/-- The parser accepts a text exactly when it is a recipe, unless the text is a recipe whose name
is spelled with an escaped surrogate pair: then, and only then, it refuses a recipe. -/
theorem parser_accepts_recipes (U : UnicodeData) (adapter : String)
    (load_frame : ℕ → Option Frame) (bytes : List UInt8) :
    (parse U adapter load_frame bytes = .ok () ↔ IsRecipe U adapter bytes) ↔
      ¬(IsRecipe U adapter bytes ∧ PairInName bytes) := by
  rw [parse_ok_iff]
  constructor
  · rintro hiff ⟨hrecipe, members, units, htext, hname, hpair⟩
    obtain ⟨-, units', hname', hnone⟩ := (accepts_iff htext).mp (hiff.mpr hrecipe)
    obtain rfl : units = units' := by
      rw [hname] at hname'
      simpa using hname'
    rw [hpair] at hnone
    contradiction
  · intro hno
    constructor
    · intro hacc
      obtain ⟨members, htext⟩ := exists_text hacc
      exact ⟨members, htext, ((accepts_iff htext).mp hacc).1⟩
    · rintro ⟨members, htext, hroot⟩
      obtain ⟨units, hname, -⟩ := hroot.name
      refine (accepts_iff htext).mpr ⟨hroot, units, hname, ?_⟩
      by_contra hne
      exact hno ⟨⟨members, htext, hroot⟩, members, units, htext, hname, by simpa using hne⟩

/-- A printable ASCII character other than a quotation mark and a backslash. -/
def isUnescaped (b : UInt8) : Bool :=
  0x20 ≤ b.toNat && b.toNat < 0x80 && b ≠ quote && b ≠ backslash

/-- Such characters spell themselves. -/
theorem chars_ascii : ∀ (w : List UInt8), w.all isUnescaped = true → Chars (w.map UInt8.toNat) w
  | [], _ => .nil
  | b :: w, h => by
    simp only [List.all_cons, isUnescaped, Bool.and_eq_true, decide_eq_true_eq] at h
    obtain ⟨⟨⟨⟨h₁, h₂⟩, hq⟩, hb⟩, hw⟩ := h
    obtain ⟨c, hc, hcb⟩ := exists_ascii h₂
    have hcq : c.toNat ≠ 0x22 := fun he => hq (UInt8.toNat_inj.mp (hcb.symm.trans he))
    have hcs : c.toNat ≠ 0x5C := fun he => hb (UInt8.toNat_inj.mp (hcb.symm.trans he))
    have hchars := Chars.raw c (by omega) hcq hcs (chars_ascii w hw)
    rw [hc, hcb] at hchars
    exact hchars

/-- The bytes of an ASCII text. -/
def ascii (s : String) : List UInt8 := s.toList.map fun c => UInt8.ofNat c.toNat

/-- A capital of the ASCII or the Deseret alphabet has a small letter. -/
theorem deseretLower_ne_nil (c : ℕ) : (if 0x41 ≤ c ∧ c ≤ 0x5A then [c + 0x20]
    else if 0x10400 ≤ c ∧ c ≤ 0x10427 then [c + 0x28] else [c]) ≠ [] := by
  split_ifs <;> simp

/-- A surrogate is no such capital. -/
theorem deseretLower_surrogate (c : ℕ) (h : isSurrogate c = true) : (if 0x41 ≤ c ∧ c ≤ 0x5A then [c + 0x20]
    else if 0x10400 ≤ c ∧ c ≤ 0x10427 then [c + 0x28] else [c]) = [c] := by
  simp only [isSurrogate, Bool.and_eq_true, decide_eq_true_eq] at h
  rw [if_neg (by omega), if_neg (by omega)]

/-- Enough of the Unicode data for a name of one small letter: the capitals of the ASCII and the
Deseret alphabets and their small letters. -/
def deseretData : UnicodeData where
  toLowerFull c :=
    if 0x41 ≤ c ∧ c ≤ 0x5A then [c + 0x20]
    else if 0x10400 ≤ c ∧ c ≤ 0x10427 then [c + 0x28]
    else [c]
  isCased c := (0x41 ≤ c && c ≤ 0x5A) || (0x61 ≤ c && c ≤ 0x7A) || (0x10400 ≤ c && c ≤ 0x1044F)
  isCaseIgnorable c := c = 0x27 || c = 0x2E
  toLowerFull_ne_nil := deseretLower_ne_nil
  toLowerFull_surrogate := deseretLower_surrogate

/-- A recipe whose name is U+10428, escaped. -/
def pairText : List UInt8 :=
  ascii "\x7b\"name\":\"\\ud801\\udc28\",\"matches\":[\"https://\"],\"fields\":[]\x7d"

/-- The members that the text spells. -/
def pairMembers : Members :=
  .cons (codes "name") (.string [0xD801, 0xDC28])
    (.cons (codes "matches") (.array (.cons (.string (codes "https://")) .nil))
      (.cons (codes "fields") (.array .nil) .nil))

/-- The text spells them. -/
theorem isText_pairText : IsText (.object pairMembers) pairText := by
  have hnil : Space [] := by simp [Space]
  have helement : ∀ {value w}, Spells value w → SpellsElement value w := fun h => by
    simpa using SpellsElement.mk hnil h hnil
  have hname : Chars [0xD801, 0xDC28] (ascii "\\ud801\\udc28") :=
    .unicode _ _ _ _ 13 8 0 1 rfl rfl rfl rfl (.unicode _ _ _ _ 13 12 2 8 rfl rfl rfl rfl .nil)
  have hhttps : Chars (codes "https://") (ascii "https://") := chars_ascii (ascii "https://") (by decide +kernel)
  have hone := SpellsItems.one (helement (.string hhttps))
  have hmembers := SpellsMembers.more
    (.mk hnil (chars_ascii (ascii "name") (by decide +kernel)) hnil (helement (.string hname)))
    (.more (.mk hnil (chars_ascii (ascii "matches") (by decide +kernel)) hnil (helement (.array hone)))
      (.one (.mk hnil (chars_ascii (ascii "fields") (by decide +kernel)) hnil
        (helement (.emptyArray hnil)))))
  have hkeys : (ascii "name").map UInt8.toNat = codes "name" ∧ (ascii "matches").map UInt8.toNat = codes "matches" ∧
      (ascii "fields").map UInt8.toNat = codes "fields" := by
    decide +kernel
  rw [hkeys.1, hkeys.2.1, hkeys.2.2] at hmembers
  have hsame : ∀ w, SpellsElement (.object pairMembers) w → w = pairText → IsText (.object pairMembers) pairText := by
    rintro w h rfl
    exact h
  refine hsame _ (helement (.object hmembers)) ?_
  decide +kernel

/-- The parser refuses a recipe for the adapter U+10428 that escapes its name. -/
theorem escaped_pair_in_name_refused :
    ¬(parse deseretData "𐐨" (fun _ => none) pairText = .ok () ↔
      IsRecipe deseretData "𐐨" pairText) := by
  have hmatch : IsMatch (.string (codes "https://")) := by
    unfold IsMatch
    decide
  have hrecipe : IsRecipe deseretData "𐐨" pairText := by
    refine ⟨pairMembers, isText_pairText, ⟨[0xD801, 0xDC28], rfl, by decide⟩,
      ⟨.cons (.string (codes "https://")) .nil, rfl, by simp [Items.toList], ?_⟩,
      .nil, rfl, by simp [Items.toList]⟩
    simpa [Items.toList] using hmatch
  intro hiff
  have hacc := (parse_ok_iff _ _).mp (hiff.mpr hrecipe)
  obtain ⟨-, units, hname, hpair⟩ := (accepts_iff isText_pairText).mp hacc
  obtain rfl : [0xD801, 0xDC28] = units := by
    have hname' : keyed pairMembers "name" = [.string [0xD801, 0xDC28]] := rfl
    rw [hname'] at hname
    simpa using hname
  contradiction

end

end JobScripts.Recipe
