import JobScripts.Batch.Submit
import JobScripts.Catalog.Listings
import JobScripts.Payloads.Encoding

/-!
# Groups of requests and of named values

`_chunk_specs` of `core/batch` cuts requests into waves, within the provider's limits on requests, inputs and tokens.
`bundle_groups` of `core/payloads/objects.py` cuts named values into bundles, by the lengths of the encoded values.

`groups_within_limits` says that the waves are within all three limits, and that the object of a bundle is within its
limit exactly where the names have room beside the values: `bundle_groups` does not count them (`names_not_counted`).
-/

namespace JobScripts.Batch.Groups

open Lib.Loads Lib.Dumps Catalog.Listings Payloads

/-! ## Waves -/

section Waves

variable {J : Type} (m : ℕ)

/-- The inputs of a wave. -/
def totalInputs (chunk : List (BatchSpec J)) : ℕ := (chunk.map inputCount).sum

/-- The tokens of a wave, as they are estimated. -/
def totalTokens (chunk : List (BatchSpec J)) : ℕ := (chunk.map fun spec => estimateTokens spec m).sum

/-- A wave is within the limits; a single request may have more tokens. -/
structure Fits (chunk : List (BatchSpec J)) : Prop where
  requests : chunk.length ≤ batchMaxRequests
  inputs : totalInputs chunk ≤ batchMaxRequests
  tokens : totalTokens m chunk ≤ batchTokenBudget ∨ chunk.length ≤ 1

variable {m}

/-- No requests are within the limits. -/
theorem Fits.nil : Fits m ([] : List (BatchSpec J)) where
  requests := Nat.zero_le _
  inputs := Nat.zero_le _
  tokens := .inr (Nat.zero_le _)

/-- A request alone is, if it does not have too many inputs. -/
theorem Fits.singleton {spec : BatchSpec J} (h : ¬ inputCount spec > batchMaxRequests) : Fits m [spec] where
  requests := Nat.one_le_iff_ne_zero.mpr (by decide)
  inputs := by
    have hinputs : totalInputs [spec] = inputCount spec := List.sum_singleton
    omega
  tokens := .inr le_rfl

/-- The inputs and the tokens of one request more. -/
theorem totals_append (current : List (BatchSpec J)) (spec : BatchSpec J) :
    totalInputs (current ++ [spec]) = totalInputs current + inputCount spec ∧
      totalTokens m (current ++ [spec]) = totalTokens m current + estimateTokens spec m := by
  unfold totalInputs totalTokens
  rw [List.map_append, List.sum_append, List.map_append, List.sum_append]
  exact ⟨rfl, rfl⟩

/-- So are more, as long as the loop does not start a new wave. -/
theorem Fits.append {current : List (BatchSpec J)} {spec : BatchSpec J}
    (hcount : ¬ inputCount spec > batchMaxRequests)
    (h : ¬ (current ≠ [] ∧ (totalTokens m current + estimateTokens spec m > batchTokenBudget ∨
      current.length ≥ batchMaxRequests ∨ totalInputs current + inputCount spec > batchMaxRequests))) :
    Fits m (current ++ [spec]) := by
  rcases eq_or_ne current [] with rfl | hne
  · exact Fits.singleton hcount
  · have hinputs : totalInputs (current ++ [spec]) = totalInputs current + inputCount spec := by
      unfold totalInputs
      rw [List.map_append, List.sum_append]
      rfl
    have htokens : totalTokens m (current ++ [spec]) = totalTokens m current + estimateTokens spec m := by
      unfold totalTokens
      rw [List.map_append, List.sum_append]
      rfl
    have hroom := not_and.mp h hne
    push Not at hroom
    obtain ⟨hbudget, hrequests, htotal⟩ := hroom
    refine ⟨?_, ?_, .inl ?_⟩
    · rw [List.length_append, List.length_singleton]
      omega
    · rw [hinputs]
      exact htotal
    · rw [htokens]
      exact hbudget

/-- What the loop ends in: it raises for a request with too many inputs, or every wave is within the limits. -/
def Cut (m : ℕ) (specs : List (BatchSpec J)) : Except String (List (List (BatchSpec J))) → Prop
  | .error _ => ∃ spec ∈ specs, batchMaxRequests < inputCount spec
  | .ok out => ∀ c ∈ out, Fits m c

/-- What is so of the requests after one is so of them all. -/
theorem Cut.cons {spec : BatchSpec J} {specs : List (BatchSpec J)} :
    ∀ {r : Except String (List (List (BatchSpec J)))}, Cut m specs r → Cut m (spec :: specs) r
  | .error _, ⟨s, hs, hlt⟩ => ⟨s, List.mem_cons_of_mem _ hs, hlt⟩
  | .ok _, h => h

/-- The waves are kept within the limits, with the totals of the one that is filled. -/
theorem chunkLoop_fits {specs current : List (BatchSpec J)} {chunks : List (List (BatchSpec J))}
    (hchunks : ∀ c ∈ chunks, Fits m c) (hcurrent : Fits m current) :
    Cut m specs (chunkLoop m specs current (totalTokens m current) (totalInputs current) chunks) := by
  induction specs generalizing current chunks with
  | nil =>
    unfold chunkLoop Cut
    dsimp only
    split
    · exact hchunks
    · exact List.forall_mem_append.mpr ⟨hchunks, List.forall_mem_singleton.mpr hcurrent⟩
  | cons spec specs ih =>
    unfold chunkLoop
    dsimp only
    by_cases hcount : inputCount spec > batchMaxRequests
    · rw [if_pos hcount]
      exact ⟨spec, List.mem_cons_self, hcount⟩
    · rw [if_neg hcount]
      apply Cut.cons
      split
      · -- The wave is full, and the request begins another.
        have hloop := ih (List.forall_mem_append.mpr ⟨hchunks, List.forall_mem_singleton.mpr hcurrent⟩)
          (Fits.singleton hcount)
        have hinputs : totalInputs [spec] = inputCount spec := List.sum_singleton
        have htokens : totalTokens m [spec] = estimateTokens spec m := List.sum_singleton
        rwa [hinputs, htokens] at hloop
      · next hroom =>
        have hloop := ih hchunks (Fits.append hcount hroom)
        obtain ⟨hinputs, htokens⟩ := totals_append (m := m) current spec
        rwa [hinputs, htokens] at hloop

end Waves

/-! ## Bundles -/

/-- Some values, each with a name of its own: the items of a `dict`. -/
structure NamedValues where
  items : List (Text × Value)
  nodup : (items.map Prod.fst).Nodup
  ne_nil : ∀ item ∈ items, item.1 ≠ []

/-- `bundle_groups` as `put_values` and `snapshot_specs` use it: it raises where a value is not finite JSON. -/
def bundles (items : List (Text × Value)) : Option (List (List (Text × Value))) :=
  if items.all fun item => isFinite item.2 then some (bundleGroups (fun item => encodedLength item.2) items) else none

/-- The object that `put_bundle` uploads. -/
def uploaded (group : List (Text × Value)) : Option Text :=
  if group.isEmpty || group.any (fun item => item.1.isEmpty) then none else encodePayload (.dict group)

/-- The lengths of the encoded values of a group. -/
def valueBytes (group : List (Text × Value)) : ℕ := (group.map fun item => encodedLength item.2).sum

/-- What the names of a group add to them, with a brace. -/
def nameBytes (group : List (Text × Value)) : ℕ := (group.map fun item => nameLength item.1).sum + 1

/-- A single value, or a group that has room for its names. -/
def Room (group : List (Text × Value)) : Prop :=
  group.length ≤ 1 ∨ valueBytes group + nameBytes group ≤ bundleMaxBytes

/-- The values are taken in order, and afresh from each that would bring the lengths of the encoded ones over the
limit. Where two or more are taken together, their names have room beside them. -/
def NamesFit : List (Text × Value) → List (Text × Value) → Prop
  | taken, [] => Room taken
  | taken, item :: rest =>
    if taken ≠ [] ∧ valueBytes taken + encodedLength item.2 ≤ bundleMaxBytes then NamesFit (taken ++ [item]) rest
    else Room taken ∧ NamesFit [item] rest

/-- The groups from one on that is open: those before it stay as they are, none is empty, and they have room exactly
if the names fit. -/
theorem room_iff_namesFit (items : List (Text × Value)) (groups : List (List (Text × Value)))
    {last : List (Text × Value)} (hlast : last ≠ []) (hgroups : ∀ g ∈ groups, g ≠ [])
    {out : List (List (Text × Value)) × ℕ}
    (hout : out = items.foldl (fun (groups, total) item =>
      if groups.isEmpty || total + encodedLength item.2 > bundleMaxBytes
      then (groups ++ [[item]], encodedLength item.2)
      else (groups.dropLast ++ [groups.getLast?.getD [] ++ [item]], total + encodedLength item.2))
      (groups ++ [last], valueBytes last)) :
    (∀ g ∈ out.1, g ≠ []) ∧ ((∀ g ∈ out.1, Room g) ↔ (∀ g ∈ groups, Room g) ∧ NamesFit last items) := by
  induction items generalizing last groups with
  | nil =>
    rw [hout]
    dsimp only [List.foldl_nil]
    constructor
    · intro g hg
      rcases List.mem_append.mp hg with hg | hg
      · exact hgroups g hg
      · rw [List.mem_singleton.mp hg]
        exact hlast
    · rw [List.forall_mem_append, List.forall_mem_singleton]
      rfl
  | cons item rest ih =>
    rw [List.foldl_cons] at hout
    dsimp only at hout
    have hopen : (groups ++ [last]).isEmpty = false := by simp
    have hvalue : valueBytes [item] = encodedLength item.2 := List.sum_singleton
    by_cases hroom : valueBytes last + encodedLength item.2 ≤ bundleMaxBytes
    · -- The value joins the open group.
      have hjoin : valueBytes (last ++ [item]) = valueBytes last + encodedLength item.2 := by
        unfold valueBytes
        rw [List.map_append, List.sum_append]
        rfl
      rw [hopen, Bool.false_or, if_neg (by simpa using hroom), List.dropLast_concat, List.getLast?_concat,
        Option.getD_some, ← hjoin] at hout
      have hfit : NamesFit last (item :: rest) ↔ NamesFit (last ++ [item]) rest := by
        conv_lhs => unfold NamesFit
        rw [if_pos ⟨hlast, hroom⟩]
      rw [hfit]
      exact ih groups (by simp) hgroups hout
    · -- It opens a group of its own.
      rw [hopen, Bool.false_or, if_pos (by simpa using hroom), ← hvalue] at hout
      have hfit : NamesFit last (item :: rest) ↔ Room last ∧ NamesFit [item] rest := by
        conv_lhs => unfold NamesFit
        rw [if_neg fun h => hroom h.2]
      have hgroups' : ∀ g ∈ groups ++ [last], g ≠ [] := by
        intro g hg
        rcases List.mem_append.mp hg with hg | hg
        · exact hgroups g hg
        · rw [List.mem_singleton.mp hg]
          exact hlast
      obtain ⟨hne, hiff⟩ := ih (groups ++ [last]) (List.cons_ne_nil item []) hgroups' hout
      refine ⟨hne, hiff.trans ?_⟩
      rw [hfit, List.forall_mem_append, List.forall_mem_singleton, and_assoc]

/-- Every group has values, and there is room for its names exactly if they fit. -/
theorem bundleGroups_room (items : List (Text × Value)) :
    (∀ g ∈ bundleGroups (fun item => encodedLength item.2) items, g ≠ []) ∧
      ((∀ g ∈ bundleGroups (fun item => encodedLength item.2) items, Room g) ↔ NamesFit [] items) := by
  cases items with
  | nil => exact ⟨fun g hg => absurd hg List.not_mem_nil, iff_of_true (fun g hg => absurd hg List.not_mem_nil)
      (.inl (Nat.zero_le 1))⟩
  | cons item rest =>
    have hvalue : valueBytes [item] = encodedLength item.2 := List.sum_singleton
    have hfit : NamesFit [] (item :: rest) ↔ NamesFit [item] rest := by
      conv_lhs => unfold NamesFit
      rw [if_neg fun h => h.1 rfl]
      exact and_iff_right (.inl (Nat.zero_le 1))
    have hfold := room_iff_namesFit rest [] (List.cons_ne_nil item []) (fun g hg => absurd hg List.not_mem_nil) rfl
    rw [hvalue] at hfold
    obtain ⟨hne, hiff⟩ := hfold
    rw [hfit]
    exact ⟨hne, hiff.trans (and_iff_right fun g hg => absurd hg List.not_mem_nil)⟩

/-- What is uploaded for a group is as long as its values and its names. -/
theorem length_uploaded {group : List (Text × Value)} (hne : group ≠ []) (hnames : ∀ item ∈ group, item.1 ≠ [])
    (hfinite : ∀ item ∈ group, isFinite item.2 = true) :
    ∃ object, uploaded group = some object ∧ object.length = valueBytes group + nameBytes group := by
  have hnamed : (group.isEmpty || group.any fun item => item.1.isEmpty) = false := by
    rw [Bool.or_eq_false_iff, List.isEmpty_eq_false_iff, List.any_eq_false]
    refine ⟨hne, fun item hitem => ?_⟩
    rw [List.isEmpty_iff]
    exact hnames item hitem
  have hencode : uploaded group = some (write .compact (sorted (.dict group))) := by
    unfold uploaded encodePayload
    rw [hnamed, if_neg nofun]
    exact if_pos (membersFinite_iff.mpr hfinite)
  have hlength : (write .compact (sorted (.dict group))).length = encodedLength (.dict group) := rfl
  refine ⟨_, hencode, ?_⟩
  rw [hlength, encodedLength_dict hne, List.sum_map_add]
  unfold valueBytes nameBytes
  omega

/-- The waves of any requests are the requests in order, and within the three limits, unless one request has too many
inputs. The bundles of any named values are the values in order, and the object of each is within its limit, or of a
single value, exactly if wherever the encoded values fit their names fit beside them. -/
theorem groups_within_limits {J : Type} (specs : List (BatchSpec J)) (max_output_tokens : ℕ) (values : NamedValues) :
    (match chunkSpecs specs max_output_tokens with
      | .error _ => ∃ spec ∈ specs, batchMaxRequests < inputCount spec
      | .ok chunks => chunks.flatten = specs ∧ (∀ c ∈ chunks, c ≠ []) ∧ ∀ c ∈ chunks, Fits max_output_tokens c) ∧
      match bundles values.items with
      | none => ∃ item ∈ values.items, isFinite item.2 = false
      | some groups => groups.flatten = values.items ∧ (∀ g ∈ groups, g ≠ []) ∧
        ((∀ g ∈ groups, ∀ object, uploaded g = some object → object.length ≤ bundleMaxBytes ∨ g.length = 1) ↔
          NamesFit [] values.items) := by
  constructor
  · have hfits : Cut max_output_tokens specs (chunkSpecs specs max_output_tokens) :=
      chunkLoop_fits (fun c hc => absurd hc List.not_mem_nil) Fits.nil
    cases hchunks : chunkSpecs specs max_output_tokens with
    | error e =>
      rw [hchunks] at hfits
      exact hfits
    | ok chunks =>
      rw [hchunks] at hfits
      obtain ⟨hflatten, hne⟩ := chunkLoop_spec hchunks fun c hc => absurd hc List.not_mem_nil
      exact ⟨hflatten, hne, hfits⟩
  · unfold bundles
    by_cases hall : values.items.all (fun item => isFinite item.2) = true
    · rw [if_pos hall]
      have hflatten := flatten_bundleGroups (fun item => encodedLength item.2) values.items
      obtain ⟨hne, hroom⟩ := bundleGroups_room values.items
      refine ⟨hflatten, hne, Iff.trans ?_ hroom⟩
      refine forall₂_congr fun g hg => ?_
      have hmem : ∀ item ∈ g, item ∈ values.items := fun item hitem =>
        hflatten ▸ List.mem_flatten.mpr ⟨g, hg, hitem⟩
      obtain ⟨object, hobject, hlength⟩ := length_uploaded (hne g hg)
        (fun item hitem => values.ne_nil item (hmem item hitem))
        fun item hitem => List.all_eq_true.mp hall item (hmem item hitem)
      have hpos : 0 < g.length := List.length_pos_iff.mpr (hne g hg)
      unfold Room
      constructor
      · intro h
        rcases h object hobject with hle | hone
        · exact .inr (hlength ▸ hle)
        · exact .inl hone.le
      · intro h object' hobject'
        obtain rfl := Option.some_inj.mp (hobject.symm.trans hobject')
        rcases h with hone | hle
        · exact .inr (by omega)
        · exact .inl (hlength ▸ hle)
    · rw [if_neg hall]
      obtain ⟨item, hitem, hfinite⟩ := List.all_eq_false.mp (Bool.eq_false_iff.mpr hall)
      exact ⟨item, hitem, Bool.eq_false_iff.mpr hfinite⟩

/-! ## Two halves -/

/-- A text of a single letter over and over. -/
def letters (n : ℕ) : Value := .str (List.replicate n 0x61)

/-- Two of them, with names. -/
def twoTexts (n : ℕ) : NamedValues where
  items := [([0x61], letters n), ([0x62], letters n)]
  nodup := by simp
  ne_nil := by simp

/-- Such a text has quotes around it. -/
theorem encodedLength_letters (n : ℕ) : encodedLength (letters n) = n + 2 := by
  have hlength : encodedLength (letters n) = (quoted (List.replicate n 0x61)).length := rfl
  have hescape : ∀ c ∈ List.replicate n 0x61, (escape c).length = 1 := by
    intro c hc
    rw [List.eq_of_mem_replicate hc]
    rfl
  unfold quoted at hlength
  rw [List.length_cons, List.length_append, List.length_flatMap, List.map_congr_left hescape] at hlength
  simp at hlength
  exact hlength

/-- Two texts that are together as long as a bundle may be are put in one, which is longer. -/
theorem bundles_twoTexts {n : ℕ} (h : (n + 2) + (n + 2) = bundleMaxBytes) : ∃ groups object,
    bundles (twoTexts n).items = some groups ∧ (twoTexts n).items ∈ groups ∧
      uploaded (twoTexts n).items = some object ∧ bundleMaxBytes < object.length := by
  have hgroups : bundleGroups (fun item : Text × Value => encodedLength item.2) (twoTexts n).items =
      [(twoTexts n).items] := by
    have hroom : ¬ n + 2 + (n + 2) > bundleMaxBytes := by omega
    simp [bundleGroups, twoTexts, encodedLength_letters, hroom]
  have hfinite : ∀ item ∈ (twoTexts n).items, isFinite item.2 = true := by simp [twoTexts, letters, isFinite]
  have hne : (twoTexts n).items ≠ [] := List.cons_ne_nil _ _
  obtain ⟨object, hobject, hlength⟩ := length_uploaded hne (twoTexts n).ne_nil hfinite
  refine ⟨[(twoTexts n).items], object, ?_, List.mem_singleton_self _, hobject, ?_⟩
  · unfold bundles
    rw [if_pos (List.all_eq_true.mpr hfinite), hgroups]
  · have hvalues : valueBytes (twoTexts n).items = (n + 2) + (n + 2) := by
      simp [valueBytes, twoTexts, encodedLength_letters]
    have hnames : 0 < nameBytes (twoTexts n).items := Nat.succ_pos _
    omega

/-- Two values of 4 MiB, encoded, are put in a bundle of more than 8 MiB. -/
theorem names_not_counted : ∃ groups object, bundles (twoTexts 4194302).items = some groups ∧
    (twoTexts 4194302).items ∈ groups ∧ uploaded (twoTexts 4194302).items = some object ∧
      ¬ (object.length ≤ bundleMaxBytes ∨ (twoTexts 4194302).items.length = 1) := by
  obtain ⟨groups, object, hgroups, hmem, hobject, hlength⟩ := bundles_twoTexts (n := 4194302) rfl
  refine ⟨groups, object, hgroups, hmem, hobject, ?_⟩
  rintro (hle | hone)
  · exact absurd hle (Nat.not_le.mpr hlength)
  · exact absurd hone (Nat.succ_ne_self 1)

end JobScripts.Batch.Groups
