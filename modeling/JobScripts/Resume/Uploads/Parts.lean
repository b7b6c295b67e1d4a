import JobScripts.Resume.Uploads.Runs

/-!
# The parts of an upload

The receipts of an upload stand at their indexes, and what is verified is what is before the next part (`PartsOk`). What
a run gathers of the pages is their text.
-/

namespace JobScripts.Resume

open Lib

variable {D : Type}

/-! ## The texts of pages -/

/-- The fragments of the pages are the text. -/
theorem pageText_flatten (pages : List Text) : (pageText pages).flatten = List.intercalate [10] pages := by
  -- Behind the first page, each has a line end before it.
  have hrest : ∀ (pages : List Text) (n : ℕ), 0 < n →
      ((pages.zipIdx n).flatMap fun p => if p.2 ≠ 0 then [[10], p.1] else [p.1]).flatten =
        (pages.map ([10] ++ ·)).flatten := by
    intro pages
    induction pages with
    | nil => exact fun _ _ => rfl
    | cons page pages ih =>
      intro n hn
      rw [List.zipIdx_cons, List.flatMap_cons, List.flatten_append, ih (n + 1) (by omega)]
      have hne : n ≠ 0 := by omega
      simp [hne]
  have hjoin : ∀ (pages : List Text) (first : Text),
      List.intercalate [10] (first :: pages) = first ++ (pages.map ([10] ++ ·)).flatten := by
    intro pages
    induction pages with
    | nil => exact fun first => by simp [List.intercalate]
    | cons page pages ih =>
      intro first
      have hstep : List.intercalate [10] (first :: page :: pages) =
          first ++ ([10] ++ List.intercalate [10] (page :: pages)) := by
        simp [List.intercalate, List.intersperse]
      rw [hstep, ih page, List.map_cons, List.flatten_cons, List.append_assoc]
  cases pages with
  | nil => rfl
  | cons first pages =>
    change ((first :: pages).zipIdx.flatMap fun p => if p.2 ≠ 0 then [[10], p.1] else [p.1]).flatten = _
    rw [List.zipIdx_cons, List.flatMap_cons, List.flatten_append, hrest pages (0 + 1) (by omega), hjoin pages first]
    simp

/-- What `store_text` writes for a PDF is its text. -/
theorem Env.close_flatten (e : Env D) (pdf : Bytes) :
    (gather e.isSpace (pageText (e.pages pdf))).close.flatten = e.text pdf := by
  have hparts := parts_flatten e.isSpace (pageText (e.pages pdf))
  rw [pageText_flatten] at hparts
  exact hparts

/-- And its characters are counted. -/
theorem Env.gather_chars (e : Env D) (pdf : Bytes) :
    (gather e.isSpace (pageText (e.pages pdf))).chars = (e.text pdf).length := by
  rw [(gather_spec e.isSpace _).2, pageText_flatten]
  rfl

/-- A read that goes through gives the bytes of the receipt, where digests do not collide. -/
theorem Env.read_bytes [DecidableEq D] {e : Env D} (hsha : Function.Injective e.sha256) {sha256 : D} {size : ℕ}
    {response : Option Bytes} {raw bytes : Bytes} (h : e.read sha256 size response = .ok raw)
    (hbytes : sha256 = e.sha256 bytes) : raw = bytes := by
  unfold Env.read at h
  split at h
  · contradiction
  · split at h
    · contradiction
    · next body =>
      dsimp only at h
      split at h
      · contradiction
      · next hchecks =>
        obtain rfl := Except.ok.inj h
        rw [not_or, not_not, not_not] at hchecks
        exact hsha (hchecks.2.trans hbytes)

/-! ## The parts -/

/-- The bytes of parts. -/
def bytesOf (parts : List (Part D)) : Bytes := (parts.map (·.bytes)).flatten

/-- The sizes of parts, summed. -/
def sizeOf (parts : List (Part D)) : ℕ := (parts.map (·.size)).sum

/-- What holds of the row and its receipts: the receipts stand at their indexes, those before the next part are
verified, and at most one is not. -/
structure PartsOk (e : Env D) (upload : Upload) (parts : List (Part D)) : Prop where
  at_index : ∀ (i : ℕ) (p : Part D), parts[i]? = some p → p.part_index = i
  bytes : ∀ p : Part D, p ∈ parts → p.sha256 = e.sha256 p.bytes ∧ 0 < p.size
  verified : ∀ p : Part D, p ∈ parts → p.verified = decide (p.part_index < upload.next_part)
  next : upload.next_part ≤ parts.length
  pending : parts.length ≤ upload.next_part + 1
  received : upload.received_size = sizeOf (parts.take upload.next_part)
  fits : sizeOf parts ≤ upload.size
  closed : upload.status ≠ .receiving → upload.received_size = upload.size

section Parts

variable {e : Env D} {upload : Upload} {parts : List (Part D)}

/-- The sizes of two lists. -/
theorem sizeOf_append (parts parts' : List (Part D)) : sizeOf (parts ++ parts') = sizeOf parts + sizeOf parts' := by
  unfold sizeOf
  rw [List.map_append, List.sum_append]

/-- The receipt with an index is the one at it. -/
theorem PartsOk.find (h : PartsOk e upload parts) (i : ℕ) :
    (parts.find? fun p => p.part_index = i) = parts[i]? := by
  rcases hi : parts[i]? with _ | p
  · rw [List.find?_eq_none]
    intro p hp hindex
    obtain ⟨j, hj⟩ := List.getElem?_of_mem hp
    have hij := h.at_index j p hj
    rw [decide_eq_true_eq] at hindex
    rw [← hij, hindex, hi] at hj
    contradiction
  · rw [List.find?_eq_some_iff_getElem]
    obtain ⟨hlt, hget⟩ := List.getElem?_eq_some_iff.mp hi
    refine ⟨decide_eq_true (h.at_index i p hi), i, hlt, hget, fun j hj => ?_⟩
    have hindex := h.at_index j parts[j] (List.getElem?_eq_getElem _)
    rw [Bool.not_eq_true', decide_eq_false_iff_not]
    omega

/-- The size so far is at most the size declared. -/
theorem PartsOk.received_le (h : PartsOk e upload parts) :
    upload.received_size + sizeOf (parts.drop upload.next_part) ≤ upload.size := by
  have hsplit := sizeOf_append (parts.take upload.next_part) (parts.drop upload.next_part)
  rw [List.take_append_drop, ← h.received] at hsplit
  have hfits := h.fits
  omega

/-- Once all bytes are there, every receipt is verified. -/
theorem PartsOk.length_eq (h : PartsOk e upload parts) (hfull : upload.received_size = upload.size) :
    parts.length = upload.next_part := by
  have hle := h.received_le
  have hnext := h.next
  -- A part behind the last verified one would have bytes.
  rcases hdrop : parts.drop upload.next_part with _ | ⟨p, rest⟩
  · have hlen := congrArg List.length hdrop
    rw [List.length_drop, List.length_nil] at hlen
    omega
  · have hp : p ∈ parts := List.mem_of_mem_drop (hdrop ▸ List.mem_cons_self)
    have hpos := (h.bytes p hp).2
    rw [hdrop] at hle
    have hsum : sizeOf (p :: rest) = p.size + sizeOf rest := by
      unfold sizeOf
      rw [List.map_cons, List.sum_cons]
    omega

/-- The verified receipts are those before the next part. -/
theorem PartsOk.filter_verified (h : PartsOk e upload parts) :
    (parts.filter fun p => p.verified) = parts.take upload.next_part := by
  have hsplit := List.take_append_drop upload.next_part parts
  have htake : ∀ p ∈ parts.take upload.next_part, p.verified = true := by
    intro p hp
    obtain ⟨i, hi⟩ := List.getElem?_of_mem hp
    rw [List.getElem?_take] at hi
    split at hi
    · next hlt => rw [h.verified p (List.mem_of_getElem? hi), h.at_index i p hi, decide_eq_true hlt]
    · contradiction
  have hdrop : ∀ p ∈ parts.drop upload.next_part, ¬ p.verified = true := by
    intro p hp
    obtain ⟨i, hi⟩ := List.getElem?_of_mem hp
    rw [List.getElem?_drop] at hi
    rw [h.verified p (List.mem_of_getElem? hi), h.at_index _ p hi, decide_eq_true_eq]
    omega
  calc (parts.filter fun p => p.verified)
      = ((parts.take upload.next_part).filter fun p => p.verified) ++
          (parts.drop upload.next_part).filter fun p => p.verified := by rw [← List.filter_append, hsplit]
    _ = parts.take upload.next_part := by
      rw [List.filter_eq_self.mpr htake, List.filter_eq_nil_iff.mpr hdrop, List.append_nil]

/-- The indexes of the first receipts. -/
theorem PartsOk.map_index (h : PartsOk e upload parts) {n : ℕ} (hn : n ≤ parts.length) :
    (parts.take n).map (·.part_index) = List.range n := by
  refine List.ext_getElem? fun i => ?_
  rw [List.getElem?_map, List.getElem?_take]
  split
  · next hlt =>
    have hget := List.getElem?_eq_getElem (show i < parts.length by omega)
    rw [hget, Option.map_some, h.at_index i _ hget, List.getElem?_range hlt]
  · next hlt =>
    rw [Option.map_none, List.getElem?_eq_none]
    rw [List.length_range]
    omega

/-- What the first transaction of a request makes sure of: the receipt at its index is for bytes of this digest and
length. -/
def Receipted (e : Env D) (upload : Upload) (parts : List (Part D)) (index : ℕ) (data : Bytes) : Prop :=
  index ≤ upload.next_part ∧ ∃ p, parts[index]? = some p ∧ p.sha256 = e.sha256 data ∧ p.size = data.length

/-- Later receipts hold the earlier ones. -/
def Extends (parts parts' : List (Part D)) : Prop :=
  ∀ (i : ℕ) (p : Part D), parts[i]? = some p →
    ∃ p', parts'[i]? = some p' ∧ p'.sha256 = p.sha256 ∧ p'.size = p.size

/-- Receipts hold themselves. -/
theorem Extends.refl (parts : List (Part D)) : Extends parts parts := fun _ p hp => ⟨p, hp, rfl, rfl⟩

/-- Holding is transitive. -/
theorem Extends.trans {parts' parts'' : List (Part D)} (h : Extends parts parts') (h' : Extends parts' parts'') :
    Extends parts parts'' := by
  intro i p hp
  obtain ⟨p', hp', hsha, hsize⟩ := h i p hp
  obtain ⟨p'', hp'', hsha', hsize'⟩ := h' i p' hp'
  exact ⟨p'', hp'', hsha'.trans hsha, hsize'.trans hsize⟩

/-- What a request has made sure of stays so. -/
theorem Receipted.extends {parts' : List (Part D)} {upload' : Upload} {index : ℕ} {data : Bytes}
    (h : Receipted e upload parts index data) (hext : Extends parts parts')
    (hnext : upload.next_part ≤ upload'.next_part) : Receipted e upload' parts' index data := by
  obtain ⟨hindex, p, hp, hsha, hsize⟩ := h
  obtain ⟨p', hp', hsha', hsize'⟩ := hext index p hp
  exact ⟨by omega, p', hp', hsha'.trans hsha, hsize'.trans hsize⟩

/-- The first transaction: a request that is not refused finds the upload open. It repeats a part, and writes nothing,
or there is a receipt for it. -/
theorem PartsOk.receipt [DecidableEq D] (h : PartsOk e upload parts) {index : ℕ} {data : Bytes} {replay : Bool}
    {parts' : List (Part D)} (hdata : data ≠ [])
    (hr : receipt e upload parts index data = .ok (replay, parts')) :
    upload.status = .receiving ∧ PartsOk e upload parts' ∧ Extends parts parts' ∧
      (replay = false → Receipted e upload parts' index data) := by
  unfold Resume.receipt at hr
  rw [h.find] at hr
  -- The upload is open, or the request is refused.
  split at hr
  · contradiction
  next hopen =>
  rw [not_not] at hopen
  refine ⟨hopen, ?_⟩
  split at hr
  · contradiction
  -- A part below the next one: it is stored with the same bytes, and nothing is written.
  dsimp only at hr
  split at hr
  · split at hr
    · contradiction
    · split at hr
      · contradiction
      · obtain ⟨rfl, rfl⟩ := Prod.mk.inj (Except.ok.inj hr)
        exact ⟨h, .refl parts, nofun⟩
  -- The next part, within the size that was promised.
  split at hr
  · contradiction
  next hindex hnext hfits =>
  have heq : index = upload.next_part := by omega
  split at hr
  · next hnone =>
    -- The receipt is the first for its index, so it comes right behind the others.
    obtain ⟨rfl, rfl⟩ := Prod.mk.inj (Except.ok.inj hr)
    have hlen : parts.length = upload.next_part := by
      have hle := List.getElem?_eq_none_iff.mp hnone
      have hge := h.next
      omega
    obtain rfl : index = parts.length := by omega
    -- The receipts before the new one are where they were.
    have hget : ∀ i, i ≠ parts.length →
        (parts ++ [⟨parts.length, e.sha256 data, data.length, false, data⟩])[i]? = parts[i]? := by
      intro i hi
      rcases Nat.lt_or_ge i parts.length with hlt | hge
      · exact List.getElem?_append_left hlt
      · rw [List.getElem?_append_right hge, List.getElem?_eq_none hge, List.getElem?_eq_none]
        rw [List.length_singleton]
        omega
    have hlast : (parts ++ [(⟨parts.length, e.sha256 data, data.length, false, data⟩ : Part D)])[parts.length]? =
        some ⟨parts.length, e.sha256 data, data.length, false, data⟩ := List.getElem?_concat_length
    have hpos : 0 < data.length := List.length_pos_of_ne_nil hdata
    -- The fields of the invariant in their order, then the receipt.
    refine ⟨⟨?_, ?_, ?_, ?_, ?_, ?_, ?_, h.closed⟩, ?_,
      fun _ => ⟨by omega, ⟨parts.length, e.sha256 data, data.length, false, data⟩, ?_, rfl, rfl⟩⟩
    · intro i p hp
      rcases eq_or_ne i parts.length with rfl | hi
      · rw [hlast] at hp
        rw [← Option.some.inj hp]
      · exact h.at_index i p (hget i hi ▸ hp)
    · intro p hp
      rcases List.mem_append.mp hp with hp | hp
      · exact h.bytes p hp
      · rw [List.mem_singleton.mp hp]
        exact ⟨rfl, hpos⟩
    · intro p hp
      rcases List.mem_append.mp hp with hp | hp
      · exact h.verified p hp
      · rw [List.mem_singleton.mp hp]
        exact (decide_eq_false (by omega)).symm
    · rw [List.length_append]
      omega
    · rw [List.length_append, List.length_singleton]
      omega
    · rw [List.take_append_of_le_length (by omega)]
      exact h.received
    · have hsum := h.received
      rw [List.take_of_length_le (by omega)] at hsum
      have hone : sizeOf [(⟨parts.length, e.sha256 data, data.length, false, data⟩ : Part D)] = data.length := by
        simp [sizeOf]
      rw [sizeOf_append, hone]
      omega
    · intro i p hp
      have hlt := (List.getElem?_eq_some_iff.mp hp).1
      exact ⟨p, (List.getElem?_append_left hlt).trans hp, rfl, rfl⟩
    · exact hlast
  -- There is a receipt already, of the same bytes.
  · next p hsome =>
    split at hr
    · contradiction
    next hsame =>
    obtain ⟨rfl, rfl⟩ := Prod.mk.inj (Except.ok.inj hr)
    rw [not_or, not_not, not_not] at hsame
    exact ⟨h, .refl parts, fun _ => ⟨by omega, p, hsome, hsame⟩⟩

/-- The second transaction: the part is accepted, or was. -/
theorem PartsOk.accept (h : PartsOk e upload parts) {index : ℕ} {data : Bytes} {upload' : Upload}
    {parts' : List (Part D)} (hput : Receipted e upload parts index data)
    (ha : accept upload parts index data = .ok (upload', parts')) :
    upload.status = .receiving ∧ PartsOk e upload' parts' ∧ Extends parts parts' ∧
      upload' = { upload with
        next_part := upload'.next_part
        received_size := upload'.received_size } ∧ upload.next_part ≤ upload'.next_part := by
  unfold Resume.accept at ha
  split at ha
  · contradiction
  next hopen =>
  rw [not_not] at hopen
  refine ⟨hopen, ?_⟩
  split at ha
  -- The part is marked as verified, and the upload moves on to the next.
  · next hindex =>
    obtain ⟨rfl, rfl⟩ := Prod.mk.inj (Except.ok.inj ha)
    obtain ⟨-, p, hp, hsha, hsize⟩ := hput
    rw [hindex] at hp
    obtain ⟨hlt, -⟩ := List.getElem?_eq_some_iff.mp hp
    obtain ⟨mark, hmark⟩ : ∃ mark : Part D → Part D,
        mark = fun p => if p.part_index = index then { p with verified := true } else p := ⟨_, rfl⟩
    rw [← hmark]
    -- Only the mark changes.
    have hkeep : ∀ p, (mark p).part_index = p.part_index ∧ (mark p).sha256 = p.sha256 ∧
        (mark p).size = p.size ∧ (mark p).bytes = p.bytes := by
      intro p
      rw [hmark]
      dsimp only
      split <;> exact ⟨rfl, rfl, rfl, rfl⟩
    have hsizes : ∀ l : List (Part D), sizeOf (l.map mark) = sizeOf l := by
      intro l
      unfold sizeOf
      rw [List.map_map]
      exact congrArg List.sum (List.map_congr_left fun p _ => (hkeep p).2.2.1)
    have hmem : ∀ q ∈ parts.map mark, ∃ p ∈ parts, mark p = q := fun q hq => List.mem_map.mp hq
    -- The fields of the invariant in their order, then what the upload and the parts keep.
    refine ⟨⟨?_, ?_, ?_, ?_, ?_, ?_, ?_, ?_⟩, ?_, rfl, ?_⟩
    · intro i q hq
      rw [List.getElem?_map, Option.map_eq_some_iff] at hq
      obtain ⟨p, hp, rfl⟩ := hq
      rw [(hkeep p).1]
      exact h.at_index i p hp
    · intro q hq
      obtain ⟨p, hp, rfl⟩ := hmem q hq
      rw [(hkeep p).2.1, (hkeep p).2.2.1, (hkeep p).2.2.2]
      exact h.bytes p hp
    · intro q hq
      obtain ⟨p, hp, rfl⟩ := hmem q hq
      rw [(hkeep p).1, hmark]
      dsimp only
      have hverified := h.verified p hp
      split
      · exact (decide_eq_true (by omega)).symm
      · next hne =>
        rw [hverified, decide_eq_decide]
        omega
    · rw [List.length_map]
      exact hlt
    · rw [List.length_map]
      have hpending := h.pending
      dsimp only
      omega
    · dsimp only
      have hone : sizeOf [p] = p.size := by simp [sizeOf]
      rw [← List.map_take, hsizes, List.take_add_one, hp, Option.toList_some, sizeOf_append, hone, ← h.received, hsize]
    · rw [hsizes]
      exact h.fits
    · exact fun hclosed => absurd hopen hclosed
    · intro i p hp
      refine ⟨mark p, ?_, (hkeep p).2.1, (hkeep p).2.2.1⟩
      rw [List.getElem?_map, hp, Option.map_some]
    · exact Nat.le_succ _
  · obtain ⟨rfl, rfl⟩ := Prod.mk.inj (Except.ok.inj ha)
    exact ⟨h, .refl parts, rfl, le_rfl⟩

/-- `_parts` fetches the receipts in order, from the first one asked for. -/
theorem PartsOk.fetch (h : PartsOk e upload parts) (first count : ℕ) :
    fetchParts parts first count = (parts.drop first).take count := by
  have hbelow : ∀ p ∈ parts.take first, ¬ (decide (first ≤ p.part_index)) = true := by
    intro p hp
    obtain ⟨i, hi⟩ := List.getElem?_of_mem hp
    rw [List.getElem?_take] at hi
    split at hi
    · have hindex := h.at_index i p hi
      rw [decide_eq_true_eq]
      omega
    · contradiction
  have habove : ∀ p ∈ parts.drop first, decide (first ≤ p.part_index) = true := by
    intro p hp
    obtain ⟨i, hi⟩ := List.getElem?_of_mem hp
    rw [List.getElem?_drop] at hi
    have hindex := h.at_index _ p hi
    rw [decide_eq_true_eq]
    omega
  have hfilter : (parts.filter fun p => first ≤ p.part_index) = parts.drop first := by
    calc (parts.filter fun p => first ≤ p.part_index)
        = ((parts.take first).filter fun p => first ≤ p.part_index) ++
            (parts.drop first).filter fun p => first ≤ p.part_index := by
          rw [← List.filter_append, List.take_append_drop]
      _ = parts.drop first := by
          rw [List.filter_eq_nil_iff.mpr hbelow, List.filter_eq_self.mpr habove, List.nil_append]
  have hsorted : (parts.drop first).Pairwise fun p q => p.part_index ≤ q.part_index := by
    rw [List.pairwise_iff_getElem]
    intro i j hi hj hij
    rw [List.getElem_drop, List.getElem_drop]
    have hindexi := h.at_index (first + i) _ (List.getElem?_eq_getElem (by rw [List.length_drop] at hi; omega))
    have hindexj := h.at_index (first + j) _ (List.getElem?_eq_getElem (by rw [List.length_drop] at hj; omega))
    omega
  unfold fetchParts
  rw [hfilter, hsorted.insertionSort_eq]

end Parts

end JobScripts.Resume
