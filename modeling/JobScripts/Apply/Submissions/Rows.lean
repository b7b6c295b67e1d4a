import JobScripts.Apply.Submissions.Receipts

/-!
# What the table of fills keeps

A fill that was superseded is empty, and names a fill before it of the same person and form that was filled and
submitted (`RowsOk`). Each call of the server and the repair keep this, and the submission of a fill counts once.
-/

namespace JobScripts.Apply.Submissions

open Lib
open Fills (Field ResolvedField)

/-- A fill that another one may have been superseded by: earlier, of the same person and url, with fields, submitted. -/
structure Row.Holds (t r : Row) : Prop where
  earlier : t.id < r.id
  user : t.user_id = r.user_id
  url : t.url = r.url
  fields : t.fields ≠ []
  submitted : t.submitted_at ≠ none

/-- What every table of fills keeps. -/
structure RowsOk (rows : List Row) : Prop where
  ids : (rows.map Row.id).Nodup
  application : ∀ r ∈ rows, r.submitted_at = none → r.application_id = none
  superseded : ∀ r ∈ rows, ∀ b, r.superseded_by = some b →
    r.submitted_at = none ∧ r.fields = [] ∧ ∃ t ∈ rows, t.id = b ∧ t.Holds r

/-- The row later. -/
structure Row.Later (r r' : Row) : Prop where
  id : r'.id = r.id
  user : r'.user_id = r.user_id
  url : r'.url = r.url
  fields : r.fields ≠ [] → r'.fields ≠ []
  superseded : ∀ b, r.superseded_by = some b → r'.superseded_by = some b
  settled : r.submitted_at ≠ none → r'.submitted_at ≠ none ∨ r'.superseded_by ≠ none

/-- The table later. -/
def RowsLater (rows rows' : List Row) : Prop := ∀ r ∈ rows, ∃ r' ∈ rows', r.Later r'

/-- The submission of a fill is recorded, on it or on the one that it names. -/
def Settled (rows : List Row) (id : ℕ) : Prop :=
  ∃ r ∈ rows, r.id = id ∧ (r.submitted_at ≠ none ∨ r.superseded_by ≠ none)

/-- The submission of a fill counts once: on the fill, or on the one that it names. -/
def CountedOnce (rows : List Row) (id : ℕ) : Prop :=
  ∃! r, r ∈ rows ∧ r.submitted_at ≠ none ∧ (r.id = id ∨ ∃ fill ∈ rows, fill.id = id ∧ fill.superseded_by = some r.id)

section Rows

variable {rows rows' : List Row} {r : Row}

/-- A row is itself later. -/
theorem Row.Later.refl (r : Row) : r.Later r := ⟨rfl, rfl, rfl, fun h => h, fun _ h => h, fun h => .inl h⟩

/-- The table is itself later. -/
theorem RowsLater.refl (rows : List Row) : RowsLater rows rows := fun r hr => ⟨r, hr, .refl r⟩

/-- Later is transitive. -/
theorem Row.Later.trans {r' r'' : Row} (h : r.Later r') (h' : r'.Later r'') : r.Later r'' where
  id := h'.id.trans h.id
  user := h'.user.trans h.user
  url := h'.url.trans h.url
  fields hf := h'.fields (h.fields hf)
  superseded b hb := h'.superseded b (h.superseded b hb)
  settled hs := by
    rcases h.settled hs with hs | hs
    · exact h'.settled hs
    · obtain ⟨b, hb⟩ := Option.ne_none_iff_exists'.mp hs
      exact .inr (by rw [h'.superseded b hb]; nofun)

/-- Later is transitive on tables. -/
theorem RowsLater.trans {rows'' : List Row} (h : RowsLater rows rows') (h' : RowsLater rows' rows'') :
    RowsLater rows rows'' := by
  intro r hr
  obtain ⟨r', hr', hlater⟩ := h r hr
  obtain ⟨r'', hr'', hlater'⟩ := h' r' hr'
  exact ⟨r'', hr'', hlater.trans hlater'⟩

/-- A submission that is recorded stays so. -/
theorem Settled.later {id : ℕ} (h : Settled rows id) (hlater : RowsLater rows rows') : Settled rows' id := by
  obtain ⟨r, hr, hid, hsettled⟩ := h
  obtain ⟨r', hr', hr''⟩ := hlater r hr
  refine ⟨r', hr', hr''.id.trans hid, ?_⟩
  rcases hsettled with hsubmitted | hsuperseded
  · exact hr''.settled hsubmitted
  · obtain ⟨b, hb⟩ := Option.ne_none_iff_exists'.mp hsuperseded
    exact .inr (by rw [hr''.superseded b hb]; nofun)

/-- Rows with one id are one row. -/
theorem RowsOk.eq_of_id (h : RowsOk rows) {r r' : Row} (hr : r ∈ rows) (hr' : r' ∈ rows) (hid : r.id = r'.id) :
    r = r' := List.inj_on_of_nodup_map h.ids hr hr' hid

/-- A submission that is recorded counts once. -/
theorem RowsOk.countedOnce (h : RowsOk rows) {id : ℕ} (hid : Settled rows id) : CountedOnce rows id := by
  obtain ⟨fill, hfill, rfl, hsettled⟩ := hid
  have hself : ∀ f ∈ rows, f.id = fill.id → f = fill := fun f hf hid => h.eq_of_id hf hfill hid
  rcases hb : fill.superseded_by with _ | b
  · have hsubmitted : fill.submitted_at ≠ none := hsettled.resolve_right fun hne => hne hb
    refine ⟨fill, ⟨hfill, hsubmitted, .inl rfl⟩, ?_⟩
    rintro r ⟨hr, -, hid | ⟨f, hf, hid, hnamed⟩⟩
    · exact hself r hr hid
    · rw [hself f hf hid, hb] at hnamed
      contradiction
  · obtain ⟨hnone, -, t, ht, rfl, hold⟩ := h.superseded fill hfill b hb
    refine ⟨t, ⟨ht, hold.submitted, .inr ⟨fill, hfill, rfl, hb⟩⟩, ?_⟩
    rintro r ⟨hr, hsubmitted, hid | ⟨f, hf, hid, hnamed⟩⟩
    · -- The fill itself is not submitted.
      rw [hself r hr hid] at hsubmitted
      exact absurd hnone hsubmitted
    · rw [hself f hf hid, hb] at hnamed
      exact h.eq_of_id hr ht (Option.some.inj hnamed).symm

/-- The row of an id and a person, where ids are unique. -/
theorem find_row (hids : (rows.map Row.id).Nodup) (hr : r ∈ rows) :
    (rows.find? fun r' => r'.id = r.id && r'.user_id = r.user_id) = some r := by
  rcases hfind : rows.find? fun r' => r'.id = r.id && r'.user_id = r.user_id with _ | r'
  · have hnone := List.find?_eq_none.mp hfind r hr
    simp at hnone
  · have hprop := List.find?_some hfind
    rw [Bool.and_eq_true, decide_eq_true_eq] at hprop
    rw [hfind, List.inj_on_of_nodup_map hids (List.mem_of_find?_eq_some hfind) hr hprop.1]

/-- An update keeps the ids. -/
theorem map_id_update {id : ℕ} {write : Row → Row} (hwrite : ∀ r, (write r).id = r.id) :
    (update rows id write).map Row.id = rows.map Row.id := by
  unfold update
  rw [List.map_map]
  refine List.map_congr_left fun r _ => ?_
  rw [Function.comp_apply]
  split
  · exact hwrite r
  · rfl

/-- The rows after an update. -/
theorem mem_update {id : ℕ} {write : Row → Row} {r' : Row} :
    r' ∈ update rows id write ↔ ∃ r ∈ rows, r' = if r.id = id then write r else r := by
  unfold update
  rw [List.mem_map]
  exact ⟨fun ⟨r, hr, heq⟩ => ⟨r, hr, heq.symm⟩, fun ⟨r, hr, heq⟩ => ⟨r, hr, heq.symm⟩⟩

/-- The row that is updated. -/
theorem mem_update_self {write : Row → Row} (hr : r ∈ rows) : write r ∈ update rows r.id write :=
  mem_update.mpr ⟨r, hr, (if_pos rfl).symm⟩

/-- A row that is not updated. -/
theorem mem_update_of_ne {id : ℕ} {write : Row → Row} (hr : r ∈ rows) (hne : r.id ≠ id) : r ∈ update rows id write :=
  mem_update.mpr ⟨r, hr, (if_neg hne).symm⟩

/-- An update of one row: it is later than it was, keeps what others rely on, and may name a fill that holds the
submission. -/
theorem RowsOk.written (h : RowsOk rows) (write : Row → Row) (hr : r ∈ rows) (hlater : r.Later (write r))
    (hsubmitted : r.fields ≠ [] → r.submitted_at ≠ none → (write r).submitted_at ≠ none)
    (happlication : (write r).submitted_at = none → (write r).application_id = none)
    (hsuperseded : ∀ b, (write r).superseded_by = some b →
      (write r).submitted_at = none ∧ (write r).fields = [] ∧ ∃ t ∈ rows, t.id = b ∧ t.Holds r) :
    RowsOk (update rows r.id write) ∧ RowsLater rows (update rows r.id write) := by
  have hother : ∀ r' ∈ rows, r'.id = r.id → r' = r := fun r' hr' hid => h.eq_of_id hr' hr hid
  -- A fill that held a submission holds it still.
  have hholds : ∀ t ∈ rows, ∀ r', t.Holds r' → ∃ t' ∈ update rows r.id write, t'.id = t.id ∧ t'.Holds r' := by
    intro t ht r' hold
    rcases eq_or_ne t.id r.id with hid | hne
    · obtain rfl := hother t ht hid
      exact ⟨write t, mem_update_self ht, hlater.id, by rw [hlater.id]; exact hold.earlier, hlater.user.trans hold.user,
        hlater.url.trans hold.url, hlater.fields hold.fields, hsubmitted hold.fields hold.submitted⟩
    · exact ⟨t, mem_update_of_ne ht hne, rfl, hold⟩
  refine ⟨⟨?_, ?_, ?_⟩, ?_⟩
  · have hids : (update rows r.id write).map Row.id = rows.map Row.id := by
      unfold update
      rw [List.map_map]
      refine List.map_congr_left fun r' hr' => ?_
      rw [Function.comp_apply]
      split
      · next hid =>
        rw [hother r' hr' hid]
        exact hlater.id
      · rfl
    rw [hids]
    exact h.ids
  · intro r' hr'
    obtain ⟨r₀, hr₀, rfl⟩ := mem_update.mp hr'
    split
    · next hid =>
      rw [hother r₀ hr₀ hid]
      exact happlication
    · exact h.application r₀ hr₀
  · intro r' hr' b
    obtain ⟨r₀, hr₀, rfl⟩ := mem_update.mp hr'
    split
    · next hid =>
      rw [hother r₀ hr₀ hid]
      intro hb
      obtain ⟨hnone, hfields, t, ht, htb, hold⟩ := hsuperseded b hb
      obtain ⟨t', ht', hid', hold'⟩ := hholds t ht r hold
      refine ⟨hnone, hfields, t', ht', hid'.trans htb, ?_, ?_, ?_, hold'.fields, hold'.submitted⟩
      · rw [hlater.id]
        exact hold'.earlier
      · exact hold'.user.trans hlater.user.symm
      · exact hold'.url.trans hlater.url.symm
    · intro hb
      obtain ⟨hnone, hfields, t, ht, htb, hold⟩ := h.superseded r₀ hr₀ b hb
      obtain ⟨t', ht', hid', hold'⟩ := hholds t ht r₀ hold
      exact ⟨hnone, hfields, t', ht', hid'.trans htb, hold'⟩
  · intro r₀ hr₀
    rcases eq_or_ne r₀.id r.id with hid | hne
    · obtain rfl := hother r₀ hr₀ hid
      exact ⟨write r₀, mem_update_self hr₀, hlater⟩
    · exact ⟨r₀, mem_update_of_ne hr₀ hne, .refl r₀⟩

/-- A fill with fields is not superseded. -/
theorem RowsOk.not_superseded (h : RowsOk rows) (hr : r ∈ rows) (hfields : r.fields ≠ []) : r.superseded_by = none := by
  rcases hb : r.superseded_by with _ | b
  · rfl
  · exact absurd (h.superseded r hr b hb).2.1 hfields

/-- The row that a search finds is one of those that it looks for. -/
theorem mem_of_newest {l : List Row} (h : newest l = some r) : r ∈ l := List.argmax_mem (Option.mem_def.mpr h)

/-- The sibling that is found. -/
theorem filledSibling_spec {seen : ℕ → Bool} {row sibling : Row} (h : filledSibling rows seen row = some sibling) :
    sibling ∈ rows ∧ sibling.id < row.id ∧ sibling.user_id = row.user_id ∧ sibling.url = row.url ∧
      sibling.submitted_at = none ∧ sibling.fields ≠ [] := by
  obtain ⟨hmem, hfills⟩ := List.mem_filter.mp (mem_of_newest h)
  simp only [Row.fillsFor, Bool.and_eq_true, decide_eq_true_eq] at hfills
  obtain ⟨⟨⟨⟨⟨huser, hurl⟩, hid⟩, hopen⟩, hfields⟩, -⟩ := hfills
  exact ⟨hmem, hid, huser, hurl, hopen, hfields⟩

/-- An empty fill has none of the fields of a request that asks for some. -/
theorem holds_nil {request : List ResolvedField} (h : request ≠ []) : Fills.holds [] request = false := by
  rcases request with _ | ⟨f, request⟩
  · contradiction
  · rfl

/-- Two updates of different rows do not interfere. -/
theorem update_comm {a b : ℕ} (hne : a ≠ b) {f g : Row → Row} (hf : ∀ r, (f r).id = r.id) (hg : ∀ r, (g r).id = r.id) :
    update (update rows a f) b g = update (update rows b g) a f := by
  unfold update
  rw [List.map_map, List.map_map]
  refine List.map_congr_left fun r _ => ?_
  dsimp only [Function.comp_apply]
  by_cases ha : r.id = a
  · have hb : r.id ≠ b := fun hb => hne (ha.symm.trans hb)
    rw [if_pos ha, if_neg hb, if_pos ha, if_neg (by rw [hf]; exact hb)]
  · rw [if_neg ha]
    by_cases hb : r.id = b
    · rw [if_pos hb, if_neg (by rw [hg]; exact ha)]
    · rw [if_neg hb, if_neg ha]

/-- Fields of a request are added to a fill that is not superseded. -/
theorem RowsOk.merge (h : RowsOk rows) (hr : r ∈ rows) (hnot : r.superseded_by = none) (request : List ResolvedField) :
    RowsOk (update rows r.id (Row.merge request)) ∧ RowsLater rows (update rows r.id (Row.merge request)) := by
  refine h.written (Row.merge request) hr ⟨rfl, rfl, rfl, ?_, fun _ hb => hb, fun hs => .inl hs⟩ (fun _ hs => hs) (h.application r hr) ?_
  · intro hfields hnil
    exact hfields (List.append_eq_nil_iff.mp hnil).1
  · intro b hb
    exact absurd (hnot.symm.trans hb) nofun

/-- The fill that `resolve_form` takes is not superseded. -/
theorem RowsOk.openFill (h : RowsOk rows) {u : ℕ} {c : Resolve} (hopen : c.openFill rows u = some r) :
    r ∈ rows ∧ r.superseded_by = none := by
  unfold Resolve.openFill at hopen
  split at hopen
  · have hprop := List.find?_some hopen
    simp only [Bool.and_eq_true, decide_eq_true_eq] at hprop
    exact ⟨List.mem_of_find?_eq_some hopen, hprop.1.2⟩
  · split at hopen
    · next hfields =>
      obtain ⟨hmem, hprop⟩ := List.mem_filter.mp (mem_of_newest hopen)
      simp only [Bool.and_eq_true, decide_eq_true_eq] at hprop hfields
      refine ⟨hmem, h.not_superseded hmem fun hnil => ?_⟩
      -- The query asks for fields, and a superseded fill has none.
      have hholds := hprop.1.2
      rw [hnil, holds_nil hfields.2] at hholds
      contradiction
    · contradiction

/-- `resolve_form` keeps the table. -/
theorem Server.resolveForm_spec {srv srv' : Server} {u id : ℕ} {c : Resolve} (h : RowsOk srv.rows)
    (hres : srv.resolveForm u c = some (srv', id)) :
    RowsOk srv'.rows ∧ RowsLater srv.rows srv'.rows ∧ srv'.applications = srv.applications := by
  unfold Server.resolveForm at hres
  split at hres
  · next r hopen =>
    obtain ⟨rfl, -⟩ := Prod.mk.inj (Option.some.inj hres)
    obtain ⟨hmem, hnot⟩ := h.openFill hopen
    obtain ⟨hok, hlater⟩ := h.merge hmem hnot c.fields
    exact ⟨hok, hlater, rfl⟩
  · split at hres
    · contradiction
    next hfresh =>
    obtain ⟨rfl, -⟩ := Prod.mk.inj (Option.some.inj hres)
    rw [List.any_eq_true, not_exists] at hfresh
    refine ⟨⟨?_, ?_, ?_⟩, ?_, rfl⟩
    · rw [List.map_append, List.map_singleton, List.nodup_append]
      refine ⟨h.ids, List.nodup_singleton _, fun a ha b hb => ?_⟩
      obtain ⟨r, hr, rfl⟩ := List.mem_map.mp ha
      rw [List.mem_singleton.mp hb]
      exact fun hid => hfresh r ⟨hr, decide_eq_true hid⟩
    · intro r hr
      rcases List.mem_append.mp hr with hr | hr
      · exact h.application r hr
      · rw [List.mem_singleton.mp hr]
        exact fun _ => rfl
    · intro r hr b hb
      rcases List.mem_append.mp hr with hr | hr
      · obtain ⟨hnone, hfields, t, ht, hrest⟩ := h.superseded r hr b hb
        exact ⟨hnone, hfields, t, List.mem_append_left _ ht, hrest⟩
      · rw [List.mem_singleton.mp hr] at hb
        contradiction
    · exact fun r hr => ⟨r, List.mem_append_left _ hr, .refl r⟩

/-- The submission is written on an open fill that is not superseded. -/
theorem RowsOk.submit (h : RowsOk rows) (hr : r ∈ rows) (hopen : r.submitted_at = none)
    (hnot : r.superseded_by = none) (c : Submit) (application_id : ℕ) :
    RowsOk (update rows r.id (Row.submit c application_id)) ∧
      RowsLater rows (update rows r.id (Row.submit c application_id)) ∧ (r.submit c application_id).submitted_at ≠ none ∧
      (r.fields ≠ [] → (r.submit c application_id).fields ≠ []) := by
  have hwritten : Fills.submit r.toFill c.finals c.names c.now =
      { r.toFill with
        fields := r.fields.map (Field.submitted c.finals c.names)
        submitted_at := some c.now } := by
    unfold Fills.submit
    rw [if_neg (not_not.mpr hopen)]
  have hsome : (r.submit c application_id).submitted_at ≠ none := by
    unfold Row.submit
    rw [hwritten]
    nofun
  have hfields : r.fields ≠ [] → (r.submit c application_id).fields ≠ [] := by
    unfold Row.submit
    rw [hwritten]
    exact fun hne hnil => hne (List.map_eq_nil_iff.mp hnil)
  have hsame : (r.submit c application_id).url = r.url ∧ (r.submit c application_id).superseded_by = r.superseded_by := by
    unfold Row.submit
    rw [hwritten]
    exact ⟨rfl, rfl⟩
  obtain ⟨hok, hlater⟩ := h.written (Row.submit c application_id) hr
    ⟨rfl, rfl, hsame.1, hfields, fun b hb => hsame.2.trans hb, fun _ => .inl hsome⟩ (fun _ _ => hsome)
    (fun hnone => absurd hnone hsome) fun b hb => absurd (hnot.symm.trans (hsame.2.symm.trans hb)) nofun
  exact ⟨hok, hlater, hsome, hfields⟩

/-- The application of a submission is one of the person's, or a new one of the attempt. -/
theorem record_spec {applications applications' : List Application} {u new_id application_id : ℕ}
    {job_id attempt : Option ℕ}
    (h : record applications u job_id attempt new_id = some (applications', application_id)) :
    applications' = applications ∨ ∃ a, applications' = applications ++ [a] ∧ a.attempt = attempt := by
  unfold record at h
  split at h
  · exact .inl (Prod.mk.inj (Option.some.inj h)).1.symm
  · split at h
    · contradiction
    · exact .inr ⟨_, (Prod.mk.inj (Option.some.inj h)).1.symm, rfl⟩

/-- Where a submit records: on the fill that was named before, on the fill itself, or on a sibling that it now names. -/
theorem target_spec (h : RowsOk rows) {fill : Row} (hfill : fill ∈ rows) (seen : ℕ → Bool) :
    (∃ t ∈ rows, fill.superseded_by = some t.id ∧ t.Holds fill ∧ target rows seen fill = (rows, t.id)) ∨
      (fill.superseded_by = none ∧ target rows seen fill = (rows, fill.id)) ∨
      (fill.superseded_by = none ∧ fill.submitted_at = none ∧ fill.fields = [] ∧
        ∃ sibling, filledSibling rows seen fill = some sibling ∧
          target rows seen fill = (update rows fill.id (Row.supersede sibling.id), sibling.id)) := by
  rcases hb : fill.superseded_by with _ | b
  · by_cases hself : fill.submitted_at ≠ none ∨ fill.fields ≠ []
    · exact .inr (.inl ⟨rfl, by rw [target, hb]; exact if_pos hself⟩)
    · have hboth := not_or.mp hself
      rcases hsibling : filledSibling rows seen fill with _ | sibling
      · refine .inr (.inl ⟨rfl, ?_⟩)
        rw [target, hb]
        dsimp only
        rw [if_neg hself, hsibling]
      · refine .inr (.inr ⟨rfl, not_not.mp hboth.1, not_not.mp hboth.2, sibling, rfl, ?_⟩)
        rw [target, hb]
        dsimp only
        rw [if_neg hself, hsibling]
  · obtain ⟨-, -, t, ht, rfl, hold⟩ := h.superseded fill hfill b hb
    exact .inl ⟨t, ht, rfl, hold, by rw [target, hb]⟩

/-- An empty fill names the sibling that its submission is recorded on. -/
theorem RowsOk.moved (h : RowsOk rows) {fill sibling : Row} {seen : ℕ → Bool} (hfill : fill ∈ rows)
    (hopen : fill.submitted_at = none) (hempty : fill.fields = []) (hnot : fill.superseded_by = none)
    (hsibling : filledSibling rows seen fill = some sibling) (c : Submit) (application_id : ℕ) :
    RowsOk (update (update rows fill.id (Row.supersede sibling.id)) sibling.id (Row.submit c application_id)) ∧
      RowsLater rows
        (update (update rows fill.id (Row.supersede sibling.id)) sibling.id (Row.submit c application_id)) ∧
      fill.supersede sibling.id ∈
        update (update rows fill.id (Row.supersede sibling.id)) sibling.id (Row.submit c application_id) := by
  obtain ⟨hmem, hlt, huser, hurl, hsopen, hfields⟩ := filledSibling_spec hsibling
  have hne : fill.id ≠ sibling.id := by omega
  have hcomm : update (update rows fill.id (Row.supersede sibling.id)) sibling.id (Row.submit c application_id) =
      update (update rows sibling.id (Row.submit c application_id)) fill.id (Row.supersede sibling.id) :=
    update_comm hne (fun _ => rfl) fun _ => rfl
  rw [hcomm]
  obtain ⟨hok, hlater, hsome, hfields'⟩ := h.submit hmem hsopen (h.not_superseded hmem hfields) c application_id
  have hfill' : fill ∈ update rows sibling.id (Row.submit c application_id) := mem_update_of_ne hfill hne
  have hurl' : (sibling.submit c application_id).url = sibling.url := by
    unfold Row.submit Fills.submit
    split <;> rfl
  obtain ⟨hok', hlater'⟩ := hok.written (Row.supersede sibling.id) hfill'
    ⟨rfl, rfl, rfl, fun hne' => hne', fun b hb => absurd (hnot.symm.trans hb) nofun, fun hs => .inl hs⟩
    (fun _ hs => hs) (fun _ => h.application fill hfill hopen) fun b hb => by
      obtain rfl := Option.some.inj hb
      refine ⟨hopen, hempty, sibling.submit c application_id, mem_update_self hmem, rfl, ?_⟩
      exact ⟨hlt, huser, hurl'.trans hurl, hfields' hfields, hsome⟩
  exact ⟨hok', hlater.trans hlater', mem_update_self hfill'⟩

/-- `fill_submitted`: the submission of the fill is recorded after it, and nothing is written where it was before. -/
theorem Server.fillSubmitted_spec {srv srv' : Server} {u : ℕ} {attempt : Option ℕ} {c : Submit} {recorded : Bool}
    (h : RowsOk srv.rows) (hsub : srv.fillSubmitted u attempt c = some (srv', recorded)) :
    RowsOk srv'.rows ∧ RowsLater srv.rows srv'.rows ∧ Settled srv'.rows c.fill_id ∧
      (recorded = false → srv' = srv) ∧ (Settled srv.rows c.fill_id → recorded = false) ∧
      (srv'.applications = srv.applications ∨
        recorded = true ∧ ∃ a, srv'.applications = srv.applications ++ [a] ∧ a.attempt = attempt) := by
  unfold Server.fillSubmitted at hsub
  split at hsub
  · contradiction
  next fill hfind =>
  have hfill := List.mem_of_find?_eq_some hfind
  have hprop := List.find?_some hfind
  rw [Bool.and_eq_true, decide_eq_true_eq, decide_eq_true_eq] at hprop
  obtain ⟨hid, rfl⟩ := hprop
  -- What is recorded for the fill is on it, or on the one that it names.
  have hself : Settled srv.rows c.fill_id → fill.submitted_at ≠ none ∨ fill.superseded_by ≠ none := by
    rintro ⟨r, hr, hrid, hsettled⟩
    rwa [h.eq_of_id hr hfill (hrid.trans hid.symm)] at hsettled
  have happlications : ∀ {applications' : List Application} {job_id : Option ℕ} {application_id : ℕ},
      record srv.applications fill.user_id job_id attempt c.new_id = some (applications', application_id) →
        applications' = srv.applications ∨
          true = true ∧ ∃ a, applications' = srv.applications ++ [a] ∧ a.attempt = attempt := by
    intro applications' job_id application_id hrecord
    exact (record_spec hrecord).imp_right fun hnew => ⟨rfl, hnew⟩
  rcases target_spec h hfill c.seen with ⟨t, ht, hb, hold, htarget⟩ | ⟨hnot, htarget⟩ |
    ⟨hnot, hopen, hempty, sibling, hsibling, htarget⟩ <;> rw [htarget] at hsub <;> dsimp only at hsub
  · have htfind := find_row h.ids ht
    rw [hold.user] at htfind
    rw [htfind] at hsub
    dsimp only at hsub
    rw [if_pos hold.submitted] at hsub
    obtain ⟨rfl, rfl⟩ := Prod.mk.inj (Option.some.inj hsub)
    exact ⟨h, .refl _, ⟨fill, hfill, hid, .inr (by rw [hb]; nofun)⟩, fun _ => rfl, fun _ => rfl, .inl rfl⟩
  · rw [find_row h.ids hfill] at hsub
    dsimp only at hsub
    split at hsub
    · next hsubmitted =>
      obtain ⟨rfl, rfl⟩ := Prod.mk.inj (Option.some.inj hsub)
      exact ⟨h, .refl _, ⟨fill, hfill, hid, .inl hsubmitted⟩, fun _ => rfl, fun _ => rfl, .inl rfl⟩
    · next hopen =>
      rw [not_not] at hopen
      obtain ⟨⟨applications, application_id⟩, hrecord, heq⟩ := Option.map_eq_some_iff.mp hsub
      obtain ⟨rfl, rfl⟩ := Prod.mk.inj heq
      obtain ⟨hok, hlater, hsome, -⟩ := h.submit hfill hopen hnot c application_id
      refine ⟨hok, hlater, ⟨_, mem_update_self hfill, hid, .inl hsome⟩, nofun, fun hsettled => ?_,
        happlications hrecord⟩
      rcases hself hsettled with hs | hs
      · exact absurd hopen hs
      · exact absurd hnot hs
  · obtain ⟨hmem, hlt, huser, -, hsopen, -⟩ := filledSibling_spec hsibling
    -- The sibling is as it was: the mark is on the empty fill.
    have hsfind : ((update srv.rows fill.id (Row.supersede sibling.id)).find? fun r =>
        r.id = sibling.id && r.user_id = fill.user_id) = some sibling := by
      have hids := (map_id_update fun _ => rfl : (update srv.rows fill.id (Row.supersede sibling.id)).map Row.id = _)
      rw [← huser]
      exact find_row (hids ▸ h.ids) (mem_update_of_ne hmem (by omega))
    rw [hsfind] at hsub
    dsimp only at hsub
    rw [if_neg (not_not.mpr hsopen)] at hsub
    obtain ⟨⟨applications, application_id⟩, hrecord, heq⟩ := Option.map_eq_some_iff.mp hsub
    obtain ⟨rfl, rfl⟩ := Prod.mk.inj heq
    obtain ⟨hok, hlater, hmarked⟩ := h.moved hfill hopen hempty hnot hsibling c application_id
    refine ⟨hok, hlater, ⟨_, hmarked, hid, .inr nofun⟩, nofun, fun hsettled => ?_, happlications hrecord⟩
    rcases hself hsettled with hs | hs
    · exact absurd hopen hs
    · exact absurd hnot hs

/-! ## Repairs -/

/-- How many submissions the readers count. -/
def submissions (rows : List Row) : ℕ := rows.countP fun r => r.submitted_at ≠ none

/-- An update of one row adds or takes away at most one submission. -/
theorem submissions_update (hids : (rows.map Row.id).Nodup) (hr : r ∈ rows) (write : Row → Row) :
    submissions (update rows r.id write) + (if r.submitted_at ≠ none then 1 else 0) =
      submissions rows + if (write r).submitted_at ≠ none then 1 else 0 := by
  unfold submissions update
  induction rows with
  | nil => contradiction
  | cons r₀ rows ih =>
    rw [List.map_cons, List.nodup_cons] at hids
    rw [List.map_cons, List.countP_cons, List.countP_cons]
    rcases List.mem_cons.mp hr with rfl | hr
    · -- The other rows have other ids.
      have hrest : (rows.map fun r' => if r'.id = r.id then write r' else r') = rows := by
        refine (List.map_congr_left fun r' hr' => ?_).trans (List.map_id' rows)
        exact if_neg fun hid => hids.1 (List.mem_map.mpr ⟨r', hr', hid⟩)
      rw [hrest, if_pos rfl]
      simp only [decide_eq_true_eq]
      omega
    · have hne : r₀.id ≠ r.id := fun hid => hids.1 (hid ▸ List.mem_map_of_mem hr)
      have hrest := ih hids.2 hr
      rw [if_neg hne]
      omega

/-- No open fill can take over the submission of the row. -/
def Alone (rows : List Row) (row : Row) : Prop := ∀ r ∈ rows, r.fillsFor row = false

/-- A search that sees every row finds a sibling where there is one. -/
theorem alone_of_filledSibling {seen : ℕ → Bool} (hseen : ∀ id, seen id = true) {row : Row}
    (h : filledSibling rows seen row = none) : Alone rows row := by
  unfold filledSibling newest at h
  rw [List.argmax_eq_none, List.filter_eq_nil_iff] at h
  intro r hr
  have hnot := h r hr
  rw [hseen, Bool.and_true] at hnot
  exact Bool.eq_false_iff.mpr hnot

/-- And none where there is none. -/
theorem filledSibling_of_alone {seen : ℕ → Bool} {row : Row} (h : Alone rows row) :
    filledSibling rows seen row = none := by
  unfold filledSibling newest
  rw [List.argmax_eq_none, List.filter_eq_nil_iff]
  intro r hr
  rw [h r hr]
  nofun

/-- What `repair` has done, with the empty submissions that it still goes through. `full` says that it sees all. -/
structure Repairing (full : Prop) (rows todo rows' : List Row) : Prop where
  ok : RowsOk rows'
  later : RowsLater rows rows'
  count : submissions rows' = submissions rows
  left : ∀ e ∈ todo, e ∈ rows' ∧ e.isEmptySubmission = true
  old : ∀ r ∈ rows', r.isEmptySubmission = true → r ∈ rows
  alone : full → ∀ r ∈ rows', r.isEmptySubmission = true → r ∈ todo ∨ Alone rows' r

/-- What `repair` does with one empty submission. -/
theorem Repairing.one {full : Prop} {seen : ℕ → Bool} (hseen : full → ∀ id, seen id = true) {empty : Row}
    {todo rows' : List Row} (moved : List (ℕ × ℕ)) (h : Repairing full rows (empty :: todo) rows')
    (hnot : empty ∉ todo) : Repairing full rows todo (repairOne seen (rows', moved) empty).1 := by
  obtain ⟨hempty, hsubmission⟩ := h.left empty List.mem_cons_self
  simp only [Row.isEmptySubmission, Bool.and_eq_true, decide_eq_true_eq] at hsubmission
  obtain ⟨⟨hsubmitted, hsuperseded⟩, hfields⟩ := hsubmission
  unfold repairOne
  dsimp only
  -- No sibling with fields: the row stays, and is alone where everything was seen.
  split
  · next hnone =>
    refine ⟨h.ok, h.later, h.count, fun e he => h.left e (List.mem_cons_of_mem _ he), h.old, fun hfull r hr hr' => ?_⟩
    rcases h.alone hfull r hr hr' with htodo | halone
    · rcases List.mem_cons.mp htodo with rfl | htodo
      · exact .inr (alone_of_filledSibling (hseen hfull) hnone)
      · exact .inl htodo
    · exact .inr halone
  -- The sibling takes the submission over, then the empty row gives it up.
  · next sibling hsibling =>
    obtain ⟨hmem, hlt, huser, hurl, hsopen, hsfields⟩ := filledSibling_spec hsibling
    have hne : empty.id ≠ sibling.id := by omega
    have hsnot := h.ok.not_superseded hmem hsfields
    -- The first write.
    obtain ⟨hok, hlater⟩ := h.ok.written (Row.takeOver empty) hmem
      ⟨rfl, rfl, rfl, fun hf => hf, fun _ hb => hb, fun hs => absurd hsopen hs⟩ (fun _ _ => hsubmitted)
      (fun hnone => absurd hnone hsubmitted) fun b hb => absurd (hsnot.symm.trans hb) nofun
    have hempty' : empty ∈ update rows' sibling.id (Row.takeOver empty) := mem_update_of_ne hempty hne
    -- The second, at a row that the first has left as it was.
    obtain ⟨hok', hlater'⟩ := hok.written (Row.giveUp sibling.id) hempty'
      ⟨rfl, rfl, rfl, fun hf => hf, fun b hb => absurd (hsuperseded.symm.trans hb) nofun, fun _ => .inr nofun⟩
      (fun hf => absurd hfields hf) (fun _ => rfl) fun b hb => by
        obtain rfl := Option.some.inj hb
        exact ⟨rfl, hfields, _, mem_update_self hmem, rfl, hlt, huser, hurl, hsfields, hsubmitted⟩
    -- The rows after both writes: the two that were written, and the others.
    have hrows : ∀ r ∈ update (update rows' sibling.id (Row.takeOver empty)) empty.id (Row.giveUp sibling.id),
        r = empty.giveUp sibling.id ∨ r = empty.takeOver sibling ∨
          r ∈ rows' ∧ r.id ≠ empty.id ∧ r.id ≠ sibling.id := by
      intro r hr
      obtain ⟨r', hr', rfl⟩ := mem_update.mp hr
      obtain ⟨r₀, hr₀, rfl⟩ := mem_update.mp hr'
      by_cases hs : r₀.id = sibling.id
      · obtain rfl := h.ok.eq_of_id hr₀ hmem hs
        rw [if_pos rfl, if_neg (show (empty.takeOver r₀).id ≠ empty.id from hne.symm)]
        exact .inr (.inl rfl)
      · rw [if_neg hs]
        by_cases he : r₀.id = empty.id
        · obtain rfl := h.ok.eq_of_id hr₀ hempty he
          rw [if_pos rfl]
          exact .inl rfl
        · rw [if_neg he]
          exact .inr (.inr ⟨hr₀, he, hs⟩)
    -- An empty submission that is left is none of the two.
    have hkept : ∀ r ∈ update (update rows' sibling.id (Row.takeOver empty)) empty.id (Row.giveUp sibling.id),
        r.isEmptySubmission = true → r ∈ rows' ∧ r.id ≠ empty.id := by
      intro r hr hr'
      simp only [Row.isEmptySubmission, Bool.and_eq_true, decide_eq_true_eq] at hr'
      rcases hrows r hr with rfl | rfl | ⟨hr, hid, -⟩
      · exact absurd rfl hr'.1.1
      · exact absurd hr'.2 hsfields
      · exact ⟨hr, hid⟩
    -- One submission was taken over and one given up.
    refine ⟨hok', (h.later.trans hlater).trans hlater', ?_, ?_, ?_, ?_⟩
    · have hfirst := submissions_update h.ok.ids hmem (Row.takeOver empty)
      have hsecond := submissions_update hok.ids hempty' (Row.giveUp sibling.id)
      rw [if_neg (not_not.mpr hsopen), if_pos (show (empty.takeOver sibling).submitted_at ≠ none from hsubmitted)]
        at hfirst
      rw [if_pos hsubmitted, if_neg (not_not.mpr (show (empty.giveUp sibling.id).submitted_at = none from rfl))]
        at hsecond
      have hcount := h.count
      dsimp only
      omega
    -- The empty submissions still to come are none of the two.
    · intro e he
      obtain ⟨hmem', hsub⟩ := h.left e (List.mem_cons_of_mem _ he)
      have hene : e.id ≠ empty.id := fun hid => hnot (h.ok.eq_of_id hmem' hempty hid ▸ he)
      have hesne : e.id ≠ sibling.id := by
        intro hid
        obtain rfl := h.ok.eq_of_id hmem' hmem hid
        simp only [Row.isEmptySubmission, Bool.and_eq_true, decide_eq_true_eq] at hsub
        exact hsfields hsub.2
      exact ⟨mem_update_of_ne (mem_update_of_ne hmem' hesne) hene, hsub⟩
    · exact fun r hr hr' => h.old r (hkept r hr hr').1 hr'
    · intro hfull r hr hr'
      obtain ⟨hr₀, hid⟩ := hkept r hr hr'
      rcases h.alone hfull r hr₀ hr' with htodo | halone
      · rcases List.mem_cons.mp htodo with rfl | htodo
        · exact absurd rfl hid
        · exact .inl htodo
      · -- What was written is submitted, or has no fields.
        refine .inr fun r' hr'' => ?_
        rcases hrows r' hr'' with rfl | rfl | ⟨hr₁, -, -⟩
        · simp [Row.fillsFor, Row.giveUp, hfields]
        · simp [Row.fillsFor, Row.takeOver, hsubmitted]
        · exact halone r' hr₁

/-- What `repair` does with all of them. -/
theorem Repairing.foldl {full : Prop} {seen : ℕ → Bool} (hseen : full → ∀ id, seen id = true) :
    ∀ {todo rows' : List Row} (moved : List (ℕ × ℕ)), Repairing full rows todo rows' → todo.Nodup →
      Repairing full rows [] (todo.foldl (repairOne seen) (rows', moved)).1
  | [], _, _, h, _ => h
  | empty :: todo, rows', moved, h, hnodup => by
    obtain ⟨hnot, hnodup⟩ := List.nodup_cons.mp hnodup
    rw [List.foldl_cons]
    exact (h.one hseen moved hnot).foldl hseen _ hnodup

/-- The rows that `repair` goes through are the empty submissions that it sees. -/
theorem mem_empties {listed : ℕ → Bool} : r ∈ empties rows listed ↔
    r ∈ rows ∧ r.isEmptySubmission = true ∧ listed r.id = true := by
  rw [empties, List.mem_insertionSort, List.mem_filter, Bool.and_eq_true]

/-- `repair` keeps the table and the number of submissions, whatever its statements see. Where they see all, no empty
submission is left that an open fill could take over. -/
theorem RowsOk.repairing (h : RowsOk rows) (listed seen : ℕ → Bool) :
    Repairing ((∀ id, listed id = true) ∧ ∀ id, seen id = true) rows [] (repairSeeing listed seen rows).1 := by
  refine Repairing.foldl And.right [] ⟨h, .refl _, rfl, fun e he => ?_, fun r hr _ => hr, fun hfull r hr hr' => ?_⟩ ?_
  · obtain ⟨hmem, hempty, -⟩ := mem_empties.mp he
    exact ⟨hmem, hempty⟩
  · exact .inl (mem_empties.mpr ⟨hr, hr', hfull.1 r.id⟩)
  · rw [empties, (List.perm_insertionSort _ _).nodup_iff]
    exact (List.Nodup.of_map Row.id h.ids).filter _

/-- `repair` twice is `repair` once. -/
theorem RowsOk.repair_repair (h : RowsOk rows) : repair (repair rows).1 = ((repair rows).1, []) := by
  have hdone := h.repairing (fun _ => true) fun _ => true
  have hnone : ∀ (todo : List Row) (moved : List (ℕ × ℕ)), (∀ e ∈ todo, Alone (repair rows).1 e) →
      todo.foldl (repairOne fun _ => true) ((repair rows).1, moved) = ((repair rows).1, moved) := by
    intro todo
    induction todo with
    | nil => exact fun _ _ => rfl
    | cons e todo ih =>
      intro moved halone
      rw [List.foldl_cons, repairOne]
      dsimp only
      rw [filledSibling_of_alone (halone e List.mem_cons_self)]
      exact ih moved fun e' he' => halone e' (List.mem_cons_of_mem _ he')
  refine hnone _ [] fun e he => ?_
  obtain ⟨hmem, hempty, -⟩ := mem_empties.mp he
  rcases hdone.alone ⟨fun _ => rfl, fun _ => rfl⟩ e hmem hempty with hnil | halone
  · exact absurd hnil List.not_mem_nil
  · exact halone

/-- `track_fill` names the posting of a fill. -/
theorem RowsOk.track (h : RowsOk rows) (id job_id : ℕ) :
    RowsOk (update rows id fun r => { r with toFill := { r.toFill with job_id := some job_id } }) ∧
      RowsLater rows (update rows id fun r => { r with toFill := { r.toFill with job_id := some job_id } }) := by
  by_cases hmem : ∃ r ∈ rows, r.id = id
  · obtain ⟨r, hr, rfl⟩ := hmem
    refine h.written _ hr ⟨rfl, rfl, rfl, fun hf => hf, fun _ hb => hb, fun hs => .inl hs⟩ (fun _ hs => hs)
      (h.application r hr) fun b hb => ?_
    exact h.superseded r hr b hb
  · have hsame : (update rows id fun r => { r with toFill := { r.toFill with job_id := some job_id } }) = rows := by
      refine (List.map_congr_left fun r hr => ?_).trans (List.map_id' rows)
      exact if_neg fun hid => hmem ⟨r, hr, hid⟩
    rw [hsame]
    exact ⟨h, .refl rows⟩

end Rows

end JobScripts.Apply.Submissions
