import JobScripts.Lib.Upsert
import JobScripts.Mail.Settled

/-!
# Mail that is imported more than once

Copies of one message come from several archives, and each may lack what another has. `store_messages` puts a
row for the first copy and merges the later ones into it, under three rules: of the thread and the sender's name
the first value stays, of the body, the subject, the date and the headers the last one does, and the verdict of
the prefilter is that of the copy. A field that a copy lacks is left as it is.

`copies_merged` says what the row is after any imports, and when its verdict is that of what it holds: a thin copy
takes over the verdict of a row whose body it leaves (`thin_copy_recorded`).
-/

namespace JobScripts.Mail.Store

open Lib

/-! ## The prefilter -/

/-- What the prefilter asks of Python's strings: `str.lower`, and which code points are whitespace. -/
structure Letters where
  lower : String → String
  isSpace : ℕ → Bool

/-- The markers of `RESOLVERS` that hold no `=`, in order. -/
def resolverMarkers : List String :=
  ["greenhouse.io", "lever.co", "ashbyhq.com", "smartrecruiters.com", "myworkdayjobs.com", "oraclecloud.com",
    "workable.com", "jobs.gem.com", "ats.rippling.com", "icims.com", "jobs.apple.com/", "higher.gs.com/roles/",
    "careers.ibm.com/", "ibmglobal.avature.net/", "workforcenow.adp.com", "workforcenow.cloud.adp.com",
    "ultipro.com/", "ultipro.ca/", "brassring.com/"]

/-- `_EXTRA_ATS_DOMAINS`: domains that application systems send from. -/
def extraAtsDomains : List String :=
  ["greenhouse-mail.io", "hire.lever.co", "myworkday.com", "workablemail.com", "jobvite.com", "taleo.net",
    "successfactors.com", "avature.net", "eightfold.ai", "phenompeople.com", "recruitee.com", "teamtailor-mail.com",
    "breezy.hr", "workable.com", "bamboohr.com", "rippling.com"]

/-- `ATS_DOMAINS`: a domain that is in both lists stands where it is first. -/
def atsDomains : List String :=
  resolverMarkers ++ extraAtsDomains.filter fun domain => domain ∉ resolverMarkers

/-- `_PHRASES`: what a message about an application says. -/
def phrases : List String :=
  ["your application", "application for", "applied for", "thank you for applying", "thanks for applying",
    "we received your application", "application received", "application status", "update on your application",
    "moving forward", "move forward with other candidates", "not moving forward", "unfortunately", "we regret",
    "regret to inform", "interview", "phone screen", "recruiter screen", "hiring manager", "online assessment",
    "coding challenge", "take-home", "take home assessment", "hackerrank", "codesignal", "codility", "karat",
    "availability", "schedule a time", "offer letter", "we would like to invite", "next steps",
    "talent acquisition", "recruiting team", "candidate", "job opportunity", "position at", "role at"]

/-- `_URL_MARKERS`: what the links of a message about an application hold. -/
def urlMarkers : List String := ["/careers", "/jobs/", "job-boards", "jobs.", "careers.", "boards.", "apply."]

/-- `Verdict` of the prefilter. -/
structure Verdict where
  hit : Bool
  reason : String
  deriving DecidableEq

section Prefilter

variable (L : Letters)

/-- `s.strip()`, for the characters that it takes off. -/
def strip (p : Char → Bool) (cs : List Char) : List Char :=
  ((cs.dropWhile p).reverse.dropWhile p).reverse

/-- `_domain`: what stands after the last `@`. -/
def domain (address : Option String) : String :=
  match address with
  | none => ""
  | some text =>
    if '@' ∉ text.toList then ""
    else
      let host := (text.toList.reverse.takeWhile (· ≠ '@')).reverse
      L.lower (String.ofList (strip (· = '>') (strip (fun c => L.isSpace c.toNat) host)))

/-- `part in text`: the part is somewhere in the text. -/
def occursIn (part text : String) : Bool := text.toList.tails.any fun rest => part.toList.isPrefixOf rest

/-- A character of a link: `[^\s<>"')]`. -/
def isLinkChar (c : Char) : Bool := !L.isSpace c.toNat && !(['<', '>', '"', '\'', ')'].contains c)

/-- The matches of `_URL_RE` from a position on, which do not overlap. -/
def linksFrom : ℕ → List Char → List String
  | 0, _ => []
  | _, [] => []
  | n + 1, c :: cs =>
    match afterScheme (c :: cs) with
    | none => linksFrom n cs
    | some rest =>
      let run := rest.takeWhile (isLinkChar L)
      if run.isEmpty then linksFrom n cs
      else String.ofList ((c :: cs).take (cs.length + 1 - rest.length) ++ run) ::
        linksFrom n (rest.dropWhile (isLinkChar L))

/-- `looks_job_related`: the first domain that the sender has, else the first phrase of the subject and the body,
else the first marker of the first link that has one. -/
def looksJobRelated (from_email subject body : Option String) : Verdict :=
  let host := domain L from_email
  match atsDomains.find? fun ats => ats.toList.isSuffixOf host.toList || occursIn ats host with
  | some ats => ⟨true, "ats_domain:" ++ ats⟩
  | none =>
    let haystack := L.lower (subject.getD "" ++ "\n" ++ body.getD "")
    match phrases.find? fun phrase => occursIn phrase haystack with
    | some phrase => ⟨true, "phrase:" ++ phrase⟩
    | none =>
      let links := linksFrom L (body.getD "").length (body.getD "").toList
      match links.findSome? fun url => urlMarkers.find? fun marker => occursIn marker (L.lower url) with
      | some marker => ⟨true, "url:" ++ marker⟩
      | none => ⟨false, "no_signal"⟩

end Prefilter

/-! ## The rows -/

/-- `ImportedMessage`. A date is an instant. -/
structure ImportedMessage where
  provider_message_id : String
  source : String
  provider_thread_id : Option String := none
  thread_topic : Option String := none
  from_email : Option String := none
  from_name : Option String := none
  to_emails : List String := []
  subject : Option String := none
  sent_at : Option ℤ := none
  body_text : Option String := none
  body_html : Option String := none
  headers : List (String × String) := []

/-- The columns of `email_messages` that an import writes, besides the key. -/
structure Row where
  provider_thread_id : Option String
  thread_topic : Option String
  source : String
  from_email : Option String
  from_name : Option String
  to_emails : List String
  subject : Option String
  sent_at : Option ℤ
  body_text : Option String
  body_html : Option String
  prefilter_hit : Bool
  prefilter_reason : String
  headers : Option (List (String × String))

/-- `db.jsonb(message.headers) if message.headers else None`: no headers are stored as null. -/
def ImportedMessage.jsonHeaders (m : ImportedMessage) : Option (List (String × String)) :=
  if m.headers.isEmpty then none else some m.headers

/-- `COALESCE`: the first of two that is not null. -/
def coalesce {α : Type} (a b : Option α) : Option α := a.or b

section Statement

variable (L : Letters)

/-- The verdict of a copy. -/
def ImportedMessage.verdict (m : ImportedMessage) : Verdict := looksJobRelated L m.from_email m.subject m.body_text

/-- The row of `VALUES`. -/
def inserted (m : ImportedMessage) : Row where
  provider_thread_id := m.provider_thread_id
  thread_topic := m.thread_topic
  source := m.source
  from_email := m.from_email
  from_name := m.from_name
  to_emails := m.to_emails
  subject := m.subject
  sent_at := m.sent_at
  body_text := m.body_text
  body_html := m.body_html
  prefilter_hit := (m.verdict L).hit
  prefilter_reason := (m.verdict L).reason
  headers := m.jsonHeaders

/-- `DO UPDATE SET`: the row with what a further copy of the message improves. -/
def improved (m : ImportedMessage) (row : Row) : Row :=
  { row with
    body_text := coalesce (inserted L m).body_text row.body_text
    body_html := coalesce (inserted L m).body_html row.body_html
    subject := coalesce (inserted L m).subject row.subject
    sent_at := coalesce (inserted L m).sent_at row.sent_at
    provider_thread_id := coalesce row.provider_thread_id (inserted L m).provider_thread_id
    thread_topic := coalesce row.thread_topic (inserted L m).thread_topic
    from_name := coalesce row.from_name (inserted L m).from_name
    prefilter_hit := (inserted L m).prefilter_hit
    prefilter_reason := (inserted L m).prefilter_reason
    headers := coalesce (inserted L m).headers row.headers }

/-- The key of a row: the user and the message. -/
abbrev Key := ℕ × String

/-- `INSERT … ON CONFLICT (user_id, provider_message_id) DO UPDATE`: a message is stored once for each person. -/
def upsert (user_id : ℕ) : Upsert Key Row ImportedMessage where
  key m := (user_id, m.provider_message_id)
  insert := inserted L
  update := improved L

/-- `_chunks`, for a list that is at most so long. -/
def chunks {α : Type} (size : ℕ) : ℕ → List α → List (List α)
  | 0, _ => []
  | n + 1, items => if items.isEmpty then [] else items.take size :: chunks size n (items.drop size)

/-- `INSERT_CHUNK`: the messages that one statement takes. -/
def insertChunk : ℕ := 1000

/-- `store_messages`, with the number of rows that it returns: each chunk is a transaction, and its rows are
written one after the other. -/
def storeMessages (user_id : ℕ) (messages : List ImportedMessage) (t : Table Key Row) : Table Key Row × ℕ :=
  (chunks insertChunk messages.length messages).foldl
    (fun done chunk => (chunk.foldl (upsert L user_id).apply done.1, done.2 + chunk.length)) (t, 0)

/-- Imports one after the other, each for a user. -/
def importAll (t : Table Key Row) (imports : List (ℕ × List ImportedMessage)) : Table Key Row :=
  imports.foldl (fun t i => (storeMessages L i.1 i.2 t).1) t

/-! ## What is merged -/

/-- The first value that is there. -/
def firstOf {α : Type} (values : List (Option α)) : Option α := values.findSome? id

/-- The last value that is there. -/
def lastOf {α : Type} (values : List (Option α)) : Option α := firstOf values.reverse

/-- A value that comes later is asked for where none is there. -/
theorem firstOf_append {α : Type} (values : List (Option α)) (v : Option α) :
    firstOf (values ++ [v]) = coalesce (firstOf values) v := by
  unfold firstOf coalesce
  rw [List.findSome?_append]
  cases v <;> rfl

/-- A value that comes later goes before the others. -/
theorem lastOf_append {α : Type} (values : List (Option α)) (v : Option α) :
    lastOf (values ++ [v]) = coalesce v (lastOf values) := by
  unfold lastOf firstOf coalesce
  rw [List.reverse_append, List.reverse_singleton, List.findSome?_append]
  cases v <;> rfl

/-- The first value is asked first. -/
theorem firstOf_cons {α : Type} (v : Option α) (values : List (Option α)) :
    firstOf (v :: values) = coalesce v (firstOf values) := by
  cases v <;> rfl

/-- The first value is asked last. -/
theorem lastOf_cons {α : Type} (v : Option α) (values : List (Option α)) :
    lastOf (v :: values) = coalesce (lastOf values) v := by
  unfold lastOf
  rw [List.reverse_cons, firstOf_append]

/-- The copies of a message among those of some imports, in order. -/
def copies (key : Key) (imports : List (ℕ × List ImportedMessage)) : List ImportedMessage :=
  imports.flatMap fun i => i.2.filter fun m => (i.1, m.provider_message_id) = key

/-- A row is what the stored one, if there is one, and the copies after it come to. -/
structure Merged (stored : Option Row) (ms : List ImportedMessage) (row : Row) : Prop where
  /-- The thread is that of the first that carried one. -/
  provider_thread_id : row.provider_thread_id =
    firstOf (stored.bind Row.provider_thread_id :: ms.map ImportedMessage.provider_thread_id)
  /-- So is the topic. -/
  thread_topic : row.thread_topic =
    firstOf (stored.bind Row.thread_topic :: ms.map ImportedMessage.thread_topic)
  /-- So is the sender's name. -/
  from_name : row.from_name = firstOf (stored.bind Row.from_name :: ms.map ImportedMessage.from_name)
  /-- The body is that of the last that carried one. -/
  body_text : row.body_text = lastOf (stored.bind Row.body_text :: ms.map ImportedMessage.body_text)
  /-- So is the markup. -/
  body_html : row.body_html = lastOf (stored.bind Row.body_html :: ms.map ImportedMessage.body_html)
  /-- So is the subject. -/
  subject : row.subject = lastOf (stored.bind Row.subject :: ms.map ImportedMessage.subject)
  /-- So is the date. -/
  sent_at : row.sent_at = lastOf (stored.bind Row.sent_at :: ms.map ImportedMessage.sent_at)
  /-- So are the headers. -/
  headers : row.headers = lastOf (stored.bind Row.headers :: ms.map ImportedMessage.jsonHeaders)
  /-- What is never written again is that of the first. -/
  first : some (row.source, row.from_email, row.to_emails) =
    coalesce (stored.map fun s => (s.source, s.from_email, s.to_emails))
      (ms.head?.map fun m => (m.source, m.from_email, m.to_emails))
  /-- The verdict is that of the last copy. -/
  verdict : some ⟨row.prefilter_hit, row.prefilter_reason⟩ =
    coalesce (ms.getLast?.map (ImportedMessage.verdict L))
      (stored.map fun s => ⟨s.prefilter_hit, s.prefilter_reason⟩)

/-- What is found under a key is what was stored and the copies come to. -/
def Result (stored : Option Row) (ms : List ImportedMessage) : Option Row → Prop
  | none => stored = none ∧ ms = []
  | some row => Merged L stored ms row

/-- No column that holds a value loses it. -/
structure Row.KeptBy (s row : Row) : Prop where
  provider_thread_id : s.provider_thread_id.isSome → row.provider_thread_id.isSome
  thread_topic : s.thread_topic.isSome → row.thread_topic.isSome
  from_email : s.from_email.isSome → row.from_email.isSome
  from_name : s.from_name.isSome → row.from_name.isSome
  subject : s.subject.isSome → row.subject.isSome
  sent_at : s.sent_at.isSome → row.sent_at.isSome
  body_text : s.body_text.isSome → row.body_text.isSome
  body_html : s.body_html.isSome → row.body_html.isSome
  headers : s.headers.isSome → row.headers.isSome

/-- The verdict of a row is that of the sender, the subject and the body that it holds. -/
def Row.Judged (row : Row) : Prop :=
  (⟨row.prefilter_hit, row.prefilter_reason⟩ : Verdict) = looksJobRelated L row.from_email row.subject row.body_text

/-- The copy that came last is judged as the parts that are kept are: the sender of the first, and the last subject
and the last body that were carried. -/
def JudgedAsKept (stored : Option Row) (ms : List ImportedMessage) : Prop :=
  coalesce (ms.getLast?.map (ImportedMessage.verdict L))
      (stored.map fun s => ⟨s.prefilter_hit, s.prefilter_reason⟩) =
    some (looksJobRelated L
      ((coalesce (stored.map Row.from_email) (ms.head?.map ImportedMessage.from_email)).getD none)
      (lastOf (stored.bind Row.subject :: ms.map ImportedMessage.subject))
      (lastOf (stored.bind Row.body_text :: ms.map ImportedMessage.body_text)))

variable {L} {stored : Option Row} {ms : List ImportedMessage} {m : ImportedMessage}

/-- Of the first values, one copy more is asked last. -/
theorem firstOf_snoc {α : Type} (old : Option α) (f : ImportedMessage → Option α) :
    firstOf (old :: (ms ++ [m]).map f) = coalesce (firstOf (old :: ms.map f)) (f m) := by
  rw [List.map_append, List.map_singleton, ← List.cons_append, firstOf_append]

/-- Of the last values, one copy more is asked first. -/
theorem lastOf_snoc {α : Type} (old : Option α) (f : ImportedMessage → Option α) :
    lastOf (old :: (ms ++ [m]).map f) = coalesce (f m) (lastOf (old :: ms.map f)) := by
  rw [List.map_append, List.map_singleton, ← List.cons_append, lastOf_append]

/-- A stored row is what it is merged from, while no copy comes. -/
theorem merged_stored (s : Row) : Merged L (some s) [] s := by
  have hfirst : ∀ {α : Type} (v : Option α), firstOf [v] = v := fun v => by cases v <;> rfl
  constructor
  all_goals exact (hfirst _).symm

/-- The first copy is inserted as it is. -/
theorem merged_inserted : Merged L none [m] (inserted L m) := by
  have hfirst : ∀ {α : Type} (v : Option α), firstOf [none, v] = v := fun v => by cases v <;> rfl
  constructor
  all_goals exact (hfirst _).symm

/-- One copy more is merged under the three rules. -/
theorem Merged.improved {row : Row} (h : Merged L stored ms row) (hsome : stored.isSome ∨ ms ≠ []) :
    Merged L stored (ms ++ [m]) (improved L m row) where
  provider_thread_id := by
    rw [firstOf_snoc, ← h.provider_thread_id]
    rfl
  thread_topic := by
    rw [firstOf_snoc, ← h.thread_topic]
    rfl
  from_name := by
    rw [firstOf_snoc, ← h.from_name]
    rfl
  body_text := by
    rw [lastOf_snoc, ← h.body_text]
    rfl
  body_html := by
    rw [lastOf_snoc, ← h.body_html]
    rfl
  subject := by
    rw [lastOf_snoc, ← h.subject]
    rfl
  sent_at := by
    rw [lastOf_snoc, ← h.sent_at]
    rfl
  headers := by
    rw [lastOf_snoc, ← h.headers]
    rfl
  first := by
    refine h.first.trans ?_
    -- What is asked for last is the first copy, which stays where one more comes after it.
    cases ms with
    | nil =>
      obtain ⟨s, rfl⟩ := Option.isSome_iff_exists.mp (hsome.resolve_right fun hne => hne rfl)
      rfl
    | cons _ _ => rfl
  verdict := by
    rw [List.getLast?_concat]
    rfl

/-- So it is where no row is stored yet. -/
theorem Result.step {o : Option Row} (h : Result L stored ms o) :
    Merged L stored (ms ++ [m]) ((upsert L 0).row m o) := by
  cases o with
  | none =>
    obtain ⟨rfl, rfl⟩ := h
    exact merged_inserted
  | some row =>
    refine Merged.improved h ?_
    by_contra hno
    rw [not_or, not_not, Option.not_isSome_iff_eq_none] at hno
    obtain ⟨rfl, rfl⟩ := hno
    exact absurd h.first nofun

/-- What is found after some copies is what they come to. -/
theorem result_foldl (stored : Option Row) (ms : List ImportedMessage) :
    Result L stored ms (ms.foldl (fun o m => some ((upsert L 0).row m o)) stored) := by
  induction ms using List.reverseRecOn with
  | nil =>
    cases stored with
    | none => exact ⟨rfl, rfl⟩
    | some s => exact merged_stored s
  | append_singleton ms m ih =>
    rw [List.foldl_concat]
    exact ih.step

/-- The chunks are the messages. -/
theorem flatten_chunks {α : Type} {size : ℕ} (hsize : 0 < size) : ∀ (n : ℕ) (items : List α),
    items.length ≤ n → (chunks size n items).flatten = items := by
  intro n
  induction n with
  | zero =>
    intro items hn
    rw [List.length_eq_zero_iff.mp (Nat.le_zero.mp hn)]
    rfl
  | succ n ih =>
    intro items hn
    unfold chunks
    split
    · next hempty =>
      rw [List.isEmpty_iff.mp hempty]
      rfl
    · next hne =>
      have hpos : 0 < items.length := by
        rw [List.length_pos_iff]
        exact fun h => hne (List.isEmpty_iff.mpr h)
      have hrest : (items.drop size).length ≤ n := by
        rw [List.length_drop]
        omega
      rw [List.flatten_cons, ih _ hrest, List.take_append_drop]

/-- An import writes its messages one after the other, and returns their number. -/
theorem storeMessages_eq (user_id : ℕ) (messages : List ImportedMessage) (t : Table Key Row) :
    storeMessages L user_id messages t = (messages.foldl (upsert L user_id).apply t, messages.length) := by
  have hfold : ∀ (cs : List (List ImportedMessage)) (done : Table Key Row × ℕ),
      cs.foldl (fun done chunk => (chunk.foldl (upsert L user_id).apply done.1, done.2 + chunk.length)) done =
        (cs.flatten.foldl (upsert L user_id).apply done.1, done.2 + cs.flatten.length) := by
    intro cs
    induction cs with
    | nil => exact fun _ => rfl
    | cons c cs ih =>
      intro done
      rw [List.foldl_cons, ih, List.flatten_cons, List.foldl_append, List.length_append, Nat.add_assoc]
  unfold storeMessages
  rw [hfold, flatten_chunks (by decide) _ _ (Nat.le_refl _), Nat.zero_add]

/-- Under a key an import leaves what the copies in it make of the row. -/
theorem get_storeMessages (user_id : ℕ) (messages : List ImportedMessage) (t : Table Key Row) (key : Key) :
    (storeMessages L user_id messages t).1.get key =
      (messages.filter fun m => (user_id, m.provider_message_id) = key).foldl
        (fun o m => some ((upsert L 0).row m o)) (t.get key) := by
  rw [storeMessages_eq, Upsert.get_applyAll]
  rfl

/-- So do imports one after the other. -/
theorem get_importAll (t : Table Key Row) (imports : List (ℕ × List ImportedMessage)) (key : Key) :
    (importAll L t imports).get key =
      (copies key imports).foldl (fun o m => some ((upsert L 0).row m o)) (t.get key) := by
  induction imports generalizing t with
  | nil => rfl
  | cons i imports ih =>
    show (importAll L (storeMessages L i.1 i.2 t).1 imports).get key = _
    rw [ih, get_storeMessages, copies, copies, List.flatMap_cons, List.foldl_append]

/-- What a row holds is kept when copies are merged into it. -/
theorem Merged.keptBy {s row : Row} (h : Merged L (some s) ms row) : s.KeptBy row := by
  have hfirst : ∀ {α : Type} (v : Option α) (values : List (Option α)),
      v.isSome → (firstOf (v :: values)).isSome := by
    intro α v values hv
    rw [firstOf_cons, coalesce, Option.isSome_or, hv, Bool.true_or]
  have hlast : ∀ {α : Type} (v : Option α) (values : List (Option α)),
      v.isSome → (lastOf (v :: values)).isSome := by
    intro α v values hv
    rw [lastOf_cons, coalesce, Option.isSome_or, hv, Bool.or_true]
  have hsender : row.from_email = s.from_email := congrArg (fun x => x.2.1) (Option.some_inj.mp h.first)
  exact
    { provider_thread_id := fun hv => h.provider_thread_id ▸ hfirst _ _ hv
      thread_topic := fun hv => h.thread_topic ▸ hfirst _ _ hv
      from_email := fun hv => hsender ▸ hv
      from_name := fun hv => h.from_name ▸ hfirst _ _ hv
      subject := fun hv => h.subject ▸ hlast _ _ hv
      sent_at := fun hv => h.sent_at ▸ hlast _ _ hv
      body_text := fun hv => h.body_text ▸ hlast _ _ hv
      body_html := fun hv => h.body_html ▸ hlast _ _ hv
      headers := fun hv => h.headers ▸ hlast _ _ hv }

/-- The sender of a row is that of the first. -/
theorem Merged.from_email {row : Row} (h : Merged L stored ms row) : row.from_email =
    (coalesce (stored.map Row.from_email) (ms.head?.map ImportedMessage.from_email)).getD none := by
  have hfirst := congrArg (Option.map fun x => x.2.1) h.first
  unfold coalesce at hfirst ⊢
  rw [Option.map_or, Option.map_map, Option.map_map] at hfirst
  exact congrArg (Option.getD · none) hfirst

/-- The verdict of a row is that of what it holds where the last copy is judged so. -/
theorem Merged.judged_iff {row : Row} (h : Merged L stored ms row) : row.Judged L ↔ JudgedAsKept L stored ms := by
  unfold Row.Judged JudgedAsKept
  rw [← h.verdict, ← h.from_email, ← h.subject, ← h.body_text, Option.some_inj]

/-- Copies that are merged a second time change nothing. -/
theorem Merged.again {row again : Row} (h : Merged L stored ms row) (h' : Merged L (some row) ms again) :
    again = row := by
  have hfirst : ∀ {α : Type} {v w x : Option α} {values : List (Option α)}, w = firstOf (v :: values) →
      x = firstOf (w :: values) → x = w := by
    rintro α v w x values rfl rfl
    rw [firstOf_cons, firstOf_cons]
    unfold coalesce
    rw [Option.or_assoc, Option.or_self]
  have hlast : ∀ {α : Type} {v w x : Option α} {values : List (Option α)}, w = lastOf (v :: values) →
      x = lastOf (w :: values) → x = w := by
    rintro α v w x values rfl rfl
    rw [lastOf_cons, lastOf_cons]
    unfold coalesce
    rw [← Option.or_assoc, Option.or_self]
  have hverdict : some (⟨again.prefilter_hit, again.prefilter_reason⟩ : Verdict) =
      some ⟨row.prefilter_hit, row.prefilter_reason⟩ := by
    rw [h'.verdict]
    cases hlastCopy : ms.getLast? with
    | none => rfl
    | some m =>
      rw [h.verdict, hlastCopy]
      rfl
  have hthread := hfirst h.provider_thread_id h'.provider_thread_id
  have htopic := hfirst h.thread_topic h'.thread_topic
  have hname := hfirst h.from_name h'.from_name
  have hbody := hlast h.body_text h'.body_text
  have hhtml := hlast h.body_html h'.body_html
  have hsubject := hlast h.subject h'.subject
  have hsent := hlast h.sent_at h'.sent_at
  have hheaders := hlast h.headers h'.headers
  obtain ⟨hsource, hsender⟩ := Prod.mk.inj (Option.some_inj.mp h'.first)
  obtain ⟨hfrom, hto⟩ := Prod.mk.inj hsender
  obtain ⟨hhit, hreason⟩ := Verdict.mk.inj (Option.some_inj.mp hverdict)
  cases again
  cases row
  dsimp only at *
  subst hthread htopic hname hbody hhtml hsubject hsent hheaders hsource hfrom hto hhit hreason
  rfl

/-- So it is where no row was stored, or no copy came. -/
theorem Result.again {o one two : Option Row} (h : Result L o ms one) (h' : Result L one ms two) : two = one := by
  cases one with
  | none =>
    obtain ⟨-, rfl⟩ := h
    cases two with
    | none => rfl
    | some again => exact absurd h'.first nofun
  | some row =>
    cases two with
    | none => exact absurd h'.1 nofun
    | some again => rw [Merged.again h h']

/-- Messages that are imported a second time leave the rows as they are. -/
theorem get_storeMessages_again (user_id : ℕ) (messages : List ImportedMessage) (t : Table Key Row) (key : Key) :
    (storeMessages L user_id messages (storeMessages L user_id messages t).1).1.get key =
      (storeMessages L user_id messages t).1.get key := by
  have hone := result_foldl (L := L) (t.get key) (messages.filter fun m => (user_id, m.provider_message_id) = key)
  rw [← get_storeMessages] at hone
  have htwo := result_foldl (L := L) ((storeMessages L user_id messages t).1.get key)
    (messages.filter fun m => (user_id, m.provider_message_id) = key)
  rw [← get_storeMessages] at htwo
  exact hone.again htwo

/-! ## Imports one after the other -/

/-- **Importing mail again only improves it.** Whatever is stored, and whatever copies of a message the imports
bring: under its key there is a row if one was stored or a copy came; its fields are those that the rules say, the
verdict being that of the last copy; no field that held a value has lost it; messages that are imported twice in a
row leave what they leave once; and the verdict is that of the sender, the subject and the body in the row exactly
where the last copy is judged as these are. -/
theorem copies_merged (L : Letters) (t : Table Key Row) (imports : List (ℕ × List ImportedMessage)) (key : Key) :
    Result L (t.get key) (copies key imports) ((importAll L t imports).get key) ∧
      (∀ s, t.get key = some s → ∃ row, (importAll L t imports).get key = some row ∧ s.KeptBy row) ∧
      (∀ user_id messages, (importAll L t (imports ++ [(user_id, messages), (user_id, messages)])).get key =
        (importAll L t (imports ++ [(user_id, messages)])).get key) ∧
      ∀ row, (importAll L t imports).get key = some row →
        (row.Judged L ↔ JudgedAsKept L (t.get key) (copies key imports)) := by
  have hresult : ∀ imports, Result L (t.get key) (copies key imports) ((importAll L t imports).get key) := by
    intro imports
    rw [get_importAll]
    exact result_foldl _ _
  refine ⟨hresult imports, ?_, ?_, ?_⟩
  · intro s hs
    have h := hresult imports
    rw [hs] at h
    cases hrow : (importAll L t imports).get key with
    | none =>
      rw [hrow] at h
      exact absurd h.1 nofun
    | some row =>
      rw [hrow] at h
      exact ⟨row, rfl, Merged.keptBy h⟩
  · intro user_id messages
    have honce : importAll L t (imports ++ [(user_id, messages)]) =
        (storeMessages L user_id messages (importAll L t imports)).1 := List.foldl_concat ..
    have htwice : importAll L t (imports ++ [(user_id, messages), (user_id, messages)]) =
        (storeMessages L user_id messages (storeMessages L user_id messages (importAll L t imports)).1).1 :=
      List.foldl_append ..
    rw [honce, htwice]
    exact get_storeMessages_again user_id messages (importAll L t imports) key
  · intro row hrow
    have h := hresult imports
    rw [hrow] at h
    exact Merged.judged_iff h

/-- Letters as far as ASCII goes. -/
def ascii : Letters where
  lower s := String.ofList (s.toList.map Char.toLower)
  isSpace n := n = 32 || (9 ≤ n && n ≤ 13)

/-- A copy with a body. -/
def fullCopy : ImportedMessage :=
  { provider_message_id := "<m1@x>", source := "takeout", body_text := some "your application" }

/-- A copy from an archive that has none. -/
def thinCopy : ImportedMessage := { provider_message_id := "<m1@x>", source := "olm" }

/-- The verdict that a copy leaves is its own. -/
theorem verdict_improved (L : Letters) (m : ImportedMessage) (row : Row) :
    (⟨(improved L m row).prefilter_hit, (improved L m row).prefilter_reason⟩ : Verdict) =
      looksJobRelated L m.from_email m.subject m.body_text := rfl

/-- Where no domain is the sender's, the first phrase decides. -/
theorem looksJobRelated_of_phrase {L : Letters} {from_email subject body : Option String} {phrase : String}
    (hdomain : (atsDomains.find? fun ats => ats.toList.isSuffixOf (domain L from_email).toList ||
      occursIn ats (domain L from_email)) = none)
    (hphrase : (phrases.find? fun phrase =>
      occursIn phrase (L.lower (subject.getD "" ++ "\n" ++ body.getD ""))) = some phrase) :
    looksJobRelated L from_email subject body = ⟨true, "phrase:" ++ phrase⟩ := by
  unfold looksJobRelated
  simp only [hdomain, hphrase]

/-- Where there is no phrase and no body either, there is no signal. -/
theorem looksJobRelated_of_nothing {L : Letters} {from_email subject : Option String}
    (hdomain : (atsDomains.find? fun ats => ats.toList.isSuffixOf (domain L from_email).toList ||
      occursIn ats (domain L from_email)) = none)
    (hphrase : (phrases.find? fun phrase => occursIn phrase (L.lower (subject.getD "" ++ "\n" ++ ""))) = none) :
    looksJobRelated L from_email subject none = ⟨false, "no_signal"⟩ := by
  have hlinks : linksFrom L (none.getD "" : String).length (none.getD "" : String).toList = [] := rfl
  unfold looksJobRelated
  rw [hlinks]
  simp only [hdomain, Option.getD_none, hphrase, List.findSome?_nil]

/-- No sender is from no domain. -/
theorem find_domain_none :
    (atsDomains.find? fun ats => ats.toList.isSuffixOf "".toList || occursIn ats "") = none := by
  have hall : ∀ ats ∈ resolverMarkers ++ extraAtsDomains,
      (ats.toList.isSuffixOf "".toList || occursIn ats "") = false := by
    unfold resolverMarkers extraAtsDomains occursIn
    simp only [List.cons_append, List.nil_append, List.forall_mem_cons]
    repeat rw [String.toList_ofList]
    decide +kernel
  refine List.find?_eq_none.mpr fun ats hats => ?_
  rw [Bool.not_eq_true]
  refine hall ats (List.mem_append.mpr ?_)
  exact (List.mem_append.mp hats).imp_right fun h => (List.mem_filter.mp h).1

/-- Nothing holds no phrase. -/
theorem find_phrase_none : (phrases.find? fun phrase => occursIn phrase "\n") = none := by
  have hall : ∀ phrase ∈ phrases, occursIn phrase "\n" = false := by
    unfold phrases occursIn
    simp only [List.forall_mem_cons]
    repeat rw [String.toList_ofList]
    decide +kernel
  exact List.find?_eq_none.mpr fun phrase hphrase => Bool.not_eq_true _ ▸ hall phrase hphrase

/-- The thin copy leaves the body and takes the verdict with it: the row says that there is no signal in what it
stores, which is a hit. -/
theorem thin_copy_recorded :
    ∃ row, (importAll ascii [] [(1, [fullCopy, thinCopy])]).get (1, "<m1@x>") = some row ∧
      (⟨row.prefilter_hit, row.prefilter_reason⟩ : Verdict) = ⟨false, "no_signal"⟩ ∧
      looksJobRelated ascii row.from_email row.subject row.body_text = ⟨true, "phrase:your application"⟩ ∧
      ¬row.Judged ascii := by
  have hthin : ∀ {row : Row}, (⟨row.prefilter_hit, row.prefilter_reason⟩ : Verdict) = ⟨false, "no_signal"⟩ →
      looksJobRelated ascii row.from_email row.subject row.body_text = ⟨true, "phrase:your application"⟩ →
        ¬row.Judged ascii := by
    intro row hrow hlooks hjudged
    have heq := hrow.symm.trans (Eq.trans hjudged hlooks)
    exact absurd (congrArg Verdict.hit heq) (by decide)
  suffices hrow : ∃ row, (importAll ascii [] [(1, [fullCopy, thinCopy])]).get (1, "<m1@x>") = some row ∧
      (⟨row.prefilter_hit, row.prefilter_reason⟩ : Verdict) = ⟨false, "no_signal"⟩ ∧
      looksJobRelated ascii row.from_email row.subject row.body_text = ⟨true, "phrase:your application"⟩ by
    obtain ⟨row, hrow, hverdict, hlooks⟩ := hrow
    exact ⟨row, hrow, hverdict, hlooks, hthin hverdict hlooks⟩
  refine ⟨improved ascii thinCopy (inserted ascii fullCopy), ?_, ?_, ?_⟩
  · rw [get_importAll]
    rfl
  · rw [verdict_improved]
    have hlower : ascii.lower ("" ++ "\n" ++ "") = "\n" := by decide +kernel
    refine looksJobRelated_of_nothing find_domain_none ?_
    show (phrases.find? fun phrase => occursIn phrase (ascii.lower ("" ++ "\n" ++ ""))) = none
    rw [hlower]
    exact find_phrase_none
  · have hlower : ascii.lower ("" ++ "\n" ++ "your application") = "\nyour application" := by decide +kernel
    have hphrase : (phrases.find? fun phrase =>
        occursIn phrase (ascii.lower ("" ++ "\n" ++ "your application"))) = some "your application" := by
      rw [hlower]
      unfold phrases
      rw [List.find?_cons_of_pos]
      decide +kernel
    calc looksJobRelated ascii none none (some "your application")
      _ = ⟨true, "phrase:" ++ "your application"⟩ := looksJobRelated_of_phrase find_domain_none hphrase
      _ = ⟨true, "phrase:your application"⟩ := by decide +kernel

end Statement

end JobScripts.Mail.Store
