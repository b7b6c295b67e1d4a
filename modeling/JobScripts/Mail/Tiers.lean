import JobScripts.Lib.Text
import JobScripts.Mail.Match

/-!
# What a message is about

`match_message` of `api/mail/match.py`: the tiers that tie a message to one of its owner's applications, in
order, and the explicit miss when none of them settles it. The tiers read the applications and what the
message's current event says of it; they keep nothing.

Companies and roles are compared through `norm_company`. What Python's `str.lower` and `re` read of the
Unicode character database is a parameter, as is the reduction of a link to a posting's canonical url, which
is the catalog's (`core/fetching/ats.py`).
-/

namespace JobScripts.Mail

open Lib

/-! ## Names -/

/-- What the tiers take from outside: the Unicode data, the `\w` and the white space of Python's `re` and
`str`, and the canonical urls of a body and of a link. -/
structure Reader where
  unicode : UnicodeData
  isWord : ℕ → Bool
  isSpace : ℕ → Bool
  canonicalUrls : Option String → List String
  canonicalize : String → Option String

/-- The code points of a string. -/
def codePoints (s : String) : List ℕ := s.toList.map Char.toNat

/-- `[a-z0-9]`: a small letter of ASCII or a digit. -/
def isAsciiAlnum (c : ℕ) : Bool := (97 ≤ c && c ≤ 122) || (48 ≤ c && c ≤ 57)

/-- The legal forms that `norm_company` passes over. -/
def legalForms : List (List ℕ) :=
  ["inc", "llc", "ltd", "limited", "corp", "corporation", "co", "plc", "gmbh", "sa", "nv"].map codePoints

variable (R : Reader)

/-- `str.strip`: without the spaces at both ends. -/
def Reader.strip (s : List ℕ) : List ℕ :=
  ((s.dropWhile R.isSpace).reverse.dropWhile R.isSpace).reverse

/-- `norm_company`. A match of the first pattern is a maximal run of word characters that is one of the
legal forms. -/
def Reader.normCompany (value : Option String) : List ℕ :=
  let text := R.strip (R.unicode.lower (codePoints (value.getD "")))
  let runs := text.splitBy fun a b => R.isWord a == R.isWord b
  (runs.flatMap fun run => if legalForms.contains run then [32] else run).filter isAsciiAlnum

/-- `_INTERNSHIP_WORDS`: the words that name an internship. -/
def internshipWords : List (List ℕ) :=
  ["intern", "interns", "internship", "internships", "coop"].map codePoints

/-- One of the words of a title is an internship's. -/
def Reader.namesInternship (title : String) : Bool :=
  let runs := (R.unicode.lower (codePoints title)).splitBy fun a b => isAsciiAlnum a == isAsciiAlnum b
  runs.any internshipWords.contains

/-- `_employment_type_contradicts`: only one of two titles names an internship. -/
def Reader.employmentTypeContradicts (mail_title app_title : Option String) : Bool :=
  match mail_title, app_title with
  | some m, some a => m != "" && a != "" && R.namesInternship m != R.namesInternship a
  | _, _ => false

/-! ## Applications and messages -/

/-- A row of `applications`, with the url of its posting. -/
structure Application where
  id : ℕ
  company_name : Option String
  title : Option String
  job_url : Option String
  source_provenance : String
  applied_at : Option ℕ
  created_at : ℕ
  deriving DecidableEq

/-- What the current event of a message says. -/
structure Event where
  kind : String
  company : Option String
  role_title : Option String
  created_at : ℕ

/-- A row of `email_messages` with its current event. -/
structure Message where
  id : ℕ
  provider_thread_id : Option String
  sent_at : Option ℕ
  body_text : Option String
  event : Option Event

/-- `_NOT_BEFORE_APPLYING`: a tracker's date is a day, so it has a day of slack. -/
def notBeforeApplying (sent_at : Option ℕ) (a : Application) : Bool :=
  match a.applied_at, sent_at with
  | some applied, some sent =>
    decide (applied ≤ sent + if a.source_provenance = "tracker" then 86400 else 0)
  | _, _ => true

/-! ## The tiers -/

/-- A decision that attaches an application by one of the tiers. -/
def MatchDecision.attach (application_id : ℕ) (method confidence rationale : String)
    (h : method ∉ attachedForbiddenMethods) : MatchDecision where
  application_id := some application_id
  method := method
  confidence := confidence
  rationale := rationale
  null_method := by simp
  attached_method := fun _ => h

/-- The refusal for a message that is not about an application. -/
def MatchDecision.notAnApplication (rationale : String) : MatchDecision where
  application_id := none
  method := "not_an_application"
  confidence := "none"
  rationale := rationale
  null_method := by simp [nullMethods]
  attached_method := by simp

/-- `_by_exact_link`: the application whose posting the message links to. -/
def Reader.byExactLink (apps : List Application) (body : Option String) : Option MatchDecision :=
  let canon := R.canonicalUrls body
  if canon.isEmpty then none
  else
    (apps.filterMap fun a => a.job_url.map fun url => (a, (R.canonicalize url).getD url)).find?
      (fun x => canon.contains x.2) |>.map fun x =>
        .attach x.1.id "exact_link" "high" ("message links to " ++ x.2) (by decide)

/-- `_by_company`: one application at that company inside the window, or nothing. -/
def Reader.byCompany (apps : List Application) (company : Option String) (sent_at : Option ℕ)
    (title : Option String) : Option MatchDecision :=
  let key := R.normCompany company
  if key.isEmpty then none
  else
    match (apps.filter (notBeforeApplying sent_at)).filter fun a => R.normCompany a.company_name == key with
    | [a] =>
      if R.employmentTypeContradicts title a.title then none
      else some (.attach a.id "ats_company" "medium"
        ("single application at " ++ a.company_name.getD "None") (by decide))
    | _ => none

/-- `_by_company_and_title`: the one application of the company with the title of the message. -/
def Reader.byCompanyAndTitle (apps : List Application) (company title : Option String)
    (sent_at : Option ℕ) : Option MatchDecision :=
  let key := R.normCompany company
  let role := R.normCompany title
  if key.isEmpty || role.isEmpty then none
  else
    match (apps.filter (notBeforeApplying sent_at)).filter fun a =>
        R.normCompany a.company_name == key && R.normCompany a.title == role with
    | [a] => some (.attach a.id "company_title" "medium"
        ("company and title match: " ++ a.title.getD "None") (by decide))
    | _ => none

/-- `match_message`: the application of a message, by a link, by the company alone, or by company and title. -/
def Reader.matchMessage (apps : List Application) (body company title : Option String)
    (sent_at : Option ℕ) : MatchDecision :=
  ((R.byExactLink apps body).or <| (R.byCompany apps company sent_at title).or <|
    R.byCompanyAndTitle apps company title sent_at).getD (.unmatched "no candidate matched")

/-- `UNATTACHABLE_KINDS`: the events that belong to no application. -/
def unattachableKinds : List String := ["recruiter_outreach"]

/-- What a sweep decides for a message. -/
def Reader.decision (apps : List Application) (m : Message) (e : Event) : MatchDecision :=
  if unattachableKinds.contains e.kind then
    .notAnApplication (e.kind ++ " describes the person, not an application")
  else R.matchMessage apps m.body_text e.company e.role_title m.sent_at

/-! ## A reader of ASCII -/

/-- A letter has a small letter. -/
theorem asciiLower_ne_nil (c : ℕ) : (if 0x41 ≤ c ∧ c ≤ 0x5A then [c + 0x20] else [c]) ≠ [] := by
  split_ifs <;> simp

/-- A surrogate is no letter. -/
theorem asciiLower_surrogate (c : ℕ) (h : isSurrogate c = true) :
    (if 0x41 ≤ c ∧ c ≤ 0x5A then [c + 0x20] else [c]) = [c] := by
  simp only [isSurrogate, Bool.and_eq_true, decide_eq_true_eq] at h
  rw [if_neg (by omega)]

/-- Enough of the Unicode data for ASCII names. -/
def asciiData : UnicodeData where
  toLowerFull c := if 0x41 ≤ c ∧ c ≤ 0x5A then [c + 0x20] else [c]
  isCased c := (0x41 ≤ c && c ≤ 0x5A) || (0x61 ≤ c && c ≤ 0x7A)
  isCaseIgnorable c := c = 0x27 || c = 0x2E
  toLowerFull_ne_nil := asciiLower_ne_nil
  toLowerFull_surrogate := asciiLower_surrogate

/-- Names in ASCII, and bodies without links. -/
def asciiReader : Reader where
  unicode := asciiData
  isWord c := isAsciiAlnum c || (0x41 ≤ c && c ≤ 0x5A) || c = 0x5F
  isSpace c := c = 0x20 || (9 ≤ c && c ≤ 13)
  canonicalUrls _ := []
  canonicalize _ := none

/-- Legal forms, spaces and marks do not count. -/
example : asciiReader.normCompany (some "Stripe, Inc.") = asciiReader.normCompany (some " stripe") := by
  decide +kernel

end JobScripts.Mail
