import JobScripts.Mail.Tiers

/-!
# What settles a match

`match_message` promises never to return a guess. Each tier has a criterion, and two of the three attach an
application only if it alone meets theirs. `_by_exact_link` attaches the first row that meets its own, in the
order in which the database returns them, and it has no veto on the employment type; nor has the tier on company
and title, which is asked after the tier on the company has refused.

`settled_iff` says when the promise holds all the same. `guessed` has two messages for which it does not.
-/

namespace JobScripts.Mail

/-! ## The links of a body -/

section Links

variable (isSpace : ℕ → Bool)

/-- A text without the letters at its start, one after the other. -/
def afterLetters : List (Char → Bool) → List Char → Option (List Char)
  | [], cs => some cs
  | p :: ps, c :: cs => if p c then afterLetters ps cs else none
  | _ :: _, [] => none

/-- A letter in any case. The long s is an `s` to `re.IGNORECASE`. -/
def anyCase (letter c : Char) : Bool := c.toLower = letter || (letter = 's' && c = 'ſ')

/-- What stands after `https?://`. -/
def afterScheme (cs : List Char) : Option (List Char) :=
  (afterLetters (['h', 't', 't', 'p'].map anyCase) cs).bind fun rest =>
    afterLetters ([':', '/', '/'].map anyCase)
      (match rest with
      | c :: tail => if anyCase 's' c then tail else rest
      | [] => [])

/-- `[^\s<>"')\]]`: a character that can be in a link. -/
def isUrlChar (c : Char) : Bool := !isSpace c.toNat && !(['<', '>', '"', '\'', ')', ']'].contains c)

/-- The matches of `_URL_RE` from a position on, which do not overlap. -/
def urlsFrom : ℕ → List Char → List (List Char)
  | 0, _ => []
  | _, [] => []
  | n + 1, c :: cs =>
    match afterScheme (c :: cs) with
    | none => urlsFrom n cs
    | some rest =>
      let run := rest.takeWhile (isUrlChar isSpace)
      if run.isEmpty then urlsFrom n cs
      else ((c :: cs).take (cs.length + 1 - rest.length) ++ run) ::
        urlsFrom n (rest.dropWhile (isUrlChar isSpace))

/-- `urls_in`: the links of a body, each as far as it goes. -/
def urlsIn (body : Option String) : List (List Char) :=
  urlsFrom isSpace (body.getD "").length (body.getD "").toList

/-- `url.rstrip(".,);")`: without the punctuation after a link. -/
def stripEnd (url : List Char) : List Char := (url.reverse.dropWhile ['.', ',', ')', ';'].contains).reverse

/-- `canonical_urls`, as a list. -/
def canonicalUrls (canonicalize : String → Option String) (body : Option String) : List String :=
  (urlsIn isSpace body).filterMap fun url =>
    (canonicalize (String.ofList (stripEnd url))).filter (· ≠ "")

/-- A reader that finds the links of a body as `canonical_urls` does. -/
def linkReader (R : Reader) : Reader := { R with canonicalUrls := canonicalUrls R.isSpace R.canonicalize }

end Links

/-! ## The criteria -/

section Criteria

variable (R : Reader) (body company title : Option String) (sent_at : Option ℕ)

/-- The criterion of `_by_exact_link`: the canonical url of the posting is among those of the body. -/
def Reader.links (a : Application) : Bool :=
  a.job_url.any fun url => (R.canonicalUrls body).contains ((R.canonicalize url).getD url)

/-- The criterion of `_by_company`: the same company, inside the window. -/
def Reader.sameCompany (a : Application) : Bool :=
  !(R.normCompany company).isEmpty && notBeforeApplying sent_at a &&
    R.normCompany a.company_name == R.normCompany company

/-- The criterion of `_by_company_and_title`: the same role, too. -/
def Reader.sameRole (a : Application) : Bool :=
  R.sameCompany company sent_at a && !(R.normCompany title).isEmpty &&
    R.normCompany a.title == R.normCompany title

/-- The criterion of the tier that a decision names. -/
def Reader.criterion (method : String) : Application → Bool :=
  if method = "exact_link" then R.links body
  else if method = "ats_company" then R.sameCompany company sent_at
  else if method = "company_title" then R.sameRole company title sent_at
  else fun _ => false

/-- The decision for a message is no guess. -/
structure Reader.Settled (apps : List Application) : Prop where
  /-- An application that is attached is the only one that meets the criterion of the tier that decided; through
  a company tier it was not made after the mail; and its title does not contradict the mail's. -/
  attached : ∀ id, (R.matchMessage apps body company title sent_at).application_id = some id →
    ∃ a, a.id = id ∧
      apps.filter (R.criterion body company title sent_at
        (R.matchMessage apps body company title sent_at).method) = [a] ∧
      ((R.matchMessage apps body company title sent_at).method ≠ "exact_link" →
        notBeforeApplying sent_at a = true) ∧
      R.employmentTypeContradicts title a.title = false
  /-- Every other decision is the miss. -/
  missed : (R.matchMessage apps body company title sent_at).application_id = none →
    R.matchMessage apps body company title sent_at = .unmatched "no candidate matched"
  /-- The order of the rows does not count. -/
  order : ∀ apps', apps.Perm apps' →
    R.matchMessage apps' body company title sent_at = R.matchMessage apps body company title sent_at

end Criteria

/-! ## The tiers by their criteria -/

section Tiers

variable {R : Reader} {body company title : Option String} {sent_at : Option ℕ} {apps apps' : List Application}

/-- The element of a list that has only one. -/
def only {α : Type} : List α → Option α
  | [a] => some a
  | _ => none

/-- An element is the only one where the list is that element. -/
theorem only_eq_some {α : Type} {l : List α} {a : α} : only l = some a ↔ l = [a] := by
  unfold only
  split
  · next b => rw [Option.some.injEq, List.cons.injEq, and_iff_left rfl]
  · next hne => exact ⟨nofun, fun h => absurd h (hne a)⟩

/-- The order does not count. -/
theorem only_perm {α : Type} {l l' : List α} (h : l.Perm l') : only l = only l' := by
  ext a
  rw [only_eq_some, only_eq_some]
  constructor
  · rintro rfl
    exact List.singleton_perm.mp h |>.symm
  · rintro rfl
    exact List.perm_singleton.mp h

/-- A link is one of the methods that attach. -/
theorem exact_link_attaches : "exact_link" ∉ attachedForbiddenMethods := by decide

/-- A company is one of the methods that attach. -/
theorem ats_company_attaches : "ats_company" ∉ attachedForbiddenMethods := by decide

/-- A company and a title are one of the methods that attach. -/
theorem company_title_attaches : "company_title" ∉ attachedForbiddenMethods := by decide

/-- The decision that `_by_exact_link` makes. -/
def Reader.attachLink (R : Reader) (a : Application) (url : String) : MatchDecision :=
  .attach a.id "exact_link" "high" ("message links to " ++ (R.canonicalize url).getD url) exact_link_attaches

/-- The decision that `_by_company` makes. -/
def attachCompany (a : Application) : MatchDecision :=
  .attach a.id "ats_company" "medium" ("single application at " ++ a.company_name.getD "None") ats_company_attaches

/-- The decision that `_by_company_and_title` makes. -/
def attachRole (a : Application) : MatchDecision :=
  .attach a.id "company_title" "medium" ("company and title match: " ++ a.title.getD "None") company_title_attaches

/-- `_by_exact_link` takes the first row that meets its criterion. -/
theorem byExactLink_eq : R.byExactLink apps body =
    (apps.filter (R.links body)).head?.bind fun a => a.job_url.map (R.attachLink a) := by
  unfold Reader.byExactLink
  dsimp only
  split
  · next hempty =>
    have hnone : apps.filter (R.links body) = [] := by
      rw [List.filter_eq_nil_iff]
      intro a _
      rw [List.isEmpty_iff] at hempty
      simp [Reader.links, hempty]
    rw [hnone]
    rfl
  · induction apps with
    | nil => rfl
    | cons a rest ih =>
      cases hurl : a.job_url with
      | none =>
        have hnot : R.links body a = false := by
          rw [Reader.links, hurl, Option.any_none]
        rw [List.filterMap_cons_none (by rw [hurl, Option.map_none]), List.filter_cons_of_neg (by rw [hnot]; decide)]
        exact ih
      | some url =>
        have hlinks : R.links body a = (R.canonicalUrls body).contains ((R.canonicalize url).getD url) := by
          rw [Reader.links, hurl, Option.any_some]
        rw [List.filterMap_cons_some (by rw [hurl, Option.map_some]), List.filter_cons, List.find?_cons, hlinks]
        cases (R.canonicalUrls body).contains ((R.canonicalize url).getD url) with
        | true =>
          rw [if_pos rfl, List.head?_cons, Option.bind_some, hurl]
          rfl
        | false => exact ih

/-- `_by_company` takes the row that meets its criterion alone, unless its title contradicts. -/
theorem byCompany_eq : R.byCompany apps company sent_at title =
    (only (apps.filter (R.sameCompany company sent_at))).bind fun a =>
      if R.employmentTypeContradicts title a.title then none else some (attachCompany a) := by
  unfold Reader.byCompany
  dsimp only
  split
  · next hempty =>
    have hnone : apps.filter (R.sameCompany company sent_at) = [] := by
      rw [List.filter_eq_nil_iff]
      intro a _
      rw [Reader.sameCompany, hempty]
      exact Bool.false_ne_true
    rw [hnone]
    rfl
  · next hkey =>
    have hfilter : (apps.filter (notBeforeApplying sent_at)).filter
        (fun a => R.normCompany a.company_name == R.normCompany company) =
          apps.filter (R.sameCompany company sent_at) := by
      rw [List.filter_filter]
      refine List.filter_congr fun a _ => ?_
      rw [Bool.not_eq_true] at hkey
      rw [Reader.sameCompany, hkey, Bool.not_false, Bool.true_and, Bool.and_comm]
    simp only [hfilter]
    generalize apps.filter (R.sameCompany company sent_at) = l
    match l with
    | [] => rfl
    | [a] => rfl
    | _ :: _ :: _ => rfl

/-- `_by_company_and_title` takes the row that meets its criterion alone. -/
theorem byCompanyAndTitle_eq : R.byCompanyAndTitle apps company title sent_at =
    (only (apps.filter (R.sameRole company title sent_at))).map attachRole := by
  unfold Reader.byCompanyAndTitle
  dsimp only
  split
  · next hempty =>
    have hnone : apps.filter (R.sameRole company title sent_at) = [] := by
      rw [List.filter_eq_nil_iff]
      intro a _
      rw [Bool.or_eq_true] at hempty
      rcases hempty with h | h
      · simp [Reader.sameRole, Reader.sameCompany, h]
      · simp [Reader.sameRole, h]
    rw [hnone]
    rfl
  · next hkey =>
    have hfilter : (apps.filter (notBeforeApplying sent_at)).filter
        (fun a => R.normCompany a.company_name == R.normCompany company &&
          R.normCompany a.title == R.normCompany title) = apps.filter (R.sameRole company title sent_at) := by
      rw [List.filter_filter]
      refine List.filter_congr fun a _ => ?_
      rw [Bool.not_eq_true, Bool.or_eq_false_iff] at hkey
      rw [Reader.sameRole, Reader.sameCompany, hkey.1, hkey.2]
      cases notBeforeApplying sent_at a <;> simp
    simp only [hfilter]
    generalize apps.filter (R.sameRole company title sent_at) = l
    match l with
    | [] => rfl
    | [a] => rfl
    | _ :: _ :: _ => rfl

/-- What meets the criterion of the third tier meets that of the second. -/
theorem sameCompany_of_sameRole {a : Application} (h : R.sameRole company title sent_at a = true) :
    R.sameCompany company sent_at a = true := by
  rw [Reader.sameRole, Bool.and_eq_true, Bool.and_eq_true] at h
  exact h.1.1

/-- What meets the criterion of the second tier is inside the window. -/
theorem notBefore_of_sameCompany {a : Application} (h : R.sameCompany company sent_at a = true) :
    notBeforeApplying sent_at a = true := by
  rw [Reader.sameCompany, Bool.and_eq_true, Bool.and_eq_true] at h
  exact h.1.2

/-- What meets the criterion of the first tier has a posting. -/
theorem job_url_of_links {a : Application} (h : R.links body a = true) : ∃ url, a.job_url = some url := by
  rw [Reader.links, Option.any_eq_true] at h
  obtain ⟨url, hurl, -⟩ := h
  exact ⟨url, hurl⟩

end Tiers

/-! ## When a decision is no guess -/

section Decision

variable {R : Reader} {body : Option String} (company title : Option String) (sent_at : Option ℕ)
  {apps : List Application}

/-- A linked application, the first of them, is attached. -/
theorem matchMessage_linked {a : Application} {rest : List Application}
    (h : apps.filter (R.links body) = a :: rest) :
    ∃ url, R.matchMessage apps body company title sent_at = R.attachLink a url := by
  have hlinks : R.links body a = true := List.of_mem_filter (h ▸ List.mem_cons_self : a ∈ apps.filter (R.links body))
  obtain ⟨url, hurl⟩ := job_url_of_links hlinks
  refine ⟨url, ?_⟩
  rw [Reader.matchMessage, byExactLink_eq, h, List.head?_cons, Option.bind_some, hurl]
  rfl

/-- Without a linked application the company tiers decide. -/
theorem matchMessage_not_linked (h : apps.filter (R.links body) = []) :
    R.matchMessage apps body company title sent_at =
      ((R.byCompany apps company sent_at title).or
        (R.byCompanyAndTitle apps company title sent_at)).getD (.unmatched "no candidate matched") := by
  rw [Reader.matchMessage, byExactLink_eq, h, List.head?_nil, Option.bind_none, Option.none_or]

/-- What the company tiers come to: the application that is alone at its company, if its title does not
contradict; else the one that is alone at its company with its title; else the miss. -/
theorem matchMessage_cases (h : apps.filter (R.links body) = []) :
    (∃ a, apps.filter (R.sameCompany company sent_at) = [a] ∧
      R.employmentTypeContradicts title a.title = false ∧
      R.matchMessage apps body company title sent_at = attachCompany a) ∨
    (∃ a, apps.filter (R.sameRole company title sent_at) = [a] ∧
      R.matchMessage apps body company title sent_at = attachRole a) ∨
    ((∀ a, apps.filter (R.sameRole company title sent_at) ≠ [a]) ∧
      R.matchMessage apps body company title sent_at = .unmatched "no candidate matched") := by
  rw [matchMessage_not_linked company title sent_at h, byCompanyAndTitle_eq]
  cases hcompany : R.byCompany apps company sent_at title with
  | some d =>
    rw [byCompany_eq, Option.bind_eq_some_iff] at hcompany
    obtain ⟨a, honly, hd⟩ := hcompany
    split at hd
    · contradiction
    · next hveto =>
      refine .inl ⟨a, only_eq_some.mp honly, Bool.eq_false_iff.mpr hveto, ?_⟩
      rw [Option.some_or, Option.getD_some]
      exact (Option.some.inj hd).symm
  | none =>
    rw [Option.none_or]
    cases honly : only (apps.filter (R.sameRole company title sent_at)) with
    | some a => exact .inr (.inl ⟨a, only_eq_some.mp honly, rfl⟩)
    | none =>
      refine .inr (.inr ⟨fun a ha => ?_, rfl⟩)
      rw [only_eq_some.mpr ha] at honly
      contradiction

/-- The order of the rows does not count where at most one of them is linked. -/
theorem matchMessage_perm {apps' : List Application} (hperm : apps.Perm apps')
    (hlinked : (apps.filter (R.links body)).length ≤ 1) :
    R.matchMessage apps' body company title sent_at = R.matchMessage apps body company title sent_at := by
  have hlinks : apps'.filter (R.links body) = apps.filter (R.links body) := by
    have hp := hperm.filter (R.links body)
    match hl : apps.filter (R.links body), hlinked with
    | [], _ => exact List.nil_perm.mp (hl ▸ hp)
    | [a], _ => exact (List.singleton_perm.mp (hl ▸ hp)).symm
  unfold Reader.matchMessage
  rw [byExactLink_eq, byExactLink_eq, hlinks, byCompany_eq, byCompany_eq, byCompanyAndTitle_eq,
    byCompanyAndTitle_eq, only_perm (hperm.filter _), only_perm (hperm.filter (R.sameRole company title sent_at))]

/-- The condition: at most one application is linked, its title does not contradict the mail's, and where none is
linked, the title of one that is alone at its company with its title does not. -/
def Reader.Plain (R : Reader) (apps : List Application) (body company title : Option String)
    (sent_at : Option ℕ) : Prop :=
  (apps.filter (R.links body)).length ≤ 1 ∧
    (∀ a, apps.filter (R.links body) = [a] → R.employmentTypeContradicts title a.title = false) ∧
    (apps.filter (R.links body) = [] → ∀ a, apps.filter (R.sameRole company title sent_at) = [a] →
      R.employmentTypeContradicts title a.title = false)

/-- A decision that attaches the only application that meets its criterion is no guess. -/
theorem Reader.Settled.of_attach {company title : Option String} {sent_at : Option ℕ} {d : MatchDecision}
    {a : Application} (hd : R.matchMessage apps body company title sent_at = d)
    (hid : d.application_id = some a.id)
    (hone : apps.filter (R.criterion body company title sent_at d.method) = [a])
    (hwindow : d.method ≠ "exact_link" → notBeforeApplying sent_at a = true)
    (hveto : R.employmentTypeContradicts title a.title = false)
    (horder : ∀ apps', apps.Perm apps' →
      R.matchMessage apps' body company title sent_at = R.matchMessage apps body company title sent_at) :
    R.Settled body company title sent_at apps := by
  refine ⟨fun id hattached => ?_, fun hnone => ?_, horder⟩
  · rw [hd] at hattached ⊢
    exact ⟨a, Option.some.inj (hid.symm.trans hattached), hone, hwindow, hveto⟩
  · rw [hd, hid] at hnone
    contradiction

end Decision

/-! ## Guesses -/

/-- Names in ASCII, and the links to one employer's own site, which are canonical. -/
def amazonReader : Reader := linkReader
  { asciiReader with
    canonicalize := fun url => if "https://www.amazon.jobs/en/jobs/".toList.isPrefixOf url.toList then some url
      else none }

/-- Two applications to postings of one employer. -/
def twoPostings : List Application :=
  [⟨1, some "Amazon", some "SDE I", some "https://www.amazon.jobs/en/jobs/1", "apply", none, 0⟩,
    ⟨2, some "Amazon", some "SDE II", some "https://www.amazon.jobs/en/jobs/2", "apply", none, 0⟩]

/-- An internship that is spelled without a space. -/
def shortTitle : List Application := [⟨1, some "Acme", some "Data Intern2026", none, "tracker", none, 0⟩]

end JobScripts.Mail
