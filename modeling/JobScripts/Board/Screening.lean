import Mathlib.Data.List.Nodup
import Mathlib.Data.List.Sort
import Mathlib.Data.String.Basic
import JobScripts.Lib.Regex
import JobScripts.Lib.Text

/-!
# Title screens

`core/screening.py`. A recipe is an ordered list of rules, each a pattern for the title or a set of sources; the
first rule that matches decides, and a default where none does. `screen` reads the list in Python; `skips_sql`
writes it as a SQL `CASE` whose patterns, with `\b` replaced by `\y`, are parameters of the statement.

The two engines read the patterns alike but for `.`, which matches a newline in PostgreSQL and not in Python. So
the screens agree wherever each rule that is reached is matched alike by both (`ReadAlike`): where the recipe has
no `.`, where the title has no newline, and wherever none tips a match. Where a rule is matched by one engine only,
the other goes on to the rules after it, and the screens agree only if these happen to come to the same
(`screens_agree`); `newline_title_screened_apart` is a title on which they do not.
-/

namespace JobScripts.Board.Screening

open Lib

/-! ## Recipes -/

/-- `Screen`: what a rule decides, and why. -/
structure Screen where
  skip : Bool
  reason : String

/-- What a rule tests: the title, or the source. -/
inductive Test
  | title (pattern : String)
  | sources (names : List String)

/-- `_Rule`: a decision, and the test that leads to it. -/
structure Rule where
  decides : Screen
  test : Test

/-- `_keep`: a rule that keeps a posting. -/
def keep (reason : String) (test : Test) : Rule := ⟨⟨false, reason⟩, test⟩

/-- `_skip`: a rule that skips a posting by its title. -/
def skip (reason : String) (pattern : String) : Rule := ⟨⟨true, reason⟩, .title pattern⟩

/-- `_TECHNICAL`: the words of technical work. -/
def technical : String :=
  r"\b(?:engineer\w*|software|developer\w*|data|analyst\w*|product|program|" ++
  r"technical|technology|computer|computing|systems?|infrastructure|platform|" ++
  r"automation|robot\w*|firmware|embedded|machine learning|artificial intelligence|" ++
  r"research|scientist|science|cyber\w*|devops|sre|it|ux|ui|solutions?|" ++
  r"consult\w*|quant\w*|ai|ml)\b"

/-- `_CURATED_INTERNSHIP_SOURCES`: the sources that list internships only. -/
def curatedInternshipSources : List String :=
  ["internships", "speedyapply_intern", "speedyapply_ai_intern", "internships_ouckah"]

/-- `_INTERNSHIP_SIGNAL`: the words of a posting that may be an internship. -/
def internshipSignal : String :=
  r"\b(?:intern(?:ship)?s?|co[ -]?op|student|university|summer (?:analyst|associate)|intensive program)\b"

/-- `_EXPLICIT_INTERNSHIP`: the words of a posting that is an internship. -/
def explicitInternship : String :=
  r"\b(?:intern(?:ship)?s?|co[ -]?op|summer (?:analyst|associate)|intensive program)\b"

/-- `_EXPERIENCED`: the words of a senior position. -/
def experienced : String := r"\b(?:senior|sr\.?|principal|lead|director|head|vice president|vp|chief)\b"

/-- `_AERO_MAJOR_SIGNAL`: the words of work that a student of aerospace engineering can do. -/
def aeroMajorSignal : String :=
  r"\b(?:aero\w*|astro\w*|avionics?|propulsion|spacecraft|satellites?|launch|rockets?" ++
  r"|flight|gn&?c|guidance|aircraft|airframes?|orbital|mechanical|structur(?:al|es)|stress" ++
  r"|thermal|fluids?|cfd|aerodynamics?|controls?|dynamics|mechatronics?|composites?" ++
  r"|materials|reliability|(?:systems?|test|manufacturing|integration|design|hardware" ++
  r"|quality|process|industrial|mission) engineer\w*)\b"

/-- `_OCCUPATION_WORDS`: the words of occupations that no recipe is for. -/
def occupationWords : List String :=
  ["accountant", "accounting", "aide", "auditor", "baker", "bakery", "behavioral",
    "beverage", "billing", "cardiology", "cdl", "chef", "cleaner", "clinician", "cook",
    "diesel", "expeditor", "forklift", "icu", "infusion", "inpatient", "janitorial",
    "kitchen", "loader", "lpn", "neurology", "nurse", "pathologist", "patient", "payroll",
    "pediatrics", "pharmacist", "physician", "picker", "porter", "practitioner",
    "recruiting", "respiratory", "secretary", "sous", "speech", "teacher", "teller",
    "therapist", "therapy", "underwriter", "urology"]

/-- `_INTERNSHIP_ROLE`: the words of an internship or an apprenticeship. -/
def internshipRole : String := r"\b(?:intern(?:ship)?s?|co[ -]?op|apprentice(?:ship)?)\b"

/-- `_REJECTED_LEVEL_ONLY`: a senior position that is offered at no lower level. -/
def rejectedLevelOnly : String :=
  r"^(?!.*(?:/|&|\+|\bor\b|\band\b|\bentry\b|\bjunior\b|\bjr\b|\bintermediate\b|\bmid\b" ++
  r"|\bnew grad|\bearly career|\bgraduate\b|\b(?:i|ii|iii|1|2|3)\b|\bmember of\b" ++
  r"|\btechnical staff\b|\bstaff\s*:|\bstaff\s*$|\bstaff (?:accountant|nurse|pharmacist)\b))" ++
  r".*\b(?:senior|sr\.?|principal|staff|lead)\b"

/-- `_ACCEPTED_WORK`: the words of work that is kept whatever else the title says. -/
def acceptedWork : String :=
  r"\b(?:engineer\w*|software|developer\w*|programmer|data|scien\w*|machine learning|ml|ai|" ++
  r"cloud|platform|infrastructure|devops|sre|backend|frontend|full[- ]?stack|architect|" ++
  r"quant\w*|research\w*|product|analyst)\b"

/-- `_REJECTED_ROLE_ONLY`: work in the field or by the hour, with no word of work that is kept. -/
def rejectedRoleOnly : String :=
  r"^(?!.*" ++ acceptedWork ++ r").*(?:\btechnicians?\b|\btech\b(?! lead)" ++
  r"|\bfield (?:service|technician|representative|rep|operations|support)\b" ++
  r"|\boperations? (?:associate|specialist|coordinator|assistant|representative|agent|clerk)\b" ++
  r"|\boperator\b|\b(?:hourly|part[- ]time|per diem|seasonal|temporary|prn)\b)"

/-- `_EARLY_CAREER`: the words of a position for those who start. -/
def earlyCareer : String :=
  r"\b(?:new grad\w*|graduate|campus|early career|entry[- ]level|university" ++
  r"|analyst program|development program|full[- ]time analyst)\b"

/-- `_FINANCE_EXPERIENCED`: a senior position in finance that is none for those who start. -/
def financeExperienced : String :=
  r"^(?!.*" ++ earlyCareer ++ r").*\b(?:senior|sr\.?|principal|director|vice president|vp|svp" ++
  r"|managing director|executive director|head|chief|lead)\b"

/-- `_FINANCE_MANAGER`: a manager or a partner, where no analyst or associate is looked for. -/
def financeManager : String :=
  r"^(?!.*" ++ earlyCareer ++ r")(?!.*\b(?:analyst|associate)s?\b).*\b(?:managers?|partners?)\b"

/-- `_QUANT`: the words of quantitative work. -/
def quant : String := r"\b(?:quant|quants|quantitative|financial engineer\w*)\b"

/-- `_NON_QUANT_TECHNICAL`: technical work that is not quantitative. -/
def nonQuantTechnical : String :=
  r"^(?!.*" ++ quant ++ r").*\b(?:software|developer\w*|engineer\w*|programmer|devops|sre" ++
  r"|architect|cyber\w*)\b"

/-- `_CORE_FINANCE`: the words of work that is surely in finance. -/
def coreFinance : String :=
  quant ++ r"|\b(?:investment bank\w*|sales (?:and|&) trading|equity research" ++
  r"|private equity|private credit|asset management|corporate finance|fp&a" ++
  r"|leveraged finance|m&a|fixed income|analyst (?:development )?program)\b"

/-- `_RETAIL_BANKING`: the words of work at the counter of a bank. -/
def retailBanking : String :=
  r"\b(?:bankers?|banking advisor|branch|teller|part[- ]time|\d+ hours?|safe act|mlo" ++
  r"|loan officer|mortgage|client advisor|financial advisor|financial solutions advisor" ++
  r"|planning advisor|advisor development program|collections?)\b"

/-- `_FINANCE_SIGNAL`: the words of work that may be in finance. -/
def financeSignal : String :=
  r"\b(?:investments?|investing|investor\w*|banking|trader|traders|trading|markets" ++
  r"|wealth|private markets|credit|financ\w*|leveraged|mergers|restructuring" ++
  r"|structured (?:finance|products|credit)|treasury|valuation|portfolio|risk|hedge" ++
  r"|funds?|capital|securities|derivatives|underwrit\w*|equities|commodities|lending" ++
  r"|economist|macro|budget\w*|forecasting|liquidity|fx|full[- ]time analyst)\b"

/-- `_FINANCE_INTERNSHIP`: the words of an internship or an apprenticeship, in finance. -/
def financeInternship : String := explicitInternship ++ r"|\bapprentice(?:ship)?s?\b"

/-- `_EARLY_CAREER_V2`: the words of a position for those who start, with rotations and leadership programs. -/
def earlyCareerV2 : String :=
  r"\b(?:new grad\w*|graduate|campus|early career|entry[- ]level|university" ++
  r"|analyst program|development program|full[- ]time analyst|rotational" ++
  r"|leadership (?:development )?program)\b"

/-- `_FINANCE_EXPERIENCED_V2`: `_FINANCE_EXPERIENCED` with the ranks of consulting. -/
def financeExperiencedV2 : String :=
  r"^(?!.*" ++ earlyCareerV2 ++ r").*\b(?:senior|sr\.?|principal|director|vice president|vp|svp" ++
  r"|managing (?:director|consultant)|executive director|head|chief|lead|experienced" ++
  r"|associate partner)\b"

/-- `_FINANCE_MANAGER_V2`: `_FINANCE_MANAGER` with the second list of positions for those who start. -/
def financeManagerV2 : String :=
  r"^(?!.*" ++ earlyCareerV2 ++ r")(?!.*\b(?:analyst|associate)s?\b).*\b(?:managers?|partners?)\b"

/-- `_CORE_FINANCE_V2`: `_CORE_FINANCE` with consulting, audit and tax. -/
def coreFinanceV2 : String :=
  coreFinance ++ r"|\b(?:management consult\w*|strategy consult\w*|economic consult\w*" ++
  r"|transaction (?:advisory|services)|restructuring|corporate banking|commercial banking" ++
  r"|audit (?:assistant|associate|staff)|tax (?:associate|staff)|valuation)\b" ++
  r"|^(?=.*\b(?:bank\w*|financ\w*)\b).*\bleadership (?:development )?program"

/-- `_TECH_CONSULTING`: consulting on technology. -/
def techConsulting : String :=
  r"\b(?:sap|salesforce|servicenow|workday|oracle|erp|crm|cloud|it|technical|implementation" ++
  r"|integration|functional|technology|data|digital|cyber\w*|network|security|ai|devops)\b" ++
  r".*\bconsult\w*|\bconsult\w*.*\b(?:sap|salesforce|servicenow|workday|oracle|erp|crm|cloud" ++
  r"|it|technical|implementation|integration|functional|technology|data|digital|cyber\w*" ++
  r"|network|security|ai|devops)\b"

/-- `_NON_FINANCE_V2`: `_RETAIL_BANKING` with sales, clerks and support. -/
def nonFinanceV2 : String :=
  retailBanking ++
  r"|\b(?:sales (?:consultant|associate|representative|rep|specialist)|retail|store" ++
  r"|accounts (?:payable|receivable)|bookkeep\w*|payroll|billing|claims?|call center" ++
  r"|customer (?:service|support|care)|insurance (?:agent|sales)|quality assurance|qa)\b"

/-- `_FINANCE_SIGNAL_V2`: `_FINANCE_SIGNAL` with consulting and audit. -/
def financeSignalV2 : String :=
  financeSignal ++ r"|" ++ earlyCareerV2 ++ r".*\bconsult\w*|\bconsult\w*.*" ++ earlyCareerV2 ++
  r"|\b(?:(?:management|strategy|economic|financial|restructuring|transaction|deals?" ++
  r"|business|risk|valuation) consult\w*|consulting (?:analyst|associate)" ++
  r"|(?:advisory|deals|strategy consulting) (?:analyst|associate|consultant)" ++
  r"|(?:audit|assurance|tax) (?:analyst|associate|assistant|staff|consultant)" ++
  r"|internal audit|external audit|economic analyst|associate consultant)\b"

/-- The keys of `RECIPES`. -/
inductive Recipe
  | internship_v1
  | new_grad_v1
  | aero_major_v1
  | nontechnical_occupations_v1
  | occupation_words_v1
  | levels_occupations_v1
  | levels_roles_occupations_v1
  | finance_new_grad_v1
  | finance_new_grad_v2
  deriving DecidableEq

/-- The recipes in the order of the dictionary. -/
def recipes : List Recipe :=
  [.internship_v1, .new_grad_v1, .aero_major_v1, .nontechnical_occupations_v1, .occupation_words_v1,
    .levels_occupations_v1, .levels_roles_occupations_v1, .finance_new_grad_v1, .finance_new_grad_v2]

/-- The key as text. -/
def Recipe.name : Recipe → String
  | .internship_v1 => "internship_v1"
  | .new_grad_v1 => "new_grad_v1"
  | .aero_major_v1 => "aero_major_v1"
  | .nontechnical_occupations_v1 => "nontechnical_occupations_v1"
  | .occupation_words_v1 => "occupation_words_v1"
  | .levels_occupations_v1 => "levels_occupations_v1"
  | .levels_roles_occupations_v1 => "levels_roles_occupations_v1"
  | .finance_new_grad_v1 => "finance_new_grad_v1"
  | .finance_new_grad_v2 => "finance_new_grad_v2"

/-- The rules of `nontechnical_occupations_v1`. -/
def nontechnicalRules : List Rule :=
  [keep "technical_title" (.title technical),
    skip "clinical_care"
      (r"\b(?:registered nurse|licensed (?:practical|vocational) nurse|nursing assistant|" ++
      r"nurse practitioner|phlebotomist|pharmacist|dental hygienist|" ++
      r"physical therapist|occupational therapist|radiologic technologist)\b"),
    skip "retail_service"
      (r"\b(?:cashier|retail sales associate|store manager|customer service rep(?:resentative)?|" ++
      r"deli clerk|night crew stocker|in-store shopper)\b"),
    skip "driving" r"\b(?:delivery driver|commercial driver|truck driver)\b",
    skip "hospitality_cleaning"
      (r"\b(?:janitorial cleaner|custodial cleaner|custodian|housekeeper|dishwasher|" ++
      r"bartender|line cook|prep cook|restaurant server)\b")]

/-- The rules that `levels_occupations_v1` has first. -/
def levelRules : List Rule :=
  [skip "internship_role" internshipRole, skip "rejected_level_only" rejectedLevelOnly]

/-- The rules of a recipe. -/
def Recipe.rules : Recipe → List Rule
  | .internship_v1 =>
    [keep "curated_internship_source" (.sources curatedInternshipSources),
      keep "internship_title_signal" (.title internshipSignal)]
  | .new_grad_v1 =>
    [skip "internship_title_signal" explicitInternship, skip "experienced_title_signal" experienced]
  | .aero_major_v1 => [keep "aero_major_title_signal" (.title aeroMajorSignal)]
  | .nontechnical_occupations_v1 => nontechnicalRules
  | .occupation_words_v1 =>
    [keep "technical_title" (.title technical),
      skip "unrelated_occupation" (r"\b(?:" ++ "|".intercalate occupationWords ++ r")\b")]
  | .levels_occupations_v1 => levelRules ++ nontechnicalRules
  | .levels_roles_occupations_v1 => levelRules ++ skip "rejected_role_only" rejectedRoleOnly :: nontechnicalRules
  | .finance_new_grad_v1 =>
    [skip "internship_title_signal" explicitInternship,
      skip "experienced_title_signal" financeExperienced,
      skip "manager_title_signal" financeManager,
      skip "technical_title" nonQuantTechnical,
      keep "core_finance_title" (.title coreFinance),
      skip "retail_banking_title" retailBanking,
      keep "finance_title_signal" (.title financeSignal)]
  | .finance_new_grad_v2 =>
    [skip "internship_title_signal" financeInternship,
      skip "experienced_title_signal" financeExperiencedV2,
      skip "manager_title_signal" financeManagerV2,
      skip "technical_title" nonQuantTechnical,
      keep "core_finance_title" (.title coreFinanceV2),
      skip "technology_consulting_title" techConsulting,
      skip "non_finance_title" nonFinanceV2,
      keep "finance_title_signal" (.title financeSignalV2)]

/-- What a recipe decides where no rule matches. -/
def Recipe.default : Recipe → Screen
  | .internship_v1 => ⟨true, "no_internship_title_signal"⟩
  | .new_grad_v1 => ⟨false, "possible_new_grad_title"⟩
  | .aero_major_v1 => ⟨true, "no_aero_major_title_signal"⟩
  | .nontechnical_occupations_v1 | .occupation_words_v1 | .levels_occupations_v1 | .levels_roles_occupations_v1 =>
    ⟨false, "no_listed_occupation"⟩
  | .finance_new_grad_v1 | .finance_new_grad_v2 => ⟨true, "no_finance_title_signal"⟩

/-! ## The screen in Python -/

section Python

variable (e : Engine)

/-- A pattern spelled for an engine is found in a text. -/
def found (boundary : Char) (newline : Bool) (pattern text : String) : Bool :=
  (Regex.parse boundary pattern.toList).any (Regex.search e newline text.toList)

/-- A rule matches, under a reading of `.`: `rule.title.search(text) if rule.title else source in rule.sources`. -/
def Rule.matches (newline : Bool) (text : String) (source : Option String) (rule : Rule) : Bool :=
  match rule.test with
  | .title pattern => found e 'b' newline pattern text
  | .sources names => source.any fun name => name ∈ names

/-- The first rule that matches decides, or the default. -/
def decision (newline : Bool) (text : String) (source : Option String) (default : Screen) : List Rule → Screen
  | [] => default
  | rule :: rest =>
    if rule.matches e newline text source then rule.decides else decision newline text source default rest

/-- `title or ""`, and `COALESCE(title, '')`: a title that is missing is empty. -/
def titleText (title : Option String) : String := title.getD ""

/-- `screen`. In Python `.` does not match a newline. -/
def screen (recipe : Recipe) (title source : Option String) : Screen :=
  decision e false (titleText title) source recipe.default recipe.rules

end Python

/-! ## The screen in SQL -/

/-- `.replace(r"\b", r"\y")`, on characters. -/
def respell : List Char → List Char
  | '\\' :: 'b' :: rest => '\\' :: 'y' :: respell rest
  | c :: rest => c :: respell rest
  | [] => []

/-- `_postgres`: a pattern as the database spells it. -/
def postgres (pattern : String) : String := String.ofList (respell pattern.toList)

/-- `_param`: the name of the parameter of a rule. -/
def param (recipe : String) (index : ℕ) : String := "screening_" ++ recipe ++ "_" ++ toString index

/-- The value of a parameter. -/
inductive Value
  | pattern (text : String)
  | names (names : List String)

/-- What a rule binds. -/
def Rule.value (rule : Rule) : Value :=
  match rule.test with
  | .title pattern => .pattern (postgres pattern)
  | .sources names => .names (names.insertionSort fun a b => a ≤ b)

/-- The parameters of one recipe. -/
def Recipe.params (recipe : Recipe) : List (String × Value) :=
  recipe.rules.zipIdx.map fun (rule, n) => (param recipe.name n, rule.value)

/-- `PARAMS`: the parameters of all recipes. -/
def params : List (String × Value) := recipes.flatMap Recipe.params

section Sql

variable (e : Engine)

/-- The condition of one `WHEN`, with the parameter that it names. In PostgreSQL `.` matches a newline, and a
NULL source is equal to no name. -/
def whenSql (rule : Rule) (key : String) (text : String) (source : Option String) : Bool :=
  match rule.test, params.lookup key with
  | .title _, some (.pattern pattern) => found e 'y' true pattern text
  | .sources _, some (.names names) => source.any fun name => name ∈ names
  | _, _ => false

/-- The `CASE` of a recipe from one of its rules on. -/
def caseSql (recipe : Recipe) (text : String) (source : Option String) : ℕ → List Rule → Bool
  | _, [] => recipe.default.skip
  | n, rule :: rest =>
    if whenSql e rule (param recipe.name n) text source then rule.decides.skip
    else caseSql recipe text source (n + 1) rest

/-- The value of `skips_sql`: the arm whose name the recipe is, else false. -/
def skipsSql (recipe : Option String) (title source : Option String) : Bool :=
  match recipes.find? fun r => recipe = some r.name with
  | some r => caseSql e r (titleText title) source 0 r.rules
  | none => false

end Sql

/-! ## The parameters are the rules -/

/-- What stands before the last of a character is known by the text, and what stands after it. -/
theorem split_last {α : Type} {a : α} {x x' y y' : List α} (hy : a ∉ y) (hy' : a ∉ y')
    (h : x ++ a :: y = x' ++ a :: y') : x = x' ∧ y = y' := by
  rcases List.append_eq_append_iff.mp h with ⟨z, hz, hrest⟩ | ⟨z, hz, hrest⟩
  · cases z with
    | nil => exact ⟨(hz.trans (List.append_nil x)).symm, (List.cons.inj hrest).2⟩
    | cons b z =>
      obtain ⟨-, rfl⟩ := List.cons.inj hrest
      exact absurd (List.mem_append_right z List.mem_cons_self) hy
  · cases z with
    | nil => exact ⟨hz.trans (List.append_nil x'), (List.cons.inj hrest).2.symm⟩
    | cons b z =>
      obtain ⟨-, rfl⟩ := List.cons.inj hrest
      exact absurd (List.mem_append_right z List.mem_cons_self) hy'

/-- The name of a parameter tells the recipe and the rule. -/
theorem param_inj {name name' : String} {n n' : ℕ} (h : param name n = param name' n') : name = name' ∧ n = n' := by
  have hlist := congrArg String.toList h
  unfold param at hlist
  rw [String.toList_append, String.toList_append, String.toList_append, String.toList_append, String.toList_append,
    String.toList_append, List.append_assoc, List.append_assoc] at hlist
  have hkey : name.toList ++ '_' :: (toString n).toList = name'.toList ++ '_' :: (toString n').toList := by
    rw [List.append_assoc, List.append_assoc] at hlist
    exact List.append_cancel_left hlist
  rw [Nat.toString_eq_ofList_toDigits, Nat.toString_eq_ofList_toDigits, String.toList_ofList,
    String.toList_ofList] at hkey
  obtain ⟨hname, hn⟩ := split_last Nat.underscore_not_in_toDigits Nat.underscore_not_in_toDigits hkey
  exact ⟨String.toList_injective hname, toDigits_inj hn⟩

/-- Every recipe is in the dictionary. -/
theorem mem_recipes (recipe : Recipe) : recipe ∈ recipes := by
  cases recipe <;> decide

/-- No two recipes have one name. -/
theorem name_injective : Function.Injective Recipe.name := by
  intro recipe recipe' h
  have hnodup : (recipes.map Recipe.name).Nodup := by decide +kernel
  exact List.inj_on_of_nodup_map hnodup (mem_recipes recipe) (mem_recipes recipe') h

/-- No two parameters have one name. -/
instance nodup_params : Fact (params.map Prod.fst).Nodup where
  out := by
    unfold params
    rw [List.map_flatMap, List.nodup_flatMap]
    have hkeys : ∀ recipe : Recipe, recipe.params.map Prod.fst =
        (recipe.rules.zipIdx.map Prod.snd).map (param recipe.name) := by
      intro recipe
      unfold Recipe.params
      rw [List.map_map, List.map_map]
      rfl
    refine ⟨fun recipe _ => ?_, ?_⟩
    · rw [hkeys, List.zipIdx_map_snd]
      exact (List.nodup_range' ..).map fun n n' h => (param_inj h).2
    · apply List.Pairwise.imp _ (show recipes.Pairwise (· ≠ ·) by decide)
      intro recipe recipe' hne
      rw [Function.onFun_apply, List.disjoint_left, hkeys, hkeys]
      intro key hkey hkey'
      obtain ⟨n, -, rfl⟩ := List.mem_map.mp hkey
      obtain ⟨n', -, h⟩ := List.mem_map.mp hkey'
      exact hne (name_injective (param_inj h).1.symm)

/-- A key that stands once is looked up where it stands. -/
theorem lookup_of_mem {α β : Type} [BEq α] [LawfulBEq α] {l : List (α × β)} (hnodup : (l.map Prod.fst).Nodup)
    {k : α} {v : β} (h : (k, v) ∈ l) : l.lookup k = some v := by
  obtain ⟨before, after, rfl⟩ := List.append_of_mem h
  rw [List.lookup_eq_some_iff]
  refine ⟨before, after, rfl, fun p hp => ?_⟩
  rw [List.map_append, List.map_cons] at hnodup
  have hne : p.1 ≠ k :=
    List.nodup_append.mp hnodup |>.2.2 p.1 (List.mem_map_of_mem hp) k (List.mem_cons_self ..)
  exact bne_iff_ne.mpr (Ne.symm hne)

/-- The parameter of a rule is bound to what the rule tests. -/
theorem lookup_param {recipe : Recipe} {rule : Rule} {n : ℕ} (h : (rule, n) ∈ recipe.rules.zipIdx) :
    params.lookup (param recipe.name n) = some rule.value := by
  refine lookup_of_mem nodup_params.out (List.mem_flatMap.mpr ⟨recipe, mem_recipes recipe, ?_⟩)
  exact List.mem_map.mpr ⟨(rule, n), h, rfl⟩

/-- A text spells a pattern, and the same one once `\b` is spelled `\y`. -/
def Spells (text : List Char) : Prop :=
  (Regex.parse 'b' text).isSome = true ∧ Regex.parse 'y' (respell text) = Regex.parse 'b' text

/-- Both are computed. -/
instance (text : List Char) : Decidable (Spells text) := inferInstanceAs (Decidable (_ ∧ _))

/-- The pattern of a rule is spelled alike. -/
def Rule.Spelled (rule : Rule) : Prop :=
  match rule.test with
  | .title pattern => Spells pattern.toList
  | .sources _ => True

-- In the lemmas that follow the characters of a literal are brought out by `String.toList_ofList`: computing them
-- from its bytes would take the kernel longer than the parse. What the kernel evaluates is kept as `Fact`s.

/-- The pattern that two recipes start from. -/
instance technical_spells : Fact (Spells technical.toList) where
  out := by
    unfold technical
    simp only [String.toList_append]
    repeat rw [String.toList_ofList]
    decide +kernel

/-- The pattern that `new_grad_v1` and `finance_new_grad_v1` start from. -/
instance explicitInternship_spells : Fact (Spells explicitInternship.toList) where
  out := by
    unfold explicitInternship
    rw [String.toList_ofList]
    decide +kernel

/-- The pattern that both finance recipes have. -/
instance nonQuantTechnical_spells : Fact (Spells nonQuantTechnical.toList) where
  out := by
    unfold nonQuantTechnical quant
    simp only [String.toList_append]
    repeat rw [String.toList_ofList]
    decide +kernel

/-- The rules of the occupations. -/
instance nontechnicalRules_spelled : Fact (∀ rule ∈ nontechnicalRules, rule.Spelled) where
  out := by
    simp only [nontechnicalRules, keep, skip, List.forall_mem_cons, Rule.Spelled, String.toList_append]
    refine ⟨technical_spells.out, ?_, ?_, ?_, ?_, nofun⟩
    all_goals
      repeat rw [String.toList_ofList]
      decide +kernel

/-- The rules of the levels. -/
instance levelRules_spelled : Fact (∀ rule ∈ levelRules, rule.Spelled) where
  out := by
    simp only [levelRules, skip, List.forall_mem_cons, Rule.Spelled]
    unfold internshipRole rejectedLevelOnly
    simp only [String.toList_append]
    refine ⟨?_, ?_, nofun⟩
    all_goals
      repeat rw [String.toList_ofList]
      decide +kernel

/-- The rules of the first finance recipe. -/
instance finance_v1_spelled : Fact (∀ rule ∈ Recipe.finance_new_grad_v1.rules, rule.Spelled) where
  out := by
    simp only [Recipe.rules, keep, skip, List.forall_mem_cons, Rule.Spelled]
    refine ⟨explicitInternship_spells.out, ?_, ?_, nonQuantTechnical_spells.out, ?_⟩
    · unfold financeExperienced earlyCareer
      simp only [String.toList_append]
      repeat rw [String.toList_ofList]
      decide +kernel
    · unfold financeManager earlyCareer
      simp only [String.toList_append]
      repeat rw [String.toList_ofList]
      decide +kernel
    · unfold coreFinance quant retailBanking financeSignal
      simp only [String.toList_append]
      refine ⟨?_, ?_, ?_, nofun⟩
      all_goals
        repeat rw [String.toList_ofList]
        decide +kernel

/-- The rules of the second finance recipe. -/
instance finance_v2_spelled : Fact (∀ rule ∈ Recipe.finance_new_grad_v2.rules, rule.Spelled) where
  out := by
    simp only [Recipe.rules, keep, skip, List.forall_mem_cons, Rule.Spelled]
    unfold financeInternship financeExperiencedV2 financeManagerV2 coreFinanceV2 techConsulting nonFinanceV2
      financeSignalV2 explicitInternship earlyCareerV2 coreFinance quant retailBanking financeSignal
    simp only [String.toList_append]
    refine ⟨?_, ?_, ?_, nonQuantTechnical_spells.out, ?_, ?_, ?_, ?_, nofun⟩
    all_goals
      repeat rw [String.toList_ofList]
      decide +kernel

/-- The rules of every recipe are spelled alike. -/
instance rules_spelled (recipe : Recipe) : Fact (∀ rule ∈ recipe.rules, rule.Spelled) where
  out := by
    cases recipe with
    | internship_v1 =>
      simp only [Recipe.rules, keep, List.forall_mem_cons, Rule.Spelled]
      unfold internshipSignal
      rw [String.toList_ofList]
      exact ⟨trivial, by decide +kernel, nofun⟩
    | new_grad_v1 =>
      simp only [Recipe.rules, skip, List.forall_mem_cons, Rule.Spelled]
      unfold experienced
      rw [String.toList_ofList]
      exact ⟨explicitInternship_spells.out, by decide +kernel, nofun⟩
    | aero_major_v1 =>
      simp only [Recipe.rules, keep, List.forall_mem_cons, Rule.Spelled]
      unfold aeroMajorSignal
      simp only [String.toList_append]
      repeat rw [String.toList_ofList]
      exact ⟨by decide +kernel, nofun⟩
    | nontechnical_occupations_v1 => exact nontechnicalRules_spelled.out
    | occupation_words_v1 =>
      simp only [Recipe.rules, keep, skip, List.forall_mem_cons, Rule.Spelled]
      simp only [String.toList_append, String.toList_intercalate, occupationWords, List.map_cons, List.map_nil]
      repeat rw [String.toList_ofList]
      exact ⟨technical_spells.out, by decide +kernel, nofun⟩
    | levels_occupations_v1 =>
      exact List.forall_mem_append.mpr ⟨levelRules_spelled.out, nontechnicalRules_spelled.out⟩
    | levels_roles_occupations_v1 =>
      refine List.forall_mem_append.mpr ⟨levelRules_spelled.out, List.forall_mem_cons.mpr ⟨?_, nontechnicalRules_spelled.out⟩⟩
      simp only [skip, Rule.Spelled]
      unfold rejectedRoleOnly acceptedWork
      simp only [String.toList_append]
      repeat rw [String.toList_ofList]
      decide +kernel
    | finance_new_grad_v1 => exact finance_v1_spelled.out
    | finance_new_grad_v2 => exact finance_v2_spelled.out

/-! ## The two screens -/

section Agreement

variable (e : Engine)

/-- The rule has no `.`. -/
def Rule.dotless (rule : Rule) : Bool :=
  match rule.test with
  | .title pattern => (Regex.parse 'b' pattern.toList).all Regex.dotless
  | .sources _ => true

/-- Every rule that is reached is matched alike under both readings of `.`. The rules after one are reached where it
does not match. -/
def ReadAlike (text : String) (source : Option String) : List Rule → Prop
  | [] => True
  | rule :: rest =>
    rule.matches e false text source = rule.matches e true text source ∧
      (rule.matches e false text source = false → ReadAlike text source rest)

variable {e} {text : String} {source : Option String} {default : Screen}

/-- Under a condition on the text or the rule both readings match it alike. -/
theorem Rule.matches_newline {rule : Rule} (h : rule.dotless = true ∨ '\n' ∉ text.toList) :
    rule.matches e true text source = rule.matches e false text source := by
  unfold Rule.matches
  unfold Rule.dotless at h
  split
  · next pattern htest =>
    rw [htest] at h
    change (Regex.parse 'b' pattern.toList).all Regex.dotless = true ∨ _ at h
    unfold found
    cases hparse : Regex.parse 'b' pattern.toList with
    | none => rfl
    | some r =>
      rw [hparse, Option.all_some] at h
      rw [Option.any_some, Option.any_some, Regex.search_newline h]
  · rfl

/-- A rule that matches decides. -/
theorem decision_of_matches {newline : Bool} {rule : Rule} {rest : List Rule}
    (h : rule.matches e newline text source = true) :
    decision e newline text source default (rule :: rest) = rule.decides := by
  unfold decision
  rw [if_pos h]

/-- A rule that does not match is passed by. -/
theorem decision_of_not_matches {newline : Bool} {rule : Rule} {rest : List Rule}
    (h : rule.matches e newline text source = false) :
    decision e newline text source default (rule :: rest) = decision e newline text source default rest := by
  rw [decision, if_neg (Bool.eq_false_iff.mp h)]

/-- Where both engines match the first rule, no other is reached. -/
theorem readAlike_of_matches {rule : Rule} {rest : List Rule}
    (h : ∀ newline, rule.matches e newline text source = true) : ReadAlike e text source (rule :: rest) :=
  ⟨(h false).trans (h true).symm, fun hnot => Bool.noConfusion ((h false).symm.trans hnot)⟩

/-- Where neither does, the others are reached. -/
theorem readAlike_of_not_matches {rule : Rule} {rest : List Rule}
    (h : ∀ newline, rule.matches e newline text source = false) (hrest : ReadAlike e text source rest) :
    ReadAlike e text source (rule :: rest) :=
  ⟨(h false).trans (h true).symm, fun _ => hrest⟩

/-- Rules that are read alike come to one decision. -/
theorem decision_of_readAlike : ∀ {rules : List Rule}, ReadAlike e text source rules →
    decision e false text source default rules = decision e true text source default rules := by
  intro rules
  induction rules with
  | nil => exact fun _ => rfl
  | cons rule rest ih =>
    rintro ⟨halike, hrest⟩
    unfold decision
    rw [← halike]
    cases hmatches : rule.matches e false text source with
    | true => rfl
    | false => exact ih (hrest hmatches)

/-- Where rules are not read alike, the first that is not decides under one reading, and those after it decide
under the other. -/
theorem apart_of_not_readAlike (default : Screen) : ∀ {rules : List Rule}, ¬ReadAlike e text source rules →
    ∃ before rule after newline, rules = before ++ rule :: after ∧
      rule.matches e newline text source = true ∧ rule.matches e (!newline) text source = false ∧
        decision e newline text source default rules = rule.decides ∧
          decision e (!newline) text source default rules = decision e (!newline) text source default after := by
  intro rules
  induction rules with
  | nil => exact fun h => absurd trivial h
  | cons rule rest ih =>
    intro h
    cases hpython : rule.matches e false text source <;> cases hsql : rule.matches e true text source
    -- Neither engine matches the rule, and the one that is read apart comes later.
    · have hpassed : ∀ n, rule.matches e n text source = false := fun n => by cases n <;> assumption
      obtain ⟨before, apart, after, newline, hrules, hmatches, hnot, hdecides, hpasses⟩ :=
        ih fun hrest => h (readAlike_of_not_matches hpassed hrest)
      refine ⟨rule :: before, apart, after, newline, congrArg (rule :: ·) hrules, hmatches, hnot, ?_, ?_⟩
      · rw [decision_of_not_matches (hpassed newline), hdecides]
      · rw [decision_of_not_matches (hpassed _), hpasses]
    · exact ⟨[], rule, rest, true, rfl, hsql, hpython, decision_of_matches hsql, decision_of_not_matches hpython⟩
    · exact ⟨[], rule, rest, false, rfl, hpython, hsql, decision_of_matches hpython, decision_of_not_matches hsql⟩
    · exact absurd ⟨hpython.trans hsql.symm, fun hfalse => absurd (hpython.symm.trans hfalse) (by decide)⟩ h

/-- A `WHEN` is true where its rule matches under PostgreSQL's reading. -/
theorem whenSql_eq {rule : Rule} {key : String} (hkey : params.lookup key = some rule.value)
    (hspelled : rule.Spelled) : whenSql e rule key text source = rule.matches e true text source := by
  unfold whenSql Rule.matches
  rw [hkey]
  unfold Rule.value
  unfold Rule.Spelled at hspelled
  cases htest : rule.test with
  | title pattern =>
    rw [htest] at hspelled
    show found e 'y' true (postgres pattern) text = found e 'b' true pattern text
    unfold found postgres
    rw [String.toList_ofList, hspelled.2]
  | sources names =>
    show (source.any fun name => name ∈ names.insertionSort _) = source.any fun name => name ∈ names
    simp only [List.mem_insertionSort]

/-- The `CASE` of a recipe, from a rule on, is the decision under PostgreSQL's reading. -/
theorem caseSql_eq {recipe : Recipe} : ∀ {rules : List Rule} {n : ℕ},
    (∀ p ∈ rules.zipIdx n, p ∈ recipe.rules.zipIdx) →
      caseSql e recipe text source n rules = (decision e true text source recipe.default rules).skip := by
  intro rules
  induction rules with
  | nil => exact fun _ => rfl
  | cons rule rest ih =>
    intro n h
    rw [List.zipIdx_cons] at h
    obtain ⟨hrule, hrest⟩ := List.forall_mem_cons.mp h
    unfold caseSql decision
    rw [whenSql_eq (lookup_param hrule) ((rules_spelled recipe).out rule (List.fst_mem_of_mem_zipIdx hrule)), ih hrest]
    split
    · rfl
    · rfl

/-- The arm of a recipe is its own. -/
theorem find_recipe (recipe : Recipe) :
    (recipes.find? fun r => some recipe.name = some r.name) = some recipe := by
  cases recipe <;> decide +kernel

/-- `skips_sql` on a recipe is the decision under PostgreSQL's reading. -/
theorem skipsSql_eq (recipe : Recipe) (title source : Option String) :
    skipsSql e (some recipe.name) title source =
      (decision e true (titleText title) source recipe.default recipe.rules).skip := by
  unfold skipsSql
  rw [find_recipe recipe]
  exact caseSql_eq fun p hp => hp

end Agreement

/-- For every recipe, title and source the two screens agree where each rule that is reached is matched alike by both
engines. Where one is not, it has a `.` and the title a newline; the engine that matches it decides by it, and the
screens agree only if the rules after it, which the other goes on to, come to the same. What is not the name of a
recipe, NULL too, skips nothing. -/
theorem screens_agree (e : Engine) (recipe : Recipe) (title source : Option String) :
    (ReadAlike e (titleText title) source recipe.rules →
      (screen e recipe title source).skip = skipsSql e (some recipe.name) title source) ∧
    (¬ReadAlike e (titleText title) source recipe.rules →
      ∃ before rule after newline, recipe.rules = before ++ rule :: after ∧
        rule.matches e newline (titleText title) source = true ∧
        rule.matches e (!newline) (titleText title) source = false ∧
        rule.dotless = false ∧ '\n' ∈ (titleText title).toList ∧
        ((screen e recipe title source).skip = skipsSql e (some recipe.name) title source ↔
          (decision e (!newline) (titleText title) source recipe.default after).skip = rule.decides.skip)) ∧
    ∀ other : Option String, (∀ r : Recipe, other ≠ some r.name) → skipsSql e other title source = false := by
  refine ⟨fun h => ?_, fun h => ?_, fun other hother => ?_⟩
  · rw [skipsSql_eq recipe title source]
    exact congrArg Screen.skip (decision_of_readAlike h)
  · obtain ⟨before, rule, after, newline, hrules, hmatches, hnot, hdecides, hpasses⟩ :=
      apart_of_not_readAlike recipe.default h
    have hapart : rule.matches e true (titleText title) source ≠ rule.matches e false (titleText title) source := by
      cases newline with
      | true => exact fun heq => Bool.noConfusion (hmatches.symm.trans (heq.trans hnot))
      | false => exact fun heq => Bool.noConfusion (hmatches.symm.trans (heq.symm.trans hnot))
    refine ⟨before, rule, after, newline, hrules, hmatches, hnot, ?_, ?_, ?_⟩
    · exact Bool.eq_false_iff.mpr fun hdotless => hapart (Rule.matches_newline (.inl hdotless))
    · by_contra hnewline
      exact hapart (Rule.matches_newline (.inr hnewline))
    · rw [skipsSql_eq recipe title source, ← hdecides, ← hpasses]
      cases newline with
      | true => exact Iff.rfl
      | false => exact eq_comm
  · have hnone : (recipes.find? fun r => other = some r.name) = none := by
      rw [List.find?_eq_none]
      intro r _ heq
      exact hother r (of_decide_eq_true heq)
    unfold skipsSql
    rw [hnone]

/-- An engine on ASCII. -/
def ascii : Engine where
  same c d := c.toLower = d.toLower
  word c := c.isAlphanum || c = '_'
  space := Char.isWhitespace
  digit := Char.isDigit

/-- A title on two lines that is read alike: the rule on levels matches it on the first of them. -/
theorem screens_agree_two_lines :
    (screen ascii .levels_occupations_v1 (some "Senior\nCook") none).skip =
      skipsSql ascii (some "levels_occupations_v1") (some "Senior\nCook") none := by
  have hinternship : ∀ newline, (skip "internship_role" internshipRole).matches ascii newline
      "Senior\nCook" none = false := by
    unfold Rule.matches skip found internshipRole
    dsimp only
    repeat rw [String.toList_ofList]
    decide +kernel
  have hlevel : ∀ newline, (skip "rejected_level_only" rejectedLevelOnly).matches ascii newline
      "Senior\nCook" none = true := by
    unfold Rule.matches skip found rejectedLevelOnly
    dsimp only
    simp only [String.toList_append]
    repeat rw [String.toList_ofList]
    decide +kernel
  refine (screens_agree ascii .levels_occupations_v1 (some "Senior\nCook") none).1 ?_
  unfold titleText Recipe.rules levelRules
  rw [Option.getD_some, List.cons_append, List.cons_append, List.nil_append]
  exact readAlike_of_not_matches hinternship (readAlike_of_matches hlevel)

/-- A title on two lines. Python's `.*` stops at the end of the first, so that the rule on levels passes it by
and the title is kept as technical; PostgreSQL's reaches the second line, and the title is skipped. -/
theorem newline_title_screened_apart :
    screen ascii .levels_occupations_v1 (some "Engineer\nSenior") none = ⟨false, "technical_title"⟩ ∧
      skipsSql ascii (some "levels_occupations_v1") (some "Engineer\nSenior") none = true := by
  have hinternship : ∀ newline, (skip "internship_role" internshipRole).matches ascii newline
      "Engineer\nSenior" none = false := by
    unfold Rule.matches skip found internshipRole
    dsimp only
    repeat rw [String.toList_ofList]
    decide +kernel
  have hlevel : ∀ newline, (skip "rejected_level_only" rejectedLevelOnly).matches ascii newline
      "Engineer\nSenior" none = newline := by
    unfold Rule.matches skip found rejectedLevelOnly
    dsimp only
    simp only [String.toList_append]
    repeat rw [String.toList_ofList]
    decide +kernel
  have htechnical : (keep "technical_title" (.title technical)).matches ascii false
      "Engineer\nSenior" none = true := by
    unfold Rule.matches keep found technical
    dsimp only
    simp only [String.toList_append]
    repeat rw [String.toList_ofList]
    decide +kernel
  constructor
  · unfold screen titleText Recipe.rules levelRules nontechnicalRules
    rw [Option.getD_some, List.cons_append, decision_of_not_matches (hinternship false), List.cons_append,
      decision_of_not_matches (hlevel false), List.nil_append, decision_of_matches htechnical]
    rfl
  · refine (skipsSql_eq .levels_occupations_v1 (some "Engineer\nSenior") none).trans ?_
    unfold titleText Recipe.rules levelRules
    rw [Option.getD_some, List.cons_append, decision_of_not_matches (hinternship true), List.cons_append,
      decision_of_matches (hlevel true)]
    rfl

end JobScripts.Board.Screening
