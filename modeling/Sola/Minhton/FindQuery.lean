import Mathlib.Data.Char
import Mathlib.Data.List.Destutter
import Sola.Minhton.BooleanExpression
import Sola.Minhton.RoutingInformation

/-!
Find queries (`minhton/src/algorithms/esearch/find_query.cpp`).

A DSN decides a query from what it happens to know about a node.  An attribute
that is unknown or too old leaves a comparison open, and the keys of such
attributes can be inquired.  Two facts make the inquiry sensible: knowing more
never changes a decision, and knowing the inquired keys always gives one.
-/

namespace Sola.Minhton

open Sola.Lib

/-! ### Missing and relevant attributes of an expression -/

namespace BooleanExpression

/-- `AtomicBooleanExpression::evaluateMissingAttributes`. -/
def missingAtomic (key : Text) (data : NodeData) (info : EvaluationInformation) : List Text :=
  if info.inquireUnknownAttributes && info.inquireOutdatedAttributes then
    if !data.hasKey key || !data.isValueUpToDate key info.validityThresholdTimestamp then [key]
    else []
  else if info.inquireUnknownAttributes && !info.inquireOutdatedAttributes then
    if !data.hasKey key then [key] else []
  else if !info.inquireUnknownAttributes && info.inquireOutdatedAttributes then
    if data.hasKey key && !data.isValueUpToDate key info.validityThresholdTimestamp then [key]
    else []
  else []

/-- A disjunction with a side that is true already misses nothing. -/
def evaluateMissingAttributes (data : NodeData) (info : EvaluationInformation) :
    BooleanExpression → Except String (List Text)
  | or expr1 expr2 => do
      let info' := { info with allInformationPresent := false }
      let value1 ← evaluate data info' expr1
      let value2 ← evaluate data info' expr2
      if value1 = .kTrue || value2 = .kTrue then return []
      else
        let missings ← evaluateMissingAttributes data info' expr1
        let tempMissings ← evaluateMissingAttributes data info' expr2
        return missings ++ tempMissings
  | and expr1 expr2 => do
      let missings ← evaluateMissingAttributes data info expr1
      let tempMissings ← evaluateMissingAttributes data info expr2
      return missings ++ tempMissings
  | not expr => evaluateMissingAttributes data info expr
  | presence key => .ok (missingAtomic key data info)
  | stringEquality key _ => .ok (missingAtomic key data info)
  | numericComparison key _ _ => .ok (missingAtomic key data info)
  | empty => .ok []

def getRelevantKeys : BooleanExpression → List Text
  | or expr1 expr2 => getRelevantKeys expr1 ++ getRelevantKeys expr2
  | and expr1 expr2 => getRelevantKeys expr1 ++ getRelevantKeys expr2
  | not expr => getRelevantKeys expr
  | presence key => [key]
  | stringEquality key _ => [key]
  | numericComparison key _ _ => [key]
  | empty => []

def getRelevantTopicKeys : BooleanExpression → List Text
  | or expr1 expr2 => getRelevantTopicKeys expr1 ++ getRelevantTopicKeys expr2
  | and expr1 expr2 => getRelevantTopicKeys expr1 ++ getRelevantTopicKeys expr2
  | not expr => getRelevantTopicKeys expr
  | presence key => [key]
  | stringEquality _ _ => []
  | numericComparison _ _ _ => []
  | empty => []

end BooleanExpression

/-! ### Queries -/

inductive FindQueryScope
  | kAll
  | kSome
deriving DecidableEq

inductive FindQuerySelection
  | kSelectAll
  | kSelectSpecific
  | kSelectUnspecific
deriving DecidableEq

structure FindQuery where
  expr : BooleanExpression
  scope : FindQueryScope := .kAll
  requestingNode : NodeInfo := .none
  validityThreshold : ℕ := 0
  inquireUnknownAttributes : Bool := true
  inquireOutdatedAttributes : Bool := true
  permissive : Bool := false
  selection : FindQuerySelection := .kSelectUnspecific
  selectedAttributeKeys : List Text := []

/-- The difference of two `uint64_t`. -/
def u64Sub (a b : ℕ) : ℕ := if b ≤ a then a - b else 2 ^ 64 - (b - a)

namespace FindQuery

def createEvaluationInformation (query : FindQuery) (allInformationPresent : Bool)
    (timestampNow : ℕ) : EvaluationInformation where
  validityThresholdTimestamp := u64Sub timestampNow query.validityThreshold
  allInformationPresent := allInformationPresent
  inquireUnknownAttributes := query.inquireUnknownAttributes
  inquireOutdatedAttributes := query.inquireOutdatedAttributes
  permissive := if !query.inquireOutdatedAttributes then query.permissive else false

def evaluate (query : FindQuery) (data : NodeData) (allInformationPresent : Bool)
    (timestampNow : ℕ) : Except String FuzzyValue := do
  let info := query.createEvaluationInformation allInformationPresent timestampNow
  let val ← query.expr.evaluate data info
  if allInformationPresent && val = .kUndecided then return .kFalse
  else return val

/-- `std::sort` and `std::unique` on texts. -/
def sortUnique (keys : List Text) : List Text :=
  (keys.mergeSort fun key key' => decide (key ≤ key')).destutter (· ≠ ·)

def evaluateMissingAttributes (query : FindQuery) (data : NodeData) (timestampNow : ℕ) :
    Except String (List Text) :=
  if query.selection = .kSelectAll then .ok []
  else do
    let info := query.createEvaluationInformation false timestampNow
    let missingAttributes ← query.expr.evaluateMissingAttributes data info
    if query.selection = .kSelectUnspecific then return missingAttributes
    else return sortUnique (missingAttributes ++ query.selectedAttributeKeys)

def getRelevantAttributes (query : FindQuery) : List Text := query.expr.getRelevantKeys

def getRelevantTopicAttributes (query : FindQuery) : List Text :=
  query.expr.getRelevantTopicKeys

end FindQuery

/-! ### Decisions with partial knowledge -/

namespace FuzzyValue

/-- A value that is decided already stays as it is. -/
def Allows (a b : FuzzyValue) : Prop := a = kUndecided ∨ b = a

theorem Allows.undecided (b : FuzzyValue) : Allows kUndecided b := .inl rfl

theorem Allows.refl (a : FuzzyValue) : Allows a a := .inr rfl

variable {a b a' b' : FuzzyValue}

theorem Allows.eq (h : a.Allows b) (ha : a ≠ kUndecided) : b = a :=
  h.resolve_left ha

theorem Allows.not (h : a.Allows b) : a.not.Allows b.not := by
  rcases h with rfl | rfl
  · exact .undecided _
  · exact .refl _

theorem Allows.and (ha : a.Allows a') (hb : b.Allows b') : (a.and b).Allows (a'.and b') := by
  rcases ha with rfl | rfl
  · rcases hb with rfl | rfl
    · exact .undecided _
    · cases b' <;> cases a' <;> simp [Allows, FuzzyValue.and, value]
  · rcases hb with rfl | rfl
    · cases a' <;> cases b' <;> simp [Allows, FuzzyValue.and, value]
    · exact .refl _

theorem Allows.or (ha : a.Allows a') (hb : b.Allows b') : (a.or b).Allows (a'.or b') := by
  rcases ha with rfl | rfl
  · rcases hb with rfl | rfl
    · exact .undecided _
    · cases b' <;> cases a' <;> simp [Allows, FuzzyValue.or, value]
  · rcases hb with rfl | rfl
    · cases a' <;> cases b' <;> simp [Allows, FuzzyValue.or, value]
    · exact .refl _

theorem not_eq_undecided : a.not = kUndecided ↔ a = kUndecided := by
  cases a <;> simp [FuzzyValue.not]

theorem undecided_of_and (h : a.and b = kUndecided) : a = kUndecided ∨ b = kUndecided := by
  cases a <;> cases b <;> simp_all [FuzzyValue.and, value]

theorem undecided_of_or (h : a.or b = kUndecided) :
    (a ≠ kTrue ∧ b ≠ kTrue) ∧ (a = kUndecided ∨ b = kUndecided) := by
  cases a <;> cases b <;> simp_all [FuzzyValue.or, value]

theorem ofBool_ne_undecided (b : Bool) : ofBool b ≠ kUndecided := by
  cases b <;> simp [ofBool]

end FuzzyValue

/-- Numeric comparisons expect a number; the other comparisons take any value. -/
def NodeData.Value.isNumber : NodeData.Value → Bool
  | int _ => true
  | float _ => true
  | bool _ => false
  | string _ => false

namespace NodeData

/-- The evaluation would like to know more about this key. -/
def Inquired (data : NodeData) (info : EvaluationInformation) (key : Text) : Bool :=
  info.inquireUnknownAttributes && !data.hasKey key ||
    info.inquireOutdatedAttributes && data.hasKey key &&
      !data.isValueUpToDate key info.validityThresholdTimestamp

/-- What is known later differs at most in what would have been inquired. -/
structure Extends (data data' : NodeData) (info : EvaluationInformation) : Prop where
  isLocal : data.isLocal = false
  isLocal' : data'.isLocal = false
  isKeySubscribed : data'.isKeySubscribed = data.isKeySubscribed
  same : ∀ key, data.Inquired info key = false → data'.data key = data.data key

variable {data data' : NodeData} {key : Text} {info : EvaluationInformation}

theorem isValueUpToDate_congr (threshold : ℕ) (hlocal : data'.isLocal = data.isLocal)
    (hsub : data'.isKeySubscribed = data.isKeySubscribed) (h : data'.data key = data.data key) :
    data'.isValueUpToDate key threshold = data.isValueUpToDate key threshold := by
  rw [isValueUpToDate, isValueUpToDate, h, hlocal, hsub]

theorem Extends.inquired_eq (hext : data.Extends data' info) (h : data'.data key = data.data key) :
    data'.Inquired info key = data.Inquired info key := by
  have hdate := isValueUpToDate_congr info.validityThresholdTimestamp
    (hext.isLocal'.trans hext.isLocal.symm) hext.isKeySubscribed h
  rw [Inquired, Inquired, hdate, hasKey, hasKey, h]

theorem Extends.inquired_eq_false (hext : data.Extends data' info)
    (h : data.Inquired info key = false) : data'.Inquired info key = false := by
  rw [hext.inquired_eq (hext.same key h), h]

end NodeData

namespace BooleanExpression

variable {data data' : NodeData} {info : EvaluationInformation} {key : Text}

theorem missingAtomic_eq :
    missingAtomic key data info = if data.Inquired info key then [key] else [] := by
  rw [missingAtomic, NodeData.Inquired]
  cases info.inquireUnknownAttributes <;> cases info.inquireOutdatedAttributes <;>
    cases data.hasKey key <;> simp

variable {existing : Except String FuzzyValue} {value value1 value2 : FuzzyValue}
  {comparisonType : ComparisonTypes} {comparisonValue : ℚ} {expr1 expr2 expr : BooleanExpression}
  {keys1 keys2 : List Text}

/-- An atom on distributed data is open, false for lack of a value, or what
its comparison says. -/
theorem evaluateAtomic_eq (hlocal : data.isLocal = false) (hexisting : existing ≠ .ok .kUndecided) :
    evaluateAtomic key existing data info =
      if data.Inquired info key then
        .ok (if info.allInformationPresent then .kFalse else .kUndecided)
      else if data.hasKey key then existing
      else .ok .kFalse := by
  have hlast : (do
      let value ← existing
      if value = .kUndecided && !info.inquireOutdatedAttributes && info.permissive then
        return .kTrue
      else return value) = existing := by
    cases existing with
    | error e => rfl
    | ok value =>
      have hvalue : value ≠ .kUndecided := fun h => hexisting (by rw [h])
      simp [hvalue, pure, Except.pure, bind, Except.bind]
  rw [evaluateAtomic, hlast, NodeData.Inquired, hlocal]
  cases info.inquireUnknownAttributes <;> cases info.inquireOutdatedAttributes <;>
    cases data.hasKey key <;> cases info.allInformationPresent <;> simp

theorem presenceExisting_ne : presenceExisting key data ≠ .ok .kUndecided := by
  rw [presenceExisting]
  split
  · simp
  · simp [FuzzyValue.ofBool_ne_undecided]
  · simp

theorem stringEqualityExisting_ne {value : Text} :
    stringEqualityExisting key value data ≠ .ok .kUndecided := by
  rw [stringEqualityExisting]
  split
  · simp [FuzzyValue.ofBool_ne_undecided]
  · simp

theorem numericComparisonExisting_ne :
    numericComparisonExisting key comparisonType comparisonValue data ≠ .ok .kUndecided := by
  rw [numericComparisonExisting]
  split
  · simp
  · simp [FuzzyValue.ofBool_ne_undecided]
  · simp [FuzzyValue.ofBool_ne_undecided]
  · simp

/-- The expression has a numeric comparison with this key. -/
def comparesNumber (key : Text) : BooleanExpression → Bool
  | or expr1 expr2 => comparesNumber key expr1 || comparesNumber key expr2
  | and expr1 expr2 => comparesNumber key expr1 || comparesNumber key expr2
  | not expr => comparesNumber key expr
  | presence _ => false
  | stringEquality _ _ => false
  | numericComparison key' _ _ => key' = key
  | empty => false

theorem presenceExisting_ok : ∃ value, presenceExisting key data = .ok value := by
  rw [presenceExisting]
  split <;> exact ⟨_, rfl⟩

theorem stringEqualityExisting_ok {text : Text} :
    ∃ value, stringEqualityExisting key text data = .ok value := by
  rw [stringEqualityExisting]
  split <;> exact ⟨_, rfl⟩

theorem numericComparisonExisting_ok (h : ∀ v, data.data key = some v → v.1.isNumber = true) :
    ∃ value, numericComparisonExisting key comparisonType comparisonValue data = .ok value := by
  rw [numericComparisonExisting]
  split
  · exact ⟨_, rfl⟩
  · exact ⟨_, rfl⟩
  · exact ⟨_, rfl⟩
  next v hint hfloat hv =>
    obtain ⟨value, time, type⟩ := v
    cases value with
    | int n => exact absurd rfl (hint n _)
    | float q => exact absurd rfl (hfloat q _)
    | bool b => exact absurd (h _ hv) (by simp [NodeData.Value.isNumber])
    | string s => exact absurd (h _ hv) (by simp [NodeData.Value.isNumber])

/-! ### A decision does not change -/

/-- The values that have come in can be compared. -/
def ExpectedTypes (expr : BooleanExpression) (data data' : NodeData)
    (info : EvaluationInformation) : Prop :=
  ∀ key, data.Inquired info key = true → data'.Inquired info key = false →
    expr.comparesNumber key = true → ∀ v, data'.data key = some v → v.1.isNumber = true

theorem evaluateAtomic_allows {existing' : Except String FuzzyValue}
    (hext : data.Extends data' info) (allInformationPresent : Bool)
    (hne : existing ≠ .ok .kUndecided) (hne' : existing' ≠ .ok .kUndecided)
    (hsame : data'.data key = data.data key → existing' = existing)
    (hok : data.Inquired info key = true → data'.Inquired info key = false →
      ∃ value', existing' = .ok value') (hall : info.allInformationPresent = false)
    (h : evaluateAtomic key existing data info = .ok value) :
    ∃ value', evaluateAtomic key existing' data'
        { info with allInformationPresent := allInformationPresent } = .ok value' ∧
      value.Allows value' := by
  rw [evaluateAtomic_eq hext.isLocal hne, hall] at h
  rw [evaluateAtomic_eq hext.isLocal' hne']
  change ∃ value', (if data'.Inquired info key then _ else _) = _ ∧ _
  cases hin : data.Inquired info key with
  | false =>
    -- nothing about this key has changed
    have hdata := hext.same key hin
    have hkey : data'.hasKey key = data.hasKey key := by
      rw [NodeData.hasKey, NodeData.hasKey, hdata]
    rw [hext.inquired_eq_false hin, hsame hdata, hkey]
    rw [hin] at h
    exact ⟨value, h, .refl _⟩
  | true =>
    rw [hin] at h
    obtain rfl : FuzzyValue.kUndecided = value := by simpa using h
    cases hin' : data'.Inquired info key with
    | true => exact ⟨_, rfl, .undecided _⟩
    | false =>
      obtain ⟨value', hvalue'⟩ := hok hin hin'
      cases data'.hasKey key with
      | true => exact ⟨value', by simpa using hvalue', .undecided _⟩
      | false => exact ⟨.kFalse, by simp, .undecided _⟩

theorem evaluate_or :
    (or expr1 expr2).evaluate data info = .ok value ↔
      ∃ value1 value2, expr1.evaluate data info = .ok value1 ∧
        expr2.evaluate data info = .ok value2 ∧ value1.or value2 = value := by
  rw [evaluate, bind₂_eq_ok]

theorem evaluate_and :
    (and expr1 expr2).evaluate data info = .ok value ↔
      ∃ value1 value2, expr1.evaluate data info = .ok value1 ∧
        expr2.evaluate data info = .ok value2 ∧ value1.and value2 = value := by
  rw [evaluate, bind₂_eq_ok]

theorem evaluate_not :
    (not expr).evaluate data info = .ok value ↔
      ∃ value', expr.evaluate data info = .ok value' ∧ value'.not = value := by
  rw [evaluate, bind_eq_ok]
  constructor
  · rintro ⟨value', h', h⟩
    exact ⟨value', h', Except.ok.inj h⟩
  · rintro ⟨value', h', rfl⟩
    exact ⟨value', h', rfl⟩

/-- The sides of a disjunction, and in the same way those of a conjunction. -/
theorem ExpectedTypes.sides (h : (or expr1 expr2).ExpectedTypes data data' info) :
    expr1.ExpectedTypes data data' info ∧ expr2.ExpectedTypes data data' info :=
  ⟨fun key hin hin' hc => h key hin hin' (by simp [comparesNumber, hc]),
    fun key hin hin' hc => h key hin hin' (by simp [comparesNumber, hc])⟩

/-- By induction on the expression: what is decided stays, and what is open
can become anything. -/
theorem evaluate_allows (hext : data.Extends data' info) (allInformationPresent : Bool)
    (hall : info.allInformationPresent = false) (htypes : expr.ExpectedTypes data data' info)
    (h : expr.evaluate data info = .ok value) :
    ∃ value', expr.evaluate data'
        { info with allInformationPresent := allInformationPresent } = .ok value' ∧
      value.Allows value' := by
  induction expr generalizing value with
  | or expr1 expr2 ih1 ih2 =>
    obtain ⟨value1, value2, h1, h2, rfl⟩ := evaluate_or.mp h
    obtain ⟨ht1, ht2⟩ := htypes.sides
    obtain ⟨value1', h1', ha1⟩ := ih1 ht1 h1
    obtain ⟨value2', h2', ha2⟩ := ih2 ht2 h2
    exact ⟨_, evaluate_or.mpr ⟨_, _, h1', h2', rfl⟩, ha1.or ha2⟩
  | and expr1 expr2 ih1 ih2 =>
    obtain ⟨value1, value2, h1, h2, rfl⟩ := evaluate_and.mp h
    obtain ⟨ht1, ht2⟩ := ExpectedTypes.sides htypes
    obtain ⟨value1', h1', ha1⟩ := ih1 ht1 h1
    obtain ⟨value2', h2', ha2⟩ := ih2 ht2 h2
    exact ⟨_, evaluate_and.mpr ⟨_, _, h1', h2', rfl⟩, ha1.and ha2⟩
  | not expr ih =>
    obtain ⟨value1, h1, rfl⟩ := evaluate_not.mp h
    obtain ⟨value1', h1', ha1⟩ := ih htypes h1
    exact ⟨_, evaluate_not.mpr ⟨_, h1', rfl⟩, ha1.not⟩
  | presence key =>
    exact evaluateAtomic_allows hext _ presenceExisting_ne presenceExisting_ne
      (fun hdata => by rw [presenceExisting, presenceExisting, hdata])
      (fun _ _ => presenceExisting_ok) hall h
  | stringEquality key text =>
    exact evaluateAtomic_allows hext _ stringEqualityExisting_ne stringEqualityExisting_ne
      (fun hdata => by rw [stringEqualityExisting, stringEqualityExisting, hdata])
      (fun _ _ => stringEqualityExisting_ok) hall h
  | numericComparison key comparisonType comparisonValue =>
    exact evaluateAtomic_allows hext _ numericComparisonExisting_ne
      numericComparisonExisting_ne
      (fun hdata => by rw [numericComparisonExisting, numericComparisonExisting, hdata])
      (fun hin hin' => numericComparisonExisting_ok
        (htypes key hin hin' (by simp [comparesNumber]))) hall h
  | empty => exact ⟨value, h, .refl _⟩

/-! ### The missing attributes are enough -/

/-- What the missing attributes of an expression with a certain value are. -/
structure Missing (expr : BooleanExpression) (data : NodeData) (info : EvaluationInformation)
    (value : FuzzyValue) (keys : List Text) : Prop where
  eq_ok : expr.evaluateMissingAttributes data info = .ok keys
  inquired : ∀ key ∈ keys, data.Inquired info key = true
  ne_nil : value = .kUndecided → keys ≠ []

theorem missing_atomic (hlocal : data.isLocal = false) (hne : existing ≠ .ok .kUndecided)
    (heq : expr.evaluateMissingAttributes data info = .ok (missingAtomic key data info))
    (h : evaluateAtomic key existing data info = .ok value) :
    expr.Missing data info value (missingAtomic key data info) := by
  refine ⟨heq, fun key' hkey' => ?_, ?_⟩
  · rw [missingAtomic_eq] at hkey'
    split_ifs at hkey' with hin
    · rwa [List.mem_singleton.mp hkey']
    · simp at hkey'
  · rintro rfl
    rw [evaluateAtomic_eq hlocal hne] at h
    rw [missingAtomic_eq]
    split_ifs at h with hin <;> simp_all

theorem missing_append (h1 : expr1.Missing data info value1 keys1)
    (h2 : expr2.Missing data info value2 keys2)
    (heq : expr.evaluateMissingAttributes data info = .ok (keys1 ++ keys2))
    (hvalue : value = .kUndecided → value1 = .kUndecided ∨ value2 = .kUndecided) :
    expr.Missing data info value (keys1 ++ keys2) := by
  refine ⟨heq, fun key hkey => ?_, fun hund => ?_⟩
  · rcases List.mem_append.mp hkey with hkey | hkey
    · exact h1.inquired key hkey
    · exact h2.inquired key hkey
  · rcases hvalue hund with hund | hund
    · exact List.append_ne_nil_of_left_ne_nil (h1.ne_nil hund) _
    · exact List.append_ne_nil_of_right_ne_nil _ (h2.ne_nil hund)

theorem evaluateMissingAttributes_or (hall : info.allInformationPresent = false)
    (h1 : expr1.evaluate data info = .ok value1) (h2 : expr2.evaluate data info = .ok value2) :
    (or expr1 expr2).evaluateMissingAttributes data info =
      if value1 = .kTrue ∨ value2 = .kTrue then .ok []
      else (and expr1 expr2).evaluateMissingAttributes data info := by
  have hinfo : { info with allInformationPresent := false } = info := by rw [← hall]
  simp only [evaluateMissingAttributes, hinfo, h1, h2]
  by_cases h : value1 = .kTrue ∨ value2 = .kTrue
  · simp [h, bind, Except.bind, pure, Except.pure]
  · simp [h, bind, Except.bind, pure, Except.pure]

theorem evaluateMissingAttributes_and (h1 : expr1.evaluateMissingAttributes data info = .ok keys1)
    (h2 : expr2.evaluateMissingAttributes data info = .ok keys2) :
    (and expr1 expr2).evaluateMissingAttributes data info = .ok (keys1 ++ keys2) := by
  rw [evaluateMissingAttributes, h1, h2]
  rfl

/-- An expression that can be evaluated has its missing attributes, which are
all worth an inquiry, and there are some if it is open. -/
theorem exists_missing (hlocal : data.isLocal = false) (hall : info.allInformationPresent = false)
    (h : expr.evaluate data info = .ok value) : ∃ keys, expr.Missing data info value keys := by
  induction expr generalizing value with
  | or expr1 expr2 ih1 ih2 =>
    obtain ⟨value1, value2, h1, h2, rfl⟩ := evaluate_or.mp h
    obtain ⟨keys1, hkeys1⟩ := ih1 h1
    obtain ⟨keys2, hkeys2⟩ := ih2 h2
    have heq := evaluateMissingAttributes_or hall h1 h2
    by_cases htrue : value1 = .kTrue ∨ value2 = .kTrue
    · rw [if_pos htrue] at heq
      refine ⟨[], heq, by simp, fun hund => ?_⟩
      obtain ⟨⟨hne1, hne2⟩, -⟩ := FuzzyValue.undecided_of_or hund
      exact absurd htrue (by simp [hne1, hne2])
    · rw [if_neg htrue, evaluateMissingAttributes_and hkeys1.eq_ok hkeys2.eq_ok] at heq
      exact ⟨_, missing_append hkeys1 hkeys2 heq
        fun hund => (FuzzyValue.undecided_of_or hund).2⟩
  | and expr1 expr2 ih1 ih2 =>
    obtain ⟨value1, value2, h1, h2, rfl⟩ := evaluate_and.mp h
    obtain ⟨keys1, hkeys1⟩ := ih1 h1
    obtain ⟨keys2, hkeys2⟩ := ih2 h2
    exact ⟨_, missing_append hkeys1 hkeys2
      (evaluateMissingAttributes_and hkeys1.eq_ok hkeys2.eq_ok) FuzzyValue.undecided_of_and⟩
  | not expr ih =>
    obtain ⟨value', h', rfl⟩ := evaluate_not.mp h
    obtain ⟨keys, hkeys⟩ := ih h'
    exact ⟨keys, hkeys.eq_ok, hkeys.inquired,
      fun hund => hkeys.ne_nil (FuzzyValue.not_eq_undecided.mp hund)⟩
  | presence key => exact ⟨_, missing_atomic hlocal presenceExisting_ne rfl h⟩
  | stringEquality key text => exact ⟨_, missing_atomic hlocal stringEqualityExisting_ne rfl h⟩
  | numericComparison key comparisonType comparisonValue =>
    exact ⟨_, missing_atomic hlocal numericComparisonExisting_ne rfl h⟩
  | empty =>
    cases h
    exact ⟨[], rfl, by simp, by simp⟩

theorem evaluateAtomic_decided (hlocal : data'.isLocal = false) (hne : existing ≠ .ok .kUndecided)
    (hkeys : ∀ key' ∈ missingAtomic key data info, data'.Inquired info key' = false)
    (hext : data.Extends data' info) (h : evaluateAtomic key existing data' info = .ok value) :
    value ≠ .kUndecided := by
  rintro rfl
  rw [evaluateAtomic_eq hlocal hne] at h
  cases hin : data.Inquired info key with
  | false =>
    rw [hext.inquired_eq_false hin] at h
    split_ifs at h <;> simp_all
  | true =>
    rw [missingAtomic_eq, if_pos hin] at hkeys
    rw [hkeys key (by simp)] at h
    split_ifs at h <;> simp_all

/-- Once the missing keys are answered the expression is decided.  A side
of a disjunction that was skipped for being true is still true. -/
theorem evaluate_decided (hext : data.Extends data' info)
    (hall : info.allInformationPresent = false) {value' : FuzzyValue} {keys : List Text}
    (htypes : expr.ExpectedTypes data data' info) (h : expr.evaluate data info = .ok value)
    (h' : expr.evaluate data' info = .ok value')
    (hmissing : expr.evaluateMissingAttributes data info = .ok keys)
    (hkeys : ∀ key ∈ keys, data'.Inquired info key = false) : value' ≠ .kUndecided := by
  have hinfo : { info with allInformationPresent := false } = info := by rw [← hall]
  induction expr generalizing value value' keys with
  | or expr1 expr2 ih1 ih2 =>
    obtain ⟨value1, value2, h1, h2, rfl⟩ := evaluate_or.mp h
    obtain ⟨value1', value2', h1', h2', rfl⟩ := evaluate_or.mp h'
    obtain ⟨ht1, ht2⟩ := htypes.sides
    rw [evaluateMissingAttributes_or hall h1 h2] at hmissing
    split_ifs at hmissing with htrue
    · intro hund
      obtain ⟨⟨hne1, hne2⟩, -⟩ := FuzzyValue.undecided_of_or hund
      rcases htrue with rfl | rfl
      · obtain ⟨v, hv, hallows⟩ := evaluate_allows hext false hall ht1 h1
        rw [hinfo, h1'] at hv
        cases hv
        exact hne1 (hallows.eq (by simp))
      · obtain ⟨v, hv, hallows⟩ := evaluate_allows hext false hall ht2 h2
        rw [hinfo, h2'] at hv
        cases hv
        exact hne2 (hallows.eq (by simp))
    · obtain ⟨keys1, hkeys1, hmissing⟩ := bind_eq_ok.mp hmissing
      obtain ⟨keys2, hkeys2, hmissing⟩ := bind_eq_ok.mp hmissing
      cases hmissing
      intro hund
      rcases (FuzzyValue.undecided_of_or hund).2 with hund | hund
      · exact ih1 ht1 h1 h1' hkeys1 (fun key hkey => hkeys key (by simp [hkey])) hund
      · exact ih2 ht2 h2 h2' hkeys2 (fun key hkey => hkeys key (by simp [hkey])) hund
  | and expr1 expr2 ih1 ih2 =>
    obtain ⟨value1, value2, h1, h2, rfl⟩ := evaluate_and.mp h
    obtain ⟨value1', value2', h1', h2', rfl⟩ := evaluate_and.mp h'
    obtain ⟨ht1, ht2⟩ := ExpectedTypes.sides htypes
    obtain ⟨keys1, hkeys1, hmissing⟩ := bind_eq_ok.mp hmissing
    obtain ⟨keys2, hkeys2, hmissing⟩ := bind_eq_ok.mp hmissing
    cases hmissing
    intro hund
    rcases FuzzyValue.undecided_of_and hund with hund | hund
    · exact ih1 ht1 h1 h1' hkeys1 (fun key hkey => hkeys key (by simp [hkey])) hund
    · exact ih2 ht2 h2 h2' hkeys2 (fun key hkey => hkeys key (by simp [hkey])) hund
  | not expr ih =>
    obtain ⟨value1, h1, rfl⟩ := evaluate_not.mp h
    obtain ⟨value1', h1', rfl⟩ := evaluate_not.mp h'
    intro hund
    exact ih htypes h1 h1' hmissing hkeys (FuzzyValue.not_eq_undecided.mp hund)
  | presence key =>
    cases hmissing
    exact evaluateAtomic_decided hext.isLocal' presenceExisting_ne hkeys hext h'
  | stringEquality key text =>
    cases hmissing
    exact evaluateAtomic_decided hext.isLocal' stringEqualityExisting_ne hkeys hext h'
  | numericComparison key comparisonType comparisonValue =>
    cases hmissing
    exact evaluateAtomic_decided hext.isLocal' numericComparisonExisting_ne hkeys hext h'
  | empty =>
    cases h'
    simp

end BooleanExpression

/-! ### Queries on distributed data -/

/-- More is known about a node: keys that were unknown are there, and values
that were too old have been replaced. -/
structure NodeData.CompletedBy (data data' : NodeData) (threshold : ℕ) : Prop where
  isLocal : data.isLocal = false
  isLocal' : data'.isLocal = false
  isKeySubscribed : data'.isKeySubscribed = data.isKeySubscribed
  known : ∀ key, data.hasKey key = true → data'.hasKey key = true
  same : ∀ key, data.isValueUpToDate key threshold = true → data'.data key = data.data key

/-- The keys have got values that are up to date, and nothing else has changed. -/
structure NodeData.Answered (data data' : NodeData) (threshold : ℕ) (keys : List Text) :
    Prop where
  isLocal' : data'.isLocal = false
  isKeySubscribed : data'.isKeySubscribed = data.isKeySubscribed
  upToDate : ∀ key ∈ keys, data'.isValueUpToDate key threshold = true
  same : ∀ key ∉ keys, data'.data key = data.data key

namespace NodeData

variable {data data' : NodeData} {info : EvaluationInformation} {key : Text}

theorem hasKey_of_isValueUpToDate {threshold : ℕ} (h : data.isValueUpToDate key threshold = true) :
    data.hasKey key = true := by
  rw [isValueUpToDate] at h
  rw [hasKey]
  cases hdata : data.data key with
  | none => simp [hdata] at h
  | some v => rfl

/-- What is known about another node, without subscriptions. -/
def distributed (entries : List (Text × Value × ℕ × ValueType)) : NodeData :=
  ⟨fun key => entries.lookup key, false, fun _ => false⟩

theorem hasKey_distributed (entries : List (Text × Value × ℕ × ValueType)) (key : Text) :
    (distributed entries).hasKey key = entries.any fun e => e.1 = key := by
  change (entries.lookup key).isSome = _
  induction entries with
  | nil => rfl
  | cons e entries ih =>
    rw [List.lookup_cons, List.any_cons]
    by_cases h : e.1 = key
    · simp [h]
    · have hne : (key == e.1) = false := beq_eq_false_iff_ne.mpr (Ne.symm h)
      simp [h, hne, ih]

theorem inquired_eq_false_of_upToDate
    (h : data.isValueUpToDate key info.validityThresholdTimestamp = true) :
    data.Inquired info key = false := by
  simp [Inquired, h, hasKey_of_isValueUpToDate h]

theorem CompletedBy.extends (h : data.CompletedBy data' info.validityThresholdTimestamp)
    (hunknown : info.inquireUnknownAttributes = true)
    (houtdated : info.inquireOutdatedAttributes = true) : data.Extends data' info := by
  refine ⟨h.isLocal, h.isLocal', h.isKeySubscribed, fun key hin => h.same key ?_⟩
  rw [Inquired, hunknown, houtdated] at hin
  cases hkey : data.hasKey key with
  | false => simp [hkey] at hin
  | true => simpa [hkey] using hin

theorem Answered.extends {keys : List Text} (hlocal : data.isLocal = false)
    (h : data.Answered data' info.validityThresholdTimestamp keys)
    (hkeys : ∀ key ∈ keys, data.Inquired info key = true) : data.Extends data' info := by
  refine ⟨hlocal, h.isLocal', h.isKeySubscribed, fun key hin => h.same key fun hmem => ?_⟩
  rw [hkeys key hmem] at hin
  exact absurd hin (by simp)

end NodeData

namespace FindQuery

theorem evaluate_false (query : FindQuery) (data : NodeData) (timestampNow : ℕ) :
    query.evaluate data false timestampNow =
      query.expr.evaluate data (query.createEvaluationInformation false timestampNow) := by
  rw [evaluate]
  cases query.expr.evaluate data (query.createEvaluationInformation false timestampNow) <;> rfl

theorem evaluate_of_expr {query : FindQuery} {data : NodeData} {allInformationPresent : Bool}
    {timestampNow : ℕ} {value : FuzzyValue} (hvalue : value ≠ .kUndecided)
    (h : query.expr.evaluate data
      (query.createEvaluationInformation allInformationPresent timestampNow) = .ok value) :
    query.evaluate data allInformationPresent timestampNow = .ok value := by
  rw [evaluate, h]
  simp [bind, Except.bind, hvalue, pure, Except.pure]

/-- A query that inquires both unknown and outdated attributes decides alike
however much more becomes known, and also when no answer is waited for. -/
theorem decision_stable (query : FindQuery) (hunknown : query.inquireUnknownAttributes = true)
    (houtdated : query.inquireOutdatedAttributes = true) (timestampNow : ℕ)
    (data data' : NodeData)
    (hdata : data.CompletedBy data'
      (query.createEvaluationInformation false timestampNow).validityThresholdTimestamp)
    (htypes : ∀ key v, data'.data key = some v → query.expr.comparesNumber key = true →
      v.1.isNumber = true)
    (value : FuzzyValue) (hvalue : value ≠ .kUndecided)
    (h : query.evaluate data false timestampNow = .ok value) (allInformationPresent : Bool) :
    query.evaluate data' allInformationPresent timestampNow = .ok value := by
  have hext := hdata.extends hunknown houtdated
  rw [evaluate_false] at h
  obtain ⟨value', h', hallows⟩ := BooleanExpression.evaluate_allows hext allInformationPresent
    rfl (fun key _ _ hc v hv => htypes key v hv hc) h
  rw [hallows.eq hvalue] at h'
  exact evaluate_of_expr hvalue h'

/-- `y` may still come in: `x` has decided the disjunction. -/
theorem decision_stable_disjunction :
    evaluate { expr := .or (.presence ['x']) (.numericComparison ['y'] .kLessThan 3),
               validityThreshold := 5 }
      (.distributed [(['y'], .int 7, 12, .kValueDynamic), (['x'], .bool true, 10, .kValueDynamic)])
      true 12 = .ok .kTrue := by
  have hdata : (NodeData.distributed [(['x'], .bool true, 10, .kValueDynamic)]).CompletedBy
      (.distributed [(['y'], .int 7, 12, .kValueDynamic), (['x'], .bool true, 10, .kValueDynamic)])
      7 := by
    refine ⟨rfl, rfl, rfl, fun key hkey => ?_, fun key hdate => ?_⟩
    · rw [NodeData.hasKey_distributed] at hkey ⊢
      simp only [List.any_cons, hkey, Bool.or_true]
    · have hkey := NodeData.hasKey_of_isValueUpToDate hdate
      rw [NodeData.hasKey_distributed] at hkey
      obtain rfl : key = ['x'] := by simpa [eq_comm] using hkey
      rfl
  refine decision_stable { expr := .or (.presence ['x']) (.numericComparison ['y'] .kLessThan 3),
                           validityThreshold := 5 } rfl rfl 12 _ _ hdata ?_ .kTrue (by simp)
    (by decide +kernel) true
  intro key v hv hc
  obtain rfl : key = ['y'] := by
    simpa [BooleanExpression.comparesNumber, eq_comm] using hc
  obtain rfl : (.int 7, 12, .kValueDynamic) = v := Option.some.inj hv
  rfl

/-- A query that has no answer yet asks for something, and the answers to
all it asks for decide it. -/
theorem inquiry_decides (query : FindQuery) (hselection : query.selection = .kSelectUnspecific)
    (timestampNow : ℕ) (data : NodeData) (hlocal : data.isLocal = false)
    (h : query.evaluate data false timestampNow = .ok .kUndecided) :
    ∃ keys, query.evaluateMissingAttributes data timestampNow = .ok keys ∧ keys ≠ [] ∧
      ∀ data' : NodeData,
        data.Answered data' (query.createEvaluationInformation false
          timestampNow).validityThresholdTimestamp keys →
        (∀ key ∈ keys, ∀ v, data'.data key = some v → query.expr.comparesNumber key = true →
          v.1.isNumber = true) →
        ∃ value, query.evaluate data' false timestampNow = .ok value ∧ value ≠ .kUndecided := by
  rw [evaluate_false] at h
  obtain ⟨keys, hmissing⟩ := BooleanExpression.exists_missing hlocal rfl h
  refine ⟨keys, ?_, hmissing.ne_nil rfl, fun data' hanswered htypes => ?_⟩
  · simp [evaluateMissingAttributes, hselection, hmissing.eq_ok, bind, Except.bind, pure,
      Except.pure]
  · have hext := hanswered.extends hlocal hmissing.inquired
    have hexpected : query.expr.ExpectedTypes data data'
        (query.createEvaluationInformation false timestampNow) := by
      intro key hin hin' hc v hv
      by_cases hmem : key ∈ keys
      · exact htypes key hmem v hv hc
      · -- a key that was not asked for is as open as before
        rw [hext.inquired_eq (hanswered.same key hmem), hin] at hin'
        exact absurd hin' (by simp)
    obtain ⟨value, hvalue, -⟩ := BooleanExpression.evaluate_allows hext false rfl hexpected h
    refine ⟨value, evaluate_false query data' timestampNow ▸ hvalue, ?_⟩
    exact BooleanExpression.evaluate_decided hext rfl hexpected h hvalue hmissing.eq_ok
      fun key hkey => NodeData.inquired_eq_false_of_upToDate (hanswered.upToDate key hkey)

/-- Nothing is known yet about `x` and `y`. -/
theorem inquiry_decides_conjunction :
    ∃ keys, evaluateMissingAttributes
        { expr := .and (.presence ['x']) (.not (.numericComparison ['y'] .kLessThan 3)),
          validityThreshold := 5, inquireOutdatedAttributes := false }
        (.distributed []) 12 = .ok keys ∧ keys ≠ [] ∧
      ∀ data' : NodeData, (NodeData.distributed []).Answered data' 7 keys →
        (∀ key ∈ keys, ∀ v, data'.data key = some v → decide (['y'] = key) = true →
          v.1.isNumber = true) →
        ∃ value, evaluate
            { expr := .and (.presence ['x']) (.not (.numericComparison ['y'] .kLessThan 3)),
              validityThreshold := 5, inquireOutdatedAttributes := false }
            data' false 12 = .ok value ∧ value ≠ .kUndecided :=
  inquiry_decides
    { expr := .and (.presence ['x']) (.not (.numericComparison ['y'] .kLessThan 3)),
      validityThreshold := 5, inquireOutdatedAttributes := false }
    rfl 12 (.distributed []) rfl (by decide +kernel)

/-! ### Freshness -/

/-- Whether the value of a key counts as new enough when this query is
evaluated. -/
def TreatsAsUpToDate (query : FindQuery) (data : NodeData) (key : Text) (timestampNow : ℕ) :
    Prop :=
  data.isValueUpToDate key
    (query.createEvaluationInformation false timestampNow).validityThresholdTimestamp = true

theorem evaluate_presence (query : FindQuery) (data : NodeData) (key : Text) (timestampNow : ℕ)
    (hexpr : query.expr = .presence key) (houtdated : query.inquireOutdatedAttributes = true)
    (hlocal : data.isLocal = false) (hkey : data.hasKey key = true) :
    query.evaluate data false timestampNow = .ok .kUndecided ↔
      ¬query.TreatsAsUpToDate data key timestampNow := by
  rw [evaluate_false, hexpr, BooleanExpression.evaluate,
    BooleanExpression.evaluateAtomic_eq hlocal BooleanExpression.presenceExisting_ne,
    TreatsAsUpToDate, NodeData.Inquired, hkey]
  cases hdate : data.isValueUpToDate key
      (query.createEvaluationInformation false timestampNow).validityThresholdTimestamp with
  | false => simp [createEvaluationInformation, houtdated]
  | true => simp [BooleanExpression.presenceExisting_ne]

/-- The age of a value is compared with the validity threshold as it should
be exactly when the clock has passed that threshold.  Earlier, the
difference wraps and every value counts as too old. -/
theorem upToDate_iff (query : FindQuery) (timestampNow timestamp : ℕ)
    (hnow : timestampNow < 2 ^ 64) (hthreshold : query.validityThreshold < 2 ^ 64)
    (data : NodeData) (key : Text) (value : NodeData.Value) (hlocal : data.isLocal = false)
    (hsubscribed : data.isKeySubscribed key = false)
    (hdata : data.data key = some (value, timestamp, .kValueDynamic))
    (htime : timestamp ≤ timestampNow) :
    ((query.TreatsAsUpToDate data key timestampNow ↔
        timestampNow - timestamp ≤ query.validityThreshold) ↔
      query.validityThreshold ≤ timestampNow) ∧
    (query.expr = .presence key → query.inquireOutdatedAttributes = true →
      (query.evaluate data false timestampNow = .ok .kUndecided ↔
        ¬query.TreatsAsUpToDate data key timestampNow)) := by
  have htreats : query.TreatsAsUpToDate data key timestampNow ↔
      u64Sub timestampNow query.validityThreshold ≤ timestamp := by
    simp [TreatsAsUpToDate, NodeData.isValueUpToDate, hdata, hlocal, hsubscribed,
      createEvaluationInformation]
  constructor
  · rw [htreats, u64Sub]
    split_ifs with hle
    · simp only [hle, iff_true]
      omega
    · simp only [hle, iff_false]
      omega
  · intro hexpr houtdated
    exact query.evaluate_presence data key timestampNow hexpr houtdated hlocal
      (by simp [NodeData.hasKey, hdata])

/-- With a threshold of five seconds, a value of the first second is too old
at that very time. -/
theorem upToDate_wraps :
    evaluate { expr := .presence ['x'], validityThreshold := 5000 }
        (.distributed [(['x'], .bool true, 1000, .kValueDynamic)]) false 1000 = .ok .kUndecided ∧
      1000 - 1000 ≤ 5000 := by
  decide +kernel

theorem upToDate_iff_sixSeconds :
    TreatsAsUpToDate { expr := .presence ['x'], validityThreshold := 5000 }
        (.distributed [(['x'], .bool true, 1500, .kValueDynamic)]) ['x'] 6000 ↔
      6000 - 1500 ≤ 5000 :=
  (upToDate_iff { expr := .presence ['x'], validityThreshold := 5000 } 6000 1500 (by decide)
    (by decide) _ ['x'] (.bool true) rfl rfl rfl (by decide)).1.mpr (by decide)

end FindQuery

end Sola.Minhton
