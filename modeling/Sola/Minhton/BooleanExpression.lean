import Mathlib.Data.Nat.Log
import Mathlib.Data.Rat.Floor

/-!
The boolean expressions of a find query
(`minhton/include/minhton/algorithms/esearch/boolean_expression.h`).

Texts are lists of letters.  Decimal constants and the values they are compared
with are exact numbers.
-/

namespace Sola.Minhton

/-- A `std::string`. -/
abbrev Text := List Char

/-! ### Fuzzy values -/

inductive FuzzyValue
  | kFalse
  | kUndecided
  | kTrue
deriving DecidableEq

namespace FuzzyValue

def value : FuzzyValue → ℕ
  | kFalse => 0
  | kUndecided => 1
  | kTrue => 2

def not : FuzzyValue → FuzzyValue
  | kFalse => kTrue
  | kUndecided => kUndecided
  | kTrue => kFalse

def and (a b : FuzzyValue) : FuzzyValue := if a.value ≤ b.value then a else b

def or (a b : FuzzyValue) : FuzzyValue := if a.value ≤ b.value then b else a

def ofBool (b : Bool) : FuzzyValue := if b then kTrue else kFalse

end FuzzyValue

/-! ### Attributes -/

/-- An attribute is an integer, a decimal number, a truth value or a text. -/
inductive NodeData.Value
  | int (n : ℤ)
  | float (q : ℚ)
  | bool (b : Bool)
  | string (s : Text)
deriving DecidableEq

inductive NodeData.ValueType
  | kValueDynamic
  | kValueStatic
deriving DecidableEq

/-- The attributes of a node.  `local` tells our own `LocalData` from the
`DistributedData` about others, which also knows the keys we have subscribed. -/
structure NodeData where
  data : Text → Option (NodeData.Value × ℕ × NodeData.ValueType)
  isLocal : Bool
  isKeySubscribed : Text → Bool

namespace NodeData

def hasKey (data : NodeData) (key : Text) : Bool := (data.data key).isSome

/-- Whether the value of a known key is new enough. -/
def isValueUpToDate (data : NodeData) (key : Text) (validityThresholdTimestamp : ℕ) : Bool :=
  match data.data key with
  | none => false
  | some (_, timestamp, type) =>
    data.isLocal || data.isKeySubscribed key || type = .kValueStatic ||
      timestamp ≥ validityThresholdTimestamp

end NodeData

structure EvaluationInformation where
  validityThresholdTimestamp : ℕ
  allInformationPresent : Bool
  inquireUnknownAttributes : Bool
  inquireOutdatedAttributes : Bool
  permissive : Bool

/-! ### Expressions -/

inductive ComparisonTypes
  | kEqualTo
  | kNotEqualTo
  | kLessThan
  | kGreater
  | kLessThanOrEqualTo
  | kGreaterThanOrEqualTo
deriving DecidableEq

inductive BooleanExpression
  | or (expr1 expr2 : BooleanExpression)
  | and (expr1 expr2 : BooleanExpression)
  | not (expr : BooleanExpression)
  | presence (key : Text)
  | stringEquality (key value : Text)
  | numericComparison (key : Text) (comparisonType : ComparisonTypes) (comparisonValue : ℚ)
  | empty
deriving DecidableEq

namespace ComparisonTypes

def applyComparison : ComparisonTypes → ℚ → ℚ → Bool
  | kEqualTo, a, b => a = b
  | kNotEqualTo, a, b => a ≠ b
  | kLessThan, a, b => a < b
  | kGreater, a, b => b < a
  | kLessThanOrEqualTo, a, b => a ≤ b
  | kGreaterThanOrEqualTo, a, b => b ≤ a

/-- The text of an operator. -/
def text : ComparisonTypes → Text
  | kEqualTo => ['=', '=']
  | kNotEqualTo => ['!', '=']
  | kLessThan => ['<']
  | kGreater => ['>']
  | kLessThanOrEqualTo => ['<', '=']
  | kGreaterThanOrEqualTo => ['>', '=']

end ComparisonTypes

namespace BooleanExpression

/-! ### Evaluation -/

/-- `AtomicBooleanExpression::evaluate`. -/
def evaluateAtomic (key : Text) (evaluateExisting : Except String FuzzyValue) (data : NodeData)
    (info : EvaluationInformation) : Except String FuzzyValue :=
  if data.isLocal then evaluateExisting
  else if !data.hasKey key then
    if !info.allInformationPresent && info.inquireUnknownAttributes then .ok .kUndecided
    else .ok .kFalse
  else if info.inquireOutdatedAttributes &&
      !data.isValueUpToDate key info.validityThresholdTimestamp then
    if info.allInformationPresent then .ok .kFalse else .ok .kUndecided
  else do
    let value ← evaluateExisting
    if value = .kUndecided && !info.inquireOutdatedAttributes && info.permissive then
      return .kTrue
    else return value

/-- `PresenceExpression::evaluateExisting`. -/
def presenceExisting (key : Text) (data : NodeData) : Except String FuzzyValue :=
  match data.data key with
  | none => .ok .kFalse
  | some (.bool b, _) => .ok (.ofBool b)
  | some _ => .ok .kTrue

/-- `StringEqualityExpression::evaluateExisting`. -/
def stringEqualityExisting (key value : Text) (data : NodeData) : Except String FuzzyValue :=
  match data.data key with
  | some (.string s, _) => .ok (.ofBool (s = value))
  | _ => .ok .kFalse

/-- `NumericComparisonExpression::evaluateExisting`. -/
def numericComparisonExisting (key : Text) (comparisonType : ComparisonTypes)
    (comparisonValue : ℚ) (data : NodeData) : Except String FuzzyValue :=
  match data.data key with
  | none => .ok .kFalse
  | some (.int n, _) => .ok (.ofBool (comparisonType.applyComparison n comparisonValue))
  | some (.float q, _) => .ok (.ofBool (comparisonType.applyComparison q comparisonValue))
  | some _ => .error "Could not compare"

/-- Both sides of a connective are evaluated, the left one first. -/
def evaluate (data : NodeData) (info : EvaluationInformation) :
    BooleanExpression → Except String FuzzyValue
  | or expr1 expr2 => do
      let value1 ← evaluate data info expr1
      let value2 ← evaluate data info expr2
      return value1.or value2
  | and expr1 expr2 => do
      let value1 ← evaluate data info expr1
      let value2 ← evaluate data info expr2
      return value1.and value2
  | not expr => do
      let value ← evaluate data info expr
      return value.not
  | presence key => evaluateAtomic key (presenceExisting key data) data info
  | stringEquality key value =>
    evaluateAtomic key (stringEqualityExisting key value data) data info
  | numericComparison key comparisonType comparisonValue =>
    evaluateAtomic key (numericComparisonExisting key comparisonType comparisonValue data)
      data info
  | empty => .ok .kTrue

/-! ### Printing -/

/-- The last `k` digits of `n`. -/
def digits : ℕ → ℕ → Text
  | 0, _ => []
  | k + 1, n => digits k (n / 10) ++ [Char.ofNat (48 + n % 10)]

/-- Round to the nearest whole number, and a half to the even one. -/
def roundHalfEven (q : ℚ) : ℕ :=
  if q - ⌊q⌋₊ < 1 / 2 then ⌊q⌋₊
  else if 1 / 2 < q - ⌊q⌋₊ then ⌊q⌋₊ + 1
  else if ⌊q⌋₊ % 2 = 0 then ⌊q⌋₊
  else ⌊q⌋₊ + 1

/-- `std::to_string` has always six decimals. -/
def toString6 (q : ℚ) : Text :=
  let millionths := roundHalfEven (|q| * 10 ^ 6)
  let whole := millionths / 10 ^ 6
  (if q < 0 then ['-'] else []) ++ digits (Nat.log 10 whole + 1) whole ++ '.' :: digits 6 millionths

def serialize : BooleanExpression → Text
  | or expr1 expr2 =>
    ['(', ' '] ++ (serialize expr1 ++ ([' ', 'O', 'R', ' '] ++ (serialize expr2 ++ [' ', ')'])))
  | and expr1 expr2 =>
    ['(', ' '] ++
      (serialize expr1 ++ ([' ', 'A', 'N', 'D', ' '] ++ (serialize expr2 ++ [' ', ')'])))
  | not expr => ['(', ' ', 'N', 'O', 'T', ' '] ++ (serialize expr ++ [' ', ')'])
  | presence key => ['(', ' ', 'H', 'A', 'S', ' '] ++ (key ++ [' ', ')'])
  | stringEquality key value =>
    ['(', ' '] ++ (key ++ ([' ', '=', '=', ' '] ++ (value ++ [' ', ')'])))
  | numericComparison key comparisonType comparisonValue =>
    ['(', ' '] ++ (key ++ (' ' :: (comparisonType.text ++
      (' ' :: (toString6 comparisonValue ++ [' ', ')'])))))
  | empty => ['(', ' ', 'e', 'm', 'p', 't', 'y', ' ', ')']

end BooleanExpression

end Sola.Minhton
