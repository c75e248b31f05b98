import Mathlib.Data.List.Induction
import Mathlib.Tactic.IntervalCases
import Sola.Lib.Peg
import Sola.Minhton.BooleanExpression

/-!
The parser of find queries
(`minhton/src/algorithms/esearch/find_query_parser.cpp`) and what it makes of a
printed expression.

The rules of the grammar are parsing expressions under the names of the source.
Blanks are skipped behind literals and tokens.  An integer constant is of
another type than the action of `exprNumComp` asks for, so its `any_cast`
throws.
-/

namespace Sola.Minhton.FindQueryParser

open Sola.Lib Peg List

/-! ### Letters -/

/-- `%whitespace`. -/
def isBlank (c : Char) : Bool := c = ' ' || c = '\t'

/-- The marks that all texts may contain; 39 is the apostrophe. -/
def isMark (c : Char) : Bool := c = Char.ofNat 39 || c = '.' || c = ':' || c = '|' || c = '/'

def isVariableHead (c : Char) : Bool := c.isLower || c = Char.ofNat 39 || c = '/'

def isVariableLetter (c : Char) : Bool := c.isAlphanum || c = '-' || isMark c

def isStringLetter (c : Char) : Bool := c.isAlphanum || isMark c

/-! ### The grammar -/

def literal (s : Text) : Peg Unit := Peg.literal isBlank s

/-- `variable`. -/
def variableToken : Peg Text := Peg.word isBlank isVariableHead isVariableLetter

/-- `string`. -/
def stringToken : Peg Text := letters isBlank isStringLetter

/-- The number that digits stand for. -/
def digitsValue (s : Text) : ℕ := s.foldl (fun n c => 10 * n + (c.toNat - 48)) 0

/-- A number with decimals, or a whole one of the type `int`. -/
inductive Number
  | float (q : ℚ)
  | int (n : ℕ)

def float : Peg Number := do
  let whole ← Peg.word isBlank Char.isDigit Char.isDigit
  literal ['.']
  let decimals ← letters isBlank Char.isDigit
  return .float (digitsValue (whole ++ decimals) / 10 ^ decimals.length)

def integer : Peg Number := do
  let whole ← Peg.word isBlank Char.isDigit Char.isDigit
  return .int (digitsValue whole)

def number : Peg Number := choice float integer

def compOperator (type : ComparisonTypes) : Peg ComparisonTypes := do
  literal type.text
  return type

def compOP : Peg ComparisonTypes :=
  choice (compOperator .kEqualTo) <|
  choice (compOperator .kNotEqualTo) <|
  choice (compOperator .kGreaterThanOrEqualTo) <|
  choice (compOperator .kLessThanOrEqualTo) <|
  choice (compOperator .kGreater) (compOperator .kLessThan)

/-- An expression with a connective. -/
def exprBinary (op : Text) (make : BooleanExpression → BooleanExpression → BooleanExpression)
    (expr : Peg BooleanExpression) : Peg BooleanExpression := do
  literal ['(']
  let expr1 ← expr
  literal op
  let expr2 ← expr
  literal [')']
  return make expr1 expr2

def exprOR : Peg BooleanExpression → Peg BooleanExpression := exprBinary ['O', 'R'] .or

def exprAND : Peg BooleanExpression → Peg BooleanExpression := exprBinary ['A', 'N', 'D'] .and

def exprNOT (expr : Peg BooleanExpression) : Peg BooleanExpression := do
  literal ['(']
  literal ['N', 'O', 'T']
  let e ← expr
  literal [')']
  return .not e

def exprPRES : Peg BooleanExpression := do
  literal ['(']
  literal ['H', 'A', 'S']
  let key ← variableToken
  literal [')']
  return .presence key

def exprSringEq : Peg BooleanExpression := do
  literal ['(']
  let key ← variableToken
  literal ['=', '=']
  let value ← stringToken
  literal [')']
  return .stringEquality key value

/-- The action of `exprNumComp`. -/
def numComp (key : Text) (type : ComparisonTypes) : Number → Peg BooleanExpression
  | .float q => pure (.numericComparison key type q)
  | .int _ => throw "bad any_cast"

def exprNumComp : Peg BooleanExpression := do
  literal ['(']
  let key ← variableToken
  let type ← compOP
  let n ← number
  literal [')']
  numComp key type n

def exprEmpty : Peg BooleanExpression := do
  literal ['(']
  literal ['e', 'm', 'p', 't', 'y']
  literal [')']
  return .empty

/-- The right side of the rule `expr`. -/
def exprRule (expr : Peg BooleanExpression) : Peg BooleanExpression :=
  choice (exprOR expr) <|
  choice (exprAND expr) <|
  choice (exprNOT expr) <|
  choice exprPRES <|
  choice exprSringEq <|
  choice exprNumComp exprEmpty

def expr : Peg BooleanExpression := recursive exprRule

/-- Whether the whole text was parsed, and the expression at its beginning. -/
def parse (s : Text) : Except String (Bool × Option BooleanExpression) :=
  match expr (s.dropWhile isBlank) with
  | .ok e rest => .ok (rest.isEmpty, some e)
  | .fail => .ok (false, none)
  | .error e => .error e

/-- Text behind the expression is not noticed.  No expression is the null
pointer. -/
def parseBooleanExpression (s : Text) : Except String (Option BooleanExpression) := do
  let (_, e) ← parse s
  return e

/-! ### The grammar with other actions -/

/-- What the rules of the grammar do with what they have matched. -/
structure Actions (α : Type) where
  or : α → α → α
  and : α → α → α
  not : α → α
  presence : Text → α
  stringEquality : Text → Text → α
  numericComparison : Text → ComparisonTypes → Number → Except String α
  empty : α

/-- The actions of the source. -/
def sourceActions : Actions BooleanExpression where
  or := .or
  and := .and
  not := .not
  presence := .presence
  stringEquality := .stringEquality
  numericComparison
    | key, type, .float q => .ok (.numericComparison key type q)
    | _, _, .int _ => .error "bad any_cast"
  empty := .empty

def tokensPRES : Peg Text := do
  literal ['(']
  literal ['H', 'A', 'S']
  let key ← variableToken
  literal [')']
  return key

def tokensSringEq : Peg (Text × Text) := do
  literal ['(']
  let key ← variableToken
  literal ['=', '=']
  let value ← stringToken
  literal [')']
  return (key, value)

def tokensNumComp : Peg (Text × ComparisonTypes × Number) := do
  literal ['(']
  let key ← variableToken
  let type ← compOP
  let n ← number
  literal [')']
  return (key, type, n)

def tokensEmpty : Peg Unit := do
  literal ['(']
  literal ['e', 'm', 'p', 't', 'y']
  literal [')']

namespace Actions

variable {α : Type}

def exprBinary (op : Text) (make : α → α → α) (expr : Peg α) : Peg α := do
  literal ['(']
  let expr1 ← expr
  literal op
  let expr2 ← expr
  literal [')']
  return make expr1 expr2

def exprNOT (act : Actions α) (expr : Peg α) : Peg α := do
  literal ['(']
  literal ['N', 'O', 'T']
  let e ← expr
  literal [')']
  return act.not e

def exprPRES (act : Actions α) : Peg α := do
  let key ← tokensPRES
  return act.presence key

def exprSringEq (act : Actions α) : Peg α := do
  let (key, value) ← tokensSringEq
  return act.stringEquality key value

def exprNumComp (act : Actions α) : Peg α := do
  let (key, type, n) ← tokensNumComp
  lift (act.numericComparison key type n)

def exprEmpty (act : Actions α) : Peg α := do
  tokensEmpty
  return act.empty

def rule (act : Actions α) (expr : Peg α) : Peg α :=
  choice (exprBinary ['O', 'R'] act.or expr) <|
  choice (exprBinary ['A', 'N', 'D'] act.and expr) <|
  choice (act.exprNOT expr) <|
  choice act.exprPRES <|
  choice act.exprSringEq <|
  choice act.exprNumComp act.exprEmpty

end Actions

/-- The rule of the source is the grammar with its actions. -/
theorem exprRule_eq : exprRule = sourceActions.rule := by
  have hnumComp : ∀ key type n,
      numComp key type n = lift (sourceActions.numericComparison key type n) := by
    intro key type n
    cases n <;> rfl
  have hPRES : exprPRES = sourceActions.exprPRES := by
    simp only [exprPRES, Actions.exprPRES, tokensPRES, bind_assoc, pure_bind]
    rfl
  have hSringEq : exprSringEq = sourceActions.exprSringEq := by
    simp only [exprSringEq, Actions.exprSringEq, tokensSringEq, bind_assoc, pure_bind]
    rfl
  have hNumComp : exprNumComp = sourceActions.exprNumComp := by
    simp only [exprNumComp, Actions.exprNumComp, tokensNumComp, bind_assoc, pure_bind, hnumComp]
  have hEmpty : exprEmpty = sourceActions.exprEmpty := by
    simp only [exprEmpty, Actions.exprEmpty, tokensEmpty, bind_assoc]
    rfl
  funext expr
  rw [exprRule, Actions.rule, hPRES, hSringEq, hNumComp, hEmpty]
  rfl

/-! ### The rule `expr` -/

theorem compOP_shrinks : compOP.Shrinks := by
  have h : ∀ type, (compOperator type).Shrinks := fun type =>
    (Shrinks.literal _ _).bind fun _ => .pure _
  exact (h _).choice ((h _).choice ((h _).choice ((h _).choice ((h _).choice (h _)))))

theorem number_shrinks : number.Shrinks := by
  refine Shrinks.choice ?_ ?_
  · exact (Shrinks.word _ _ _).bind fun _ => (Shrinks.literal _ _).bind fun _ =>
      (Shrinks.letters _ _).bind fun _ => .pure _
  · exact (Shrinks.word _ _ _).bind fun _ => .pure _

namespace Actions

variable {α : Type} {op : Text} {make : α → α → α} {x y : Peg α}

theorem exprBinary_shrinks (hx : x.Shrinks) : (exprBinary op make x).Shrinks :=
  (Shrinks.literal _ _).bind fun _ => hx.bind fun _ => (Shrinks.literal _ _).bind fun _ =>
    hx.bind fun _ => (Shrinks.literal _ _).bind fun _ => .pure _

theorem exprBinary_agree {n : ℕ} (hx : x.Shrinks) (hxy : AgreeBelow n x y) :
    AgreeBelow (n + 1) (exprBinary op make x) (exprBinary op make y) := by
  refine AgreeBelow.literal_bind (.bind hx hxy fun _ => ?_)
  refine .bind (Shrinks.literal _ _) (.refl _ _) fun _ => .bind hx hxy fun _ => ?_
  exact .refl _ _

theorem isRule_rule (act : Actions α) : IsRule act.rule := by
  constructor
  case shrinks =>
    intro x hx
    refine Shrinks.choice ?_ (Shrinks.choice ?_ (Shrinks.choice ?_
      (Shrinks.choice ?_ (Shrinks.choice ?_ (Shrinks.choice ?_ ?_)))))
    · exact exprBinary_shrinks hx
    · exact exprBinary_shrinks hx
    · exact (Shrinks.literal _ _).bind fun _ => (Shrinks.literal _ _).bind fun _ =>
        hx.bind fun _ => (Shrinks.literal _ _).bind fun _ => .pure _
    · refine Shrinks.bind ?_ fun _ => .pure _
      exact (Shrinks.literal _ _).bind fun _ => (Shrinks.literal _ _).bind fun _ =>
        (Shrinks.word _ _ _).bind fun _ => (Shrinks.literal _ _).bind fun _ => .pure _
    · refine Shrinks.bind ?_ fun _ => .pure _
      exact (Shrinks.literal _ _).bind fun _ => (Shrinks.word _ _ _).bind fun _ =>
        (Shrinks.literal _ _).bind fun _ => (Shrinks.letters _ _).bind fun _ =>
        (Shrinks.literal _ _).bind fun _ => .pure _
    · refine Shrinks.bind ?_ fun _ => .lift _
      exact (Shrinks.literal _ _).bind fun _ => (Shrinks.word _ _ _).bind fun _ =>
        compOP_shrinks.bind fun _ => number_shrinks.bind fun _ =>
        (Shrinks.literal _ _).bind fun _ => .pure _
    · refine Shrinks.bind ?_ fun _ => .pure _
      exact (Shrinks.literal _ _).bind fun _ => (Shrinks.literal _ _).bind fun _ =>
        Shrinks.literal _ _
  case depends =>
    intro x y n hx hxy
    refine AgreeBelow.choice ?_ (AgreeBelow.choice ?_ (AgreeBelow.choice ?_
      (AgreeBelow.refl _ _)))
    · exact exprBinary_agree hx hxy
    · exact exprBinary_agree hx hxy
    · refine AgreeBelow.literal_bind (.bind (Shrinks.literal _ _) (.refl _ _) fun _ => ?_)
      exact .bind hx hxy fun _ => .refl _ _

end Actions

theorem isRule_exprRule : IsRule exprRule := by
  rw [exprRule_eq]
  exact sourceActions.isRule_rule

variable {l key : Text} {e : BooleanExpression} {q : ℚ} {c : Char}

theorem exprBinary_eq_ok {op : Text}
    {make : BooleanExpression → BooleanExpression → BooleanExpression} {x : Peg BooleanExpression}
    {r : Text} (h : exprBinary op make x l = .ok e r) :
    ∃ expr1 expr2 l₁ r₁ l₂ r₂, x l₁ = .ok expr1 r₁ ∧ x l₂ = .ok expr2 r₂ ∧
      e = make expr1 expr2 := by
  obtain ⟨-, l₁, -, h⟩ := bind_eq_ok.mp h
  obtain ⟨expr1, r₁, h1, h⟩ := bind_eq_ok.mp h
  obtain ⟨-, l₂, -, h⟩ := bind_eq_ok.mp h
  obtain ⟨expr2, r₂, h2, h⟩ := bind_eq_ok.mp h
  obtain ⟨-, r₃, -, h⟩ := bind_eq_ok.mp h
  cases h
  exact ⟨expr1, expr2, l₁, r₁, l₂, r₂, h1, h2, rfl⟩

theorem expr_eq (l : Text) : expr l = exprRule expr l := recursive_eq isRule_exprRule l

/-! ### What the parser produces -/

/-- A text that `variable` matches. -/
def IsVariable (key : Text) : Prop :=
  ∃ c s, key = c :: s ∧ isVariableHead c = true ∧ ∀ d ∈ s, isVariableLetter d = true

/-- The texts and numbers of the expression are such as the grammar has. -/
def WellFormed : BooleanExpression → Prop
  | .or expr1 expr2 => WellFormed expr1 ∧ WellFormed expr2
  | .and expr1 expr2 => WellFormed expr1 ∧ WellFormed expr2
  | .not expr => WellFormed expr
  | .presence key => IsVariable key
  | .stringEquality key value => IsVariable key ∧ ∀ c ∈ value, isStringLetter c = true
  | .numericComparison key _ q => IsVariable key ∧ 0 ≤ q
  | .empty => True

theorem number_nonneg {r : Text} (h : number l = .ok (.float q) r) : 0 ≤ q := by
  rcases choice_eq_ok.mp h with h | ⟨-, h⟩
  · obtain ⟨whole, r₁, -, h⟩ := bind_eq_ok.mp h
    obtain ⟨-, r₂, -, h⟩ := bind_eq_ok.mp h
    obtain ⟨decimals, r₃, -, h⟩ := bind_eq_ok.mp h
    cases h
    positivity
  · obtain ⟨whole, r₁, -, h⟩ := bind_eq_ok.mp h
    cases h

theorem exprRule_wellFormed (x : Peg BooleanExpression)
    (hx : ∀ l e r, x l = .ok e r → WellFormed e) (l : Text) (e : BooleanExpression) (r : Text)
    (h : exprRule x l = .ok e r) : WellFormed e := by
  simp only [exprRule, choice_eq_ok] at h
  rcases h with h | ⟨-, h | ⟨-, h | ⟨-, h | ⟨-, h | ⟨-, h | ⟨-, h⟩⟩⟩⟩⟩⟩
  case inl =>
    obtain ⟨expr1, expr2, l₁, r₁, l₂, r₂, h1, h2, rfl⟩ := exprBinary_eq_ok h
    exact ⟨hx _ _ _ h1, hx _ _ _ h2⟩
  case inr.inl =>
    obtain ⟨expr1, expr2, l₁, r₁, l₂, r₂, h1, h2, rfl⟩ := exprBinary_eq_ok h
    exact ⟨hx _ _ _ h1, hx _ _ _ h2⟩
  case inr.inr.inl =>
    obtain ⟨-, r₁, -, h⟩ := bind_eq_ok.mp h
    obtain ⟨-, r₂, -, h⟩ := bind_eq_ok.mp h
    obtain ⟨expr1, r₃, h1, h⟩ := bind_eq_ok.mp h
    obtain ⟨-, r₄, -, h⟩ := bind_eq_ok.mp h
    cases h
    show WellFormed expr1
    exact hx _ _ _ h1
  case inr.inr.inr.inl =>
    obtain ⟨-, r₁, -, h⟩ := bind_eq_ok.mp h
    obtain ⟨-, r₂, -, h⟩ := bind_eq_ok.mp h
    obtain ⟨key, r₃, hkey, h⟩ := bind_eq_ok.mp h
    obtain ⟨-, r₄, -, h⟩ := bind_eq_ok.mp h
    cases h
    exact (word_eq_ok hkey).1
  case inr.inr.inr.inr.inl =>
    obtain ⟨-, r₁, -, h⟩ := bind_eq_ok.mp h
    obtain ⟨key, r₂, hkey, h⟩ := bind_eq_ok.mp h
    obtain ⟨-, r₃, -, h⟩ := bind_eq_ok.mp h
    obtain ⟨value, r₄, hvalue, h⟩ := bind_eq_ok.mp h
    obtain ⟨-, r₅, -, h⟩ := bind_eq_ok.mp h
    cases h
    exact ⟨(word_eq_ok hkey).1, (letters_eq_ok hvalue).1⟩
  case inr.inr.inr.inr.inr.inl =>
    obtain ⟨-, r₁, -, h⟩ := bind_eq_ok.mp h
    obtain ⟨key, r₂, hkey, h⟩ := bind_eq_ok.mp h
    obtain ⟨type, r₃, -, h⟩ := bind_eq_ok.mp h
    obtain ⟨n, r₄, hn, h⟩ := bind_eq_ok.mp h
    obtain ⟨-, r₅, -, h⟩ := bind_eq_ok.mp h
    cases n with
    | float q =>
      cases h
      exact ⟨(word_eq_ok hkey).1, number_nonneg hn⟩
    | int n => cases h
  case inr.inr.inr.inr.inr.inr =>
    obtain ⟨-, r₁, -, h⟩ := bind_eq_ok.mp h
    obtain ⟨-, r₂, -, h⟩ := bind_eq_ok.mp h
    obtain ⟨-, r₃, -, h⟩ := bind_eq_ok.mp h
    cases h
    trivial

theorem wellFormed_of_parse {s : Text} (h : parseBooleanExpression s = .ok (some e)) :
    WellFormed e := by
  rw [parseBooleanExpression, parse] at h
  cases hexpr : expr (s.dropWhile isBlank) with
  | ok e' r =>
    rw [hexpr] at h
    cases h
    exact value_of_recursive exprRule_wellFormed hexpr
  | fail =>
    rw [hexpr] at h
    cases h
  | error message =>
    rw [hexpr] at h
    cases h

/-! ### Texts with blanks -/

/-- The text does not start with a blank. -/
def Solid (l : Text) : Prop := ∀ c ∈ l.head?, isBlank c = false

theorem solid_cons (h : isBlank c = false) : Solid (c :: l) := by
  intro d hd
  cases hd
  exact h

theorem Solid.dropWhile (h : Solid l) : l.dropWhile isBlank = l := by
  cases l with
  | nil => rfl
  | cons c l => exact dropWhile_cons_of_neg (by simp [h c rfl])

theorem Solid.dropWhile_space (h : Solid l) : (' ' :: l).dropWhile isBlank = l :=
  (dropWhile_cons_of_pos rfl).trans h.dropWhile

theorem literal_spaced (s : Text) (h : Solid l) : literal s (s ++ ' ' :: l) = .ok () l := by
  rw [literal, literal_append, h.dropWhile_space]

/-- The letter of a class that has no blanks. -/
theorem isBlank_of_class {p : Char → Bool} (hspace : p ' ' = false) (htab : p '\t' = false)
    (h : p c = true) : isBlank c = false := by
  rw [isBlank, Bool.or_eq_false_iff, decide_eq_false_iff_not, decide_eq_false_iff_not]
  constructor
  · rintro rfl
    rw [h] at hspace
    exact absurd hspace (by decide)
  · rintro rfl
    rw [h] at htab
    exact absurd htab (by decide)

theorem IsVariable.solid (h : IsVariable key) (l : Text) : Solid (key ++ l) := by
  obtain ⟨c, s, rfl, hc, -⟩ := h
  exact solid_cons (isBlank_of_class rfl rfl hc)

theorem variableToken_spaced (hkey : IsVariable key) (h : Solid l) :
    variableToken (key ++ ' ' :: l) = .ok key l := by
  obtain ⟨c, s, rfl, hc, hs⟩ := hkey
  rw [variableToken, word_append hc hs (by simp [isVariableLetter, isMark]),
    h.dropWhile_space]

theorem stringToken_spaced {value : Text} (hvalue : ∀ c ∈ value, isStringLetter c = true)
    (h : Solid l) : stringToken (value ++ ' ' :: l) = .ok value l := by
  rw [stringToken, letters_append isBlank hvalue (by simp [isStringLetter, isMark]),
    h.dropWhile_space]

/-! ### Printed numbers -/

open BooleanExpression

theorem digitsValue_append (s t : Text) :
    digitsValue (s ++ t) = digitsValue s * 10 ^ t.length + digitsValue t := by
  induction t using reverseRecOn with
  | nil => simp [digitsValue]
  | append_singleton t c ih =>
    have hstep : ∀ u : Text, digitsValue (u ++ [c]) = 10 * digitsValue u + (c.toNat - 48) := by
      intro u
      simp [digitsValue]
    rw [← append_assoc, hstep, hstep, ih, length_append, length_singleton,
      pow_succ]
    ring

theorem toNat_digit {d : ℕ} (h : d < 10) : (Char.ofNat (48 + d)).toNat = 48 + d := by
  interval_cases d <;> rfl

theorem isDigit_digit {d : ℕ} (h : d < 10) : (Char.ofNat (48 + d)).isDigit = true := by
  interval_cases d <;> rfl

theorem length_digits (k n : ℕ) : (digits k n).length = k := by
  induction k generalizing n with
  | zero => rfl
  | succ k ih => rw [digits, length_append, ih, length_singleton]

theorem isDigit_of_mem_digits {k n : ℕ} (h : c ∈ digits k n) : c.isDigit = true := by
  induction k generalizing n with
  | zero => cases h
  | succ k ih =>
    rw [digits, mem_append, mem_singleton] at h
    rcases h with h | rfl
    · exact ih h
    · exact isDigit_digit (Nat.mod_lt _ (by decide))

theorem digitsValue_digits (k n : ℕ) : digitsValue (digits k n) = n % 10 ^ k := by
  induction k generalizing n with
  | zero => simp [digits, digitsValue, Nat.mod_one]
  | succ k ih =>
    have hdigit : digitsValue [Char.ofNat (48 + n % 10)] = n % 10 := by
      simp [digitsValue, toNat_digit (Nat.mod_lt n (by decide : 0 < 10))]
    rw [digits, digitsValue_append, ih, hdigit, length_singleton, pow_one, pow_succ',
      Nat.mod_mul, mul_comm, add_comm]

theorem roundHalfEven_natCast (n : ℕ) : roundHalfEven n = n := by
  simp [roundHalfEven]

/-- The number has at most six decimals. -/
def SixDecimals (q : ℚ) : Prop := (q * 10 ^ 6).den = 1

theorem SixDecimals.exists_eq (h : SixDecimals q) (hq : 0 ≤ q) : ∃ n : ℕ, q * 10 ^ 6 = n := by
  have hnum : ((q * 10 ^ 6).num : ℚ) = q * 10 ^ 6 := (Rat.den_eq_one_iff _).mp h
  have hnonneg : 0 ≤ (q * 10 ^ 6).num := Rat.num_nonneg.mpr (by positivity)
  refine ⟨(q * 10 ^ 6).num.toNat, ?_⟩
  rw [← hnum, ← Int.cast_natCast, Int.toNat_of_nonneg]
  · simp
  · simpa using hnonneg

theorem toString6_eq {n : ℕ} (hq : 0 ≤ q) (h : q * 10 ^ 6 = n) :
    toString6 q = digits (Nat.log 10 (n / 10 ^ 6) + 1) (n / 10 ^ 6) ++ '.' :: digits 6 n := by
  simp only [toString6, abs_of_nonneg hq, h, roundHalfEven_natCast, if_neg (not_lt.mpr hq),
    nil_append]

/-- The two parts of a printed number together. -/
theorem digitsValue_parts (n : ℕ) :
    digitsValue (digits (Nat.log 10 (n / 10 ^ 6) + 1) (n / 10 ^ 6) ++ digits 6 n) = n := by
  have hlt : n / 10 ^ 6 < 10 ^ (Nat.log 10 (n / 10 ^ 6) + 1) :=
    Nat.lt_pow_succ_log_self (by decide) _
  rw [digitsValue_append, digitsValue_digits, digitsValue_digits, length_digits,
    Nat.mod_eq_of_lt hlt, Nat.div_add_mod']

theorem solid_of_digits {s : Text} (hs : ∀ c ∈ s, c.isDigit = true) (hne : s ≠ []) (l : Text) :
    Solid (s ++ l) := by
  obtain ⟨c, s, rfl⟩ := exists_cons_of_ne_nil hne
  exact solid_cons (isBlank_of_class rfl rfl (hs c (by simp)))

theorem digits_ne_nil (k n : ℕ) : digits (k + 1) n ≠ [] := by
  rw [← length_pos_iff, length_digits]
  exact Nat.succ_pos k

/-- A number with decimals, in its two parts. -/
theorem float_parts {whole decimals : Text} (hwhole : ∀ c ∈ whole, c.isDigit = true)
    (hne : whole ≠ []) (hdecimals : ∀ c ∈ decimals, c.isDigit = true) (hne' : decimals ≠ [])
    (hl : Solid l) :
    float (whole ++ '.' :: (decimals ++ ' ' :: l)) =
      .ok (.float (digitsValue (whole ++ decimals) / 10 ^ decimals.length)) l := by
  obtain ⟨c, s, rfl⟩ := exists_cons_of_ne_nil hne
  have hword : word isBlank Char.isDigit Char.isDigit
      (c :: s ++ '.' :: (decimals ++ ' ' :: l)) = .ok (c :: s) ('.' :: (decimals ++ ' ' :: l)) :=
    word_append (hwhole c (by simp)) (fun d hd => hwhole d (by simp [hd]))
      (by simp [Char.isDigit])
  have hsolid := solid_of_digits hdecimals hne' (' ' :: l)
  have hpoint : literal ['.'] ('.' :: (decimals ++ ' ' :: l)) = .ok () (decimals ++ ' ' :: l) :=
    (literal_append ['.'] (decimals ++ ' ' :: l)).trans (by rw [hsolid.dropWhile])
  have hletters : letters isBlank Char.isDigit (decimals ++ ' ' :: l) = .ok decimals l := by
    rw [letters_append isBlank hdecimals (by simp [Char.isDigit]), hl.dropWhile_space]
  rw [float, bind_run_ok hword, bind_run_ok hpoint, bind_run_ok hletters,
    pure_run]

theorem number_spaced (hq : 0 ≤ q) (h : SixDecimals q) (hl : Solid l) :
    number (toString6 q ++ ' ' :: l) = .ok (.float q) l := by
  obtain ⟨n, hn⟩ := h.exists_eq hq
  have hfloat := float_parts (fun _ => isDigit_of_mem_digits)
    (digits_ne_nil (Nat.log 10 (n / 10 ^ 6)) (n / 10 ^ 6)) (fun _ => isDigit_of_mem_digits)
    (digits_ne_nil 5 n) hl
  rw [digitsValue_parts, length_digits, ← hn, mul_div_cancel_right₀ q (by norm_num)] at hfloat
  rw [toString6_eq hq hn, append_assoc, cons_append]
  exact choice_of_ok hfloat

theorem solid_toString6 (hq : 0 ≤ q) (h : SixDecimals q) (l : Text) : Solid (toString6 q ++ l) := by
  obtain ⟨n, hn⟩ := h.exists_eq hq
  rw [toString6_eq hq hn, append_assoc]
  exact solid_of_digits (fun _ => isDigit_of_mem_digits) (digits_ne_nil _ _) _

/-! ### Printed expressions -/

theorem compOP_spaced (type : ComparisonTypes) (hl : Solid l) :
    compOP (type.text ++ ' ' :: l) = .ok type l := by
  have hok : compOperator type (type.text ++ ' ' :: l) = .ok type l :=
    bind_run_ok (literal_spaced _ hl)
  have hfail : ∀ other : ComparisonTypes, strip other.text (type.text ++ ' ' :: l) = none →
      compOperator other (type.text ++ ' ' :: l) = .fail := by
    intro other h
    exact bind_run_fail (by rw [literal, Peg.literal, h])
  rw [compOP]
  cases type with
  | kEqualTo => exact choice_of_ok hok
  | kNotEqualTo =>
    rw [choice_of_fail (hfail .kEqualTo rfl)]
    exact choice_of_ok hok
  | kGreaterThanOrEqualTo =>
    rw [choice_of_fail (hfail .kEqualTo rfl), choice_of_fail (hfail .kNotEqualTo rfl)]
    exact choice_of_ok hok
  | kLessThanOrEqualTo =>
    rw [choice_of_fail (hfail .kEqualTo rfl), choice_of_fail (hfail .kNotEqualTo rfl),
      choice_of_fail (hfail .kGreaterThanOrEqualTo rfl)]
    exact choice_of_ok hok
  | kGreater =>
    rw [choice_of_fail (hfail .kEqualTo rfl), choice_of_fail (hfail .kNotEqualTo rfl),
      choice_of_fail (hfail .kGreaterThanOrEqualTo rfl),
      choice_of_fail (hfail .kLessThanOrEqualTo rfl)]
    exact choice_of_ok hok
  | kLessThan =>
    rw [choice_of_fail (hfail .kEqualTo rfl), choice_of_fail (hfail .kNotEqualTo rfl),
      choice_of_fail (hfail .kGreaterThanOrEqualTo rfl),
      choice_of_fail (hfail .kLessThanOrEqualTo rfl),
      choice_of_fail (hfail .kGreater rfl)]
    exact hok

/-- An expression starts with a bracket. -/
theorem expr_of_ne {c : Char} {l : Text} (h : '(' ≠ c) : expr (c :: l) = .fail := by
  have hfail : literal ['('] (c :: l) = .fail := literal_of_ne h
  rw [expr_eq, exprRule,
    choice_of_fail (show exprOR expr (c :: l) = .fail from bind_run_fail hfail),
    choice_of_fail (show exprAND expr (c :: l) = .fail from bind_run_fail hfail),
    choice_of_fail (show exprNOT expr (c :: l) = .fail from bind_run_fail hfail),
    choice_of_fail (show exprPRES (c :: l) = .fail from bind_run_fail hfail),
    choice_of_fail (show exprSringEq (c :: l) = .fail from bind_run_fail hfail),
    choice_of_fail (show exprNumComp (c :: l) = .fail from bind_run_fail hfail)]
  exact bind_run_fail hfail

theorem open_spaced {l : Text} (h : Solid l) : literal ['('] ('(' :: ' ' :: l) = .ok () l :=
  literal_spaced ['('] h

theorem close_run (l : Text) : literal [')'] (')' :: l) = .ok () (l.dropWhile isBlank) :=
  literal_append [')'] l

section Alternatives

variable {c : Char} {l : Text}

theorem exprBinary_of_ne {op : Text}
    {make : BooleanExpression → BooleanExpression → BooleanExpression} (hb : isBlank c = false)
    (h : '(' ≠ c) : exprBinary op make expr ('(' :: ' ' :: c :: l) = .fail := by
  rw [exprBinary, bind_run_ok (open_spaced (solid_cons hb))]
  exact bind_run_fail (expr_of_ne h)

theorem exprNOT_of_ne (hb : isBlank c = false) (h : 'N' ≠ c) :
    exprNOT expr ('(' :: ' ' :: c :: l) = .fail := by
  rw [exprNOT, bind_run_ok (open_spaced (solid_cons hb))]
  exact bind_run_fail (literal_of_ne h)

theorem exprPRES_of_ne (hb : isBlank c = false) (h : 'H' ≠ c) :
    exprPRES ('(' :: ' ' :: c :: l) = .fail := by
  rw [exprPRES, bind_run_ok (open_spaced (solid_cons hb))]
  exact bind_run_fail (literal_of_ne h)

/-- What starts with a key is none of the first four alternatives. -/
theorem exprRule_of_key {key : Text} (hkey : IsVariable key) :
    exprRule expr ('(' :: ' ' :: (key ++ ' ' :: l)) =
      choice exprSringEq (choice exprNumComp exprEmpty)
        ('(' :: ' ' :: (key ++ ' ' :: l)) := by
  obtain ⟨c, s, rfl, hc, -⟩ := hkey
  have hne : ∀ d : Char, isVariableHead d = false → d ≠ c := by
    rintro d hd rfl
    rw [hd] at hc
    exact absurd hc (by decide)
  have hb : isBlank c = false := isBlank_of_class rfl rfl hc
  rw [exprRule, cons_append, exprOR, exprAND,
    choice_of_fail (exprBinary_of_ne hb (hne _ (by decide))),
    choice_of_fail (exprBinary_of_ne hb (hne _ (by decide))),
    choice_of_fail (exprNOT_of_ne hb (hne _ (by decide))),
    choice_of_fail (exprPRES_of_ne hb (hne _ (by decide)))]

end Alternatives

/-- The comparisons of the expression are not for equality, and their numbers
have at most six decimals. -/
def Printable : BooleanExpression → Prop
  | .or expr1 expr2 => Printable expr1 ∧ Printable expr2
  | .and expr1 expr2 => Printable expr1 ∧ Printable expr2
  | .not expr => Printable expr
  | .numericComparison _ type q => type ≠ .kEqualTo ∧ SixDecimals q
  | _ => True

theorem solid_serialize (e : BooleanExpression) (l : Text) : Solid (serialize e ++ l) := by
  obtain ⟨s, hs⟩ : ∃ s, serialize e = '(' :: s := by cases e <;> exact ⟨_, rfl⟩
  rw [hs]
  exact solid_cons rfl

/-- What is to be shown for an expression by induction. -/
def RoundTrips (e : BooleanExpression) : Prop :=
  ∀ l, expr (serialize e ++ l) = .ok e (l.dropWhile isBlank)

theorem RoundTrips.spaced (h : RoundTrips e) (hl : Solid l) :
    expr (serialize e ++ ' ' :: l) = .ok e l := by
  rw [h, hl.dropWhile_space]

section Connectives

variable {op : Text} {make : BooleanExpression → BooleanExpression → BooleanExpression}
  {expr1 expr2 : BooleanExpression}

variable (h1 : RoundTrips expr1)
include h1

theorem exprBinary_spaced (h2 : RoundTrips expr2) (hop : ∀ l, Solid (op ++ l)) (l : Text) :
    exprBinary op make expr ('(' :: ' ' :: (serialize expr1 ++ ' ' :: (op ++ ' ' ::
      (serialize expr2 ++ ' ' :: ')' :: l)))) = .ok (make expr1 expr2) (l.dropWhile isBlank) := by
  rw [exprBinary, bind_run_ok (open_spaced (solid_serialize _ _)),
    bind_run_ok (h1.spaced (hop _)), bind_run_ok (literal_spaced op (solid_serialize _ _)),
    bind_run_ok (h2.spaced (solid_cons rfl)), bind_run_ok (close_run l), pure_run]

/-- The text has another connective. -/
theorem exprBinary_of_strip {l : Text} (hl : Solid l) (hop : strip op l = none) :
    exprBinary op make expr ('(' :: ' ' :: (serialize expr1 ++ ' ' :: l)) = .fail := by
  rw [exprBinary, bind_run_ok (open_spaced (solid_serialize _ _)),
    bind_run_ok (h1.spaced hl)]
  exact bind_run_fail (by rw [literal, Peg.literal, hop])

theorem RoundTrips.or (h2 : RoundTrips expr2) : RoundTrips (.or expr1 expr2) := by
  intro l
  rw [serialize, expr_eq]
  simp only [append_assoc, cons_append, nil_append]
  exact choice_of_ok (exprBinary_spaced h1 h2 (fun _ => solid_cons rfl) l)

theorem RoundTrips.and (h2 : RoundTrips expr2) : RoundTrips (.and expr1 expr2) := by
  intro l
  rw [serialize, expr_eq]
  simp only [append_assoc, cons_append, nil_append]
  refine (choice_of_fail (exprBinary_of_strip h1 (solid_cons rfl) rfl)).trans ?_
  exact choice_of_ok (exprBinary_spaced h1 h2 (fun _ => solid_cons rfl) l)

theorem RoundTrips.not : RoundTrips (.not expr1) := by
  intro l
  have hNOT : exprNOT expr ('(' :: ' ' :: (['N', 'O', 'T'] ++ ' ' :: (serialize expr1 ++
      ' ' :: ')' :: l))) = .ok (.not expr1) (l.dropWhile isBlank) := by
    have hsolid : ∀ l, Solid (['N', 'O', 'T'] ++ l) := fun _ => solid_cons rfl
    rw [exprNOT, bind_run_ok (open_spaced (hsolid _)),
      bind_run_ok (literal_spaced _ (solid_serialize _ _)),
      bind_run_ok (h1.spaced (solid_cons rfl)), bind_run_ok (close_run l), pure_run]
  rw [serialize, expr_eq]
  simp only [append_assoc, cons_append, nil_append]
  refine (choice_of_fail (exprBinary_of_ne rfl (by decide))).trans ?_
  refine (choice_of_fail (exprBinary_of_ne rfl (by decide))).trans ?_
  exact choice_of_ok hNOT

end Connectives

section Atoms

variable {key : Text} (hkey : IsVariable key)
include hkey

theorem roundTrips_presence : RoundTrips (.presence key) := by
  intro l
  have hPRES : exprPRES ('(' :: ' ' :: (['H', 'A', 'S'] ++ ' ' :: (key ++ ' ' :: ')' :: l))) =
      .ok (.presence key) (l.dropWhile isBlank) := by
    have hsolid : ∀ l, Solid (['H', 'A', 'S'] ++ l) := fun _ => solid_cons rfl
    rw [exprPRES, bind_run_ok (open_spaced (hsolid _)),
      bind_run_ok (literal_spaced _ (hkey.solid _)),
      bind_run_ok (variableToken_spaced hkey (solid_cons rfl)),
      bind_run_ok (close_run l), pure_run]
  rw [serialize, expr_eq]
  simp only [append_assoc, cons_append, nil_append]
  refine (choice_of_fail (exprBinary_of_ne rfl (by decide))).trans ?_
  refine (choice_of_fail (exprBinary_of_ne rfl (by decide))).trans ?_
  refine (choice_of_fail (exprNOT_of_ne rfl (by decide))).trans ?_
  exact choice_of_ok hPRES

theorem roundTrips_stringEquality {value : Text}
    (hvalue : ∀ c ∈ value, isStringLetter c = true) : RoundTrips (.stringEquality key value) := by
  intro l
  -- the blanks before an empty text are skipped together with those behind it
  have hvalue : literal ['=', '='] (['=', '='] ++ ' ' :: (value ++ ' ' :: ')' :: l)) =
          .ok () (')' :: l) ∧
        stringToken (')' :: l) = .ok value (')' :: l) ∨
      literal ['=', '='] (['=', '='] ++ ' ' :: (value ++ ' ' :: ')' :: l)) =
          .ok () (value ++ ' ' :: ')' :: l) ∧
        stringToken (value ++ ' ' :: ')' :: l) = .ok value (')' :: l) := by
    cases value with
    | nil => exact .inl ⟨rfl, rfl⟩
    | cons c s =>
      refine .inr ⟨literal_spaced _ (solid_cons ?_), stringToken_spaced hvalue (solid_cons rfl)⟩
      exact isBlank_of_class rfl rfl (hvalue c (by simp))
  have hEq : exprSringEq ('(' :: ' ' :: (key ++ ' ' :: (['=', '='] ++ ' ' :: (value ++
      ' ' :: ')' :: l)))) = .ok (.stringEquality key value) (l.dropWhile isBlank) := by
    have hop : ∀ l, Solid (['=', '='] ++ l) := fun _ => solid_cons rfl
    rw [exprSringEq, bind_run_ok (open_spaced (hkey.solid _)),
      bind_run_ok (variableToken_spaced hkey (hop _))]
    rcases hvalue with ⟨hliteral, hstring⟩ | ⟨hliteral, hstring⟩
    · rw [bind_run_ok hliteral, bind_run_ok hstring, bind_run_ok (close_run l),
        pure_run]
    · rw [bind_run_ok hliteral, bind_run_ok hstring, bind_run_ok (close_run l),
        pure_run]
  rw [serialize, expr_eq]
  simp only [append_assoc, cons_append, nil_append]
  refine (exprRule_of_key hkey).trans ?_
  exact choice_of_ok hEq

theorem roundTrips_numericComparison {type : ComparisonTypes} {q : ℚ} (hq : 0 ≤ q)
    (htype : type ≠ .kEqualTo) (hsix : SixDecimals q) :
    RoundTrips (.numericComparison key type q) := by
  intro l
  have hsolid : ∀ l, Solid (type.text ++ l) := by
    intro l
    cases type <;> exact solid_cons rfl
  have hclose : Solid (')' :: l) := solid_cons rfl
  have hEq : exprSringEq ('(' :: ' ' :: (key ++ ' ' :: (type.text ++ ' ' :: (toString6 q ++
      ' ' :: ')' :: l)))) = .fail := by
    rw [exprSringEq, bind_run_ok (open_spaced (hkey.solid _)),
      bind_run_ok (variableToken_spaced hkey (hsolid _))]
    refine bind_run_fail ?_
    cases type with
    | kEqualTo => exact absurd rfl htype
    | _ => rfl
  have hNumComp : exprNumComp ('(' :: ' ' :: (key ++ ' ' :: (type.text ++ ' ' :: (toString6 q ++
      ' ' :: ')' :: l)))) = .ok (.numericComparison key type q) (l.dropWhile isBlank) := by
    rw [exprNumComp, bind_run_ok (open_spaced (hkey.solid _)),
      bind_run_ok (variableToken_spaced hkey (hsolid _)),
      bind_run_ok (compOP_spaced type (solid_toString6 hq hsix _)),
      bind_run_ok (number_spaced hq hsix hclose),
      bind_run_ok (close_run l), numComp, pure_run]
  rw [serialize, expr_eq]
  simp only [append_assoc, cons_append, nil_append]
  refine (exprRule_of_key hkey).trans ?_
  refine (choice_of_fail hEq).trans ?_
  exact choice_of_ok hNumComp

omit hkey in
theorem roundTrips_empty : RoundTrips .empty := by
  intro l
  have hkey : IsVariable ['e', 'm', 'p', 't', 'y'] := ⟨'e', _, rfl, rfl, all_eq_true.mp rfl⟩
  have hclose : ∀ l, Solid (')' :: l) := fun _ => solid_cons rfl
  have hEq : exprSringEq ('(' :: ' ' :: (['e', 'm', 'p', 't', 'y'] ++ ' ' :: ')' :: l)) =
      .fail := by
    rw [exprSringEq, bind_run_ok (open_spaced (hkey.solid _)),
      bind_run_ok (variableToken_spaced hkey (hclose _))]
    exact bind_run_fail rfl
  have hNumComp : exprNumComp ('(' :: ' ' :: (['e', 'm', 'p', 't', 'y'] ++ ' ' :: ')' :: l)) =
      .fail := by
    rw [exprNumComp, bind_run_ok (open_spaced (hkey.solid _)),
      bind_run_ok (variableToken_spaced hkey (hclose _))]
    exact bind_run_fail rfl
  have hEmpty : exprEmpty ('(' :: ' ' :: (['e', 'm', 'p', 't', 'y'] ++ ' ' :: ')' :: l)) =
      .ok .empty (l.dropWhile isBlank) := by
    rw [exprEmpty, bind_run_ok (open_spaced (hkey.solid _)),
      bind_run_ok (literal_spaced _ (hclose _)), bind_run_ok (close_run l), pure_run]
  rw [serialize, expr_eq]
  refine (exprRule_of_key hkey).trans ?_
  exact (choice_of_fail hEq).trans ((choice_of_fail hNumComp).trans hEmpty)

end Atoms

/-- A printed expression is parsed as itself. -/
theorem roundTrips (he : WellFormed e) (hp : Printable e) : RoundTrips e := by
  induction e with
  | or expr1 expr2 ih1 ih2 => exact (ih1 he.1 hp.1).or (ih2 he.2 hp.2)
  | and expr1 expr2 ih1 ih2 => exact (ih1 he.1 hp.1).and (ih2 he.2 hp.2)
  | not expr ih => exact (ih he hp).not
  | presence key => exact roundTrips_presence he
  | stringEquality key value => exact roundTrips_stringEquality he.1 he.2
  | numericComparison key type q => exact roundTrips_numericComparison he.1 he.2 hp.1 hp.2
  | empty => exact roundTrips_empty

/-- An expression that the parser has produced and that has only numbers with
at most six decimals, and no numeric test for equality, means the same after
it was printed and parsed again. -/
theorem evaluate_parse_serialize (e : BooleanExpression)
    (hproduced : ∃ s, parseBooleanExpression s = .ok (some e)) (hp : Printable e) :
    ∃ e', parse (serialize e) = .ok (true, some e') ∧
      parseBooleanExpression (serialize e) = .ok (some e') ∧
      ∀ data info, evaluate data info e' = evaluate data info e := by
  obtain ⟨s, hs⟩ := hproduced
  have hparse : parse (serialize e) = .ok (true, some e) := by
    have h := roundTrips (wellFormed_of_parse hs) hp []
    have hsolid := solid_serialize e []
    rw [append_nil] at h hsolid
    rw [parse, hsolid.dropWhile, h]
    rfl
  refine ⟨e, hparse, ?_, fun _ _ => rfl⟩
  rw [parseBooleanExpression, hparse]
  rfl

/-- The query `((HAS a) AND (b > 1.5))`. -/
theorem evaluate_parse_serialize_and :
    let e := BooleanExpression.and (.presence ['a']) (.numericComparison ['b'] .kGreater (3 / 2))
    ∃ e', parse (serialize e) = .ok (true, some e') ∧
      parseBooleanExpression (serialize e) = .ok (some e') ∧
      ∀ data info, evaluate data info e' = evaluate data info e := by
  refine evaluate_parse_serialize _ ⟨['(', '(', 'H', 'A', 'S', ' ', 'a', ')', 'A', 'N', 'D', '(',
    'b', '>', '1', '.', '5', ')', ')'], by decide +kernel⟩ ⟨trivial, by decide, ?_⟩
  show ((3 / 2 : ℚ) * 10 ^ 6).den = 1
  decide +kernel

/-- Our own data with the integer 0 for the key `a`. -/
def zeroData : NodeData where
  data key := if key = ['a'] then some (.int 0, 0, .kValueStatic) else none
  isLocal := true
  isKeySubscribed _ := false

/-- The query `( a != 0.0000001 )` is forwarded as `( a != 0.000000 )`. -/
theorem decimals_lost :
    let info : EvaluationInformation := ⟨0, false, true, true, false⟩
    ∃ e e', parseBooleanExpression ['(', ' ', 'a', ' ', '!', '=', ' ', '0', '.', '0', '0', '0',
        '0', '0', '0', '1', ' ', ')'] = .ok (some e) ∧
      parseBooleanExpression (serialize e) = .ok (some e') ∧
      evaluate zeroData info e = .ok .kTrue ∧ evaluate zeroData info e' = .ok .kFalse := by
  refine ⟨.numericComparison ['a'] .kNotEqualTo (1 / 10 ^ 7),
    .numericComparison ['a'] .kNotEqualTo 0, ?_, ?_, ?_, ?_⟩
  all_goals decide +kernel

/-- A blank before the point makes a numeric test for equality, which comes
back as a test for a text. -/
example :
    parseBooleanExpression ['(', 'a', '=', '=', '5', ' ', '.', '0', ')'] =
      .ok (some (.numericComparison ['a'] .kEqualTo 5)) ∧
    parseBooleanExpression (serialize (.numericComparison ['a'] .kEqualTo 5)) =
      .ok (some (.stringEquality ['a'] ['5', '.', '0', '0', '0', '0', '0', '0'])) := by
  decide +kernel

end Sola.Minhton.FindQueryParser