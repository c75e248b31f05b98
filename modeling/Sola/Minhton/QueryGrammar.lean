import Sola.Lib.Throwing
import Sola.Minhton.FindQueryParser

/-!
What the grammar of find queries derives, and what the parser makes of it
(`minhton/src/algorithms/esearch/find_query_parser.cpp`).

The grammar alone gives a derivation of a text, in which a constant is an
integer or has decimals.  A derivation has a meaning of its own.  The actions of
the source run while the text is parsed; they are a fold of the derivation,
which throws at the first integer constant.
-/

namespace Sola.Minhton.FindQueryParser

open Sola.Lib BooleanExpression Peg

/-! ### Derivations -/

deriving instance DecidableEq for Number

/-- A derivation of `expr`. -/
inductive Derivation
  | or (expr1 expr2 : Derivation)
  | and (expr1 expr2 : Derivation)
  | not (expr : Derivation)
  | presence (key : Text)
  | stringEquality (key value : Text)
  | numericComparison (key : Text) (type : ComparisonTypes) (n : Number)
  | empty
deriving DecidableEq

/-- The grammar without the actions of the source: every rule only records
what was matched. -/
def recordActions : Actions Derivation where
  or := .or
  and := .and
  not := .not
  presence := .presence
  stringEquality := .stringEquality
  numericComparison key type n := .ok (.numericComparison key type n)
  empty := .empty

def derive : Peg Derivation := recursive recordActions.rule

/-- The derivation of a whole text. -/
def derivation (s : Text) : Option Derivation :=
  match derive (s.dropWhile isBlank) with
  | .ok d [] => some d
  | _ => none

/-- The number that a constant stands for. -/
def Number.toRat : Number → ℚ
  | .float q => q
  | .int n => n

namespace Derivation

/-- What a derivation means for the attributes of a node. -/
def meaning (data : NodeData) (info : EvaluationInformation) :
    Derivation → Except String FuzzyValue
  | or expr1 expr2 => do
      let value1 ← meaning data info expr1
      let value2 ← meaning data info expr2
      return value1.or value2
  | and expr1 expr2 => do
      let value1 ← meaning data info expr1
      let value2 ← meaning data info expr2
      return value1.and value2
  | not expr => do
      let value ← meaning data info expr
      return value.not
  | presence key => evaluateAtomic key (presenceExisting key data) data info
  | stringEquality key value =>
    evaluateAtomic key (stringEqualityExisting key value data) data info
  | numericComparison key type n =>
    evaluateAtomic key (numericComparisonExisting key type n.toRat data) data info
  | empty => .ok .kTrue

/-- No constant is an integer. -/
def NoInteger : Derivation → Prop
  | or expr1 expr2 => NoInteger expr1 ∧ NoInteger expr2
  | and expr1 expr2 => NoInteger expr1 ∧ NoInteger expr2
  | not expr => NoInteger expr
  | numericComparison _ _ (.int _) => False
  | _ => True

/-- The actions applied from the bottom up, the left part first. -/
def fold {α : Type} (act : Actions α) : Derivation → Except String α
  | or expr1 expr2 => do
      let a1 ← fold act expr1
      let a2 ← fold act expr2
      return act.or a1 a2
  | and expr1 expr2 => do
      let a1 ← fold act expr1
      let a2 ← fold act expr2
      return act.and a1 a2
  | not expr => do
      let a ← fold act expr
      return act.not a
  | presence key => .ok (act.presence key)
  | stringEquality key value => .ok (act.stringEquality key value)
  | numericComparison key type n => act.numericComparison key type n
  | empty => .ok act.empty

end Derivation

/-! ### Parsing is a fold of the derivation -/

namespace Actions

variable {α : Type} {act : Actions α} {x : Peg α} {l l₁ l₂ l₃ l₄ r : Text} {op : Text}
  {make : α → α → α}

theorem exprBinary_run {e1 e2 : Except String α} (hopen : literal ['('] l = .ok () l₁)
    (h1 : x l₁ = .ofExcept e1 l₂) (hop : literal op l₂ = .ok () l₃) (h2 : x l₃ = .ofExcept e2 l₄)
    (hclose : literal [')'] l₄ = .ok () r) :
    exprBinary op make x l =
      .ofExcept (do let a1 ← e1; let a2 ← e2; return make a1 a2) r := by
  rw [exprBinary, bind_run_ok hopen]
  cases e1 with
  | error e => exact bind_run_error h1
  | ok a1 =>
    rw [bind_run_ok h1, bind_run_ok hop]
    cases e2 with
    | error e => exact bind_run_error h2
    | ok a2 =>
      rw [bind_run_ok h2, bind_run_ok hclose]
      rfl

theorem exprBinary_eq_ok {a : α} (h : exprBinary op make x l = .ok a r) :
    ∃ a1 a2 l₁ l₂ l₃ l₄, literal ['('] l = .ok () l₁ ∧ x l₁ = .ok a1 l₂ ∧
      literal op l₂ = .ok () l₃ ∧ x l₃ = .ok a2 l₄ ∧ literal [')'] l₄ = .ok () r ∧
      a = make a1 a2 := by
  obtain ⟨⟨⟩, l₁, hopen, h⟩ := bind_eq_ok.mp h
  obtain ⟨a1, l₂, h1, h⟩ := bind_eq_ok.mp h
  obtain ⟨⟨⟩, l₃, hop, h⟩ := bind_eq_ok.mp h
  obtain ⟨a2, l₄, h2, h⟩ := bind_eq_ok.mp h
  obtain ⟨⟨⟩, r, hclose, h⟩ := bind_eq_ok.mp h
  cases h
  exact ⟨a1, a2, l₁, l₂, l₃, l₄, hopen, h1, hop, h2, hclose, rfl⟩

theorem exprNOT_run {e : Except String α} (hopen : literal ['('] l = .ok () l₁)
    (hnot : literal ['N', 'O', 'T'] l₁ = .ok () l₂) (h : x l₂ = .ofExcept e l₃)
    (hclose : literal [')'] l₃ = .ok () r) :
    act.exprNOT x l = .ofExcept (do let a ← e; return act.not a) r := by
  rw [exprNOT, bind_run_ok hopen, bind_run_ok hnot]
  cases e with
  | error e => exact bind_run_error h
  | ok a =>
    rw [bind_run_ok h, bind_run_ok hclose]
    rfl

theorem exprNOT_eq_ok {a : α} (h : act.exprNOT x l = .ok a r) :
    ∃ b l₁ l₂ l₃, literal ['('] l = .ok () l₁ ∧ literal ['N', 'O', 'T'] l₁ = .ok () l₂ ∧
      x l₂ = .ok b l₃ ∧ literal [')'] l₃ = .ok () r ∧ a = act.not b := by
  obtain ⟨⟨⟩, l₁, hopen, h⟩ := bind_eq_ok.mp h
  obtain ⟨⟨⟩, l₂, hnot, h⟩ := bind_eq_ok.mp h
  obtain ⟨b, l₃, hx, h⟩ := bind_eq_ok.mp h
  obtain ⟨⟨⟩, r, hclose, h⟩ := bind_eq_ok.mp h
  cases h
  exact ⟨b, l₁, l₂, l₃, hopen, hnot, hx, hclose, rfl⟩

/-- The parser that the grammar and the actions make. -/
def run (act : Actions α) : Peg α := recursive act.rule

theorem run_eq (act : Actions α) (l : Text) : act.run l = act.rule act.run l :=
  recursive_eq act.isRule_rule l

/-- An expression starts with a bracket. -/
theorem run_of_ne {c : Char} (h : '(' ≠ c) : act.run (c :: l) = .fail := by
  have hfail : literal ['('] (c :: l) = .fail := literal_of_ne h
  have htokens : ∀ {β γ : Type} {f : Unit → Peg β} {g : β → Peg γ},
      (literal ['('] >>= f >>= g) (c :: l) = .fail := fun {_ _ _ _} =>
    bind_run_fail (bind_run_fail hfail)
  rw [run_eq, rule,
    choice_of_fail (show exprBinary _ _ _ _ = .fail from bind_run_fail hfail),
    choice_of_fail (show exprBinary _ _ _ _ = .fail from bind_run_fail hfail),
    choice_of_fail (show exprNOT _ _ _ = .fail from bind_run_fail hfail),
    choice_of_fail (show exprPRES _ _ = .fail from htokens),
    choice_of_fail (show exprSringEq _ _ = .fail from htokens),
    choice_of_fail (show exprNumComp _ _ = .fail from htokens)]
  exact htokens

/-! ### Alternatives that fail -/

section Fail

variable {c : Char} (hopen : literal ['('] l = .ok () (c :: l₁))
include hopen

theorem exprBinary_of_ne (h : '(' ≠ c) : exprBinary op make act.run l = .fail := by
  rw [exprBinary, bind_run_ok hopen]
  exact bind_run_fail (run_of_ne h)

theorem exprNOT_of_ne (h : 'N' ≠ c) : act.exprNOT x l = .fail := by
  rw [exprNOT, bind_run_ok hopen]
  exact bind_run_fail (literal_of_ne h)

theorem exprPRES_of_ne (h : 'H' ≠ c) : act.exprPRES l = .fail := by
  refine bind_run_fail ?_
  rw [tokensPRES, bind_run_ok hopen]
  exact bind_run_fail (literal_of_ne h)

theorem rule_of_key (h : isVariableHead c = true) :
    act.rule act.run l =
      choice act.exprSringEq (choice act.exprNumComp act.exprEmpty) l := by
  have hne : ∀ d : Char, isVariableHead d = false → d ≠ c := by
    rintro d hd rfl
    rw [hd] at h
    exact absurd h (by decide)
  rw [rule, choice_of_fail (exprBinary_of_ne hopen (hne _ (by decide))),
    choice_of_fail (exprBinary_of_ne hopen (hne _ (by decide))),
    choice_of_fail (exprNOT_of_ne hopen (hne _ (by decide))),
    choice_of_fail (exprPRES_of_ne hopen (hne _ (by decide)))]

end Fail

theorem exprSringEq_of_fail {β : Type} {act' : Actions β} (h : act'.exprSringEq l = .fail) :
    act.exprSringEq l = .fail :=
  bind_run_fail (eq_fail_of_bind h fun _ _ => by simp)

theorem exprNumComp_of_fail {β : Type} {act' : Actions β} (h : act'.exprNumComp l = .fail) :
    act.exprNumComp l = .fail :=
  bind_run_fail (eq_fail_of_bind h fun _ _ => lift_ne_fail _ _)

end Actions

/-! ### What comes after the bracket -/

section Heads

variable {l r : Text}

theorem tokensPRES_head {key : Text} (h : tokensPRES l = .ok key r) :
    ∃ l₁, literal ['('] l = .ok () ('H' :: l₁) := by
  obtain ⟨⟨⟩, l₁, hopen, h⟩ := bind_eq_ok.mp h
  obtain ⟨⟨⟩, l₂, hhas, -⟩ := bind_eq_ok.mp h
  obtain ⟨l', rfl⟩ := exists_of_literal_ok hhas
  exact ⟨l', hopen⟩

theorem tokensSringEq_head {v : Text × Text} (h : tokensSringEq l = .ok v r) :
    ∃ c l₁, literal ['('] l = .ok () (c :: l₁) ∧ isVariableHead c = true := by
  obtain ⟨⟨⟩, l₁, hopen, h⟩ := bind_eq_ok.mp h
  obtain ⟨key, l₂, hkey, -⟩ := bind_eq_ok.mp h
  obtain ⟨c, l', rfl, hc⟩ := exists_of_word_ok hkey
  exact ⟨c, l', hopen, hc⟩

theorem tokensNumComp_head {v : Text × ComparisonTypes × Number}
    (h : tokensNumComp l = .ok v r) :
    ∃ c l₁, literal ['('] l = .ok () (c :: l₁) ∧ isVariableHead c = true := by
  obtain ⟨⟨⟩, l₁, hopen, h⟩ := bind_eq_ok.mp h
  obtain ⟨key, l₂, hkey, -⟩ := bind_eq_ok.mp h
  obtain ⟨c, l', rfl, hc⟩ := exists_of_word_ok hkey
  exact ⟨c, l', hopen, hc⟩

theorem tokensEmpty_head {u : Unit} (h : tokensEmpty l = .ok u r) :
    ∃ l₁, literal ['('] l = .ok () ('e' :: l₁) := by
  obtain ⟨⟨⟩, l₁, hopen, h⟩ := bind_eq_ok.mp h
  obtain ⟨⟨⟩, l₂, hempty, -⟩ := bind_eq_ok.mp h
  obtain ⟨l', rfl⟩ := exists_of_literal_ok hempty
  exact ⟨l', hopen⟩

end Heads

/-- Whatever the actions are, on a text with a derivation the parser ends with
the fold of the derivation. -/
theorem Actions.run_of_unroll {α : Type} (act : Actions α) (n : ℕ) :
    ∀ l d r, unroll recordActions.rule n l = .ok d r →
      act.run l = .ofExcept (d.fold act) r := by
  induction n with
  | zero =>
    intro l d r h
    cases h
  | succ n ih =>
    intro l d r h
    have hrule : recordActions.rule (unroll recordActions.rule n) l = .ok d r := h
    simp only [rule, choice_eq_ok] at hrule
    rw [run_eq]
    rcases hrule with h | ⟨-, h | ⟨-, h | ⟨-, h | ⟨-, h | ⟨hSringEq, h | ⟨hNumComp, h⟩⟩⟩⟩⟩⟩
    case inl =>
      obtain ⟨d1, d2, l₁, l₂, l₃, l₄, hopen, h1, hop, h2, hclose, rfl⟩ := exprBinary_eq_ok h
      exact choice_of_ofExcept (exprBinary_run hopen (ih _ _ _ h1) hop (ih _ _ _ h2) hclose)
    case inr.inl =>
      obtain ⟨d1, d2, l₁, l₂, l₃, l₄, hopen, h1, hop, h2, hclose, rfl⟩ := exprBinary_eq_ok h
      have hrun : exprBinary ['A', 'N', 'D'] act.and act.run l =
          .ofExcept (Derivation.fold act (.and d1 d2)) r :=
        exprBinary_run hopen (ih _ _ _ h1) hop (ih _ _ _ h2) hclose
      -- `exprOR` has the first part too, with its exception
      have hfirst := ih _ _ _ h1
      obtain ⟨l', rfl⟩ := exists_of_literal_ok hop
      cases hfold : d1.fold act with
      | error e =>
        rw [hfold] at hfirst
        have herror : exprBinary ['O', 'R'] act.or act.run l = .error e := by
          rw [exprBinary, bind_run_ok hopen]
          exact bind_run_error hfirst
        rw [rule, choice_of_error herror]
        show .error e = Outcome.ofExcept (Derivation.fold act (.and d1 d2)) r
        rw [Derivation.fold, hfold]
        rfl
      | ok a =>
        rw [hfold] at hfirst
        have hfail : exprBinary ['O', 'R'] act.or act.run l = .fail := by
          rw [exprBinary, bind_run_ok hopen, bind_run_ok hfirst]
          exact bind_run_fail (literal_of_ne (by decide))
        rw [rule, choice_of_fail hfail]
        exact choice_of_ofExcept hrun
    case inr.inr.inl =>
      obtain ⟨d1, l₁, l₂, l₃, hopen, hnot, hx, hclose, rfl⟩ := exprNOT_eq_ok h
      have hrun : act.exprNOT act.run l = .ofExcept (Derivation.fold act (.not d1)) r :=
        exprNOT_run hopen hnot (ih _ _ _ hx) hclose
      obtain ⟨l', rfl⟩ := exists_of_literal_ok hnot
      rw [rule, choice_of_fail (exprBinary_of_ne hopen (by decide)),
        choice_of_fail (exprBinary_of_ne hopen (by decide))]
      exact choice_of_ofExcept hrun
    case inr.inr.inr.inl =>
      obtain ⟨key, r', htokens, h⟩ := bind_eq_ok.mp h
      cases h
      obtain ⟨l', hopen⟩ := tokensPRES_head htokens
      rw [rule, choice_of_fail (exprBinary_of_ne hopen (by decide)),
        choice_of_fail (exprBinary_of_ne hopen (by decide)),
        choice_of_fail (exprNOT_of_ne hopen (by decide))]
      exact choice_of_ofExcept (e := .ok _) (bind_run_ok htokens)
    case inr.inr.inr.inr.inl =>
      obtain ⟨⟨key, value⟩, r', htokens, h⟩ := bind_eq_ok.mp h
      cases h
      obtain ⟨c, l', hopen, hc⟩ := tokensSringEq_head htokens
      rw [rule_of_key hopen hc]
      exact choice_of_ofExcept (e := .ok _) (bind_run_ok htokens)
    case inr.inr.inr.inr.inr.inl =>
      obtain ⟨⟨key, type, m⟩, r', htokens, h⟩ := bind_eq_ok.mp h
      cases h
      obtain ⟨c, l', hopen, hc⟩ := tokensNumComp_head htokens
      rw [rule_of_key hopen hc, choice_of_fail (exprSringEq_of_fail hSringEq)]
      exact choice_of_ofExcept ((bind_run_ok htokens).trans (lift_run _ _))
    case inr.inr.inr.inr.inr.inr =>
      obtain ⟨⟨⟩, r', htokens, h⟩ := bind_eq_ok.mp h
      cases h
      obtain ⟨l', hopen⟩ := tokensEmpty_head htokens
      rw [rule_of_key hopen (by decide), choice_of_fail (exprSringEq_of_fail hSringEq),
        choice_of_fail (exprNumComp_of_fail hNumComp)]
      exact bind_run_ok htokens

/-- The parser of the source on a text with a derivation. -/
theorem expr_of_derive {l r : Text} {d : Derivation} (h : derive l = .ok d r) :
    expr l = .ofExcept (d.fold sourceActions) r := by
  have hrun := sourceActions.run_of_unroll _ l d r h
  rw [expr, exprRule_eq]
  exact hrun

/-! ### What the actions make of a derivation -/

namespace Derivation

/-- The actions succeed if there is no integer constant. -/
theorem fold_source_iff (d : Derivation) :
    (∃ e, d.fold sourceActions = .ok e) ↔ d.NoInteger := by
  induction d with
  | or d1 d2 ih1 ih2 =>
    rw [NoInteger, ← ih1, ← ih2, fold]
    cases d1.fold sourceActions <;> cases d2.fold sourceActions <;>
      simp [bind, Except.bind, pure, Except.pure]
  | and d1 d2 ih1 ih2 =>
    rw [NoInteger, ← ih1, ← ih2, fold]
    cases d1.fold sourceActions <;> cases d2.fold sourceActions <;>
      simp [bind, Except.bind, pure, Except.pure]
  | not d ih =>
    rw [NoInteger, ← ih, fold]
    cases d.fold sourceActions <;> simp [bind, Except.bind, pure, Except.pure]
  | presence key => exact ⟨fun _ => trivial, fun _ => ⟨_, rfl⟩⟩
  | stringEquality key value => exact ⟨fun _ => trivial, fun _ => ⟨_, rfl⟩⟩
  | numericComparison key type n =>
    cases n with
    | float q => exact ⟨fun _ => trivial, fun _ => ⟨_, rfl⟩⟩
    | int n =>
      refine ⟨?_, False.elim⟩
      rintro ⟨e, h⟩
      cases h
  | empty => exact ⟨fun _ => trivial, fun _ => ⟨_, rfl⟩⟩

/-- The expression that the actions build means what the derivation means. -/
theorem evaluate_fold {d : Derivation} {e : BooleanExpression}
    (h : d.fold sourceActions = .ok e) (data : NodeData) (info : EvaluationInformation) :
    evaluate data info e = d.meaning data info := by
  induction d generalizing e with
  | or d1 d2 ih1 ih2 =>
    obtain ⟨e1, h1, h⟩ := bind_eq_ok.mp h
    obtain ⟨e2, h2, h⟩ := bind_eq_ok.mp h
    cases h
    rw [meaning, ← ih1 h1, ← ih2 h2]
    rfl
  | and d1 d2 ih1 ih2 =>
    obtain ⟨e1, h1, h⟩ := bind_eq_ok.mp h
    obtain ⟨e2, h2, h⟩ := bind_eq_ok.mp h
    cases h
    rw [meaning, ← ih1 h1, ← ih2 h2]
    rfl
  | not d ih =>
    obtain ⟨e, h1, h⟩ := bind_eq_ok.mp h
    cases h
    rw [meaning, ← ih h1]
    rfl
  | numericComparison key type n =>
    cases n with
    | float q =>
      cases h
      rfl
    | int n => cases h
  | presence key | stringEquality key value | empty =>
    cases h
    rfl

end Derivation

/-- A text that the grammar derives is parsed as what it means exactly if its
derivation has no integer constant; otherwise an exception is raised. -/
theorem parse_derivation_iff {s : Text} {d : Derivation} (h : derivation s = some d) :
    (∃ e, parseBooleanExpression s = .ok (some e) ∧
        ∀ data info, evaluate data info e = d.meaning data info) ↔ d.NoInteger := by
  have hderive : derive (s.dropWhile isBlank) = .ok d [] := by
    unfold derivation at h
    split at h
    · next d' hd =>
        obtain rfl := Option.some.inj h
        exact hd
    · cases h
  have hexpr := expr_of_derive hderive
  rw [← Derivation.fold_source_iff, parseBooleanExpression, parse, hexpr]
  cases hfold : d.fold sourceActions with
  | ok e =>
    refine iff_of_true ⟨e, rfl, fun data info => ?_⟩ ⟨e, rfl⟩
    exact Derivation.evaluate_fold hfold data info
  | error message =>
    refine iff_of_false ?_ ?_
    · rintro ⟨e, h, -⟩
      cases h
    · rintro ⟨e, h⟩
      cases h

/-- The query `(NOT ((HAS a) OR (b == 5)))`, which compares texts. -/
theorem parse_derivation_iff_nested :
    ∃ d, derivation ['(', 'N', 'O', 'T', '(', '(', 'H', 'A', 'S', ' ', 'a', ')', 'O', 'R', '(',
        'b', '=', '=', '5', ')', ')', ')'] = some d ∧
      ∃ e, parseBooleanExpression ['(', 'N', 'O', 'T', '(', '(', 'H', 'A', 'S', ' ', 'a', ')',
          'O', 'R', '(', 'b', '=', '=', '5', ')', ')', ')'] = .ok (some e) ∧
        ∀ data info, evaluate data info e = d.meaning data info := by
  have h : derivation ['(', 'N', 'O', 'T', '(', '(', 'H', 'A', 'S', ' ', 'a', ')', 'O', 'R', '(',
      'b', '=', '=', '5', ')', ')', ')'] =
      some (.not (.or (.presence ['a']) (.stringEquality ['b'] ['5']))) := by decide +kernel
  exact ⟨_, h, (parse_derivation_iff h).mpr ⟨trivial, trivial⟩⟩

/-- The query `(x < 5)`. -/
theorem parse_integer_throws :
    derivation ['(', 'x', ' ', '<', ' ', '5', ')'] =
        some (.numericComparison ['x'] .kLessThan (.int 5)) ∧
      parseBooleanExpression ['(', 'x', ' ', '<', ' ', '5', ')'] = .error "bad any_cast" := by
  decide +kernel

end Sola.Minhton.FindQueryParser
