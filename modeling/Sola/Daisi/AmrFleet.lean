import Mathlib.Data.Finset.Max
import Sola.Daisi.TaskManagement

/-!
The abilities of a fleet (`daisi/src/cpps/amr/model/amr_fleet.cpp`,
`amr_static_ability.cpp`, `amr_load_carrier.cpp`).

An ability fits a requirement if it has the same load carrier and carries at
least as much.  Weights are values of the type `float`, which may be NaN.
-/

namespace Sola.Daisi

open List

/-- The bits of a `float`. -/
abbrev Single := BitVec 32

namespace Single

def magnitude (x : Single) : ℕ := x.toNat % 2 ^ 31

/-- All bits of the exponent are set, and some of the fraction. -/
def isNaN (x : Single) : Bool := 0x7f800000 < x.magnitude

/-- The place of a number in the order of all numbers.  Both zeros have the same. -/
def key (x : Single) : ℤ := if x.msb then -(x.magnitude : ℤ) else x.magnitude

/-- Comparing with NaN is always false. -/
def le (x y : Single) : Bool := !x.isNaN && !y.isNaN && x.key ≤ y.key

def lt (x y : Single) : Bool := !x.isNaN && !y.isNaN && x.key < y.key

end Single

/-- `AmrStaticAbility` with the weight as it is in the source. -/
structure AmrFleet.AmrStaticAbility where
  loadCarrier : LoadCarrier
  maxPayloadWeightKg : Single
deriving DecidableEq

namespace AmrFleet.AmrStaticAbility

def lt (a₁ a₂ : AmrStaticAbility) : Bool :=
  a₁.loadCarrier.lt a₂.loadCarrier && a₁.maxPayloadWeightKg.lt a₂.maxPayloadWeightKg

def le (a₁ a₂ : AmrStaticAbility) : Bool :=
  a₁.loadCarrier.le a₂.loadCarrier && a₁.maxPayloadWeightKg.le a₂.maxPayloadWeightKg

end AmrFleet.AmrStaticAbility

/-- The abilities of a fleet with the kinematics that belong to them. -/
structure AmrFleet (Kinematics : Type) where
  infos : List (AmrFleet.AmrStaticAbility × Kinematics)

namespace AmrFleet

variable {Kinematics : Type}

def getFittingExistingAbilities (fleet : AmrFleet Kinematics) (requirement : AmrStaticAbility) :
    List AmrStaticAbility :=
  (fleet.infos.filter fun info => requirement.le info.1).map Prod.fst

/-- No ability is below this one unless it is also above it. -/
def isMin (abilities : List AmrStaticAbility) (m : AmrStaticAbility) : Bool :=
  abilities.all fun s => !s.le m || m.le s

def getClosestExistingAbility (fleet : AmrFleet Kinematics) (requirement : AmrStaticAbility) :
    Except String AmrStaticAbility :=
  let abilities := fleet.getFittingExistingAbilities requirement
  match abilities with
  | [ability] => .ok ability
  | _ =>
    match abilities.find? (isMin abilities) with
    | some m => .ok m
    | none => .error "Minimal ability element not found. Algorithm wrong. "

/-! ### Minimal abilities -/

variable {fleet : AmrFleet Kinematics} {requirement ability : AmrStaticAbility}

theorem mem_getFittingExistingAbilities :
    ability ∈ fleet.getFittingExistingAbilities requirement ↔
      ability ∈ fleet.infos.map Prod.fst ∧ requirement.le ability = true := by
  simp only [getFittingExistingAbilities, mem_map, mem_filter]
  constructor
  · rintro ⟨info, ⟨hinfo, hle⟩, rfl⟩
    exact ⟨⟨info, hinfo, rfl⟩, hle⟩
  · rintro ⟨⟨info, hinfo, rfl⟩, hle⟩
    exact ⟨info, ⟨hinfo, hle⟩, rfl⟩

/-- Abilities that fit the same requirement are compared by their weights. -/
theorem le_iff_of_fitting {a b : AmrStaticAbility} (ha : requirement.le a = true)
    (hb : requirement.le b = true) :
    a.le b = true ↔ a.maxPayloadWeightKg.key ≤ b.maxPayloadWeightKg.key := by
  simp only [AmrStaticAbility.le, LoadCarrier.le, LoadCarrier.lt, Single.le, Bool.or_false,
    Bool.and_eq_true, beq_iff_eq, decide_eq_true_eq] at *
  grind

theorem exists_isMin {abilities : List AmrStaticAbility} (hne : abilities ≠ [])
    (h : ∀ a ∈ abilities, requirement.le a = true) :
    ∃ m ∈ abilities, isMin abilities m = true := by
  obtain ⟨m, hm, hmin⟩ := abilities.toFinset.exists_min_image
    (fun a => a.maxPayloadWeightKg.key) (by simpa using hne)
  simp only [mem_toFinset] at hm hmin
  refine ⟨m, hm, all_eq_true.mpr fun s hs => ?_⟩
  simp [(le_iff_of_fitting (h m hm) (h s hs)).mpr (hmin s hs)]

/-- The search ends with a minimal ability, also if it does not look at it. -/
theorem exists_getClosestExistingAbility
    (hne : fleet.getFittingExistingAbilities requirement ≠ []) :
    ∃ closest ∈ fleet.getFittingExistingAbilities requirement,
      fleet.getClosestExistingAbility requirement = .ok closest ∧
      isMin (fleet.getFittingExistingAbilities requirement) closest = true := by
  have hfit : ∀ a ∈ fleet.getFittingExistingAbilities requirement, requirement.le a = true :=
    fun a ha => (mem_getFittingExistingAbilities.mp ha).2
  unfold getClosestExistingAbility
  generalize fleet.getFittingExistingAbilities requirement = abilities at *
  obtain ⟨m, hm, hmin⟩ := exists_isMin hne hfit
  cases hfind : abilities.find? (isMin abilities) with
  | none => exact absurd hmin (find?_eq_none.mp hfind m hm)
  | some closest =>
    match abilities, hfind with
    | [], _ => exact absurd rfl hne
    | [ability], _ => exact ⟨ability, by simp, rfl, by simp [isMin]⟩
    | a :: b :: abilities, hfind =>
      exact ⟨closest, mem_of_find?_eq_some hfind, by simp only [hfind],
        find?_some hfind⟩

/-- The closest ability fits, and no ability that fits is below it. -/
theorem getClosestExistingAbility_minimal (fleet : AmrFleet Kinematics)
    (requirement : AmrStaticAbility)
    (h : ∃ ability ∈ fleet.infos.map Prod.fst, requirement.le ability = true) :
    ∃ closest, fleet.getClosestExistingAbility requirement = .ok closest ∧
      closest ∈ fleet.infos.map Prod.fst ∧ requirement.le closest = true ∧
      ∀ ability ∈ fleet.infos.map Prod.fst, requirement.le ability = true →
        ¬ (ability.le closest = true ∧ closest.le ability = false) ∧
          ability.lt closest = false := by
  obtain ⟨ability, hability, hle⟩ := h
  have hne : fleet.getFittingExistingAbilities requirement ≠ [] :=
    ne_nil_of_mem (mem_getFittingExistingAbilities.mpr ⟨hability, hle⟩)
  obtain ⟨closest, hclosest, hget, hmin⟩ := exists_getClosestExistingAbility hne
  obtain ⟨hfleet, hfits⟩ := mem_getFittingExistingAbilities.mp hclosest
  refine ⟨closest, hget, hfleet, hfits, fun ability hability hle => ⟨?_, rfl⟩⟩
  rintro ⟨hbelow, hnot⟩
  have := all_eq_true.mp hmin ability (mem_getFittingExistingAbilities.mpr ⟨hability, hle⟩)
  simp [hbelow, hnot] at this

/-- Two pallet carriers and a box carrier, for a pallet of 15 kg. -/
theorem getClosestExistingAbility_pallets :
    ∃ closest, getClosestExistingAbility ⟨[(⟨.kEuroPalett, 0x42c80000⟩, ()),
          (⟨.kEuroBox, 0x41a00000⟩, ()), (⟨.kEuroPalett, 0x41a00000⟩, ())]⟩
        ⟨.kEuroPalett, 0x41700000⟩ = .ok closest ∧ closest.loadCarrier = .kEuroPalett := by
  obtain ⟨closest, hget, -, hfits, -⟩ := getClosestExistingAbility_minimal
    ⟨[(⟨.kEuroPalett, 0x42c80000⟩, ()), (⟨.kEuroBox, 0x41a00000⟩, ()),
      (⟨.kEuroPalett, 0x41a00000⟩, ())]⟩ ⟨.kEuroPalett, 0x41700000⟩ (by decide)
  refine ⟨closest, hget, ?_⟩
  simp only [AmrStaticAbility.le, LoadCarrier.le, LoadCarrier.lt, Bool.or_false, Bool.and_eq_true,
    beq_iff_eq] at hfits
  exact hfits.1.symm

end AmrFleet

end Sola.Daisi
