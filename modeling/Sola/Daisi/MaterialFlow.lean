import Mathlib.Data.Rat.Defs
import Mathlib.Data.List.Nodup
import Sola.Lib.Action

/-!
Orders of a task and the functionalities they become.

A transport order is one move and one load for each pickup and then one move
and one unload at the delivery.  A move order is a move, and an action order
loads or unloads where the vehicle is.
-/

namespace Sola.Daisi

open Sola.Lib Action

/-- A position in the plane. -/
abbrev Position := ℚ × ℚ

/-- What a vehicle can be told to do, `FunctionalityVariant`. -/
inductive Functionality
  | monostate
  | load (destination : Position)
  | moveTo (destination : Position)
  | navigate (waypoints : List Position)
  | unload (destination : Position)
deriving DecidableEq

/-- The position of the alternative in the variant. -/
def Functionality.index : Functionality → ℕ
  | .monostate => 0
  | .load _ => 1
  | .moveTo _ => 2
  | .navigate _ => 3
  | .unload _ => 4

/-- The parameters of an order step: no key occurs twice. -/
structure Parameters where
  entries : List (String × String)
  nodup : (entries.map Prod.fst).Nodup

def Parameters.count (parameters : Parameters) (key : String) : ℕ :=
  (parameters.entries.map Prod.fst).count key

inductive Order
  | transport (pickups : List Position) (delivery : Position)
  | move (location : Position)
  | action (parameters : Parameters)

/-- The action is a load or an unload. -/
def Order.Valid : Order → Prop
  | .action parameters => parameters.count "load" = 1 ∨ parameters.count "unload" = 1
  | _ => True

/-- The functionalities so far and where they end. -/
structure FunctionalityMapping where
  functionalities : List Functionality
  lastPosition : Option Position

namespace FunctionalityMapping

def emplaceBack (functionality : Functionality) : Action FunctionalityMapping Unit :=
  Action.modify fun m => { m with functionalities := m.functionalities ++ [functionality] }

def handleMoveOrder (location : Position) : Action FunctionalityMapping Unit := do
  let m ← Action.get
  if m.lastPosition.isNone then
    Action.throw "MoveOrder can only happen after other operations"
  else
    emplaceBack (.moveTo location)
    Action.modify fun m => { m with lastPosition := some location }

def handleActionOrder (parameters : Parameters) : Action FunctionalityMapping Unit := do
  let m ← Action.get
  match m.lastPosition with
  | none => Action.throw "ActionOrder can only happen after other operations"
  | some position =>
    if parameters.count "load" = 1 then emplaceBack (.load position)
    else if parameters.count "unload" = 1 then emplaceBack (.unload position)
    else Action.throw "ActionOrder invalid"

def handleTransportOrder (pickups : List Position) (delivery : Position) :
    Action FunctionalityMapping Unit := do
  Action.forEach pickups fun position => do
    emplaceBack (.moveTo position)
    emplaceBack (.load position)
  emplaceBack (.moveTo delivery)
  emplaceBack (.unload delivery)
  Action.modify fun m => { m with lastPosition := some delivery }

def handleOrder : Order → Action FunctionalityMapping Unit
  | .move location => handleMoveOrder location
  | .action parameters => handleActionOrder parameters
  | .transport pickups delivery => handleTransportOrder pickups delivery

end FunctionalityMapping

def materialFlowToFunctionalities (orders : List Order) (lastPosition : Option Position) :
    Except String (List Functionality) :=
  let result := Action.forEach orders FunctionalityMapping.handleOrder ⟨[], lastPosition⟩
  result.2.map fun _ => result.1.functionalities

/-! ### The functionalities of an order -/

/-- What one order adds, and where it ends. -/
def Order.functionalities (position : Position) : Order → List Functionality × Position
  | .transport pickups delivery =>
    (pickups.flatMap (fun pickup => [.moveTo pickup, .load pickup]) ++
      [.moveTo delivery, .unload delivery], delivery)
  | .move location => ([.moveTo location], location)
  | .action parameters =>
    ([if parameters.count "load" = 1 then .load position else .unload position], position)

/-- What a list of orders becomes. -/
def functionalitiesOf : Position → List Order → List Functionality
  | _, [] => []
  | position, order :: orders =>
    (order.functionalities position).1 ++
      functionalitiesOf (order.functionalities position).2 orders

namespace FunctionalityMapping

theorem handlePickups_run (pickups : List Position) (m : FunctionalityMapping) :
    forEach pickups (fun position => do
        emplaceBack (.moveTo position)
        emplaceBack (.load position)) m =
      ({ m with functionalities := m.functionalities ++
          pickups.flatMap fun pickup => [.moveTo pickup, .load pickup] }, .ok ()) := by
  induction pickups generalizing m with
  | nil => simp
  | cons pickup pickups ih =>
    have hone : (do emplaceBack (.moveTo pickup); emplaceBack (.load pickup)) m =
      (⟨m.functionalities ++ [.moveTo pickup] ++ [.load pickup], m.lastPosition⟩, .ok ()) := rfl
    rw [forEach_cons, bind_run_ok hone, ih]
    simp

/-- A valid order after some position. -/
theorem handleOrder_run {order : Order} (hvalid : order.Valid) {fs : List Functionality}
    {position : Position} :
    handleOrder order ⟨fs, some position⟩ =
      (⟨fs ++ (order.functionalities position).1, some (order.functionalities position).2⟩,
        .ok ()) := by
  cases order with
  | move location => rfl
  | action parameters =>
    simp only [handleOrder, handleActionOrder, get_bind_run, Order.functionalities]
    split_ifs with hload hunload
    · rfl
    · rfl
    · exact absurd hvalid (by simp [Order.Valid, hload, hunload])
  | transport pickups delivery =>
    simp only [handleOrder, handleTransportOrder]
    rw [bind_run_ok (handlePickups_run pickups _)]
    simp [emplaceBack, Order.functionalities]

theorem handleOrders_run {orders : List Order} (hvalid : ∀ order ∈ orders, order.Valid)
    (fs : List Functionality) (position : Position) :
    ∃ last, forEach orders handleOrder ⟨fs, some position⟩ =
      (⟨fs ++ functionalitiesOf position orders, last⟩, .ok ()) := by
  induction orders generalizing fs position with
  | nil => exact ⟨some position, by simp [functionalitiesOf]⟩
  | cons order orders ih =>
    rw [forEach_cons, bind_run_ok (handleOrder_run (hvalid order (by simp)))]
    obtain ⟨last, hrun⟩ := ih (fun o ho => hvalid o (by simp [ho]))
      (fs ++ (order.functionalities position).1) (order.functionalities position).2
    exact ⟨last, by rw [hrun, functionalitiesOf, List.append_assoc]⟩

end FunctionalityMapping

/-- A task that starts with a transport order. -/
theorem materialFlowToFunctionalities_transport {pickups : List Position} {delivery : Position}
    {orders : List Order} (hvalid : ∀ order ∈ orders, order.Valid)
    (lastPosition : Option Position) :
    materialFlowToFunctionalities (.transport pickups delivery :: orders) lastPosition =
      .ok (pickups.flatMap (fun pickup => [.moveTo pickup, .load pickup]) ++
        [.moveTo delivery, .unload delivery] ++ functionalitiesOf delivery orders) := by
  have hfirst : FunctionalityMapping.handleOrder (.transport pickups delivery) ⟨[], lastPosition⟩ =
      (⟨pickups.flatMap (fun pickup => [.moveTo pickup, .load pickup]) ++
        [.moveTo delivery, .unload delivery], some delivery⟩, .ok ()) := by
    simp only [FunctionalityMapping.handleOrder, FunctionalityMapping.handleTransportOrder]
    rw [bind_run_ok (FunctionalityMapping.handlePickups_run pickups _)]
    simp [FunctionalityMapping.emplaceBack]
  obtain ⟨last, hrest⟩ := FunctionalityMapping.handleOrders_run hvalid
    (pickups.flatMap (fun pickup => [.moveTo pickup, .load pickup]) ++
      [.moveTo delivery, .unload delivery]) delivery
  unfold materialFlowToFunctionalities
  rw [forEach_cons, bind_run_ok hfirst, hrest]
  rfl

end Sola.Daisi
