import Sola.Daisi.MaterialFlow
import Sola.Lib.StateMachine

/-!
The state machine of the vehicle.

The vehicle looks at the next two functionalities before it starts one.  It
can only go somewhere to load, or, with something loaded, to unload, and it
can only finish when nothing is left.  Every other list of functionalities
makes it stop or throw.
-/

namespace Sola.Daisi

open Sola.Lib

inductive OrderStates
  | created
  | queued
  | started
  | goToPickUpLocation
  | reachedPickUpLocation
  | load
  | loaded
  | goToDeliveryLocation
  | reachedDeliveryLocation
  | unload
  | unloaded
  | finished
  | error
  | invalid
deriving DecidableEq

/-- The events of the state machine. -/
inductive AmrEvent
  | receivedOrder
  | reachedTarget
  | loadedPayload
  | unloadedPayload
  | chargedBattery
deriving DecidableEq

inductive AmrState
  | idle
  | working
  | charging
  | error
deriving DecidableEq

structure AmrPhysicalAsset where
  currentState : OrderStates
  functionalityQueue : List Functionality
  amrState : AmrState
  /-- What the connector was told to execute. -/
  executed : List Functionality
  /-- The order states sent to the logical agent. -/
  orderUpdates : List OrderStates
deriving DecidableEq

/-- The calls that the simulator has scheduled. -/
inductive AmrCall
  | handleSkip (event : AmrEvent)
  | updateFunctionality (functionality : Functionality)
deriving DecidableEq

abbrev AmrSimulation := Simulation AmrPhysicalAsset AmrCall

namespace AmrPhysicalAsset

def modifyAsset (f : AmrPhysicalAsset → AmrPhysicalAsset) : Action AmrSimulation Unit :=
  Action.modify fun s => { s with state := f s.state }

def schedule (call : AmrCall) : Action AmrSimulation Unit :=
  Action.modify fun s => { s with pending := s.pending ++ [call] }

def sendOrderUpdate : Action AmrSimulation Unit :=
  modifyAsset fun a => { a with orderUpdates := a.orderUpdates ++ [a.currentState] }

/-! ### Helpers and actions -/

def holdsMoveType : Functionality → Bool
  | .moveTo _ => true
  | .navigate _ => true
  | _ => false

def holdsLoad : Functionality → Bool
  | .load _ => true
  | _ => false

def holdsUnload : Functionality → Bool
  | .unload _ => true
  | _ => false

/-- The connector executes the functionality and tells when it is done. -/
def executeFrontFunctionality : Action AmrSimulation Unit := do
  let s ← Action.get
  match s.state.functionalityQueue with
  | [] => Action.throw "front of an empty queue"
  | functionality :: _ =>
    modifyAsset fun a => { a with executed := a.executed ++ [functionality] }
    schedule (.updateFunctionality functionality)

def skip (event : AmrEvent) : Action AmrSimulation Unit := schedule (.handleSkip event)

def execute : Action AmrSimulation Unit := do
  modifyAsset fun a => { a with amrState := .working }
  executeFrontFunctionality

def finish (event : AmrEvent) : Action AmrSimulation Unit :=
  if event = .receivedOrder then Action.throw "empty task"
  else modifyAsset fun a => { a with amrState := .idle }

/-! ### Guards -/

/-- The front is a move and `test` holds of the functionality after it.
Without one `functionality_queue_.at(1)` throws. -/
def isMoveThen (test : Functionality → Bool) (s : AmrSimulation) : Except String Bool :=
  match s.state.functionalityQueue with
  | [] => .ok false
  | functionality :: rest =>
    if holdsMoveType functionality then
      match rest with
      | [] => .error "deque::_M_range_check"
      | next :: _ => .ok (test next)
    else .ok false

def isMoveToLoad : AmrSimulation → Except String Bool := isMoveThen holdsLoad

def isMoveToUnload : AmrSimulation → Except String Bool := isMoveThen holdsUnload

/-- The front exists and `test` holds of it. -/
def isFront (test : Functionality → Bool) (s : AmrSimulation) : Except String Bool :=
  .ok (s.state.functionalityQueue.head?.any test)

def isLoad : AmrSimulation → Except String Bool := isFront holdsLoad

def isUnload : AmrSimulation → Except String Bool := isFront holdsUnload

def isFinish (s : AmrSimulation) : Except String Bool :=
  .ok s.state.functionalityQueue.isEmpty

/-! ### The state machine -/

def transitionTable : List (Row AmrSimulation OrderStates AmrEvent) :=
  [ -- kFinished
    ⟨.finished, .receivedOrder, .started, skip .receivedOrder, Row.always⟩,
    -- kStarted
    ⟨.started, .receivedOrder, .goToPickUpLocation, execute, isMoveToLoad⟩,
    -- kMoveToPickUp
    ⟨.goToPickUpLocation, .reachedTarget, .reachedPickUpLocation, skip .reachedTarget, Row.always⟩,
    -- kReachedPickUpLocation
    ⟨.reachedPickUpLocation, .reachedTarget, .load, execute, isLoad⟩,
    -- kMoveToDelivery
    ⟨.goToDeliveryLocation, .reachedTarget, .reachedDeliveryLocation, skip .reachedTarget,
      Row.always⟩,
    -- kReachedDeliveryLocation
    ⟨.reachedDeliveryLocation, .reachedTarget, .unload, execute, isUnload⟩,
    -- kLoad
    ⟨.load, .loadedPayload, .loaded, skip .loadedPayload, Row.always⟩,
    -- kLoaded
    ⟨.loaded, .loadedPayload, .goToPickUpLocation, execute, isMoveToLoad⟩,
    ⟨.loaded, .loadedPayload, .goToDeliveryLocation, execute, isMoveToUnload⟩,
    ⟨.loaded, .loadedPayload, .finished, finish .loadedPayload, isFinish⟩,
    -- kUnload
    ⟨.unload, .unloadedPayload, .unloaded, skip .unloadedPayload, Row.always⟩,
    -- kUnloaded
    ⟨.unloaded, .unloadedPayload, .goToPickUpLocation, execute, isMoveToLoad⟩,
    ⟨.unloaded, .unloadedPayload, .finished, finish .unloadedPayload, isFinish⟩]

def processEvent (event : AmrEvent) : Action AmrSimulation Unit := do
  let next ← handleEvent (fun s : AmrSimulation => s.state.currentState) event transitionTable
  modifyAsset fun a => { a with currentState := next }

def handleSkip (event : AmrEvent) : Action AmrSimulation Unit := do
  processEvent event
  sendOrderUpdate

def updateFunctionality (functionality : Functionality) : Action AmrSimulation Unit := do
  let s ← Action.get
  match s.state.functionalityQueue with
  | [] => Action.throw "front of an empty queue"
  | front :: rest =>
    if functionality.index ≠ front.index then Action.throw "functionalities don't match"
    else
      modifyAsset fun a => { a with functionalityQueue := rest }
      if holdsMoveType functionality then processEvent .reachedTarget
      else if holdsLoad functionality then processEvent .loadedPayload
      else if holdsUnload functionality then processEvent .unloadedPayload
      sendOrderUpdate

def processMessageOrderInfo (functionalities : List Functionality) :
    Action AmrSimulation Unit := do
  let s ← Action.get
  if s.state.functionalityQueue.isEmpty then
    modifyAsset fun a =>
      { a with functionalityQueue := a.functionalityQueue ++ functionalities }
    processEvent .receivedOrder
    sendOrderUpdate
  else Action.throw "Should not get new task before last task is finished"

/-- A scheduled call happens. -/
def call : AmrCall → Action AmrSimulation Unit
  | .handleSkip event => handleSkip event
  | .updateFunctionality functionality => updateFunctionality functionality

/-- The vehicle gets the functionalities, completes every one it starts and
ends, without an exception, with all of them executed in order. -/
def FinishesTask (a : AmrPhysicalAsset) (functionalities : List Functionality) : Prop :=
  ∃ s t, processMessageOrderInfo functionalities ⟨a, []⟩ = (s, .ok ()) ∧
    Simulation.Completes call s t ∧ t.state.currentState = .finished ∧
    t.state.functionalityQueue = [] ∧ t.state.executed = a.executed ++ functionalities

/-! ### What the vehicle can follow -/

/-- Where the vehicle decides what comes next. -/
inductive Place
  | started
  | loaded
  | unloaded
deriving DecidableEq

def Place.state : Place → OrderStates
  | .started => .started
  | .loaded => .loaded
  | .unloaded => .unloaded

def Place.event : Place → AmrEvent
  | .started => .receivedOrder
  | .loaded => .loadedPayload
  | .unloaded => .unloadedPayload

/-- The vehicle is about to look at the queue. -/
def ready (place : Place) (a : AmrPhysicalAsset) (queue : List Functionality) : AmrSimulation :=
  ⟨{ a with currentState := place.state, functionalityQueue := queue },
    [.handleSkip place.event]⟩

/-- Moves with something to load at the end, or to unload after a load. -/
def follows : Place → List Functionality → Bool
  | .started, [] => false
  | _, [] => true
  | _, [_] => false
  | place, move :: next :: queue =>
    holdsMoveType move &&
      if holdsLoad next then follows .loaded queue
      else if holdsUnload next ∧ place = .loaded then follows .unloaded queue
      else false

/-- The two things a vehicle goes somewhere for. -/
inductive Visit
  | pickUp
  | delivery
deriving DecidableEq

namespace Visit

def goTo : Visit → OrderStates
  | .pickUp => .goToPickUpLocation
  | .delivery => .goToDeliveryLocation

def reached : Visit → OrderStates
  | .pickUp => .reachedPickUpLocation
  | .delivery => .reachedDeliveryLocation

def doing : Visit → OrderStates
  | .pickUp => .load
  | .delivery => .unload

def done : Visit → Place
  | .pickUp => .loaded
  | .delivery => .unloaded

def functionality (position : Position) : Visit → Functionality
  | .pickUp => .load position
  | .delivery => .unload position

/-- The vehicle can go there. -/
def From (visit : Visit) (place : Place) : Prop := visit = .pickUp ∨ place = .loaded

end Visit

section Runs

variable {a : AmrPhysicalAsset} {place : Place} {visit : Visit} {move next : Functionality}
  {queue executed : List Functionality} {updates : List OrderStates} {amrState : AmrState}
  {position : Position} {t : AmrSimulation}

/-- The vehicle starts to move. -/
theorem handleSkip_move (hfrom : visit.From place) (hmove : holdsMoveType move = true) :
    call (.handleSkip place.event) ⟨⟨place.state, move :: visit.functionality position :: queue,
        amrState, executed, updates⟩, []⟩ =
      (⟨⟨visit.goTo, move :: visit.functionality position :: queue, .working, executed ++ [move],
        updates ++ [visit.goTo]⟩, [.updateFunctionality move]⟩, .ok ()) := by
  cases move with
  | monostate | load | unload => cases hmove
  | moveTo | navigate =>
    cases visit with
    | pickUp => cases place <;> rfl
    | delivery =>
      obtain hpick | rfl := hfrom
      · cases hpick
      · rfl

/-- The vehicle has reached its target. -/
theorem updateFunctionality_move (hmove : holdsMoveType move = true) :
    call (.updateFunctionality move)
        ⟨⟨visit.goTo, move :: queue, amrState, executed, updates⟩, []⟩ =
      (⟨⟨visit.reached, queue, amrState, executed, updates ++ [visit.reached]⟩,
        [.handleSkip .reachedTarget]⟩, .ok ()) := by
  cases move with
  | monostate | load | unload => cases hmove
  | moveTo | navigate => cases visit <;> rfl

theorem handleSkip_reached :
    call (.handleSkip .reachedTarget) ⟨⟨visit.reached, visit.functionality position :: queue,
        amrState, executed, updates⟩, []⟩ =
      (⟨⟨visit.doing, visit.functionality position :: queue, .working,
          executed ++ [visit.functionality position], updates ++ [visit.doing]⟩,
        [.updateFunctionality (visit.functionality position)]⟩, .ok ()) := by
  cases visit <;> rfl

theorem updateFunctionality_done :
    call (.updateFunctionality (visit.functionality position))
        ⟨⟨visit.doing, visit.functionality position :: queue, amrState, executed, updates⟩, []⟩ =
      (⟨⟨visit.done.state, queue, amrState, executed, updates ++ [visit.done.state]⟩,
        [.handleSkip visit.done.event]⟩, .ok ()) := by
  cases visit <;> rfl

/-- The asset after it has gone somewhere and done something there. -/
def visited (a : AmrPhysicalAsset) (visit : Visit) (move : Functionality) (position : Position) :
    AmrPhysicalAsset :=
  { a with
    amrState := .working
    executed := a.executed ++ [move] ++ [visit.functionality position]
    orderUpdates := a.orderUpdates ++ [visit.goTo] ++ [visit.reached] ++ [visit.doing] ++
      [visit.done.state] }

/-- One place after the other. -/
theorem completes_visit (hfrom : visit.From place) (hmove : holdsMoveType move = true) :
    Simulation.Completes call (ready place a (move :: visit.functionality position :: queue)) t ↔
      Simulation.Completes call (ready visit.done (a.visited visit move position) queue) t :=
  (Simulation.completes_of_ok rfl (handleSkip_move hfrom hmove)).trans <|
    (Simulation.completes_of_ok rfl (updateFunctionality_move hmove)).trans <|
    (Simulation.completes_of_ok rfl handleSkip_reached).trans <|
    Simulation.completes_of_ok rfl updateFunctionality_done

/-- The end of the task. -/
theorem completes_finish (hplace : place ≠ .started) :
    Simulation.Completes call (ready place a []) t ↔
      t = ⟨⟨.finished, [], .idle, a.executed, a.orderUpdates ++ [.finished]⟩, []⟩ := by
  have hrun : call (.handleSkip place.event) ⟨(ready place a []).state, []⟩ =
      (⟨⟨.finished, [], .idle, a.executed, a.orderUpdates ++ [.finished]⟩, []⟩, .ok ()) := by
    cases place with
    | started => exact absurd rfl hplace
    | loaded | unloaded => rfl
  exact (Simulation.completes_of_ok rfl hrun).trans (Simulation.completes_of_nil rfl)

/-- After a move `functionality_queue_.at(1)` throws. -/
theorem not_completes_single (hmove : holdsMoveType move = true) :
    ¬ Simulation.Completes call (ready place a [move]) t := by
  have hrun : call (.handleSkip place.event) ⟨(ready place a [move]).state, []⟩ =
      (⟨(ready place a [move]).state, []⟩, .error "deque::_M_range_check") := by
    cases move with
    | monostate | load | unload => cases hmove
    | moveTo | navigate => cases place <;> rfl
  exact Simulation.not_completes_of_error rfl hrun

/-- No row can be taken, so nothing is scheduled any more. -/
theorem completes_stuck (hmove : holdsMoveType next = false ∨ ∃ after rest,
      queue = after :: rest ∧ holdsLoad after = false ∧
      (place = .loaded → holdsUnload after = false)) :
    Simulation.Completes call (ready place a (next :: queue)) t →
      t.state.currentState = place.state := by
  have hrun : call (.handleSkip place.event) ⟨(ready place a (next :: queue)).state, []⟩ =
      (⟨⟨place.state, next :: queue, a.amrState, a.executed, a.orderUpdates ++ [place.state]⟩, []⟩,
        .ok ()) := by
    cases next with
    | monostate | load | unload => cases place <;> rfl
    | moveTo | navigate =>
      obtain hfalse | ⟨after, rest, rfl, hload, hunload⟩ := hmove
      · cases hfalse
      · cases after with
        | load => cases hload
        | unload =>
          cases place with
          | loaded => cases hunload rfl
          | started | unloaded => rfl
        | monostate | moveTo | navigate => cases place <;> rfl
  intro h
  rw [Simulation.completes_of_ok rfl hrun, Simulation.completes_of_nil rfl] at h
  rw [h]

/-- The task is finished from here. -/
def FinishesFrom (place : Place) (a : AmrPhysicalAsset) (queue : List Functionality) : Prop :=
  ∃ t, Simulation.Completes call (ready place a queue) t ∧ t.state.currentState = .finished ∧
    t.state.functionalityQueue = [] ∧ t.state.executed = a.executed ++ queue

theorem finishesFrom_visit (visit : Visit) (hfrom : visit.From place)
    (hmove : holdsMoveType move = true) :
    FinishesFrom place a (move :: visit.functionality position :: queue) ↔
      FinishesFrom visit.done (a.visited visit move position) queue := by
  unfold FinishesFrom
  simp only [completes_visit hfrom hmove]
  simp [visited]

theorem not_finishesFrom_stuck (hstuck : holdsMoveType next = false ∨ ∃ after rest,
      queue = after :: rest ∧ holdsLoad after = false ∧
      (place = .loaded → holdsUnload after = false)) :
    ¬ FinishesFrom place a (next :: queue) := by
  rintro ⟨t, ht, hfinished, _⟩
  rw [completes_stuck hstuck ht] at hfinished
  cases place <;> cases hfinished

/-- The vehicle finishes exactly the lists it can follow. -/
theorem finishesFrom_iff : FinishesFrom place a queue ↔ follows place queue = true := by
  induction place, queue using follows.induct generalizing a with
  | case1 =>
    have hrun : call (.handleSkip .receivedOrder) ⟨(ready .started a []).state, []⟩ =
      (⟨⟨.started, [], a.amrState, a.executed, a.orderUpdates ++ [.started]⟩, []⟩, .ok ()) := rfl
    simp only [follows, Bool.false_eq_true, iff_false]
    rintro ⟨t, ht, hfinished, _⟩
    rw [Simulation.completes_of_ok rfl hrun, Simulation.completes_of_nil rfl] at ht
    rw [ht] at hfinished
    cases hfinished
  | case2 place hplace =>
    have hfollows : follows place [] = true := by
      cases place with
      | started => exact absurd rfl hplace
      | loaded | unloaded => rfl
    simp only [hfollows, iff_true]
    exact ⟨_, (completes_finish hplace).mpr rfl, rfl, rfl, (List.append_nil _).symm⟩
  | case3 place next =>
    simp only [follows, Bool.false_eq_true, iff_false]
    cases hmove : holdsMoveType next with
    | true => exact fun ⟨t, ht, _⟩ => not_completes_single hmove ht
    | false => exact not_finishesFrom_stuck (.inl hmove)
  | case4 place move next queue ihload ihunload =>
    simp only [follows]
    cases hmove : holdsMoveType move with
    | false => simpa using not_finishesFrom_stuck (.inl hmove)
    | true =>
      rw [Bool.true_and]
      cases next with
      | load position => exact (finishesFrom_visit .pickUp (.inl rfl) hmove).trans ihload
      | unload position =>
        cases place with
        | loaded => exact (finishesFrom_visit .delivery (.inr rfl) hmove).trans ihunload
        | started | unloaded =>
          exact iff_of_false (not_finishesFrom_stuck (.inr ⟨_, _, rfl, rfl, by simp⟩))
            (by simp [holdsLoad])
      | monostate | moveTo | navigate =>
        exact iff_of_false (not_finishesFrom_stuck (.inr ⟨_, _, rfl, rfl, fun _ => rfl⟩))
          (by simp [holdsLoad, holdsUnload])

end Runs

/-- A vehicle without a task. -/
structure Idle (a : AmrPhysicalAsset) : Prop where
  currentState : a.currentState = .finished
  functionalityQueue : a.functionalityQueue = []

theorem finishesTask_iff {a : AmrPhysicalAsset} (ha : a.Idle)
    (functionalities : List Functionality) :
    FinishesTask a functionalities ↔ follows .started functionalities = true := by
  obtain ⟨state, queue, amrState, executed, updates⟩ := a
  obtain ⟨rfl, rfl⟩ : state = .finished ∧ queue = [] := ⟨ha.currentState, ha.functionalityQueue⟩
  -- the order is received and looked at in a call of its own
  have hrun : processMessageOrderInfo functionalities
      ⟨⟨.finished, [], amrState, executed, updates⟩, []⟩ =
      (ready .started ⟨.finished, [], amrState, executed, updates ++ [.started]⟩ functionalities,
        .ok ()) := rfl
  rw [← finishesFrom_iff (a := ⟨.finished, [], amrState, executed, updates ++ [.started]⟩)]
  constructor
  · rintro ⟨s, t, hs, ht⟩
    obtain rfl := (Prod.mk.inj (hs.symm.trans hrun)).1
    exact ⟨t, ht⟩
  · rintro ⟨t, ht⟩
    exact ⟨_, t, hrun, ht⟩

/-! ### Tasks -/

/-- A transport order without a pickup needs something loaded, and so does a
move order with an unload.  A move order comes with an action order, and an
action order with a move order. -/
def paired : Bool → List Order → Bool
  | _, [] => true
  | loaded, .transport pickups _ :: orders => (loaded || !pickups.isEmpty) && paired false orders
  | loaded, .move _ :: .action parameters :: orders =>
    if parameters.count "load" = 1 then paired true orders else loaded && paired false orders
  | _, _ => false

def Place.ofLoaded (loaded : Bool) : Place := if loaded then .loaded else .unloaded

variable {place : Place} {queue : List Functionality}

theorem follows_transport {pickups : List Position} {delivery : Position}
    (h : pickups ≠ [] ∨ place = .loaded) :
    follows place (pickups.flatMap (fun pickup => [.moveTo pickup, .load pickup]) ++
      [.moveTo delivery, .unload delivery] ++ queue) = follows .unloaded queue := by
  induction pickups generalizing place with
  | nil =>
    obtain rfl : place = .loaded := h.resolve_left (by simp)
    rfl
  | cons pickup pickups ih =>
    have hstep : ∀ rest, follows place (.moveTo pickup :: .load pickup :: rest) =
        follows .loaded rest := fun rest => by cases place <;> rfl
    rw [List.flatMap_cons, List.append_assoc, List.append_assoc]
    exact (hstep _).trans (by rw [← List.append_assoc]; exact ih (.inr rfl))

theorem follows_of_not_move {next : Functionality} (h : holdsMoveType next = false) :
    follows place (next :: queue) = false := by
  cases queue with
  | nil => cases place <;> rfl
  | cons => cases place <;> simp [follows, h]

theorem follows_move_move {p q : Position} :
    follows place (.moveTo p :: .moveTo q :: queue) = false := by
  cases place <;> rfl

theorem follows_functionalitiesOf {orders : List Order} (hvalid : ∀ order ∈ orders, order.Valid)
    (loaded : Bool) (position : Position) :
    follows (.ofLoaded loaded) (functionalitiesOf position orders) = paired loaded orders := by
  induction loaded, orders using paired.induct generalizing position with
  | case1 loaded => cases loaded <;> rfl
  | case2 loaded pickups delivery orders ih =>
    have hrest := ih (fun order ho => hvalid order (by simp [ho])) delivery
    simp only [functionalitiesOf, Order.functionalities, paired]
    cases loaded with
    | true => exact (follows_transport (.inr rfl)).trans hrest
    | false =>
      cases pickups with
      | nil => rfl
      | cons pickup pickups => exact (follows_transport (.inl (by simp))).trans hrest
  | case3 loaded location parameters orders hload ih =>
    have hrest := ih (fun order ho => hvalid order (by simp [ho])) location
    simp only [functionalitiesOf, Order.functionalities, paired, hload, if_true]
    cases loaded <;> exact hrest
  | case4 loaded location parameters orders hload ih =>
    have hrest := ih (fun order ho => hvalid order (by simp [ho])) location
    simp only [functionalitiesOf, Order.functionalities, paired, hload, if_false]
    cases loaded with
    | true => exact hrest
    | false => rfl
  | case5 orders loaded hnil htransport hmove =>
    cases orders with
    | nil => exact absurd rfl hnil
    | cons order orders =>
      cases order with
      | transport pickups delivery => exact (htransport _ _ _ rfl).elim
      | action parameters =>
        simp only [functionalitiesOf, Order.functionalities, paired, List.singleton_append]
        exact follows_of_not_move (by split_ifs <;> rfl)
      | move location =>
        cases orders with
        | nil => cases loaded <;> rfl
        | cons order orders =>
          cases order with
          | action parameters => exact (hmove _ _ _ rfl).elim
          | move next => exact follows_move_move
          | transport pickups delivery =>
            cases pickups with
            | nil => exact follows_move_move
            | cons pickup pickups => exact follows_move_move

/-- A task is finished exactly if its orders are paired. -/
theorem finishesTask_iff_paired {a : AmrPhysicalAsset} (ha : a.Idle) {pickups : List Position}
    (hpickups : pickups ≠ []) {delivery : Position} {orders : List Order}
    (hvalid : ∀ order ∈ orders, order.Valid) (position : Option Position) :
    (∃ functionalities, materialFlowToFunctionalities (.transport pickups delivery :: orders)
        position = .ok functionalities ∧ FinishesTask a functionalities) ↔
      paired false orders = true := by
  rw [materialFlowToFunctionalities_transport hvalid]
  simp only [Except.ok.injEq, exists_eq_left']
  rw [finishesTask_iff ha, follows_transport (.inl hpickups)]
  exact Bool.eq_iff_iff.mp (follows_functionalitiesOf hvalid false delivery)

theorem finishesTask_iff_paired_oneTransport :
    (∃ functionalities, materialFlowToFunctionalities
        [.transport [(0, 0)] (1, 0), .transport [(1, 0)] (2, 0)] none = .ok functionalities ∧
      FinishesTask ⟨.finished, [], .idle, [], []⟩ functionalities) ∧
    paired false [.transport [(1, 0)] (2, 0)] = true :=
  ⟨(finishesTask_iff_paired ⟨rfl, rfl⟩ (by simp) (by simp [Order.Valid]) none).mpr rfl, rfl⟩

/-- After a transport order the vehicle cannot follow a move order: there is
nothing behind the move, and the guard throws. -/
theorem moveOrder_not_finished :
    ∃ functionalities, materialFlowToFunctionalities [.transport [(0, 0)] (1, 0), .move (2, 0)]
        (some (0, 0)) = .ok functionalities ∧
      (do processMessageOrderInfo functionalities; Simulation.run call 9)
          ⟨⟨.finished, [], .idle, [], []⟩, []⟩ =
        (⟨⟨.unloaded, [.moveTo (2, 0)], .working,
          [.moveTo (0, 0), .load (0, 0), .moveTo (1, 0), .unload (1, 0)],
          [.started, .goToPickUpLocation, .reachedPickUpLocation, .load, .loaded,
            .goToDeliveryLocation, .reachedDeliveryLocation, .unload, .unloaded]⟩, []⟩,
          .error "deque::_M_range_check") ∧
      ¬ FinishesTask ⟨.finished, [], .idle, [], []⟩ functionalities := by
  refine ⟨_, rfl, rfl, ?_⟩
  rw [finishesTask_iff ⟨rfl, rfl⟩]
  decide

end AmrPhysicalAsset

end Sola.Daisi
