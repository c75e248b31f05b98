import Sola.Minhton.CorrectRouting
import Sola.Minhton.CoverAreas

/-!
Starting and forwarding a find query
(`minhton/src/algorithms/esearch/minhton_entity_search_algorithm.cpp`).

A node that starts a find sends the query to one position on each even level.
A DSN that receives the query forwards it to the DSNs among its routing table
neighbors, and gives each of them a part of the interval of numbers that it is
itself responsible for.
-/

namespace Sola.Minhton

open Sola.Lib.MaryTree

/-! ### Forwarding -/

inductive ForwardingDirection
  | kDirectionNone
  | kDirectionLeft
  | kDirectionRight
deriving DecidableEq, Repr

/-- The fields of `MessageFindQueryRequest` that decide how it is forwarded,
with the node it is sent to.  Both ends of the interval are exclusive. -/
structure FindQueryRequest where
  target : NodeInfo
  direction : ForwardingDirection
  interval : ℕ × ℕ
deriving DecidableEq

/-- The loop over `right_interval`. -/
def requestsToTheRight (stop : ℕ) : List NodeInfo → List FindQueryRequest
  | [] => []
  | [n] => [⟨n, .kDirectionRight, (n.number, stop)⟩]
  | n :: next :: ns =>
    ⟨n, .kDirectionRight, (n.number, next.number)⟩ :: requestsToTheRight stop (next :: ns)

/-- The loop over `left_interval`. -/
def requestsToTheLeft (start : ℕ) : List NodeInfo → List FindQueryRequest
  | [] => []
  | [n] => [⟨n, .kDirectionLeft, (start, n.number)⟩]
  | n :: next :: ns =>
    ⟨n, .kDirectionLeft, (next.number, n.number)⟩ :: requestsToTheLeft start (next :: ns)

namespace RoutingInformation

def performFindQueryForwarding (m : ℕ) (ri : RoutingInformation)
    (direction : ForwardingDirection) (interval : ℕ × ℕ) :
    Except String (List FindQueryRequest) := do
  let number := ri.selfNodeInfo.number
  let dsnNumbers ← getDSNSet m ri.selfNodeInfo.level
  let inInterval := ri.initializedRoutingTableNeighbors.filter fun n =>
    dsnNumbers.contains n.number && (interval.1 < n.number && n.number < interval.2)
  let right :=
    if direction = .kDirectionRight ∨ direction = .kDirectionNone then
      requestsToTheRight (min interval.2 (u32 (m ^ ri.selfNodeInfo.level)))
        (inInterval.filter fun n => n.number > number)
    else []
  let left :=
    if direction = .kDirectionLeft ∨ direction = .kDirectionNone then
      requestsToTheLeft (max 0 interval.1)
        ((inInterval.filter fun n => n.number < number).insertionSort
          fun n n' => n'.number ≤ n.number)
    else []
  return right ++ left

/-! ### The start of a find -/

/-- The deepest level among the node and its adjacents. -/
def knownMaxLevel (ri : RoutingInformation) : ℕ :=
  let left := ri.adjacentLeft.level
  let right := ri.adjacentRight.level
  let self := ri.selfNodeInfo.level
  if left ≠ right ∨ left ≠ self ∨ right ≠ self then max (max left right) self else left

/-- The DSN of a level in the middle of the tree that a find starts from. -/
def initialDsnOn (m : ℕ) (ri : RoutingInformation) (weAreDsn : Bool) (level : ℕ) :
    Except String NodeInfo :=
  if ri.selfNodeInfo.level = level ∧ weAreDsn = true then .ok ri.selfNodeInfo
  else do
    let levelDs ← getDSNSet m level
    if levelDs.length ≤ m + 1 then return .ofPos ⟨level, m⟩
    else return .ofPos ⟨level, levelDs.getD (levelDs.length / 2) 0⟩

def calcDSNsToSendInitialCDSForwardingTo (m : ℕ) (ri : RoutingInformation) :
    Except String (List NodeInfo) := do
  let self := ri.selfNodeInfo
  let thisLevelDs ← getDSNSet m self.level
  let weAreDsn := !thisLevelDs.isEmpty && thisLevelDs.contains self.number
  let maxLevel := ri.knownMaxLevel
  let first := if self.level ≠ 0 then .ofPos ⟨0, 0⟩ else self
  -- the levels 2, 4, ... below the deepest one
  let middle ← (List.range' 2 ((maxLevel - 1) / 2) 2).mapM (ri.initialDsnOn m weAreDsn)
  let last :=
    if maxLevel % 2 = 0 then
      if self.level = maxLevel ∧ weAreDsn = true then self
      else .ofPos ⟨maxLevel, if maxLevel = 0 then 0 else m⟩
    else .ofPos ⟨maxLevel + 1, m⟩
  return first :: (middle ++ [last])

end RoutingInformation

end Sola.Minhton
