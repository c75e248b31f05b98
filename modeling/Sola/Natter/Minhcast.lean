import Mathlib.Data.Finset.Sort
import Sola.Lib.Action
import Sola.Lib.CompleteTree
import Sola.Lib.Transitions
import Sola.Natter.TreeHelper

/-!
The broadcast of natter (`natter/src/minhcast/minhcast_impl.cpp`).

A node that publishes or receives a message passes it on to its adjacents, its
parent, its children and along its level.  The forwarding limit of a message
says on which levels it may still spread.  What a node does depends on its own
position, on its peers and on the message only.

The model is the release build, in which an `assert` is not checked.  Left out
are the topic, the content and the identifiers of messages, and the rounding of
the numbers that `centeredNodeAddChildren` calculates as `float`.
-/

namespace Sola.Natter

open Sola.Lib Action Sola.Minhton
open Sola.Lib.MaryTree (Pos Complete Before)

namespace LevelNumber

def level (x : LevelNumber) : ℕ := (ofLex x).1

def number (x : LevelNumber) : ℕ := (ofLex (ofLex x).2).1

def fanout (x : LevelNumber) : ℕ := (ofLex (ofLex x).2).2

def lrt (x : LevelNumber) : Finset LevelNumber := calculateLRT x.level x.number x.fanout

def rrt (x : LevelNumber) : Finset LevelNumber := calculateRRT x.level x.number x.fanout

/-- The child with the given offset. -/
def childAt (x : LevelNumber) (offset : ℕ) : LevelNumber :=
  levelNumber (u32 (x.level + 1)) (u32 (x.number * x.fanout + offset)) x.fanout

end LevelNumber

def natterCheck (req : Prop) [Decidable req] (msg : String) : Except String Unit :=
  if req then .ok () else .error msg

/-! ### Iterators

An iterator of an ordered set is at an element or at the end.  A step out of
the set has no defined result. -/

abbrev Iterator := WithTop LevelNumber

def beginDecremented : String := "begin iterator decremented"

def endAdvanced : String := "end iterator advanced"

def endDereferenced : String := "end iterator dereferenced"

namespace Iterator

variable (s : Finset LevelNumber)

def find (x : LevelNumber) : Iterator := if x ∈ s then some x else none

/-- The elements before the iterator. -/
def before : Iterator → Finset LevelNumber
  | none => s
  | some x => s.filter (· < x)

def decrement (it : Iterator) : Except String Iterator :=
  match (before s it).max with
  | none => .error beginDecremented
  | some x => .ok (some x)

def increment : Iterator → Except String Iterator
  | none => .error endAdvanced
  | some x => .ok (s.filter (x < ·)).min

def dereference : Iterator → Except String LevelNumber
  | none => .error endDereferenced
  | some x => .ok x

end Iterator

/-! ### Messages -/

structure ForwardingLimit where
  up : ℕ
  down : ℕ
deriving DecidableEq

structure MinhcastMessage where
  initialNode : LevelNumber
  lastNode : LevelNumber
  round : ℕ
  forwardingLimit : ForwardingLimit
  isInnerForward : Bool
deriving DecidableEq

/-- A message on its way. -/
structure Envelope where
  receiver : LevelNumber
  message : MinhcastMessage
deriving DecidableEq

def maxLevelNumber : ℕ := 2 ^ 32 - 1

structure BroadcastInfo where
  ownNode : LevelNumber
  lastNode : LevelNumber
  initialNode : LevelNumber
  forwardingLimit : ForwardingLimit
  currentRound : ℕ

namespace BroadcastInfo

variable (bc : BroadcastInfo)

def ownLevel : ℕ := bc.ownNode.level

def ownNumber : ℕ := bc.ownNode.number

def ownFanout : ℕ := bc.ownNode.fanout

def lastLevel : ℕ := bc.lastNode.level

def lastNumber : ℕ := bc.lastNode.number

def isInitialSender : Bool := bc.initialNode = bc.ownNode

def receivedDirectlyFromAbove : Bool := bc.lastLevel + 1 = bc.ownLevel

def receivedFromAbove : Bool := bc.lastLevel < bc.ownLevel

def allowedDownForward : Bool := bc.ownLevel < bc.forwardingLimit.down

def allowedUpForward : Bool := bc.ownLevel > bc.forwardingLimit.up

def receivedFromLowerAdjacent : Bool :=
  bc.lastLevel > bc.ownLevel && bc.lastLevel - 1 > bc.ownLevel

/-- The number of the first child of the last node. -/
def leftChildNumber : ℕ := u32 (bc.lastNumber * bc.ownFanout)

/-- The number of the last child of the last node. -/
def rightChildNumber : ℕ := u32 (bc.lastNumber * bc.ownFanout + (bc.ownFanout - 1))

def leftChild : Bool := bc.ownNumber = bc.leftChildNumber

def rightChild : Bool := bc.ownNumber = bc.rightChildNumber

end BroadcastInfo

/-! ### The receivers

The functions append to a vector of receivers, which is lost if one throws. -/

section Receivers

variable (ownNode lastNode : LevelNumber) (bc : BroadcastInfo) (otherPeers : Finset LevelNumber)

/-- The elements of a set as a loop goes through them. -/
def ordered (s : Finset LevelNumber) : List LevelNumber := s.sort (· ≤ ·)

def hasChildren (node : LevelNumber) : Bool := node.childAt 0 ∈ otherPeers

/-- All the nodes, which have to be peers. -/
def allKnown (nodes : List LevelNumber) (msg : String) : Except String (List LevelNumber) :=
  nodes.mapM fun node => do
    natterCheck (node ∈ otherPeers) msg
    return node

def addLRT : Except String (List LevelNumber) :=
  allKnown otherPeers (ordered ownNode.lrt)
    "Do not know node in LRT. Nodes in LRT should always be known (complete tree)."

def addRRT : List LevelNumber := (ordered ownNode.rrt).takeWhile (· ∈ otherPeers)

def addRoutingTableToReceiver : Except String (List LevelNumber) := do
  let left ← addLRT ownNode otherPeers
  return addRRT ownNode otherPeers ++ left

/-- The neighbor of the last sender to our left. -/
def lowerBoundary : Except String Iterator :=
  if lastNode.level = ownNode.level then do
    let lastSenderLrt := lastNode.lrt
    let it := Iterator.find lastSenderLrt ownNode
    natterCheck (it ≠ ⊤) "Cannot find ourselves in LRT from last node"
    Iterator.decrement lastSenderLrt it
  else pure ⊤

def addLeftForwardNodes : Except String (List LevelNumber) :=
  let ourLrt := ownNode.lrt
  if ourLrt = ∅ then pure []
  else do
    let lowerBoundary ← lowerBoundary ownNode lastNode
    if lowerBoundary = ⊤ then allKnown otherPeers (ordered ourLrt) "Do not known node in our LRT"
    else
      let boundary ← Iterator.dereference lowerBoundary
      allKnown otherPeers ((ordered ourLrt).filter (·.number > boundary.number))
        "Do not know node in our LRT"

/-- The neighbor of the last sender to our right. -/
def upperBoundary : Except String Iterator :=
  if lastNode.level = ownNode.level then do
    let lastSenderRrt := lastNode.rrt
    let it := Iterator.find lastSenderRrt ownNode
    natterCheck (it ≠ ⊤) "Cannot find ourselves in RRT from last node"
    Iterator.increment lastSenderRrt it
  else pure ⊤

def addRightForwardNodes : Except String (List LevelNumber) :=
  let ourRrt := ownNode.rrt
  if ourRrt = ∅ then pure []
  else do
    let upperBoundary ← upperBoundary ownNode lastNode
    if upperBoundary = ⊤ then return (ordered ourRrt).filter (· ∈ otherPeers)
    else
      let boundary ← Iterator.dereference upperBoundary
      return (ordered ourRrt).filter fun node =>
        node.number < boundary.number && node ∈ otherPeers

def addFromRoutingTable (rt : Finset LevelNumber) (comp : ℕ → Bool) : List LevelNumber :=
  (ordered rt).filter fun node => node ∈ otherPeers && comp node.number

def addInnerForwardNodes : Except String (List LevelNumber) := do
  natterCheck (bc.leftChild ≠ bc.rightChild)
    "addInnerForwardNodes() called without being outer child"
  let nodesBetween := bc.ownFanout - 2
  if nodesBetween = 0 then return []
  else if bc.leftChild &&
      levelNumber bc.ownLevel bc.rightChildNumber bc.ownFanout ∉ otherPeers then
    return addRRT bc.ownNode otherPeers
  else if bc.leftChild then
    let upperNumber := u32 ((nodesBetween + 1) / 2 + bc.ownNumber)
    return addFromRoutingTable otherPeers bc.ownNode.rrt (· ≤ upperNumber)
  else
    let lowerNumber := bc.ownNumber - nodesBetween / 2
    return addFromRoutingTable otherPeers bc.ownNode.lrt (· ≥ lowerNumber)

/-- The loop over the first and the last child ends at one that is not known. -/
def addLeftAndRightmostChildren (node : LevelNumber) : List LevelNumber :=
  [node.childAt 0, node.childAt (node.fanout - 1)].takeWhile (· ∈ otherPeers)

/-- Which of the two outer children sends down, and whether it is the other
one.  The distances to the center of the level are taken twice. -/
def centeredNodeAddChildren : Except String (Bool × List LevelNumber) := do
  let othersNumber := if bc.leftChild then bc.rightChildNumber else bc.leftChildNumber
  let other := levelNumber bc.ownLevel othersNumber bc.ownFanout
  natterCheck (bc.leftChild ≠ bc.rightChild)
    "Received message directly from above but we are not an outer child"
  let children := addLeftAndRightmostChildren otherPeers bc.ownNode
  if bc.leftChild && other ∉ otherPeers then return (false, children)
  else
    let center := u32Pred (u32 (bc.ownFanout ^ bc.ownLevel))
    let dist := fun number => max (2 * number) center - min (2 * number) center
    if dist othersNumber < dist bc.ownNumber then
      if hasChildren otherPeers other then return (true, [])
      else return (false, children)
    else if dist othersNumber = dist bc.ownNumber then
      return (false, if bc.leftChild then children else [])
    else return (false, children)

def calculateRRTIntersection : List LevelNumber := ordered (bc.lastNode.lrt ∩ bc.ownNode.rrt)

def imperfectTreeAddChildren : Bool × List LevelNumber :=
  if hasChildren otherPeers bc.ownNode then
    match (calculateRRTIntersection bc).head? with
    | none => (false, addLeftAndRightmostChildren otherPeers bc.ownNode)
    | some node =>
      if hasChildren otherPeers node then (true, [])
      else (false, addLeftAndRightmostChildren otherPeers bc.ownNode)
  else ((ordered bc.lastNode.lrt).head? ≠ some bc.ownNode, [])

/-- The peers along the level and those that must not send the message on. -/
def getInlevel : Except String (List LevelNumber × List LevelNumber) := do
  let singleFirstOnLevel := bc.isInitialSender || bc.ownLevel < bc.lastLevel ||
    (bc.receivedFromAbove && !bc.receivedDirectlyFromAbove)
  if singleFirstOnLevel then
    let inlevel ← addRoutingTableToReceiver bc.ownNode otherPeers
    return (inlevel, [])
  else if bc.receivedDirectlyFromAbove then
    natterCheck (bc.leftChild ≠ bc.rightChild) "Cannot be left and right child simultaneous"
    let inlevel ← if bc.leftChild then addLeftForwardNodes bc.ownNode bc.lastNode otherPeers
      else addRightForwardNodes bc.ownNode bc.lastNode otherPeers
    let inner ← addInnerForwardNodes bc otherPeers
    return (inlevel, inner)
  else if bc.ownNumber < bc.lastNumber then
    let inlevel ← addLeftForwardNodes bc.ownNode bc.lastNode otherPeers
    return (inlevel, [])
  else
    let inlevel ← addRightForwardNodes bc.ownNode bc.lastNode otherPeers
    return (inlevel, [])

def getHigherAdjacent : Option LevelNumber :=
  if bc.allowedUpForward then
    (ordered otherPeers).foldl (fun found node =>
      if node.level < bc.ownLevel - 1 && bc.forwardingLimit.up ≤ node.level &&
          node.level < (found.map (·.level)).getD bc.ownLevel then some node
      else found) none
  else none

def getDeeperAdjacent : Option LevelNumber :=
  if bc.allowedDownForward then
    (ordered otherPeers).foldl (fun found node =>
      if node.level > bc.ownLevel + 1 && node.level ≤ bc.forwardingLimit.down &&
          node.level > (found.map (·.level)).getD bc.ownLevel then some node
      else found) none
  else none

end Receivers

/-! ### Sending -/

section Sending

variable (bc : BroadcastInfo) (otherPeers : Finset LevelNumber)

/-- An action that sends messages. -/
abbrev Sending := Action (List Envelope)

def sendMessage (peer : LevelNumber) (upLimit downLimit : ℕ) (innerForward : Bool) :
    Sending Unit := do
  Action.lift (natterCheck (upLimit ≤ downLimit) "Forwarding up is greater than forwarding down")
  Action.modify (· ++ [⟨peer, bc.initialNode, bc.ownNode, bc.currentRound, ⟨upLimit, downLimit⟩,
    innerForward⟩])

/-- Half of the levels between us and a higher adjacent are left to our parent,
up to the returned level. -/
def sendToHigherAdjacent (peer : LevelNumber) : Sending ℕ := do
  Action.lift (natterCheck (peer.level < bc.ownLevel - 1)
    "Highest adjacent not at least one level above own level")
  Action.lift (natterCheck (bc.ownLevel ≠ 0) "Cannot send to higher adjacent if we are root")
  let parentLevel := bc.ownLevel - 1
  let levelDiffAdjParent := parentLevel - peer.level - 1
  let downBorder := (levelDiffAdjParent + 1) / 2 + peer.level
  let parentUpBorder := parentLevel - levelDiffAdjParent / 2
  Action.lift (natterCheck (parentUpBorder - 1 = downBorder) "failure in middle calculation")
  sendMessage bc peer 0 downBorder false
  return parentUpBorder

/-- Half of the levels between us and a deeper adjacent are left to our
children, down to the returned level. -/
def sendToDeeperAdjacent (peer : LevelNumber) : Sending ℕ := do
  Action.lift (natterCheck (peer.level > bc.ownLevel + 1)
    "Deepest adjacent not at least one level below own level")
  let childLevel := bc.ownLevel + 1
  let levelDiffAdjChild := peer.level - childLevel - 1
  let upBorder := peer.level - levelDiffAdjChild / 2
  let childDownBorder := childLevel + (levelDiffAdjChild + 1) / 2
  Action.lift (natterCheck (childDownBorder + 1 = upBorder) "failure in middle calculation")
  sendMessage bc peer upBorder maxLevelNumber false
  return childDownBorder

/-- The borders that are left to the parent and to the children. -/
def sendToAdjacents : Sending (ℕ × ℕ) := do
  match getHigherAdjacent bc otherPeers, getDeeperAdjacent bc otherPeers with
  | some _, some _ => Action.throw "SENDING TO 2 ADJACENTS!"
  | some higher, none =>
    let parentUpBorder ← sendToHigherAdjacent bc higher
    return (parentUpBorder, bc.forwardingLimit.down)
  | none, some deeper =>
    let childDownBorder ← sendToDeeperAdjacent bc deeper
    return (bc.forwardingLimit.up, childDownBorder)
  | none, none => return (bc.forwardingLimit.up, bc.forwardingLimit.down)

def sendToParent (parentUpBorder : ℕ) : Sending Unit :=
  if bc.ownLevel = 0 then pure ()
  else if bc.ownLevel - 1 ≥ bc.forwardingLimit.up then do
    let parent := levelNumber (bc.ownLevel - 1) (bc.ownNumber / bc.ownFanout) bc.ownFanout
    Action.lift (natterCheck (parent ∈ otherPeers) "Parent must exist but is not known")
    sendMessage bc parent parentUpBorder (bc.ownLevel - 1) false
  else pure ()

/-- The children to send to, and whether another node sends down on our level. -/
def getChildren : Except String (Bool × List LevelNumber) :=
  let receivedFromRight := bc.ownLevel = bc.lastLevel ∧ bc.ownNumber < bc.lastNumber
  let children := addLeftAndRightmostChildren otherPeers bc.ownNode
  if bc.isInitialSender then .ok (false, children)
  else if bc.receivedFromLowerAdjacent && bc.allowedDownForward then .ok (false, children)
  else if bc.receivedDirectlyFromAbove && bc.allowedDownForward then
    centeredNodeAddChildren bc otherPeers
  else if !bc.receivedDirectlyFromAbove && bc.receivedFromAbove && bc.allowedDownForward then
    .ok (false, children)
  else if bc.allowedDownForward ∧ receivedFromRight then
    .ok (imperfectTreeAddChildren bc otherPeers)
  else .ok (false, [])

def sendToChildren (childDownBorder : ℕ) : Sending (Bool × Bool) := do
  let (otherForwardingDown, receiver) ← Action.lift (getChildren bc otherPeers)
  Action.forEach receiver fun peer =>
    sendMessage bc peer (bc.ownLevel + 1) childDownBorder false
  return (otherForwardingDown, !receiver.isEmpty)

def sendToInlevel (otherForwardingDown sentToChildren : Bool) : Sending Unit := do
  let (inlevel, inner) ← Action.lift (getInlevel bc otherPeers)
  let downBorder := if otherForwardingDown || sentToChildren then bc.ownLevel
    else min bc.forwardingLimit.down maxLevelNumber
  -- only the neighbors to our left may send down
  Action.forEach inlevel fun peer =>
    sendMessage bc peer bc.ownLevel (if peer.number < bc.ownNumber then downBorder else bc.ownLevel)
      false
  Action.forEach inner fun peer => sendMessage bc peer bc.ownLevel bc.ownLevel true

def broadcast : Sending Unit := do
  let (parentUpBorder, childDownBorder) ← sendToAdjacents bc otherPeers
  sendToParent bc otherPeers parentUpBorder
  let (otherSendingDown, sentToChildren) ← sendToChildren bc otherPeers childDownBorder
  sendToInlevel bc otherPeers otherSendingDown sentToChildren

end Sending

/-- The peer at `ownPos` publishes a message. -/
def publish (ownPos : LevelNumber) (otherPeers : Finset LevelNumber) : Sending Unit :=
  broadcast ⟨ownPos, ownPos, ownPos, ⟨0, maxLevelNumber⟩, 1⟩ otherPeers

def createBroadcastInfo (ownPos : LevelNumber) (msg : MinhcastMessage) :
    Except String BroadcastInfo := do
  natterCheck (ownPos.fanout = msg.lastNode.fanout) "Fanout of own and last node do not match"
  natterCheck (ownPos.fanout = msg.initialNode.fanout)
    "Fanout of own and initial node do not match"
  return ⟨ownPos, msg.lastNode, msg.initialNode, msg.forwardingLimit, u32 (msg.round + 1)⟩

def processMessage (ownPos : LevelNumber) (otherPeers : Finset LevelNumber)
    (msg : MinhcastMessage) : Sending Unit :=
  if msg.isInnerForward then pure ()
  else do
    let bc ← Action.lift (createBroadcastInfo ownPos msg)
    broadcast bc otherPeers

/-! ### Broadcasts in a complete tree -/

section Tree

variable (m N : ℕ)

/-- The positions of the complete tree with `N` nodes. -/
def positions : List Pos :=
  ((List.range N).flatMap fun level => (List.range N).map (Pos.mk level)).filter (Complete m N)

/-- A routing table neighbor lies on the same level, at a distance `d * m ^ i`. -/
def RtNeighbors (p q : Pos) : Prop :=
  p.level = q.level ∧ p ≠ q ∧ ∃ i ∈ Finset.range (p.level + 1), ∃ d ∈ Finset.range m,
    p.number + d * m ^ i = q.number ∨ q.number + d * m ^ i = p.number

/-- No node of the tree lies between the two in in-order. -/
def Adjacent (p q : Pos) : Prop :=
  ∀ r ∈ positions m N, ¬ (Before m p r ∧ Before m r q) ∧ ¬ (Before m q r ∧ Before m r p)

/-- A node knows its parent, its children, its adjacents, its routing table
neighbors and their children. -/
def Knows (p q : Pos) : Prop :=
  p ≠ q ∧ (p.level ≠ 0 ∧ p.parent m = q ∨ q.level ≠ 0 ∧ q.parent m = p ∨ Adjacent m N p q ∨
    RtNeighbors m p q ∨ q.level ≠ 0 ∧ RtNeighbors m p (q.parent m))

instance (p q : Pos) : Decidable (RtNeighbors m p q) := inferInstanceAs (Decidable (_ ∧ _))

instance (p q : Pos) : Decidable (Adjacent m N p q) :=
  inferInstanceAs (Decidable (∀ _ ∈ _, _))

instance (p q : Pos) : Decidable (Knows m N p q) := inferInstanceAs (Decidable (_ ∧ _))

/-- The correct peers of the node at `x`. -/
def peersAt (x : LevelNumber) : Finset LevelNumber :=
  (((positions m N).filter (Knows m N ⟨x.level, x.number⟩)).map (ofPos m)).toFinset

/-- What a node does when a message arrives. -/
def arrive (e : Envelope) : List Envelope × Except String Unit :=
  processMessage e.receiver (peersAt m N e.receiver) e.message []

/-- A message that is on its way arrives. -/
def deliver (s : List Envelope) (e : Envelope) : Option (List Envelope) :=
  if e ∈ s then some (s.erase e ++ (arrive m N e).1) else none

end Tree

end Sola.Natter
