import Mathlib.Data.List.Nodup
import Sola.Daisi.LayeredPrecedenceGraph

/-!
The selection of winners in the iterated auction (`AuctionInitiatorState::selectWinner` in
`daisi/src/cpps/logical/algorithms/assignment/auction_initiator_state.cpp`).

The loop sorts the bids, takes the first one, and drops all bids for the same
task.  Of the sort only is used that its first bid is not worse than the other
ones, so the result holds for every implementation, and also when the order of
the bids is not a strict weak order.
-/

namespace Sola.Daisi

open Sola.Lib Action LayeredPrecedenceGraph List

/-! ### Bids -/

structure BidSubmission where
  task : ℕ
  participant : ℕ
  participantAbility : AmrStaticAbility
  metricsComposition : MetricsComposition
deriving DecidableEq

namespace BidSubmission

def gt (b₁ b₂ : BidSubmission) : Bool :=
  if !b₁.metricsComposition.beq b₂.metricsComposition then
    b₁.metricsComposition.gt b₂.metricsComposition
  -- the metrics are the same; the rest is only for a unique order
  else if b₁.participantAbility ≠ b₂.participantAbility then
    b₁.participantAbility.lt b₂.participantAbility
  else b₁.participant > b₂.participant

end BidSubmission

structure WinnerResponse where
  task : ℕ
  participant : ℕ
  accept : Bool
deriving DecidableEq

/-! ### State of the initiator -/

/-- The element at the front after sorting with `gt`, when `a` was there first. -/
def pickFront {α : Type} (gt : α → α → Bool) (a : α) (l : List α) : α :=
  l.foldl (fun best b => if gt b best then b else best) a

theorem pickFront_mem {α : Type} (gt : α → α → Bool) (a : α) (l : List α) :
    pickFront gt a l ∈ a :: l := by
  induction l generalizing a with
  | nil => exact mem_singleton_self a
  | cons b l ih =>
    have hmem := ih (if gt b a then b else a)
    have hcons : pickFront gt a (b :: l) = pickFront gt (if gt b a then b else a) l := rfl
    rw [hcons]
    rcases mem_cons.mp hmem with h | h
    · rw [h]
      split_ifs <;> simp
    · simp [h]

structure Winner where
  task : ℕ
  winner : ℕ
  latestFinish : TimePoint
deriving DecidableEq

structure AuctionInitiatorState where
  bidSubmissions : List BidSubmission := []
  winnerAcceptions : List WinnerResponse := []
  noBidSubmissionsCounter : ℕ := 0
  noWinnerAcceptionsCounter : ℕ := 0

namespace AuctionInitiatorState

def removeBidsForTask (bids : List BidSubmission) (task : ℕ) : List BidSubmission :=
  bids.filter fun bid => bid.task ≠ task

def removeBidsForWinner (bids : List BidSubmission) (task winner : ℕ) : List BidSubmission :=
  bids.filter fun bid => !(bid.task = task && bid.participant = winner)

def addBidSubmission (st : AuctionInitiatorState) (bid : BidSubmission) : AuctionInitiatorState :=
  { st with bidSubmissions := st.bidSubmissions ++ [bid] }

/-- A rejection only removes the bids; the task stays marked as scheduled. -/
def addWinnerResponse (st : AuctionInitiatorState) (response : WinnerResponse) :
    AuctionInitiatorState :=
  if response.accept then { st with winnerAcceptions := st.winnerAcceptions ++ [response] }
  else
    { st with
      bidSubmissions := removeBidsForWinner st.bidSubmissions response.task response.participant }

def clearIterationInfo (st : AuctionInitiatorState) : AuctionInitiatorState :=
  { st with bidSubmissions := [], winnerAcceptions := [] }

def clearWinnerAcceptions (st : AuctionInitiatorState) : AuctionInitiatorState :=
  { st with bidSubmissions := [], winnerAcceptions := [] }

theorem length_removeBidsForTask_lt {bids : List BidSubmission} {bid : BidSubmission}
    (h : bid ∈ bids) : (removeBidsForTask bids bid.task).length < bids.length :=
  length_filter_lt_length_iff_exists.mpr ⟨bid, h, by simp⟩

/-- The loop of `selectWinner` over the bids that are left. -/
def selectWinner : List BidSubmission → LayeredPrecedenceGraph.Handler (List Winner)
  | [] => pure []
  | bid :: bids => do
      let best := pickFront BidSubmission.gt bid bids
      let rest := removeBidsForTask (bid :: bids) best.task
      let free ← isTaskFree best.task
      if free then
        let flagged ← isFreeTaskScheduled best.task
        if flagged then selectWinner rest
        else
          let latestFinish ← Action.lift best.metricsComposition.currentMetrics.getMakespan
          setLatestFinishTime best.task latestFinish
          setTaskScheduled best.task
          let winners ← selectWinner rest
          return ⟨best.task, best.participant, latestFinish⟩ :: winners
      else selectWinner rest
termination_by bids => bids.length
decreasing_by
  all_goals exact length_removeBidsForTask_lt (pickFront_mem _ _ _)

end AuctionInitiatorState

/-! ### Reading the layers -/

variable {time : TimePoint}

namespace LayeredPrecedenceGraph

variable {E : LayeredPrecedenceGraph → Prop} {g : LayeredPrecedenceGraph} {task : ℕ}

theorem wp_getVertex {Q : LPCVertex → LayeredPrecedenceGraph → Prop} :
    wp (getVertex task) Q E g ↔
      (task ∈ g.tasks → Q (g.vertices task) g) ∧ (task ∉ g.tasks → E g) := by
  simp only [getVertex, wp_bind, wp_get, wp_ite, wp_pure, wp_throw]

theorem wp_isTaskFree {Q : Bool → LayeredPrecedenceGraph → Prop} :
    wp (isTaskFree task) Q E g ↔
      (task ∈ g.tasks → Q (g.layer task = .kFree) g) ∧ (task ∉ g.tasks → E g) := by
  simp only [isTaskFree, wp_bind, wp_getVertex, wp_pure]
  exact Iff.rfl

theorem wp_isFreeTaskScheduled {Q : Bool → LayeredPrecedenceGraph → Prop} (htask : task ∈ g.tasks)
    (hfree : g.layer task = .kFree) :
    wp (isFreeTaskScheduled task) Q E g ↔ Q (g.scheduled task) g := by
  have hlayer : (g.vertices task).layer = .kFree := hfree
  simp only [isFreeTaskScheduled, wp_bind, wp_getVertex, wp_ite, wp_pure, wp_throw]
  simp [htask, hlayer, scheduled]

theorem mem_getAuctionableTasks : task ∈ g.getAuctionableTasks ↔
    task ∈ g.tasks ∧ g.layer task = .kFree ∧ g.scheduled task = false := by
  simp [getAuctionableTasks]

/-- The graph after a winner is selected for a free task. -/
def markScheduled (g : LayeredPrecedenceGraph) (task : ℕ) (time : TimePoint) :
    LayeredPrecedenceGraph :=
  (g.withVertex task fun vertex => { vertex with latestFinish := some time }).withVertex task
    fun vertex => { vertex with scheduled := true }

theorem layer_markScheduled (t : ℕ) : (g.markScheduled task time).layer t = g.layer t := by
  grind [markScheduled, vertices_withVertex, LayeredPrecedenceGraph.layer]

theorem scheduled_markScheduled (t : ℕ) :
    (g.markScheduled task time).scheduled t = (t == task || g.scheduled t) := by
  grind [markScheduled, vertices_withVertex, LayeredPrecedenceGraph.scheduled]

theorem latestFinish_markScheduled (t : ℕ) :
    ((g.markScheduled task time).vertices t).latestFinish =
      if t = task then some time else (g.vertices t).latestFinish := by
  grind [markScheduled, vertices_withVertex]

theorem wp_markScheduled {Q : Unit → LayeredPrecedenceGraph → Prop} (htask : task ∈ g.tasks)
    (hfree : g.layer task = .kFree) (time : TimePoint) :
    wp (setLatestFinishTime task time) (fun _ => wp (setTaskScheduled task) Q E) E g ↔
      Q () (g.markScheduled task time) := by
  have htask' : task ∈ (g.withVertex task fun vertex =>
    { vertex with latestFinish := some time }).tasks := htask
  have hfree' : (g.withVertex task fun vertex =>
      { vertex with latestFinish := some time }).layer task = .kFree := by
    simpa [LayeredPrecedenceGraph.layer, vertices_withVertex] using hfree
  simp only [setLatestFinishTime, setTaskScheduled, wp_bind, wp_get, wp_ite, wp_throw,
    wp_modifyVertex, htask, hfree, htask', hfree', not_true_eq_false, ne_eq, false_imp_iff,
    not_false_eq_true, true_imp_iff, true_and]
  exact Iff.rfl

end LayeredPrecedenceGraph

/-! ### Sorted bids -/

/-- What `std::sort` does to the bids. -/
structure BidSort where
  sort : List BidSubmission → List BidSubmission
  perm : ∀ bids, (sort bids).Perm bids
  first : ∀ {bids best sorted}, sort bids = best :: sorted → ∀ bid ∈ sorted,
    best.metricsComposition.lt bid.metricsComposition = false

/-- A sort after which no bid has worse metrics than a later one. -/
def BidSort.ofSorted (sort : List BidSubmission → List BidSubmission)
    (perm : ∀ bids, (sort bids).Perm bids)
    (sorted : ∀ bids, (sort bids).Pairwise fun bid bid' =>
      bid.metricsComposition.lt bid'.metricsComposition = false) : BidSort where
  sort := sort
  perm := perm
  first {bids} _ _ heq := by
    have hsorted := sorted bids
    rw [heq] at hsorted
    exact (List.pairwise_cons.mp hsorted).1

namespace AuctionInitiatorState

variable {σ : BidSort} {bids rest : List BidSubmission} {best : BidSubmission}

theorem mem_removeBidsForTask {bid : BidSubmission} {task : ℕ} :
    bid ∈ removeBidsForTask bids task ↔ bid ∈ bids ∧ bid.task ≠ task := by
  simp [removeBidsForTask]

theorem length_lt_of_sort {sorted : List BidSubmission} (h : σ.sort bids = best :: sorted) :
    (removeBidsForTask (best :: sorted) best.task).length < bids.length := by
  rw [← (σ.perm bids).length_eq, h]
  exact length_removeBidsForTask_lt mem_cons_self

/-- The loop of `selectWinner` with a given sort. -/
def selectWinnerBy (σ : BidSort) (bids : List BidSubmission) :
    LayeredPrecedenceGraph.Handler (List Winner) :=
  match _hsort : σ.sort bids with
  | [] => pure []
  | best :: sorted => do
      let rest := removeBidsForTask (best :: sorted) best.task
      let free ← isTaskFree best.task
      if free then
        let flagged ← isFreeTaskScheduled best.task
        if flagged then selectWinnerBy σ rest
        else
          let latestFinish ← Action.lift best.metricsComposition.currentMetrics.getMakespan
          setLatestFinishTime best.task latestFinish
          setTaskScheduled best.task
          let winners ← selectWinnerBy σ rest
          return ⟨best.task, best.participant, latestFinish⟩ :: winners
      else selectWinnerBy σ rest
termination_by bids.length
decreasing_by
  all_goals exact length_lt_of_sort ‹_›

/-! ### Selected winners -/

/-- The winners are the best bidders for the tasks for sale, and exactly their tasks are marked. -/
structure Selection (g : LayeredPrecedenceGraph) (bids : List BidSubmission)
    (winners : List Winner) (g' : LayeredPrecedenceGraph) : Prop where
  flow : g'.flow = g.flow
  layer : ∀ task, g'.layer task = g.layer task
  nodup : (winners.map Winner.task).Nodup
  mem_iff : ∀ task, task ∈ winners.map Winner.task ↔
    task ∈ g.getAuctionableTasks ∧ ∃ bid ∈ bids, bid.task = task
  best : ∀ w ∈ winners, ∃ bid ∈ bids, bid.task = w.task ∧ bid.participant = w.winner ∧
    bid.metricsComposition.currentMetrics.getMakespan = .ok w.latestFinish ∧
      ∀ bid' ∈ bids, bid'.task = w.task →
        bid.metricsComposition.lt bid'.metricsComposition = false
  scheduled : ∀ task, g'.scheduled task = true ↔
    g.scheduled task = true ∨ task ∈ winners.map Winner.task
  finish : ∀ w ∈ winners, (g'.vertices w.task).latestFinish = some w.latestFinish
  finish_eq : ∀ task ∉ winners.map Winner.task,
    (g'.vertices task).latestFinish = (g.vertices task).latestFinish

/-- Tasks may have been marked when the selection was interrupted. -/
structure Marks (g g' : LayeredPrecedenceGraph) : Prop where
  flow : g'.flow = g.flow
  layer : ∀ task, g'.layer task = g.layer task
  scheduled : ∀ task, g.scheduled task = true → g'.scheduled task = true

/-- A bid for an unknown task, or one for a task for sale without a makespan. -/
def Unsuitable (g : LayeredPrecedenceGraph) (bids : List BidSubmission) : Prop :=
  ∃ bid ∈ bids, bid.task ∉ g.tasks ∨ bid.task ∈ g.getAuctionableTasks ∧
    ∀ time, bid.metricsComposition.currentMetrics.getMakespan ≠ .ok time

variable {g g' : LayeredPrecedenceGraph} {winners : List Winner}

theorem Selection.skip (h : Selection g rest winners g')
    (hrest : ∀ bid, bid ∈ rest ↔ bid ∈ bids ∧ bid.task ≠ best.task)
    (hbest : best.task ∉ g.getAuctionableTasks) : Selection g bids winners g' where
  flow := h.flow
  layer := h.layer
  nodup := h.nodup
  mem_iff task := by
    have hmem := h.mem_iff task
    grind
  best w hw := by
    obtain ⟨bid, hbid, htask, hwinner, hmakespan, hmax⟩ := h.best w hw
    have hne : w.task ≠ best.task := fun heq =>
      hbest (heq ▸ ((h.mem_iff w.task).mp (mem_map_of_mem hw)).1)
    refine ⟨bid, ((hrest bid).mp hbid).1, htask, hwinner, hmakespan, fun bid' hbid' htask' => ?_⟩
    exact hmax bid' ((hrest bid').mpr ⟨hbid', htask' ▸ hne⟩) htask'
  scheduled := h.scheduled
  finish := h.finish
  finish_eq := h.finish_eq

theorem mem_getAuctionableTasks_markScheduled {task t : ℕ} :
    t ∈ (g.markScheduled task time).getAuctionableTasks ↔ t ∈ g.getAuctionableTasks ∧ t ≠ task := by
  simp only [mem_getAuctionableTasks, layer_markScheduled, scheduled_markScheduled]
  have htasks : (g.markScheduled task time).tasks = g.tasks := rfl
  grind

theorem Marks.of_markScheduled {task : ℕ} (h : Marks (g.markScheduled task time) g') :
    Marks g g' where
  flow := h.flow
  layer t := (h.layer t).trans (layer_markScheduled t)
  scheduled t ht := h.scheduled t (by simp [scheduled_markScheduled, ht])

theorem Unsuitable.of_markScheduled {task : ℕ} (h : Unsuitable (g.markScheduled task time) rest)
    (hrest : ∀ bid, bid ∈ rest ↔ bid ∈ bids ∧ bid.task ≠ best.task) : Unsuitable g bids := by
  obtain ⟨bid, hbid, hunsuitable⟩ := h
  rw [mem_getAuctionableTasks_markScheduled] at hunsuitable
  exact ⟨bid, ((hrest bid).mp hbid).1, hunsuitable.imp_right fun h => ⟨h.1.1, h.2⟩⟩

theorem Selection.cons (h : Selection (g.markScheduled best.task time) rest winners g')
    (hrest : ∀ bid, bid ∈ rest ↔ bid ∈ bids ∧ bid.task ≠ best.task)
    (hbest : best.task ∈ g.getAuctionableTasks) (hmem : best ∈ bids)
    (hmax : ∀ bid ∈ bids, best.metricsComposition.lt bid.metricsComposition = false)
    (htime : best.metricsComposition.currentMetrics.getMakespan = .ok time) :
    Selection g bids (⟨best.task, best.participant, time⟩ :: winners) g' := by
  have hnew : best.task ∉ winners.map Winner.task := fun hw =>
    (mem_getAuctionableTasks_markScheduled.mp ((h.mem_iff best.task).mp hw).1).2 rfl
  refine ⟨h.flow, fun t => (h.layer t).trans (layer_markScheduled t), ?_, fun task => ?_,
    fun w hw => ?_, fun task => ?_, fun w hw => ?_, fun task htask => ?_⟩
  · exact nodup_cons.mpr ⟨hnew, h.nodup⟩
  · have hwinners := h.mem_iff task
    rw [mem_getAuctionableTasks_markScheduled] at hwinners
    grind
  · rcases mem_cons.mp hw with rfl | hw
    · exact ⟨best, hmem, rfl, rfl, htime, fun bid hbid _ => hmax bid hbid⟩
    · obtain ⟨bid, hbid, htask, hwinner, hmakespan, hmax⟩ := h.best w hw
      have hne : w.task ≠ best.task := fun heq => hnew (heq ▸ mem_map_of_mem hw)
      refine ⟨bid, ((hrest bid).mp hbid).1, htask, hwinner, hmakespan, fun bid' hbid' htask' => ?_⟩
      exact hmax bid' ((hrest bid').mpr ⟨hbid', htask' ▸ hne⟩) htask'
  · have hscheduled := h.scheduled task
    rw [scheduled_markScheduled] at hscheduled
    grind
  · rcases mem_cons.mp hw with rfl | hw
    · rw [h.finish_eq _ hnew, latestFinish_markScheduled, if_pos rfl]
    · exact h.finish w hw
  · rw [map_cons, mem_cons, not_or] at htask
    rw [h.finish_eq task htask.2, latestFinish_markScheduled, if_neg htask.1]

theorem selection_nil (g : LayeredPrecedenceGraph) : Selection g [] [] g where
  flow := rfl
  layer _ := rfl
  nodup := .nil
  mem_iff := by simp
  best := by simp
  scheduled := by simp
  finish := by simp
  finish_eq _ _ := rfl

theorem selectWinnerBy_spec (σ : BidSort) (bids : List BidSubmission) (g : LayeredPrecedenceGraph) :
    wp (selectWinnerBy σ bids) (Selection g bids)
      (fun g' => Marks g g' ∧ Unsuitable g bids) g := by
  induction hn : bids.length using Nat.strong_induction_on generalizing bids g with
  | _ n ih =>
    subst hn
    rw [selectWinnerBy]
    split
    next hsort =>
        have hbids : bids = [] := perm_nil.mp (hsort ▸ (σ.perm bids).symm)
        subst hbids
        exact selection_nil g
    next best sorted hsort =>
        have hmem : ∀ bid, bid ∈ bids ↔ bid ∈ best :: sorted := fun bid => by
          rw [← (σ.perm bids).mem_iff, hsort]
        have hrest : ∀ bid, bid ∈ removeBidsForTask (best :: sorted) best.task ↔
            bid ∈ bids ∧ bid.task ≠ best.task := fun bid => by
          rw [mem_removeBidsForTask, hmem]
        have hbest : best ∈ bids := (hmem best).mpr mem_cons_self
        have hmax : ∀ bid ∈ bids,
            best.metricsComposition.lt bid.metricsComposition = false := by
          intro bid hbid
          rcases mem_cons.mp ((hmem bid).mp hbid) with rfl | hbid
          · simp [MetricsComposition.lt]
          · exact σ.first hsort bid hbid
        have hspec := fun g => ih _ (length_lt_of_sort hsort) _ g rfl
        generalize removeBidsForTask (best :: sorted) best.task = rest at hrest hspec ⊢
        have hskip : best.task ∉ g.getAuctionableTasks → wp (selectWinnerBy σ rest)
            (Selection g bids) (fun g' => Marks g g' ∧ Unsuitable g bids) g := by
          intro hnot
          refine (hspec g).imp (fun _ _ hsel => hsel.skip hrest hnot) fun _ hE => ?_
          obtain ⟨hmarks, bid, hbid, hunsuitable⟩ := hE
          exact ⟨hmarks, bid, ((hrest bid).mp hbid).1, hunsuitable⟩
        rw [wp_bind, wp_isTaskFree]
        refine ⟨fun htask => ?_, fun htask =>
          ⟨⟨rfl, fun _ => rfl, fun _ h => h⟩, best, hbest, .inl htask⟩⟩
        by_cases hfree : g.layer best.task = .kFree
        · simp only [hfree, decide_true, if_true]
          rw [wp_bind, wp_isFreeTaskScheduled htask hfree]
          cases hflag : g.scheduled best.task with
          | true =>
            refine hskip fun hsale => ?_
            rw [mem_getAuctionableTasks, hflag] at hsale
            cases hsale.2.2
          | false =>
            have hsale := mem_getAuctionableTasks.mpr ⟨htask, hfree, hflag⟩
            simp only [Bool.false_eq_true, if_false]
            rw [wp_bind, wp_lift]
            refine ⟨fun time htime => ?_, fun e he => ?_⟩
            · simp only [wp_bind_eq]
              rw [wp_markScheduled htask hfree]
              refine (hspec _).imp (fun _ _ hsel => ?_) fun g' hE => ?_
              · exact hsel.cons hrest hsale hbest hmax htime
              · exact ⟨hE.1.of_markScheduled, hE.2.of_markScheduled hrest⟩
            · refine ⟨⟨rfl, fun _ => rfl, fun _ h => h⟩, best, hbest, .inr ⟨hsale, ?_⟩⟩
              simp [he]
        · simp only [hfree, decide_false, Bool.false_eq_true, if_false]
          exact hskip fun hsale => hfree (mem_getAuctionableTasks.mp hsale).2.1

/-- The winners are returned, with one best bidder for every task for sale. -/
def SelectsBest (σ : BidSort) (g : LayeredPrecedenceGraph) (bids : List BidSubmission) : Prop :=
  ∃ g' winners, selectWinnerBy σ bids g = (g', .ok winners) ∧ Selection g bids winners g'

end AuctionInitiatorState

/-! ### The order of bids -/

namespace BidSubmission

variable {b₁ b₂ : BidSubmission}

def utility (bid : BidSubmission) : ℚ :=
  bid.metricsComposition.getMetricsForAuction.utilityFunction

theorem lt_eq_false_iff : b₁.metricsComposition.lt b₂.metricsComposition = false ↔
    b₂.utility ≤ b₁.utility := by
  simp [MetricsComposition.lt, utility]

/-- Abilities that differ are never ordered. -/
theorem gt_iff : b₁.gt b₂ = true ↔ b₂.utility < b₁.utility ∨ b₁.utility = b₂.utility ∧
    b₁.participantAbility = b₂.participantAbility ∧ b₂.participant < b₁.participant := by
  have hbeq : b₁.metricsComposition.beq b₂.metricsComposition = decide (b₁.utility = b₂.utility) :=
    rfl
  have hgt : b₁.metricsComposition.gt b₂.metricsComposition = decide (b₂.utility < b₁.utility) :=
    rfl
  simp only [gt, hbeq, hgt, AmrStaticAbility.lt, LoadCarrier.lt, Bool.false_and]
  by_cases hutility : b₁.utility = b₂.utility
  · simp [hutility]
  · simp [hutility]

/-- The first bid is not worse than the other ones. -/
theorem utility_le_pickFront (bid : BidSubmission) (bids : List BidSubmission) :
    ∀ bid' ∈ bid :: bids, bid'.utility ≤ (pickFront gt bid bids).utility := by
  induction bids generalizing bid with
  | nil => simp [pickFront]
  | cons next bids ih =>
    have hfront := ih (if next.gt bid then next else bid)
    have hcons : pickFront gt bid (next :: bids) =
        pickFront gt (if next.gt bid then next else bid) bids := rfl
    have hgt : next.gt bid = true ↔ _ := gt_iff
    rw [hcons]
    grind

end BidSubmission

/-- The sort of the model only moves a best bid to the front. -/
def BidSort.pickFirst : BidSort where
  sort
    | [] => []
    | bid :: bids =>
      let best := pickFront BidSubmission.gt bid bids
      best :: (bid :: bids).erase best
  perm
    | [] => .nil
    | bid :: bids => (List.perm_cons_erase (pickFront_mem _ bid bids)).symm
  first := by
    intro bids best sorted h bid' hbid'
    cases bids with
    | nil => cases h
    | cons bid bids =>
      obtain ⟨rfl, rfl⟩ := List.cons.inj h
      rw [BidSubmission.lt_eq_false_iff]
      exact BidSubmission.utility_le_pickFront bid bids bid' (List.mem_of_mem_erase hbid')

namespace AuctionInitiatorState

variable {bids : List BidSubmission}

theorem removeBidsForTask_erase (bids : List BidSubmission) (bid : BidSubmission) :
    removeBidsForTask (bid :: bids.erase bid) bid.task = removeBidsForTask bids bid.task := by
  have hdrop : removeBidsForTask (bid :: bids.erase bid) bid.task =
      removeBidsForTask (bids.erase bid) bid.task := filter_cons_of_neg (by simp)
  rw [hdrop]
  induction bids with
  | nil => rfl
  | cons next bids ih =>
    simp only [removeBidsForTask, erase_cons, filter_cons] at ih ⊢
    grind

theorem selectWinner_eq (bids : List BidSubmission) :
    selectWinner bids = selectWinnerBy .pickFirst bids := by
  induction hn : bids.length using Nat.strong_induction_on generalizing bids with
  | _ n ih =>
    subst hn
    cases bids with
    | nil =>
      rw [selectWinner, selectWinnerBy]
      rfl
    | cons bid bids =>
      have hrest := ih _ (length_removeBidsForTask_lt
        (pickFront_mem BidSubmission.gt bid bids)) _ rfl
      rw [selectWinner, selectWinnerBy]
      split
      next hsort => cases hsort
      next hsort =>
          obtain ⟨rfl, rfl⟩ := cons.inj hsort
          simp only [removeBidsForTask_erase, hrest]

/-- The order of the bids is total. -/
structure StrictlyOrdered (bids : List BidSubmission) : Prop where
  irrefl : ∀ b ∈ bids, b.gt b = false
  trans : ∀ b₁ ∈ bids, ∀ b₂ ∈ bids, ∀ b₃ ∈ bids, b₁.gt b₂ = true → b₂.gt b₃ = true →
    b₁.gt b₃ = true
  total : ∀ b₁ ∈ bids, ∀ b₂ ∈ bids, b₁ ≠ b₂ → b₁.gt b₂ = true ∨ b₂.gt b₁ = true

namespace StrictlyOrdered

variable {bid : BidSubmission} {bids bids' : List BidSubmission}

theorem subset (h : StrictlyOrdered bids) (hsub : bids' ⊆ bids) : StrictlyOrdered bids' where
  irrefl b hb := h.irrefl b (hsub hb)
  trans b₁ h₁ b₂ h₂ b₃ h₃ := h.trans b₁ (hsub h₁) b₂ (hsub h₂) b₃ (hsub h₃)
  total b₁ h₁ b₂ h₂ := h.total b₁ (hsub h₁) b₂ (hsub h₂)

theorem gt_of_pickFront (h : StrictlyOrdered (bid :: bids)) :
    ∀ b ∈ bid :: bids, b ≠ pickFront BidSubmission.gt bid bids →
      (pickFront BidSubmission.gt bid bids).gt b = true := by
  induction bids generalizing bid with
  | nil => simp [pickFront]
  | cons next bids ih =>
    have hcons : pickFront BidSubmission.gt bid (next :: bids) =
        pickFront BidSubmission.gt (if next.gt bid then next else bid) bids := rfl
    have hsub : (if next.gt bid then next else bid) :: bids ⊆ bid :: next :: bids := by
      intro b
      grind
    have hfront := ih (h.subset hsub)
    have hmem := hsub (pickFront_mem BidSubmission.gt (if next.gt bid then next else bid) bids)
    have htotal := h.total bid (by simp) next (by simp)
    have htrans := h.trans _ hmem
    rw [hcons]
    intro b hb hne
    grind

theorem pickFront_eq {bid' : BidSubmission} (h : StrictlyOrdered (bid :: bids))
    (hperm : (bid' :: bids').Perm (bid :: bids)) :
    pickFront BidSubmission.gt bid' bids' = pickFront BidSubmission.gt bid bids := by
  have hmem := pickFront_mem BidSubmission.gt bid bids
  have hmem' := hperm.mem_iff.mp (pickFront_mem BidSubmission.gt bid' bids')
  have hfront := h.gt_of_pickFront _ hmem'
  have hfront' := (h.subset hperm.subset).gt_of_pickFront _ (hperm.mem_iff.mpr hmem)
  by_contra hne
  have hcycle := h.trans _ hmem _ hmem' _ hmem (hfront hne) (hfront' (Ne.symm hne))
  rw [h.irrefl _ hmem] at hcycle
  cases hcycle

/-- Ordered bids lead to the same winners in every order of their arrival. -/
theorem selectWinner_eq (h : StrictlyOrdered bids) (hperm : bids'.Perm bids) :
    selectWinner bids' = selectWinner bids := by
  induction hn : bids.length using Nat.strong_induction_on generalizing bids bids' with
  | _ n ih =>
    subst hn
    cases bids with
    | nil => rw [perm_nil.mp hperm]
    | cons bid bids =>
      cases bids' with
      | nil => exact (cons_ne_nil _ _ (nil_perm.mp hperm)).elim
      | cons bid' bids' =>
        rw [selectWinner, selectWinner, h.pickFront_eq hperm]
        have hrest := ih _ (length_removeBidsForTask_lt
          (pickFront_mem BidSubmission.gt bid bids)) (h.subset (filter_subset_self _))
          (hperm.filter _) rfl
        simp only [removeBidsForTask] at hrest ⊢
        simp only [hrest]

end StrictlyOrdered

/-- The order is total and the winners do not depend on the order of arrival. -/
def UniquelyOrdered (bids : List BidSubmission) : Prop :=
  StrictlyOrdered bids ∧ ∀ bids', bids'.Perm bids → selectWinner bids' = selectWinner bids

/-- Bids with the same metrics have to come from vehicles with the same ability. -/
theorem uniquelyOrdered_iff (hparticipants : (bids.map BidSubmission.participant).Nodup) :
    UniquelyOrdered bids ↔ ∀ b₁ ∈ bids, ∀ b₂ ∈ bids,
      b₁.metricsComposition.beq b₂.metricsComposition = true →
        b₁.participantAbility = b₂.participantAbility := by
  have hbeq : ∀ b₁ b₂ : BidSubmission, b₁.metricsComposition.beq b₂.metricsComposition = true ↔
      b₁.utility = b₂.utility := fun b₁ b₂ => decide_eq_true_iff
  simp only [hbeq]
  constructor
  · intro h b₁ h₁ b₂ h₂ hutility
    by_contra hability
    have htotal := h.1.total b₁ h₁ b₂ h₂ (fun heq => hability (heq ▸ rfl))
    simp only [BidSubmission.gt_iff] at htotal
    grind
  · intro h
    have hordered : StrictlyOrdered bids := by
      refine ⟨fun b _ => ?_, fun b₁ h₁ b₂ h₂ b₃ h₃ => ?_, fun b₁ h₁ b₂ h₂ hne => ?_⟩
      · rw [Bool.eq_false_iff, ne_eq, BidSubmission.gt_iff]
        simp
      · simp only [BidSubmission.gt_iff]
        grind
      · have hparticipant : b₁.participant ≠ b₂.participant := fun heq =>
          hne (inj_on_of_nodup_map hparticipants h₁ h₂ heq)
        have hability := h b₁ h₁ b₂ h₂
        simp only [BidSubmission.gt_iff]
        grind
    exact ⟨hordered, fun bids' hperm => hordered.selectWinner_eq hperm⟩

/-- A bid of a vehicle that can carry boxes of a given weight. -/
def boxBid (participant : ℕ) (weight : ℚ) : BidSubmission :=
  ⟨0, participant, ⟨.kEuroBox, weight⟩, .ofMetrics { makespan := 1 }⟩

theorem uniquelyOrdered_sameAbility : UniquelyOrdered [boxBid 0 10, boxBid 1 10] :=
  (uniquelyOrdered_iff (by decide)).mpr (by simp [boxBid])

/-- The vehicles differ in what they can carry, so their bids are not ordered. -/
theorem not_uniquelyOrdered_abilities :
    ([boxBid 0 10, boxBid 1 20].map BidSubmission.participant).Nodup ∧
      ¬ UniquelyOrdered [boxBid 0 10, boxBid 1 20] := by
  refine ⟨by decide, fun h => ?_⟩
  have htotal := h.1.total (boxBid 0 10) (by simp) (boxBid 1 20) (by simp) (by decide +kernel)
  have hnone : (boxBid 0 10).gt (boxBid 1 20) = false ∧ (boxBid 1 20).gt (boxBid 0 10) = false := by
    decide +kernel
  simp [hnone] at htotal

end AuctionInitiatorState

end Sola.Daisi
