import Mathlib.Data.List.TakeWhile
import Sola.Natter.Minhcast

/-!
Which broadcasts step out of a set of routing table neighbors.

A node that forwards to the left looks for the neighbor of the last sender that
comes before itself.  If it is the first of them, the begin iterator is
decremented.  On a level with the numbers up to the fanout the first left
neighbor of every node is the node with the number 0, which has nobody to
forward to.  The node with the number `m + 1` is the first whose left routing
table begins with another one.
-/

namespace Sola.Natter

open Sola.Lib Action Sola.Minhton List
open Sola.Lib.MaryTree Sola.Lib.Transitions

def iteratorMisuse : List String := [beginDecremented, endAdvanced, endDereferenced]

/-! ### The boundaries -/

section Boundaries

variable {req : Prop} [Decidable req] {msg : String} {s otherPeers : Finset LevelNumber}
  {x y own last : LevelNumber} {nodes : List LevelNumber}

@[simp] theorem natterCheck_of (h : req) : natterCheck req msg = .ok () := if_pos h

theorem natterCheck_of_not (h : ¬ req) : natterCheck req msg = .error msg := if_neg h

theorem find_of_mem (h : x ∈ s) : Iterator.find s x = (x : Iterator) := if_pos h

theorem find_of_not_mem (h : x ∉ s) : Iterator.find s x = ⊤ := if_neg h

theorem decrement_first (h : ∀ y ∈ s, x ≤ y) :
    Iterator.decrement s (x : Iterator) = .error beginDecremented := by
  have hbefore : Iterator.before s (x : Iterator) = ∅ :=
    Finset.filter_eq_empty_iff.mpr fun y hy => not_lt.mpr (h y hy)
  unfold Iterator.decrement
  rw [hbefore]
  rfl

theorem decrement_of_lt (hy : y ∈ s) (hlt : y < x) :
    ∃ z : LevelNumber, Iterator.decrement s (x : Iterator) = .ok (z : Iterator) := by
  have hmem : y ∈ Iterator.before s (x : Iterator) := Finset.mem_filter.mpr ⟨hy, hlt⟩
  obtain ⟨z, hz⟩ := Finset.max_of_mem hmem
  refine ⟨z, ?_⟩
  unfold Iterator.decrement
  rw [hz]
  rfl

/-- The last sender is on our level, we are the first of its left neighbors,
and we have left neighbors of our own. -/
def StepsBefore (own last : LevelNumber) : Prop :=
  own.lrt ≠ ∅ ∧ last.level = own.level ∧ own ∈ last.lrt ∧ ∀ x ∈ last.lrt, own ≤ x

theorem lowerBoundary_of_mem (hlevel : last.level = own.level) (hown : own ∈ last.lrt) :
    lowerBoundary own last = Iterator.decrement last.lrt (own : Iterator) := by
  simp only [lowerBoundary, if_pos hlevel, find_of_mem hown]
  rw [natterCheck_of WithTop.coe_ne_top]
  rfl

theorem addLeftForwardNodes_of_stepsBefore (h : StepsBefore own last) :
    addLeftForwardNodes own last otherPeers = .error beginDecremented := by
  obtain ⟨hlrt, hlevel, hown, hfirst⟩ := h
  unfold addLeftForwardNodes
  rw [if_neg hlrt, lowerBoundary_of_mem hlevel hown, decrement_first hfirst]
  rfl

/-! ### The receivers

A function that looks for receivers returns peers.  Many checks can fail, but
only a step before the begin throws one of the three texts. -/

/-- The result is in `Q`, or the exception is a misuse only under `P`. -/
def Misuses {α : Type} (P : Prop) (Q : α → Prop) (x : Except String α) : Prop :=
  Yields Q (fun e => e ∈ iteratorMisuse → P) x

variable {α β : Type} {P : Prop} {Q : α → Prop} {R : β → Prop} {z : Except String α}
  {f : α → Except String β} {bc : BroadcastInfo} {l : List LevelNumber}

theorem Misuses.bind (hz : Misuses P Q z) (hf : ∀ a, Q a → Misuses P R (f a)) :
    Misuses P R (z >>= f) :=
  yields_bind.mpr (Yields.imp hz hf)

theorem misuses_error (hmsg : msg ∉ iteratorMisuse) : Misuses P Q (.error msg) :=
  fun h => absurd h hmsg

theorem misuses_natterCheck (hmsg : msg ∉ iteratorMisuse) :
    Misuses P (fun _ => req) (natterCheck req msg) := by
  unfold natterCheck
  split_ifs with h
  · exact h
  · exact misuses_error hmsg

theorem allKnown_cons (x : LevelNumber) :
    allKnown otherPeers (x :: nodes) msg = do
      natterCheck (x ∈ otherPeers) msg
      let l ← allKnown otherPeers nodes msg
      return x :: l := by
  unfold allKnown
  rw [mapM_cons]
  by_cases hx : x ∈ otherPeers
  · rw [natterCheck_of hx]
    rfl
  · rw [natterCheck_of_not hx]
    rfl

theorem allKnown_of_forall (h : ∀ x ∈ nodes, x ∈ otherPeers) :
    allKnown otherPeers nodes msg = .ok nodes := by
  induction nodes with
  | nil => rfl
  | cons x nodes ih =>
    rw [forall_mem_cons] at h
    rw [allKnown_cons, natterCheck_of h.1, ih h.2]
    rfl

theorem misuses_allKnown (hmsg : msg ∉ iteratorMisuse) :
    Misuses P (∀ x ∈ ·, x ∈ otherPeers) (allKnown otherPeers nodes msg) := by
  induction nodes with
  | nil => exact nofun
  | cons x nodes ih =>
    rw [allKnown_cons]
    refine (misuses_natterCheck hmsg).bind fun _ hx => ih.bind fun l hl => ?_
    exact forall_mem_cons.mpr ⟨hx, hl⟩

/-- The boundary is past the begin, or it is missed with a check. -/
theorem misuses_lowerBoundary (hlrt : own.lrt ≠ ∅) :
    Misuses (StepsBefore own last) (fun _ => True) (lowerBoundary own last) := by
  by_cases hlevel : last.level = own.level
  · by_cases hown : own ∈ last.lrt
    · rw [lowerBoundary_of_mem hlevel hown]
      by_cases hfirst : ∀ y ∈ last.lrt, own ≤ y
      · rw [decrement_first hfirst]
        exact fun _ => ⟨hlrt, hlevel, hown, hfirst⟩
      · push Not at hfirst
        obtain ⟨y, hy, hlt⟩ := hfirst
        obtain ⟨z, hz⟩ := decrement_of_lt hy hlt
        rw [hz]
        trivial
    · simp only [lowerBoundary, if_pos hlevel, find_of_not_mem hown]
      rw [natterCheck_of_not (not_not.mpr rfl)]
      exact misuses_error (by decide)
  · unfold lowerBoundary
    rw [if_neg hlevel]
    trivial

theorem misuses_upperBoundary : Misuses P (fun _ => True) (upperBoundary own last) := by
  by_cases hlevel : last.level = own.level
  · by_cases hown : own ∈ last.rrt
    · simp only [upperBoundary, if_pos hlevel, find_of_mem hown]
      rw [natterCheck_of WithTop.coe_ne_top]
      trivial
    · simp only [upperBoundary, if_pos hlevel, find_of_not_mem hown]
      rw [natterCheck_of_not (not_not.mpr rfl)]
      exact misuses_error (by decide)
  · unfold upperBoundary
    rw [if_neg hlevel]
    trivial

theorem misuses_dereference {it : Iterator} (h : it ≠ ⊤) :
    Misuses P (fun _ => True) (Iterator.dereference it) := by
  cases it with
  | none => exact absurd rfl h
  | some x => trivial

theorem mem_of_mem_takeWhile (h : x ∈ l.takeWhile (· ∈ otherPeers)) : x ∈ otherPeers := by
  simpa using mem_takeWhile_imp h

theorem misuses_addLeftForwardNodes :
    Misuses (StepsBefore own last) (∀ x ∈ ·, x ∈ otherPeers)
      (addLeftForwardNodes own last otherPeers) := by
  simp only [addLeftForwardNodes]
  split_ifs with hlrt
  · exact nofun
  · refine (misuses_lowerBoundary hlrt).bind fun it _ => ?_
    split_ifs with htop
    · exact misuses_allKnown (by decide)
    · exact (misuses_dereference htop).bind fun _ _ => misuses_allKnown (by decide)

theorem misuses_addRightForwardNodes :
    Misuses P (∀ x ∈ ·, x ∈ otherPeers) (addRightForwardNodes own last otherPeers) := by
  simp only [addRightForwardNodes]
  split_ifs with hrrt
  · exact nofun
  · refine misuses_upperBoundary.bind fun it _ => ?_
    split_ifs with htop
    · exact fun x hx => of_decide_eq_true (mem_filter.mp hx).2
    · refine (misuses_dereference htop).bind fun _ _ x hx => ?_
      exact of_decide_eq_true (Bool.and_elim_right (mem_filter.mp hx).2)

theorem misuses_addInnerForwardNodes :
    Misuses P (∀ x ∈ ·, x ∈ otherPeers) (addInnerForwardNodes bc otherPeers) := by
  refine (misuses_natterCheck (by decide)).bind fun _ _ => ?_
  dsimp only
  split_ifs
  · exact nofun
  · exact fun x hx => mem_of_mem_takeWhile hx
  · exact fun x hx => of_decide_eq_true (Bool.and_elim_left (mem_filter.mp hx).2)
  · exact fun x hx => of_decide_eq_true (Bool.and_elim_left (mem_filter.mp hx).2)

theorem misuses_getInlevel :
    Misuses (StepsBefore bc.ownNode bc.lastNode) (fun r => ∀ x ∈ r.1 ++ r.2, x ∈ otherPeers)
      (getInlevel bc otherPeers) := by
  simp only [getInlevel]
  split_ifs
  · refine Misuses.bind (Q := (∀ x ∈ ·, x ∈ otherPeers)) ?_ fun l hl => ?_
    · refine (misuses_allKnown (by decide)).bind fun l hl => ?_
      exact forall_mem_append.mpr ⟨fun x hx => mem_of_mem_takeWhile hx, hl⟩
    · exact forall_mem_append.mpr ⟨hl, nofun⟩
  · refine (misuses_natterCheck (by decide)).bind fun _ _ => ?_
    refine misuses_addLeftForwardNodes.bind fun l hl => ?_
    refine misuses_addInnerForwardNodes.bind fun inner hinner => ?_
    exact forall_mem_append.mpr ⟨hl, hinner⟩
  · refine (misuses_natterCheck (by decide)).bind fun _ _ => ?_
    refine misuses_addRightForwardNodes.bind fun l hl => ?_
    refine misuses_addInnerForwardNodes.bind fun inner hinner => ?_
    exact forall_mem_append.mpr ⟨hl, hinner⟩
  · refine misuses_addLeftForwardNodes.bind fun l hl => ?_
    exact forall_mem_append.mpr ⟨hl, nofun⟩
  · refine misuses_addRightForwardNodes.bind fun l hl => ?_
    exact forall_mem_append.mpr ⟨hl, nofun⟩

theorem misuses_getChildren :
    Misuses P (fun r => ∀ x ∈ r.2, x ∈ otherPeers) (getChildren bc otherPeers) := by
  have hchildren : ∀ x ∈ addLeftAndRightmostChildren otherPeers bc.ownNode, x ∈ otherPeers :=
    fun x hx => mem_of_mem_takeWhile hx
  have hnone : ∀ x ∈ ([] : List LevelNumber), x ∈ otherPeers := nofun
  simp only [getChildren]
  split_ifs
  · exact hchildren
  · exact hchildren
  · refine (misuses_natterCheck (by decide)).bind fun _ _ => ?_
    dsimp only
    split_ifs
    all_goals first | exact hchildren | exact hnone
  · exact hchildren
  · show ∀ x ∈ (imperfectTreeAddChildren bc otherPeers).2, x ∈ otherPeers
    unfold imperfectTreeAddChildren
    split
    · split
      · exact hchildren
      · split_ifs
        · exact hnone
        · exact hchildren
    · exact hnone
  · exact hnone

theorem mem_ordered : x ∈ ordered s ↔ x ∈ s := Finset.mem_sort _

/-- A loop that remembers the last element with a property. -/
theorem exists_of_foldl_some {p : Option α → α → Bool} {l : List α} {found : Option α} {a : α}
    (h : l.foldl (fun o b => if p o b then some b else o) found = some a) :
    found = some a ∨ a ∈ l ∧ ∃ o, p o a = true := by
  induction l generalizing found with
  | nil => exact .inl h
  | cons b l ih =>
    rcases ih h with h | ⟨hmem, hp⟩
    · dsimp only at h
      split_ifs at h with hb
      · cases h
        exact .inr ⟨by simp, _, hb⟩
      · exact .inl h
    · exact .inr ⟨by simp [hmem], hp⟩

theorem getHigherAdjacent_eq_some (h : getHigherAdjacent bc otherPeers = some x) :
    x ∈ otherPeers ∧ x.level < bc.ownLevel - 1 := by
  unfold getHigherAdjacent at h
  split_ifs at h
  rcases exists_of_foldl_some h with h | ⟨hmem, _, hp⟩
  · cases h
  · simp only [Bool.and_eq_true, decide_eq_true_eq] at hp
    exact ⟨mem_ordered.mp hmem, hp.1.1⟩

theorem getDeeperAdjacent_eq_some (h : getDeeperAdjacent bc otherPeers = some x) :
    x ∈ otherPeers ∧ bc.ownLevel + 1 < x.level ∧ x.level ≤ bc.forwardingLimit.down := by
  unfold getDeeperAdjacent at h
  split_ifs at h
  rcases exists_of_foldl_some h with h | ⟨hmem, _, hp⟩
  · cases h
  · simp only [Bool.and_eq_true, decide_eq_true_eq] at hp
    exact ⟨mem_ordered.mp hmem, hp.1.1, hp.1.2⟩

end Boundaries

/-! ### The messages of a broadcast -/

section Messages

variable {bc : BroadcastInfo} {otherPeers : Finset LevelNumber} {x : LevelNumber} {α β : Type}

/-- The messages come from `own` and go to its peers. -/
def Sent (own : LevelNumber) (otherPeers : Finset LevelNumber) (out : List Envelope) : Prop :=
  ∀ e ∈ out, e.message.lastNode = own ∧ e.receiver ∈ otherPeers

/-- The action sends to peers and throws a misuse only if the node steps before
the begin. -/
def Forwards (bc : BroadcastInfo) (otherPeers : Finset LevelNumber) (y : Sending α) : Prop :=
  ∀ out, Sent bc.ownNode otherPeers out → Sent bc.ownNode otherPeers (y out).1 ∧
    Misuses (StepsBefore bc.ownNode bc.lastNode) (fun _ => True) (y out).2

theorem forwards_pure (a : α) : Forwards bc otherPeers (pure a) := fun _ h => ⟨h, trivial⟩

theorem Forwards.bind {y : Sending α} {f : α → Sending β} (hy : Forwards bc otherPeers y)
    (hf : ∀ a, Forwards bc otherPeers (f a)) : Forwards bc otherPeers (y >>= f) := by
  intro out hout
  have hsent := hy out hout
  cases hrun : y out with
  | mk out' r =>
    rw [hrun] at hsent
    cases r with
    | ok a =>
      rw [bind_run_ok hrun]
      exact hf a out' hsent.1
    | error e =>
      rw [bind_run_error hrun]
      exact hsent

theorem forwards_lift_bind {Q : α → Prop} {r : Except String α} {f : α → Sending β}
    (hr : Misuses (StepsBefore bc.ownNode bc.lastNode) Q r)
    (hf : ∀ a, Q a → Forwards bc otherPeers (f a)) :
    Forwards bc otherPeers (lift r >>= f) := by
  cases r with
  | ok a => exact hf a hr
  | error e => exact fun out hout => ⟨hout, hr⟩

theorem forwards_forEach {f : LevelNumber → Sending Unit} {l : List LevelNumber}
    (h : ∀ x ∈ l, Forwards bc otherPeers (f x)) : Forwards bc otherPeers (forEach l f) := by
  induction l with
  | nil => exact forwards_pure ()
  | cons x l ih =>
    rw [forall_mem_cons] at h
    exact h.1.bind fun _ => ih h.2

theorem forwards_sendMessage (hx : x ∈ otherPeers) (up down : ℕ) (inner : Bool) :
    Forwards bc otherPeers (sendMessage bc x up down inner) := by
  refine forwards_lift_bind (misuses_natterCheck (by decide)) fun _ _ out hout => ⟨?_, trivial⟩
  intro e he
  rcases mem_append.mp he with he | he
  · exact hout e he
  · obtain rfl := mem_singleton.mp he
    exact ⟨rfl, hx⟩

theorem forwards_sendToAdjacents : Forwards bc otherPeers (sendToAdjacents bc otherPeers) := by
  unfold sendToAdjacents
  split
  · exact fun out hout => ⟨hout, misuses_error (by decide)⟩
  · rename_i higher hhigher _
    refine Forwards.bind ?_ fun _ => forwards_pure _
    refine forwards_lift_bind (misuses_natterCheck (by decide)) fun _ _ => ?_
    refine forwards_lift_bind (misuses_natterCheck (by decide)) fun _ _ => ?_
    refine forwards_lift_bind (misuses_natterCheck (by decide)) fun _ _ => ?_
    exact (forwards_sendMessage (getHigherAdjacent_eq_some hhigher).1 _ _ _).bind fun _ =>
      forwards_pure _
  · rename_i deeper _ hdeeper
    refine Forwards.bind ?_ fun _ => forwards_pure _
    refine forwards_lift_bind (misuses_natterCheck (by decide)) fun _ _ => ?_
    refine forwards_lift_bind (misuses_natterCheck (by decide)) fun _ _ => ?_
    exact (forwards_sendMessage (getDeeperAdjacent_eq_some hdeeper).1 _ _ _).bind fun _ =>
      forwards_pure _
  · exact forwards_pure _

theorem forwards_sendToParent (border : ℕ) :
    Forwards bc otherPeers (sendToParent bc otherPeers border) := by
  unfold sendToParent
  split_ifs
  · exact forwards_pure _
  · exact forwards_lift_bind (misuses_natterCheck (by decide)) fun _ hparent =>
      forwards_sendMessage hparent _ _ _
  · exact forwards_pure _

theorem forwards_broadcast : Forwards bc otherPeers (broadcast bc otherPeers) := by
  refine forwards_sendToAdjacents.bind fun borders => ?_
  refine (forwards_sendToParent borders.1).bind fun _ => ?_
  refine Forwards.bind ?_ fun sent => ?_
  · refine forwards_lift_bind misuses_getChildren fun children hchildren => ?_
    refine Forwards.bind (forwards_forEach fun x hx => ?_) fun _ => forwards_pure _
    exact forwards_sendMessage (hchildren x hx) _ _ _
  · refine forwards_lift_bind misuses_getInlevel fun peers hpeers => ?_
    rw [forall_mem_append] at hpeers
    refine Forwards.bind (forwards_forEach fun x hx => ?_) fun _ => forwards_forEach fun x hx => ?_
    · exact forwards_sendMessage (hpeers.1 x hx) _ _ _
    · exact forwards_sendMessage (hpeers.2 x hx) _ _ _

end Messages

/-! ### The first left neighbors -/

theorem levelNumber_le_iff {l a b f : ℕ} : levelNumber l a f ≤ levelNumber l b f ↔ a ≤ b := by
  simp only [levelNumber, Prod.Lex.toLex_le_toLex, lt_irrefl, true_and, false_or, le_refl, and_true]
  omega

variable {x : LevelNumber}

section FirstNeighbors

variable {m N : ℕ} {p q : Pos}

theorem mem_lrt {l n : ℕ} (hn : n < 2 ^ 32) :
    x ∈ (levelNumber l n m).lrt ↔ ∃ d j, (1 ≤ d ∧ d < m) ∧ d * m ^ j ≤ n ∧
      x = levelNumber l (n - d * m ^ j) m :=
  mem_calculateLRT hn

theorem lrt_levelNumber_zero (l : ℕ) : (levelNumber l 0 m).lrt = ∅ := by
  refine Finset.eq_empty_of_forall_notMem fun x hx => ?_
  obtain ⟨d, j, ⟨hd, hdm⟩, hle, -⟩ := (mem_lrt (by decide)).mp hx
  have hpos : 0 < d * m ^ j := Nat.mul_pos hd (Nat.pow_pos (by omega))
  omega

/-- Up to the fanout every number is a distance. -/
theorem zero_mem_lrt {l n : ℕ} (hm : 2 ≤ m) (hm32 : m < 2 ^ 32) (hn : n ≠ 0) (hnm : n ≤ m) :
    levelNumber l 0 m ∈ (levelNumber l n m).lrt := by
  rw [mem_lrt (by omega)]
  by_cases heq : n = m
  · exact ⟨1, 1, by omega, by simp [heq], by simp [heq]⟩
  · exact ⟨n, 0, by omega, by simp, by simp⟩

/-- The numbers of a small tree. -/
theorem Complete.number_le (hm : 2 ≤ m) (hN : N ≤ 2 * m + 2) (h : Complete m N p) :
    p.number ≤ m := by
  obtain ⟨hvalid, hindex⟩ := h
  obtain ⟨l, n⟩ := p
  replace hvalid : n < m ^ l := hvalid
  replace hindex : levelStart m l + n < N := hindex
  show n ≤ m
  match l with
  | 0 =>
    rw [pow_zero] at hvalid
    omega
  | 1 =>
    rw [pow_one] at hvalid
    omega
  | 2 =>
    simp only [levelStart, pow_zero, pow_one] at hindex
    omega
  | l + 3 =>
    have hstart := levelStart_mono (m := m) (show 3 ≤ l + 3 by omega)
    have hsquare : 2 * m ≤ m ^ 2 := by
      rw [sq]
      exact Nat.mul_le_mul_right m hm
    simp only [levelStart, pow_zero, pow_one] at hstart hindex
    omega

theorem not_stepsBefore (hm : isFanoutValid m = true) (hq : q.number ≤ m) :
    ¬ StepsBefore (ofPos m p) (ofPos m q) := by
  rintro ⟨hlrt, hlevel, hmem, hfirst⟩
  have hm2 := isFanoutValid_iff.mp hm
  have hp0 : p.number ≠ 0 := by
    intro hzero
    rw [ofPos, hzero] at hlrt
    exact hlrt (lrt_levelNumber_zero _)
  have hq0 : q.number ≠ 0 := by
    intro hzero
    rw [ofPos, ofPos, hzero, lrt_levelNumber_zero] at hmem
    cases Finset.notMem_empty _ hmem
  have hzero := hfirst _ (zero_mem_lrt hm2.1 (by omega) hq0 hq)
  have hlevel : q.level = p.level := hlevel
  rw [hlevel] at hzero
  have hle := levelNumber_le_iff.mp hzero
  omega

theorem stepsBefore_second (hm : isFanoutValid m = true) :
    StepsBefore (levelNumber 2 1 m) (levelNumber 2 (m + 1) m) := by
  have hm2 := isFanoutValid_iff.mp hm
  refine ⟨?_, rfl, ?_, fun x hx => ?_⟩
  · exact Finset.ne_empty_of_mem (zero_mem_lrt hm2.1 (by omega) one_ne_zero (by omega))
  · exact (mem_lrt (by omega)).mpr ⟨1, 1, by omega, by simp, by simp⟩
  · obtain ⟨d, j, ⟨hd, hdm⟩, hle, rfl⟩ := (mem_lrt (by omega)).mp hx
    refine levelNumber_le_iff.mpr ?_
    -- no distance is `m + 1`
    have hne : d * m ^ j ≠ m + 1 := by
      cases j with
      | zero => rw [pow_zero]; omega
      | succ j =>
        intro heq
        have hdvd : m ∣ m + 1 := heq ▸ Dvd.intro_left (d * m ^ j) (by rw [pow_succ]; ring)
        have := Nat.le_of_dvd one_pos ((Nat.dvd_add_right (dvd_refl m)).mp hdvd)
        omega
    show 1 ≤ m + 1 - d * m ^ j
    omega

end FirstNeighbors

/-! ### Broadcasts in small trees -/

section Trees

variable {m N : ℕ} {p q : Pos} {x : LevelNumber}

theorem le_levelStart (hm : 0 < m) (l : ℕ) : l ≤ levelStart m l := by
  induction l with
  | zero => exact Nat.zero_le _
  | succ l ih =>
    have hpos : 0 < m ^ l := Nat.pow_pos hm
    simp only [levelStart]
    omega

theorem mem_positions (hm : 0 < m) : p ∈ positions m N ↔ Complete m N p := by
  unfold positions
  rw [mem_filter, decide_eq_true_eq]
  refine and_iff_right_of_imp fun h => ?_
  have hlevel := le_levelStart hm p.level
  have hindex : levelStart m p.level + p.number < N := h.2
  simp only [mem_flatMap, mem_map, mem_range]
  exact ⟨p.level, by omega, p.number, by omega, rfl⟩

theorem mem_peersAt (hm : 0 < m) :
    x ∈ peersAt m N (ofPos m p) ↔ ∃ q, Complete m N q ∧ Knows m N p q ∧ ofPos m q = x := by
  unfold peersAt
  simp only [mem_toFinset, mem_map, mem_filter, decide_eq_true_eq,
    mem_positions hm, and_assoc]
  rfl

/-- A message between two nodes of the tree. -/
def Envelope.InTree (m N : ℕ) (e : Envelope) : Prop :=
  (∃ p, Complete m N p ∧ ofPos m p = e.receiver) ∧
    ∃ p, Complete m N p ∧ ofPos m p = e.message.lastNode

theorem inTree_of_sent (hm : 0 < m) (hp : Complete m N p) {out : List Envelope}
    (h : Sent (ofPos m p) (peersAt m N (ofPos m p)) out) : ∀ e ∈ out, e.InTree m N := by
  intro e he
  obtain ⟨hlast, hreceiver⟩ := h e he
  obtain ⟨q, hq, -, heq⟩ := (mem_peersAt hm).mp hreceiver
  exact ⟨⟨q, hq, heq⟩, p, hp, hlast.symm⟩

/-- Neither the publisher nor a node that receives a message in any order of
arrivals steps out of a set of routing table neighbors. -/
def SafeBroadcast (m N : ℕ) (publisher : LevelNumber) : Prop :=
  (∀ e ∈ iteratorMisuse, (publish publisher (peersAt m N publisher) []).2 ≠ .error e) ∧
    ∀ s, Reachable (deliver m N) (fun _ _ => True)
        (publish publisher (peersAt m N publisher) []).1 s →
      ∀ env ∈ s, ∀ e ∈ iteratorMisuse, (arrive m N env).2 ≠ .error e

theorem forwards_publish : Sent x (peersAt m N x) (publish x (peersAt m N x) []).1 ∧
    Misuses (StepsBefore x x) (fun _ => True) (publish x (peersAt m N x) []).2 := by
  unfold publish
  exact forwards_broadcast [] nofun

theorem misuses_createBroadcastInfo {P : Prop} {msg : MinhcastMessage} :
    Misuses P (fun bc => bc.ownNode = x ∧ bc.lastNode = msg.lastNode)
      (createBroadcastInfo x msg) := by
  refine (misuses_natterCheck (by decide)).bind fun _ _ => ?_
  exact (misuses_natterCheck (by decide)).bind fun _ _ => ⟨rfl, rfl⟩

theorem forwards_arrive (m N : ℕ) (env : Envelope) :
    Sent env.receiver (peersAt m N env.receiver) (arrive m N env).1 ∧
      Misuses (StepsBefore env.receiver env.message.lastNode) (fun _ => True)
        (arrive m N env).2 := by
  unfold arrive processMessage
  split_ifs
  · exact ⟨nofun, trivial⟩
  · have hbc : Misuses (StepsBefore env.receiver env.message.lastNode) _
        (createBroadcastInfo env.receiver env.message) := misuses_createBroadcastInfo
    cases hcreate : createBroadcastInfo env.receiver env.message with
    | ok bc =>
      rw [hcreate] at hbc
      rw [← hbc.1, ← hbc.2]
      exact forwards_broadcast [] nofun
    | error e =>
      rw [hcreate] at hbc
      exact ⟨nofun, hbc⟩

theorem Misuses.noMisuse {α : Type} {P : Prop} {Q : α → Prop} {r : Except String α}
    (h : Misuses P Q r) (hP : ¬ P) : ∀ e ∈ iteratorMisuse, r ≠ .error e := by
  rintro e he rfl
  exact hP (h he)

theorem safeBroadcast_of_le (hm : isFanoutValid m = true) (hN : N ≤ 2 * m + 2)
    (hp : Complete m N p) : SafeBroadcast m N (ofPos m p) := by
  have hm2 := isFanoutValid_iff.mp hm
  have hsafe : ∀ p q, Complete m N q → ¬ StepsBefore (ofPos m p) (ofPos m q) := fun p q hq =>
    not_stepsBefore hm (Complete.number_le hm2.1 hN hq)
  refine ⟨forwards_publish.2.noMisuse (hsafe p p hp), fun s hs => ?_⟩
  have hall : ∀ env ∈ s, env.InTree m N := by
    refine hs.invariant (I := fun s => ∀ env ∈ s, env.InTree m N)
      (inTree_of_sent (by omega) hp forwards_publish.1) fun s env s' hs _ hstep => ?_
    unfold deliver at hstep
    split_ifs at hstep with henv
    cases hstep
    intro env' henv'
    rcases mem_append.mp henv' with h | h
    · exact hs env' (mem_of_mem_erase h)
    · obtain ⟨⟨q, hq, hreceiver⟩, -⟩ := hs env henv
      refine inTree_of_sent (by omega) hq ?_ env' h
      rw [hreceiver]
      exact (forwards_arrive m N env).1
  intro env henv
  obtain ⟨⟨q, -, hreceiver⟩, r, hr, hlast⟩ := hall env henv
  refine (forwards_arrive m N env).2.noMisuse ?_
  rw [← hreceiver, ← hlast]
  exact hsafe q r hr

end Trees

/-! ### A broadcast in larger trees

The node `m + 1` of the second level publishes.  Its message to the node 1 of
the level may also go down there, unless the publisher has children. -/

section LargerTrees

variable {m N : ℕ} {bc : BroadcastInfo} {otherPeers : Finset LevelNumber}
  {x : LevelNumber} {l : List LevelNumber} {out : List Envelope}

theorem sendMessage_run {up down : ℕ} {inner : Bool} (h : up ≤ down) :
    sendMessage bc x up down inner out =
      (out ++ [⟨x, bc.initialNode, bc.ownNode, bc.currentRound, ⟨up, down⟩, inner⟩], .ok ()) := by
  unfold sendMessage
  rw [natterCheck_of h]
  rfl

theorem forEach_sendMessage {up : ℕ} {down : LevelNumber → ℕ} {inner : Bool}
    (h : ∀ x ∈ l, up ≤ down x) :
    forEach l (fun x => sendMessage bc x up (down x) inner) out =
      (out ++ l.map fun x => ⟨x, bc.initialNode, bc.ownNode, bc.currentRound, ⟨up, down x⟩, inner⟩,
        .ok ()) := by
  induction l generalizing out with
  | nil => simp
  | cons x l ih =>
    rw [forall_mem_cons] at h
    rw [forEach_cons, bind_run_ok (sendMessage_run h.1), ih h.2]
    simp

variable (out)

theorem sendToDeeperAdjacent_run (hlevel : bc.ownLevel + 1 < x.level)
    (hmax : x.level ≤ maxLevelNumber) :
    ∃ out' border, sendToDeeperAdjacent bc x out = (out', .ok border) ∧ bc.ownLevel < border := by
  simp only [sendToDeeperAdjacent, natterCheck_of hlevel, lift_ok_bind_run]
  rw [natterCheck_of (by omega), lift_ok_bind_run, bind_run_ok (sendMessage_run (by omega))]
  exact ⟨_, _, rfl, by omega⟩

theorem sendToAdjacents_run (hhigher : getHigherAdjacent bc otherPeers = none)
    (hdown : bc.forwardingLimit.down ≤ maxLevelNumber)
    (hlevel : bc.ownLevel < bc.forwardingLimit.down) :
    ∃ out' border, sendToAdjacents bc otherPeers out = (out', .ok (bc.forwardingLimit.up, border)) ∧
      bc.ownLevel < border := by
  unfold sendToAdjacents
  rw [hhigher]
  cases hdeeper : getDeeperAdjacent bc otherPeers with
  | none => exact ⟨out, _, rfl, hlevel⟩
  | some x =>
    obtain ⟨-, hbelow, hlimit⟩ := getDeeperAdjacent_eq_some hdeeper
    obtain ⟨out', border, hrun, hborder⟩ :=
      sendToDeeperAdjacent_run out hbelow (hlimit.trans hdown)
    exact ⟨out', border, by dsimp only; rw [bind_run_ok hrun]; rfl, hborder⟩

theorem sendToParent_run {border : ℕ} (hborder : border ≤ bc.ownLevel - 1)
    (hparent : levelNumber (bc.ownLevel - 1) (bc.ownNumber / bc.ownFanout) bc.ownFanout ∈
      otherPeers) :
    ∃ out', sendToParent bc otherPeers border out = (out', .ok ()) := by
  unfold sendToParent
  split_ifs
  · exact ⟨out, rfl⟩
  · simp only [natterCheck_of hparent, lift_ok_bind_run]
    exact ⟨_, sendMessage_run hborder⟩
  · exact ⟨out, rfl⟩

theorem sendToChildren_run {border : ℕ} {b : Bool} (h : getChildren bc otherPeers = .ok (b, l))
    (hborder : l ≠ [] → bc.ownLevel < border) :
    ∃ out', sendToChildren bc otherPeers border out = (out', .ok (b, !l.isEmpty)) := by
  have hlimit : ∀ x ∈ l, bc.ownLevel + 1 ≤ border := fun x hx =>
    hborder (ne_nil_of_mem hx)
  unfold sendToChildren
  rw [h, lift_ok_bind_run]
  dsimp only
  rw [bind_run_ok (forEach_sendMessage hlimit)]
  exact ⟨_, rfl⟩

/-- A neighbor on the level may go down only if nobody else does. -/
theorem exists_mem_sendToInlevel (h : getInlevel bc otherPeers = .ok (l, []))
    (hdown : bc.ownLevel ≤ min bc.forwardingLimit.down maxLevelNumber) (other sent : Bool)
    (hx : x ∈ l) :
    ∃ down, ⟨x, bc.initialNode, bc.ownNode, bc.currentRound, ⟨bc.ownLevel, down⟩, false⟩ ∈
        (sendToInlevel bc otherPeers other sent out).1 ∧
      bc.ownLevel ≤ down ∧ (bc.ownLevel < down → sent = false) := by
  set border := if other || sent then bc.ownLevel
    else min bc.forwardingLimit.down maxLevelNumber with hborder
  set down := fun y : LevelNumber => if y.number < bc.ownNumber then border else bc.ownLevel
    with hdownEq
  have hle : ∀ y ∈ l, bc.ownLevel ≤ down y := by
    intro y _
    simp only [hdownEq, hborder]
    split_ifs <;> omega
  refine ⟨down x, ?_, hle x hx, fun hlt => ?_⟩
  · have hrun : sendToInlevel bc otherPeers other sent out = (out ++ l.map fun y =>
        ⟨y, bc.initialNode, bc.ownNode, bc.currentRound, ⟨bc.ownLevel, down y⟩, false⟩,
        .ok ()) := by
      unfold sendToInlevel
      rw [h, lift_ok_bind_run]
      exact bind_run_ok (forEach_sendMessage hle)
    rw [hrun]
    exact mem_append_right _ (mem_map_of_mem hx)
  · by_contra hsent
    rw [Bool.not_eq_false] at hsent
    simp only [hdownEq, hborder, hsent, Bool.or_true, if_true, ite_self, lt_irrefl] at hlt

theorem getInlevel_of_initial (hinitial : bc.initialNode = bc.ownNode)
    (hlrt : ∀ y ∈ bc.ownNode.lrt, y ∈ otherPeers) :
    getInlevel bc otherPeers =
      .ok (addRRT bc.ownNode otherPeers ++ ordered bc.ownNode.lrt, []) := by
  have hknown : addLRT bc.ownNode otherPeers = .ok (ordered bc.ownNode.lrt) :=
    allKnown_of_forall fun y hy => hlrt y (mem_ordered.mp hy)
  have hsender : bc.isInitialSender = true := decide_eq_true hinitial
  simp only [getInlevel, hsender, Bool.true_or, if_true, addRoutingTableToReceiver, hknown]
  rfl

/-- A node that knows its parent and its left neighbors, and nobody far above,
sends what it publishes to all of them. -/
theorem exists_mem_publish (own : LevelNumber) (hlevel : own.level < maxLevelNumber)
    (hhigher : ∀ y ∈ otherPeers, own.level - 1 ≤ y.level)
    (hparent : levelNumber (own.level - 1) (own.number / own.fanout) own.fanout ∈ otherPeers)
    (hlrt : ∀ y ∈ own.lrt, y ∈ otherPeers) (hx : x ∈ own.lrt) :
    ∃ down, ⟨x, own, own, 1, ⟨own.level, down⟩, false⟩ ∈ (publish own otherPeers []).1 ∧
      own.level ≤ down ∧ (own.level < down → own.childAt 0 ∉ otherPeers) := by
  unfold publish
  set bc : BroadcastInfo := ⟨own, own, own, ⟨0, maxLevelNumber⟩, 1⟩ with hbc
  have hnone : getHigherAdjacent bc otherPeers = none := by
    refine Option.eq_none_iff_forall_ne_some.mpr fun y hy => ?_
    obtain ⟨hmem, hlt⟩ := getHigherAdjacent_eq_some hy
    exact absurd (hhigher y hmem) (not_le.mpr hlt)
  have hchildren : getChildren bc otherPeers =
      .ok (false, addLeftAndRightmostChildren otherPeers own) := by
    simp [getChildren, BroadcastInfo.isInitialSender, hbc]
  have hinlevel : getInlevel bc otherPeers =
      .ok (addRRT own otherPeers ++ ordered own.lrt, []) := getInlevel_of_initial rfl hlrt
  obtain ⟨out₁, border, hadjacents, hborder⟩ := sendToAdjacents_run [] hnone le_rfl hlevel
  obtain ⟨out₂, hparentRun⟩ := sendToParent_run out₁ (Nat.zero_le (bc.ownLevel - 1)) hparent
  obtain ⟨out₃, hchildrenRun⟩ := sendToChildren_run out₂ hchildren fun _ => hborder
  obtain ⟨down, hmem, hle, hlast⟩ := exists_mem_sendToInlevel out₃ hinlevel
    (le_min hlevel.le hlevel.le) false (!(addLeftAndRightmostChildren otherPeers own).isEmpty)
    (mem_append_right _ (mem_ordered.mpr hx))
  refine ⟨down, ?_, hle, fun hlt hchild => ?_⟩
  · unfold broadcast
    rw [bind_run_ok hadjacents]
    dsimp only
    rw [bind_run_ok hparentRun, bind_run_ok hchildrenRun]
    exact hmem
  · have hempty := hlast hlt
    simp [addLeftAndRightmostChildren, hchild] at hempty

theorem exists_getChildren (otherPeers : Finset LevelNumber)
    (habove : bc.receivedDirectlyFromAbove = false) :
    ∃ b l, getChildren bc otherPeers = .ok (b, l) := by
  simp only [getChildren, habove, Bool.false_and, Bool.false_eq_true, if_false]
  split_ifs
  all_goals exact ⟨_, _, rfl⟩

/-- What a node does before it forwards along its level does not fail if the
message has come along the level. -/
theorem broadcast_of_getInlevel {e : String} (hlevel : bc.lastLevel = bc.ownLevel)
    (hup : bc.forwardingLimit.up = bc.ownLevel) (hsender : bc.initialNode ≠ bc.ownNode)
    (hdeeper : bc.ownLevel < bc.forwardingLimit.down →
      ∀ y ∈ otherPeers, y.level ≤ bc.ownLevel + 1)
    (h : getInlevel bc otherPeers = .error e) : (broadcast bc otherPeers out).2 = .error e := by
  have hhigher : getHigherAdjacent bc otherPeers = none := by
    simp [getHigherAdjacent, BroadcastInfo.allowedUpForward, hup]
  have hnone : getDeeperAdjacent bc otherPeers = none := by
    refine Option.eq_none_iff_forall_ne_some.mpr fun y hy => ?_
    obtain ⟨hmem, hbelow, hlimit⟩ := getDeeperAdjacent_eq_some hy
    have hnear := hdeeper (by omega) y hmem
    omega
  have hadjacents : sendToAdjacents bc otherPeers out =
      (out, .ok (bc.forwardingLimit.up, bc.forwardingLimit.down)) := by
    unfold sendToAdjacents
    rw [hhigher, hnone]
    rfl
  have hparent : sendToParent bc otherPeers bc.forwardingLimit.up out = (out, .ok ()) := by
    unfold sendToParent
    split_ifs
    · rfl
    · omega
    · rfl
  have hchildren : ∃ b l, getChildren bc otherPeers = .ok (b, l) ∧
      (l ≠ [] → bc.ownLevel < bc.forwardingLimit.down) := by
    by_cases hdown : bc.ownLevel < bc.forwardingLimit.down
    · have habove : bc.receivedDirectlyFromAbove = false := decide_eq_false (by omega)
      obtain ⟨b, l, hok⟩ := exists_getChildren otherPeers habove
      exact ⟨b, l, hok, fun _ => hdown⟩
    · have hinitial : bc.isInitialSender = false := decide_eq_false hsender
      have hallowed : bc.allowedDownForward = false := decide_eq_false hdown
      exact ⟨false, [], by simp [getChildren, hinitial, hallowed], fun h => absurd rfl h⟩
  obtain ⟨b, l, hchildren, hborder⟩ := hchildren
  obtain ⟨out', hchildrenRun⟩ := sendToChildren_run out hchildren hborder
  unfold broadcast
  rw [bind_run_ok hadjacents]
  dsimp only
  rw [bind_run_ok hparent, bind_run_ok hchildrenRun]
  dsimp only
  unfold sendToInlevel
  rw [h]
  rfl

theorem getInlevel_of_stepsBefore (hsender : bc.initialNode ≠ bc.ownNode)
    (hnumber : bc.ownNumber < bc.lastNumber) (h : StepsBefore bc.ownNode bc.lastNode) :
    getInlevel bc otherPeers = .error beginDecremented := by
  have hinitial : bc.isInitialSender = false := decide_eq_false hsender
  have hlevel : bc.lastLevel = bc.ownLevel := h.2.1
  simp only [getInlevel, hinitial, BroadcastInfo.receivedFromAbove,
    BroadcastInfo.receivedDirectlyFromAbove, hlevel, lt_irrefl, decide_false, Bool.false_or,
    Bool.false_and, Bool.false_eq_true, if_false, Nat.succ_ne_self, hnumber, if_true,
    addLeftForwardNodes_of_stepsBefore h]
  rfl

/-- A message along the level that arrives at the first left neighbor of its
sender. -/
theorem processMessage_of_stepsBefore {own : LevelNumber} {msg : MinhcastMessage}
    (hinner : msg.isInnerForward = false) (hlastFanout : own.fanout = msg.lastNode.fanout)
    (hinitialFanout : own.fanout = msg.initialNode.fanout) (hsender : msg.initialNode ≠ own)
    (hup : msg.forwardingLimit.up = own.level) (hnumber : own.number < msg.lastNode.number)
    (hdeeper : own.level < msg.forwardingLimit.down → ∀ y ∈ otherPeers, y.level ≤ own.level + 1)
    (h : StepsBefore own msg.lastNode) :
    (processMessage own otherPeers msg out).2 = .error beginDecremented := by
  have hbc : createBroadcastInfo own msg =
      .ok ⟨own, msg.lastNode, msg.initialNode, msg.forwardingLimit, u32 (msg.round + 1)⟩ := by
    unfold createBroadcastInfo
    rw [natterCheck_of hlastFanout, natterCheck_of hinitialFanout]
    rfl
  unfold processMessage
  rw [hinner, hbc]
  exact broadcast_of_getInlevel out h.2.1 hup hsender hdeeper
    (getInlevel_of_stepsBefore hsender hnumber h)

end LargerTrees

section SecondLevel

variable {m N : ℕ} (hm : isFanoutValid m = true) (hN : 2 * m + 2 < N)
include hm hN

theorem complete_second : Complete m N ⟨2, m + 1⟩ := by
  have hm2 := isFanoutValid_iff.mp hm
  have hsquare : 2 * m ≤ m ^ 2 := by
    rw [sq]
    exact Nat.mul_le_mul_right m hm2.1
  refine ⟨?_, ?_⟩
  · show m + 1 < m ^ 2
    omega
  · simp only [Pos.index, levelStart, pow_zero, pow_one]
    omega

/-- The parent is between the node and the root. -/
theorem not_knows_root : ¬ Knows m N ⟨2, m + 1⟩ ⟨0, 0⟩ := by
  have hm2 := isFanoutValid_iff.mp hm
  have hparent : (⟨1, 1⟩ : Pos) ∈ positions m N :=
    (mem_positions (by omega)).mpr ((complete_second hm hN).of_level_lt (by simp [Pos.Valid]; omega)
      (by simp))
  have hchild : (⟨2, m + 1⟩ : Pos) = Pos.child m ⟨1, 1⟩ 1 := by simp [Pos.child]
  have hinner : (⟨1, 1⟩ : Pos) = Pos.child m ⟨0, 0⟩ 1 := by simp [Pos.child]
  rintro ⟨-, ⟨-, h⟩ | ⟨h, -⟩ | h | ⟨h, -⟩ | ⟨h, -⟩⟩
  · simp [Pos.parent] at h
  · simp at h
  · obtain ⟨hleft, hright⟩ := h _ hparent
    rcases Nat.lt_or_ge 1 (half m) with hhalf | hhalf
    · refine hleft ⟨?_, ?_⟩
      · rw [hchild]
        exact (child_before_iff hm2.1 _ 1).mpr hhalf
      · rw [hinner]
        exact (child_before_iff hm2.1 _ 1).mpr hhalf
    · refine hright ⟨?_, ?_⟩
      · rw [hinner]
        exact (before_child_iff hm2.1 _ 1).mpr hhalf
      · rw [hchild]
        exact (before_child_iff hm2.1 _ 1).mpr hhalf
  · simp at h
  · simp at h

theorem one_le_level (hx : x ∈ peersAt m N (ofPos m ⟨2, m + 1⟩)) : 1 ≤ x.level := by
  have hm2 := isFanoutValid_iff.mp hm
  obtain ⟨⟨l, n⟩, hq, hknows, rfl⟩ := (mem_peersAt (by omega)).mp hx
  by_contra hzero
  obtain rfl : l = 0 := by
    replace hzero : ¬ 1 ≤ l := hzero
    omega
  have hn : n < m ^ 0 := hq.1
  obtain rfl : n = 0 := by
    rw [pow_zero] at hn
    omega
  exact not_knows_root hm hN hknows

theorem parent_mem_peersAt :
    levelNumber 1 ((m + 1) / m) m ∈ peersAt m N (ofPos m ⟨2, m + 1⟩) := by
  have hm2 := isFanoutValid_iff.mp hm
  refine (mem_peersAt (by omega)).mpr ⟨Pos.parent m ⟨2, m + 1⟩, ?_, ?_, rfl⟩
  · exact (complete_second hm hN).parent (by simp)
  · exact ⟨by simp [Pos.parent], .inl ⟨by simp, rfl⟩⟩

theorem lrt_subset_peersAt (hx : x ∈ (ofPos m ⟨2, m + 1⟩).lrt) :
    x ∈ peersAt m N (ofPos m ⟨2, m + 1⟩) := by
  have hm2 := isFanoutValid_iff.mp hm
  have hvalid : m + 1 < m ^ 2 := (complete_second hm hN).1
  obtain ⟨d, j, ⟨hd, hdm⟩, hle, rfl⟩ := (mem_lrt (show m + 1 < 2 ^ 32 by omega)).mp hx
  have hj : j < 2 := by
    by_contra hlarge
    have hpow : m ^ 2 ≤ m ^ j := Nat.pow_le_pow_right (by omega) (by omega)
    have hmul : m ^ j ≤ d * m ^ j := Nat.le_mul_of_pos_left _ hd
    omega
  have hpos : 0 < d * m ^ j := Nat.mul_pos hd (Nat.pow_pos (by omega))
  refine (mem_peersAt (by omega)).mpr ⟨⟨2, m + 1 - d * m ^ j⟩, ?_, ?_, rfl⟩
  · exact (complete_second hm hN).of_number_le (Nat.sub_le ..)
  · have hne : (⟨2, m + 1⟩ : Pos) ≠ ⟨2, m + 1 - d * m ^ j⟩ := by
      simp only [ne_eq, Pos.mk.injEq, true_and]
      omega
    refine ⟨hne, .inr (.inr (.inr (.inl ⟨rfl, hne, j, ?_, d, ?_, .inr ?_⟩)))⟩
    · exact Finset.mem_range.mpr (by show j < 3; omega)
    · exact Finset.mem_range.mpr hdm
    · exact Nat.sub_add_cancel hle

omit hN in
theorem childAt_second :
    (ofPos m ⟨2, m + 1⟩).childAt 0 = ofPos m (Pos.child m ⟨2, m + 1⟩ 0) := by
  have hm2 := isFanoutValid_iff.mp hm
  have hsmall : (m + 1) * m ≤ 256 * 255 := Nat.mul_le_mul (by omega) hm2.2
  have hnumber : u32 ((m + 1) * m + 0) = (m + 1) * m + 0 := Nat.mod_eq_of_lt (by omega)
  show levelNumber (u32 3) (u32 ((m + 1) * m + 0)) m = levelNumber 3 ((m + 1) * m + 0) m
  rw [hnumber]
  rfl

/-- If the node has no child, no node is below the third level. -/
theorem level_le_three {p : Pos}
    (hchild : (ofPos m ⟨2, m + 1⟩).childAt 0 ∉ peersAt m N (ofPos m ⟨2, m + 1⟩))
    (hx : x ∈ peersAt m N (ofPos m p)) : x.level ≤ 3 := by
  have hm2 := isFanoutValid_iff.mp hm
  obtain ⟨q, hq, -, rfl⟩ := (mem_peersAt (by omega)).mp hx
  by_contra hdeep
  have hcomplete : Complete m N (Pos.child m ⟨2, m + 1⟩ 0) :=
    hq.of_level_lt ((complete_second hm hN).1.child (by omega)) (not_le.mp hdeep)
  rw [childAt_second hm] at hchild
  refine hchild ((mem_peersAt (by omega)).mpr ⟨_, hcomplete, ⟨?_, .inr (.inl ⟨?_, ?_⟩)⟩, rfl⟩)
  · simp [Pos.child]
  · simp [Pos.child]
  · exact Pos.parent_child (by omega) _ (by omega)

theorem not_safeBroadcast_second : ¬ SafeBroadcast m N (ofPos m ⟨2, m + 1⟩) := by
  rintro ⟨-, h⟩
  have hm2 := isFanoutValid_iff.mp hm
  have hsteps : StepsBefore (ofPos m ⟨2, 1⟩) (ofPos m ⟨2, m + 1⟩) := stepsBefore_second hm
  obtain ⟨down, hmem, -, hlast⟩ := exists_mem_publish (ofPos m ⟨2, m + 1⟩)
    (show 2 < maxLevelNumber by decide) (fun y hy => one_le_level hm hN hy)
    (parent_mem_peersAt hm hN) (fun y hy => lrt_subset_peersAt hm hN hy) hsteps.2.2.1
  refine h _ .refl _ hmem beginDecremented (by decide) ?_
  have hne : ofPos m ⟨2, m + 1⟩ ≠ ofPos m ⟨2, 1⟩ := by
    intro heq
    have hnumber : m + 1 = 1 := congrArg LevelNumber.number heq
    omega
  refine processMessage_of_stepsBefore [] rfl rfl rfl hne rfl (show 1 < m + 1 by omega) ?_ hsteps
  exact fun hdown y hy => level_le_three hm hN (hlast hdown) hy

end SecondLevel

/-- For every fanout, the broadcasts of a complete tree are safe exactly if the
tree does not reach the node `m + 1` of its second level. -/
theorem safeBroadcast_iff {m : ℕ} (hm : isFanoutValid m = true) (N : ℕ) :
    (∀ p, Complete m N p → SafeBroadcast m N (ofPos m p)) ↔ N ≤ 2 * m + 2 := by
  constructor
  · intro h
    by_contra hN
    have hlarge : 2 * m + 2 < N := by omega
    exact not_safeBroadcast_second hm hlarge (h _ (complete_second hm hlarge))
  · exact fun hN p hp => safeBroadcast_of_le hm hN hp

theorem safeBroadcast_iff_binary :
    (∀ p, Complete 2 6 p → SafeBroadcast 2 6 (ofPos 2 p)) ↔ 6 ≤ 2 * 2 + 2 :=
  safeBroadcast_iff (by decide) 6

/-- In the binary tree with seven nodes the last node publishes a message. -/
theorem lastOfSeven_not_safeBroadcast :
    Complete 2 7 ⟨2, 3⟩ ∧ ¬ SafeBroadcast 2 7 (ofPos 2 ⟨2, 3⟩) :=
  ⟨by decide, not_safeBroadcast_second (by decide) (by decide)⟩

end Sola.Natter
