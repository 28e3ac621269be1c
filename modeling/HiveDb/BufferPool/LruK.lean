import HiveDb.Misc.Config
import Mathlib.Algebra.GroupWithZero.Nat
import Mathlib.Data.Int.Order.Basic
import Mathlib.Data.List.GetD
import Mathlib.Order.Basic
import Mathlib.Order.Nat
import Std.Data.TreeMap.Lemmas

/-!
# The replacer

`lru_k` keeps, for each frame it tracks, the timestamps of its accesses and a
flag that says whether it may be evicted.  It evicts the first evictable frame
with fewer than `k` accesses, and when there is none an evictable frame whose
access at distance `k - 1` from its latest one is the oldest.
-/

namespace HiveDb

open HiveDb.Lib

structure LruKNode where
  history : List Nat
  isEvictable : Bool
  deriving DecidableEq, Repr

/-- `lru_k`; the constructor accepts neither a negative `k` nor a negative `size`. -/
structure LruK where
  k : Nat
  size : Nat
  currentNodes : Std.TreeMap FrameId LruKNode
  currentTimestamp : Nat

namespace LruK

/-- The constructor. -/
def new (k : Int) (size : FrameId) : Except Failure LruK :=
  if k < 0 ∨ size < 0 then throw (.invalidArgument "k or size must be positive")
  else return ⟨k.toNat, size.toNat, ∅, 0⟩

/-- The check each operation on one frame begins with. -/
def checkId (replacer : LruK) (id : FrameId) (what : String) : Except Failure Unit :=
  if id ≥ replacer.size then throw (.invalidArgument what) else return ()

/-- The tracked nodes with one node replaced or added. -/
def putNode (replacer : LruK) (id : FrameId) (node : LruKNode) : LruK :=
  { replacer with currentNodes := replacer.currentNodes.insert id node }

def eraseNode (replacer : LruK) (id : FrameId) : LruK :=
  { replacer with currentNodes := replacer.currentNodes.erase id }

/-- `m_current_timestamp++` -/
def tick (replacer : LruK) : LruK :=
  { replacer with currentTimestamp := replacer.currentTimestamp + 1 }

/-- The replacer after an access to a frame. -/
def accessed (replacer : LruK) (id : FrameId) : LruK :=
  match replacer.currentNodes[id]? with
  | none => (replacer.putNode id ⟨[replacer.currentTimestamp], true⟩).tick
  | some node =>
      let history := node.history ++ [replacer.currentTimestamp]
      (replacer.putNode id { node with history := history }).tick

def recordAccess (id : FrameId) (replacer : LruK) : Except Failure LruK := do
  replacer.checkId id "record_access: id is out of range"
  return replacer.accessed id

/-- The replacer after the flag of a frame has been set, if the frame is tracked. -/
def flagged (replacer : LruK) (id : FrameId) (evictable : Bool) : LruK :=
  match replacer.currentNodes[id]? with
  | none => replacer
  | some node => replacer.putNode id { node with isEvictable := evictable }

def setEvictable (id : FrameId) (evictable : Bool) (replacer : LruK) : Except Failure LruK := do
  replacer.checkId id "set_evictable: id is out of range"
  return replacer.flagged id evictable

/-- The condition of the trivial eviction. -/
def isShort (replacer : LruK) (node : LruKNode) : Bool :=
  node.isEvictable && node.history.length < replacer.k

/--
One round of the search among full histories; `best` holds `max_distance` and
`id`.  A frame that comes here and may be evicted has at least `k` accesses.
-/
def searchRound (replacer : LruK) (best : Nat × FrameId) (entry : FrameId × LruKNode) :
    Except Failure (Nat × FrameId) :=
  if ¬ entry.2.isEvictable then return best
  else
    match entry.2.history[entry.2.history.length + 1 - replacer.k]? with
    | none => throw .undefined
    | some oldTimestamp =>
        let diff := replacer.currentTimestamp - oldTimestamp
        if diff > best.1 then return (diff, entry.1) else return best

def evict (replacer : LruK) : Except Failure (Option FrameId × LruK) := do
  let nodes := replacer.currentNodes.toList
  if nodes.isEmpty then return (none, replacer)
  match nodes.find? (fun entry => replacer.isShort entry.2) with
  | some (frameId, _) => return (some frameId, replacer.eraseNode frameId)
  | none =>
      let best ← nodes.foldlM replacer.searchRound (0, invalidFrameId)
      if best.2 = invalidFrameId then return (none, replacer)
      return (some best.2, replacer.eraseNode best.2)

/-- The replacer after a frame has been removed, if it is tracked and evictable. -/
def removed (replacer : LruK) (id : FrameId) : LruK :=
  match replacer.currentNodes[id]? with
  | none => replacer
  | some node => if node.isEvictable then replacer.eraseNode id else replacer

def remove (id : FrameId) (replacer : LruK) : Except Failure LruK := do
  replacer.checkId id "remove: id is out of range"
  return replacer.removed id

/-- `size()`: how many of the tracked frames may be evicted. -/
def evictableSize (replacer : LruK) : Nat :=
  (replacer.currentNodes.toList.map fun entry => if entry.2.isEvictable then 1 else 0).sum

/-! ## Operations on frames in range -/

section Operations

variable {replacer : LruK} {id other : FrameId} {node : LruKNode}

theorem checkId_of_lt (hlt : id < replacer.size) (what : String) :
    replacer.checkId id what = .ok () := if_neg (Int.not_le.mpr hlt)

theorem recordAccess_of_lt (hlt : id < replacer.size) :
    recordAccess id replacer = .ok (replacer.accessed id) := by
  rw [recordAccess, checkId_of_lt hlt]
  rfl

theorem setEvictable_of_lt (hlt : id < replacer.size) (evictable : Bool) :
    setEvictable id evictable replacer = .ok (replacer.flagged id evictable) := by
  rw [setEvictable, checkId_of_lt hlt]
  rfl

theorem remove_of_lt (hlt : id < replacer.size) :
    remove id replacer = .ok (replacer.removed id) := by
  rw [remove, checkId_of_lt hlt]
  rfl

@[simp] theorem accessed_size : (replacer.accessed id).size = replacer.size := by
  unfold accessed
  split <;> rfl

@[simp] theorem accessed_k : (replacer.accessed id).k = replacer.k := by
  unfold accessed
  split <;> rfl

@[simp] theorem flagged_size (evictable : Bool) :
    (replacer.flagged id evictable).size = replacer.size := by
  unfold flagged
  split <;> rfl

@[simp] theorem flagged_k (evictable : Bool) : (replacer.flagged id evictable).k = replacer.k := by
  unfold flagged
  split <;> rfl

/-- A removal drops the node or does nothing. -/
theorem removed_cases (replacer : LruK) (id : FrameId) :
    replacer.removed id = replacer ∨ replacer.removed id = replacer.eraseNode id := by
  unfold removed
  split
  · exact .inl rfl
  · split
    · exact .inr rfl
    · exact .inl rfl

@[simp] theorem removed_size : (replacer.removed id).size = replacer.size := by
  rcases removed_cases replacer id with heq | heq
  · rw [heq]
  · rw [heq]
    rfl

@[simp] theorem removed_k : (replacer.removed id).k = replacer.k := by
  rcases removed_cases replacer id with heq | heq
  · rw [heq]
  · rw [heq]
    rfl

theorem getElem?_putNode_ne (node : LruKNode) (hne : other ≠ id) :
    (replacer.putNode id node).currentNodes[other]? = replacer.currentNodes[other]? := by
  rw [putNode, Std.TreeMap.getElem?_insert, if_neg]
  rw [Std.LawfulEqCmp.compare_eq_iff_eq]
  exact fun heq => hne heq.symm

theorem getElem?_eraseNode_eq_some (h : (replacer.eraseNode id).currentNodes[other]? = some node) :
    replacer.currentNodes[other]? = some node := by
  rw [eraseNode, Std.TreeMap.getElem?_erase] at h
  split at h
  · cases h
  · exact h

/-! ## The tracked frames -/

/-- Every tracked frame is a frame of the pool. -/
def InRange (replacer : LruK) : Prop :=
  ∀ (id : FrameId) node, replacer.currentNodes[id]? = some node → 0 ≤ id ∧ id < replacer.size

theorem InRange.putNode (h : replacer.InRange) (hid : 0 ≤ id ∧ id < replacer.size)
    (node : LruKNode) : (replacer.putNode id node).InRange := by
  intro other node' hnode
  by_cases heq : other = id
  · rw [heq]
    exact hid
  · rw [getElem?_putNode_ne node heq] at hnode
    exact h other node' hnode

theorem InRange.eraseNode (h : replacer.InRange) (id : FrameId) :
    (replacer.eraseNode id).InRange :=
  fun other node hnode => h other node (getElem?_eraseNode_eq_some hnode)

theorem InRange.accessed (h : replacer.InRange) (hid : 0 ≤ id ∧ id < replacer.size) :
    (replacer.accessed id).InRange := by
  unfold LruK.accessed
  split
  · exact h.putNode hid _
  · exact h.putNode hid _

theorem InRange.flagged (h : replacer.InRange) (id : FrameId) (evictable : Bool) :
    (replacer.flagged id evictable).InRange := by
  unfold LruK.flagged
  split
  · exact h
  next node hnode => exact h.putNode (h id node hnode) _

theorem InRange.removed (h : replacer.InRange) (id : FrameId) :
    (replacer.removed id).InRange := by
  rcases removed_cases replacer id with heq | heq
  · rw [heq]
    exact h
  · rw [heq]
    exact h.eraseNode id

end Operations

/-! ## The victim -/

section Victim

variable {replacer : LruK} {id other : FrameId} {node : LruKNode}

/-- The distance to the access by which frames with full histories are compared. -/
def age (replacer : LruK) (node : LruKNode) : Nat :=
  replacer.currentTimestamp - node.history.getD (node.history.length + 1 - replacer.k) 0

/-- The first evictable frame with fewer than `k` accesses. -/
def IsFirstShort (replacer : LruK) (id : FrameId) : Prop :=
  ∃ node, replacer.currentNodes[id]? = some node ∧ replacer.isShort node = true ∧
    ∀ (other : FrameId) node', replacer.currentNodes[other]? = some node' →
      replacer.isShort node' = true → id ≤ other

/-- The first evictable frame of the largest age, that age being positive. -/
def IsOldest (replacer : LruK) (id : FrameId) : Prop :=
  ∃ node, replacer.currentNodes[id]? = some node ∧ node.isEvictable = true ∧
    0 < replacer.age node ∧
    ∀ (other : FrameId) node', replacer.currentNodes[other]? = some node' →
      node'.isEvictable = true →
      replacer.age node' ≤ replacer.age node ∧
        (other < id → replacer.age node' < replacer.age node)

/-- No evictable frame has fewer than `k` accesses. -/
def AllFull (replacer : LruK) : Prop :=
  ∀ (id : FrameId) node, replacer.currentNodes[id]? = some node → replacer.isShort node = false

/-- The frame the replacer picks. -/
def IsVictim (replacer : LruK) (id : FrameId) : Prop :=
  replacer.IsFirstShort id ∨ replacer.AllFull ∧ replacer.IsOldest id

theorem IsFirstShort.not_allFull (h : replacer.IsFirstShort id) : ¬ replacer.AllFull := by
  obtain ⟨node, hnode, hshort, _⟩ := h
  intro hfull
  rw [hfull id node hnode] at hshort
  cases hshort

theorem IsVictim.unique (h : replacer.IsVictim id) (h' : replacer.IsVictim other) : id = other := by
  rcases h with hfirst | ⟨hfull, hold⟩
  · rcases h' with hfirst' | ⟨hfull', _⟩
    · obtain ⟨node, hnode, hshort, hleast⟩ := hfirst
      obtain ⟨node', hnode', hshort', hleast'⟩ := hfirst'
      exact le_antisymm (hleast other node' hnode' hshort') (hleast' id node hnode hshort)
    · exact absurd hfull' hfirst.not_allFull
  · rcases h' with hfirst' | ⟨_, hold'⟩
    · exact absurd hfull hfirst'.not_allFull
    · obtain ⟨node, hnode, hevictable, _, holdest⟩ := hold
      obtain ⟨node', hnode', hevictable', _, holdest'⟩ := hold'
      have hle := holdest other node' hnode' hevictable'
      have hle' := holdest' id node hnode hevictable
      rcases lt_trichotomy id other with hlt | heq | hgt
      · exact absurd (hle'.2 hlt) (Nat.not_lt.mpr hle.1)
      · exact heq
      · exact absurd (hle.2 hgt) (Nat.not_lt.mpr hle'.1)

theorem IsVictim.tracked (h : replacer.IsVictim id) :
    ∃ node, replacer.currentNodes[id]? = some node ∧ node.isEvictable = true := by
  rcases h with ⟨node, hnode, hshort, _⟩ | ⟨_, node, hnode, hevictable, _⟩
  · exact ⟨node, hnode, (Bool.and_eq_true_iff.mp hshort).1⟩
  · exact ⟨node, hnode, hevictable⟩

/-- A round over a frame that may be evicted and has a full history. -/
theorem searchRound_of_full (hk : 2 ≤ replacer.k) {best : Nat × FrameId}
    (hevictable : node.isEvictable = true) (hfull : replacer.isShort node = false) :
    replacer.searchRound best (id, node) =
      .ok (if best.1 < replacer.age node then (replacer.age node, id) else best) := by
  have hlength : replacer.k ≤ node.history.length := by
    rw [isShort, hevictable, Bool.true_and, decide_eq_false_iff_not, Nat.not_lt] at hfull
    exact hfull
  have hindex : node.history.length + 1 - replacer.k < node.history.length := by omega
  have hentry : node.history[node.history.length + 1 - replacer.k]? =
      some (node.history.getD (node.history.length + 1 - replacer.k) 0) := by
    rw [List.getElem?_eq_getElem hindex, List.getD_eq_getElem _ _ hindex]
  rw [searchRound, if_neg (not_not.mpr hevictable)]
  simp only [hentry]
  unfold age
  split <;> rfl

/-- The search among entries in the order of their frames, none of them short. -/
theorem search_spec (hk : 2 ≤ replacer.k) {entries : List (FrameId × LruKNode)}
    (hsorted : entries.Pairwise fun first second => first.1 < second.1)
    (hfull : ∀ entry ∈ entries, replacer.isShort entry.2 = false) (best : Nat × FrameId) :
    ∃ best', entries.foldlM replacer.searchRound best = .ok best' ∧ best.1 ≤ best'.1 ∧
      (∀ entry ∈ entries, entry.2.isEvictable = true → replacer.age entry.2 ≤ best'.1) ∧
      (best' = best ∨ ∃ entry ∈ entries, entry.2.isEvictable = true ∧
        best' = (replacer.age entry.2, entry.1) ∧ best.1 < replacer.age entry.2 ∧
        ∀ earlier ∈ entries, earlier.2.isEvictable = true → earlier.1 < entry.1 →
          replacer.age earlier.2 < replacer.age entry.2) := by
  induction entries generalizing best with
  | nil => exact ⟨best, rfl, le_refl _, fun _ hmem => absurd hmem List.not_mem_nil, .inl rfl⟩
  | cons entry rest ih =>
      obtain ⟨hfirst, hsorted⟩ := List.pairwise_cons.mp hsorted
      obtain ⟨hentry, hrest⟩ := List.forall_mem_cons.mp hfull
      rw [List.foldlM_cons]
      by_cases hevictable : entry.2.isEvictable = true
      · rw [searchRound_of_full hk hevictable hentry, ok_bind]
        split
        next hgt =>
          obtain ⟨best', hrun, hle, hmax, horigin⟩ :=
            ih hsorted hrest (replacer.age entry.2, entry.1)
          refine ⟨best', hrun, hgt.le.trans hle, ?_, .inr ?_⟩
          · rintro other (_ | ⟨_, hmem⟩) hother
            · exact hle
            · exact hmax other hmem hother
          · rcases horigin with rfl | ⟨winner, hmem, hwinner, rfl, hold, hearlier⟩
            · refine ⟨entry, List.mem_cons_self, hevictable, rfl, hgt, ?_⟩
              rintro earlier (_ | ⟨_, hmem⟩) _ hlt
              · exact absurd hlt (Int.lt_irrefl _)
              · exact absurd (hfirst earlier hmem) (not_lt.mpr hlt.le)
            · refine ⟨winner, List.mem_cons_of_mem _ hmem, hwinner, rfl, hgt.trans hold, ?_⟩
              rintro earlier (_ | ⟨_, hmem'⟩) hevictable' hlt
              · exact hold
              · exact hearlier earlier hmem' hevictable' hlt
        next hle =>
          obtain ⟨best', hrun, hle', hmax, horigin⟩ := ih hsorted hrest best
          refine ⟨best', hrun, hle', ?_, horigin.imp_right ?_⟩
          · rintro other (_ | ⟨_, hmem⟩) hother
            · exact (Nat.not_lt.mp hle).trans hle'
            · exact hmax other hmem hother
          · rintro ⟨winner, hmem, hwinner, rfl, hold, hearlier⟩
            refine ⟨winner, List.mem_cons_of_mem _ hmem, hwinner, rfl, hold, ?_⟩
            rintro earlier (_ | ⟨_, hmem'⟩) hevictable' hlt
            · exact (Nat.not_lt.mp hle).trans_lt hold
            · exact hearlier earlier hmem' hevictable' hlt
      · rw [searchRound, if_pos hevictable, except_pure, ok_bind]
        obtain ⟨best', hrun, hle, hmax, horigin⟩ := ih hsorted hrest best
        refine ⟨best', hrun, hle, ?_, horigin.imp_right ?_⟩
        · rintro other (_ | ⟨_, hmem⟩) hother
          · exact absurd hother hevictable
          · exact hmax other hmem hother
        · rintro ⟨winner, hmem, hwinner, rfl, hold, hearlier⟩
          refine ⟨winner, List.mem_cons_of_mem _ hmem, hwinner, rfl, hold, ?_⟩
          rintro earlier (_ | ⟨_, hmem'⟩) hevictable' hlt
          · exact absurd hevictable' hevictable
          · exact hearlier earlier hmem' hevictable' hlt

theorem mem_nodes_iff :
    (id, node) ∈ replacer.currentNodes.toList ↔ replacer.currentNodes[id]? = some node :=
  Std.TreeMap.mem_toList_iff_getElem?_eq_some

theorem nodes_sorted (replacer : LruK) :
    replacer.currentNodes.toList.Pairwise fun first second => first.1 < second.1 :=
  Std.TreeMap.ordered_keys_toList.imp Std.compare_eq_lt.mp

/-- `evict` takes the victim out of the nodes, or finds that there is none. -/
theorem evict_spec (hk : 2 ≤ replacer.k) (hrange : replacer.InRange) :
    (replacer.evict = .ok (none, replacer) ∧ ∀ id, ¬ replacer.IsVictim id) ∨
      ∃ id, replacer.IsVictim id ∧ replacer.evict = .ok (some id, replacer.eraseNode id) := by
  unfold evict
  by_cases hempty : replacer.currentNodes.toList.isEmpty = true
  · refine .inl ⟨by rw [if_pos hempty]; rfl, fun id hvictim => ?_⟩
    obtain ⟨node, hnode, _⟩ := hvictim.tracked
    have hmem := mem_nodes_iff.mpr hnode
    rw [List.isEmpty_iff.mp hempty] at hmem
    cases hmem
  rw [if_neg hempty]
  cases hfound : replacer.currentNodes.toList.find? (fun entry => replacer.isShort entry.2) with
  | some entry =>
      refine .inr ⟨entry.1, .inl ⟨entry.2, ?_, ?_, ?_⟩, rfl⟩
      · exact mem_nodes_iff.mp (List.mem_of_find?_eq_some hfound)
      · simpa using List.find?_some hfound
      · intro other node' hnode' hshort'
        obtain ⟨_, before, after, heq, hbefore⟩ := List.find?_eq_some_iff_append.mp hfound
        have hmem := mem_nodes_iff.mpr hnode'
        have hsorted := replacer.nodes_sorted
        rw [heq] at hmem hsorted
        rcases List.mem_append.mp hmem with hmem | hmem
        · have hlong := hbefore _ hmem
          rw [hshort'] at hlong
          cases hlong
        · rcases List.mem_cons.mp hmem with heq | hmem
          · exact le_of_eq (congrArg Prod.fst heq).symm
          · have htail := (List.pairwise_append.mp hsorted).2.1
            exact ((List.pairwise_cons.mp htail).1 _ hmem).le
  | none =>
      have hfull : ∀ entry ∈ replacer.currentNodes.toList, replacer.isShort entry.2 = false :=
        fun entry hmem => Bool.eq_false_iff.mpr (List.find?_eq_none.mp hfound entry hmem)
      have hallFull : replacer.AllFull :=
        fun id node hnode => hfull (id, node) (mem_nodes_iff.mpr hnode)
      obtain ⟨best, hrun, _, hmax, horigin⟩ :=
        search_spec hk replacer.nodes_sorted hfull (0, invalidFrameId)
      simp only [hrun, ok_bind]
      rcases horigin with rfl | ⟨winner, hmem, hevictable, rfl, hpos, hearlier⟩
      · refine .inl ⟨rfl, fun id hvictim => ?_⟩
        rcases hvictim with hfirst | ⟨_, node, hnode, hevictable, hpos, _⟩
        · exact hfirst.not_allFull hallFull
        · exact absurd (hmax _ (mem_nodes_iff.mpr hnode) hevictable) (Nat.not_le.mpr hpos)
      · have hwinner := mem_nodes_iff.mp hmem
        have hvalid : winner.1 ≠ invalidFrameId := by
          intro heq
          have hnonneg := (hrange winner.1 winner.2 hwinner).1
          rw [heq] at hnonneg
          exact absurd hnonneg (by decide)
        refine .inr ⟨winner.1, .inr ⟨hallFull, winner.2, hwinner, hevictable, hpos, ?_⟩, ?_⟩
        · intro other node' hnode' hevictable'
          have hmem' := mem_nodes_iff.mpr hnode'
          exact ⟨hmax _ hmem' hevictable', hearlier _ hmem' hevictable'⟩
        · rw [if_neg hvalid]
          rfl

end Victim

end LruK

end HiveDb
