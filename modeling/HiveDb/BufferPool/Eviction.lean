import HiveDb.BufferPool.LruK
import HiveDb.Lib.Run
import Mathlib.Data.Int.LeastGreatest
import Mathlib.Data.Nat.Find

/-!
# Runs of the replacer

Over every sequence of operations the history of a tracked frame is a non-empty
list of past timestamps in their order, and no two frames share a timestamp.
So every evictable frame has a positive age, no two frames have the same one,
and `evict` finds a victim whenever there is an evictable frame.
-/

namespace HiveDb

open HiveDb.Lib

namespace LruK

/-- The operations of a replacer. -/
inductive ReplacerOp where
  | recordAccess (id : FrameId)
  | setEvictable (id : FrameId) (evictable : Bool)
  | evict
  | remove (id : FrameId)
  deriving DecidableEq, Repr

/-- A call on a frame id in `[0, size)` that returns. -/
inductive Step : LruK → ReplacerOp → LruK → Prop where
  | recordAccess {s t : LruK} {id : FrameId} (range : 0 ≤ id ∧ id < s.size)
      (returns : recordAccess id s = .ok t) : Step s (.recordAccess id) t
  | setEvictable {s t : LruK} {id : FrameId} {evictable : Bool} (range : 0 ≤ id ∧ id < s.size)
      (returns : setEvictable id evictable s = .ok t) : Step s (.setEvictable id evictable) t
  | evict {s t : LruK} {victim : Option FrameId} (returns : s.evict = .ok (victim, t)) :
      Step s .evict t
  | remove {s t : LruK} {id : FrameId} (range : 0 ≤ id ∧ id < s.size)
      (returns : remove id s = .ok t) : Step s (.remove id) t

/-! ## The nodes after an operation -/

section Nodes

variable {replacer : LruK} {id other : FrameId} {node node' : LruKNode}

theorem getElem?_putNode_self (node : LruKNode) :
    (replacer.putNode id node).currentNodes[id]? = some node := by
  rw [putNode, Std.TreeMap.getElem?_insert_self]

theorem getElem?_eraseNode_self : (replacer.eraseNode id).currentNodes[id]? = none := by
  rw [eraseNode, Std.TreeMap.getElem?_erase_self]

theorem getElem?_eraseNode_ne (hne : other ≠ id) :
    (replacer.eraseNode id).currentNodes[other]? = replacer.currentNodes[other]? := by
  rw [eraseNode, Std.TreeMap.getElem?_erase, if_neg]
  rw [Std.LawfulEqCmp.compare_eq_iff_eq]
  exact fun heq => hne heq.symm

/-- The recorded accesses of a frame; a frame that is not tracked has none. -/
def historyOf (replacer : LruK) (id : FrameId) : List Nat :=
  match replacer.currentNodes[id]? with
  | some node => node.history
  | none => []

theorem historyOf_of_node (hnode : replacer.currentNodes[id]? = some node) :
    replacer.historyOf id = node.history := by
  rw [historyOf, hnode]

theorem historyOf_of_absent (habsent : replacer.currentNodes[id]? = none) :
    replacer.historyOf id = [] := by
  rw [historyOf, habsent]

@[simp] theorem accessed_currentTimestamp :
    (replacer.accessed id).currentTimestamp = replacer.currentTimestamp + 1 := by
  unfold accessed
  split <;> rfl

/-- An access puts the current timestamp at the end of the history; a new frame is evictable. -/
theorem getElem?_accessed_self :
    (replacer.accessed id).currentNodes[id]? =
      some ⟨replacer.historyOf id ++ [replacer.currentTimestamp],
        (replacer.currentNodes[id]?).elim true LruKNode.isEvictable⟩ := by
  unfold accessed historyOf
  cases hnode : replacer.currentNodes[id]? with
  | none => exact getElem?_putNode_self _
  | some node => exact getElem?_putNode_self _

theorem getElem?_accessed_ne (hne : other ≠ id) :
    (replacer.accessed id).currentNodes[other]? = replacer.currentNodes[other]? := by
  unfold accessed
  split
  · exact getElem?_putNode_ne _ hne
  · exact getElem?_putNode_ne _ hne

@[simp] theorem flagged_currentTimestamp (evictable : Bool) :
    (replacer.flagged id evictable).currentTimestamp = replacer.currentTimestamp := by
  unfold flagged
  split <;> rfl

theorem getElem?_flagged_self (evictable : Bool) :
    (replacer.flagged id evictable).currentNodes[id]? =
      (replacer.currentNodes[id]?).map fun node => { node with isEvictable := evictable } := by
  unfold flagged
  cases hnode : replacer.currentNodes[id]? with
  | none => exact hnode
  | some node => exact getElem?_putNode_self _

theorem getElem?_flagged_ne (evictable : Bool) (hne : other ≠ id) :
    (replacer.flagged id evictable).currentNodes[other]? = replacer.currentNodes[other]? := by
  unfold flagged
  split
  · rfl
  · exact getElem?_putNode_ne _ hne

/-- Erasing a node of an evictable frame lowers `size()` by one. -/
theorem evictableSize_eraseNode (hnode : replacer.currentNodes[id]? = some node)
    (hevictable : node.isEvictable = true) :
    (replacer.eraseNode id).evictableSize + 1 = replacer.evictableSize := by
  have hnodup : ∀ replacer : LruK, replacer.currentNodes.toList.Nodup := fun replacer =>
    replacer.nodes_sorted.imp fun hlt heq => absurd (congrArg Prod.fst heq) hlt.ne
  have hperm : replacer.currentNodes.toList.Perm
      ((id, node) :: (replacer.eraseNode id).currentNodes.toList) := by
    refine (List.perm_ext_iff_of_nodup (hnodup _) ?_).mpr ?_
    · refine List.nodup_cons.mpr ⟨fun hmem => ?_, hnodup _⟩
      rw [mem_nodes_iff, getElem?_eraseNode_self] at hmem
      cases hmem
    · rintro ⟨other, node'⟩
      rw [List.mem_cons, mem_nodes_iff, mem_nodes_iff]
      by_cases heq : other = id
      · subst heq
        rw [hnode, getElem?_eraseNode_self]
        simp [eq_comm]
      · rw [getElem?_eraseNode_ne heq]
        simp [heq]
  have hsum := (hperm.map fun entry : FrameId × LruKNode =>
    if entry.2.isEvictable then 1 else 0).sum_nat
  rw [evictableSize, evictableSize, hsum, List.map_cons, List.sum_cons, if_pos hevictable,
    Nat.add_comm]

end Nodes

/-! ## Histories -/

/-- The histories of the tracked frames hold distinct past timestamps in their order. -/
structure Timely (replacer : LruK) : Prop where
  inRange : replacer.InRange
  nonempty : ∀ {id : FrameId} {node}, replacer.currentNodes[id]? = some node → node.history ≠ []
  increasing : ∀ {id : FrameId} {node}, replacer.currentNodes[id]? = some node →
    node.history.Pairwise (· < ·)
  past : ∀ {id : FrameId} {node}, replacer.currentNodes[id]? = some node →
    ∀ time ∈ node.history, time < replacer.currentTimestamp
  disjoint : ∀ {id other : FrameId} {node node'}, replacer.currentNodes[id]? = some node →
    replacer.currentNodes[other]? = some node' → id ≠ other →
    ∀ time ∈ node.history, time ∉ node'.history

namespace Timely

variable {replacer : LruK} {id other : FrameId} {node : LruKNode}

theorem of_empty (h : replacer.currentNodes = ∅) : replacer.Timely := by
  have habsent : ∀ {id : FrameId} {node}, ¬ replacer.currentNodes[id]? = some node := by
    intro id node hnode
    rw [h, Std.TreeMap.getElem?_emptyc] at hnode
    cases hnode
  exact ⟨fun _ _ hnode => absurd hnode habsent, fun hnode => absurd hnode habsent,
    fun hnode => absurd hnode habsent, fun hnode => absurd hnode habsent,
    fun hnode => absurd hnode habsent⟩

theorem eraseNode (h : replacer.Timely) (id : FrameId) : (replacer.eraseNode id).Timely where
  inRange := h.inRange.eraseNode id
  nonempty hnode := h.nonempty (getElem?_eraseNode_eq_some hnode)
  increasing hnode := h.increasing (getElem?_eraseNode_eq_some hnode)
  past hnode := h.past (getElem?_eraseNode_eq_some hnode)
  disjoint hnode hnode' :=
    h.disjoint (getElem?_eraseNode_eq_some hnode) (getElem?_eraseNode_eq_some hnode')

theorem historyOf_increasing (h : replacer.Timely) (id : FrameId) :
    (replacer.historyOf id).Pairwise (· < ·) := by
  cases hnode : replacer.currentNodes[id]? with
  | none =>
      rw [historyOf_of_absent hnode]
      exact List.Pairwise.nil
  | some node =>
      rw [historyOf_of_node hnode]
      exact h.increasing hnode

theorem historyOf_past (h : replacer.Timely) {time : Nat} (hmem : time ∈ replacer.historyOf id) :
    time < replacer.currentTimestamp := by
  cases hnode : replacer.currentNodes[id]? with
  | none =>
      rw [historyOf_of_absent hnode] at hmem
      cases hmem
  | some node =>
      rw [historyOf_of_node hnode] at hmem
      exact h.past hnode time hmem

theorem historyOf_disjoint (h : replacer.Timely) (hne : id ≠ other)
    (hnode : replacer.currentNodes[other]? = some node) {time : Nat}
    (hmem : time ∈ replacer.historyOf id) : time ∉ node.history := by
  cases hfirst : replacer.currentNodes[id]? with
  | none =>
      rw [historyOf_of_absent hfirst] at hmem
      cases hmem
  | some node' =>
      rw [historyOf_of_node hfirst] at hmem
      exact h.disjoint hfirst hnode hne time hmem

theorem accessed (h : replacer.Timely) (hid : 0 ≤ id ∧ id < replacer.size) :
    (replacer.accessed id).Timely := by
  -- a tracked frame is the one accessed, or tracked as before
  have hlookup : ∀ {other : FrameId} {node}, (replacer.accessed id).currentNodes[other]? =
      some node → other = id ∧ node.history = replacer.historyOf id ++ [replacer.currentTimestamp] ∨
        other ≠ id ∧ replacer.currentNodes[other]? = some node := by
    intro other node hnode
    by_cases heq : other = id
    · rw [heq, getElem?_accessed_self] at hnode
      cases hnode
      exact .inl ⟨heq, rfl⟩
    · rw [getElem?_accessed_ne heq] at hnode
      exact .inr ⟨heq, hnode⟩
  have hpast : ∀ time ∈ replacer.historyOf id ++ [replacer.currentTimestamp],
      time ∈ replacer.historyOf id ∨ time = replacer.currentTimestamp := fun time hmem =>
    (List.mem_append.mp hmem).imp_right List.mem_singleton.mp
  refine ⟨h.inRange.accessed hid, fun {other node} hnode => ?_, fun {other node} hnode => ?_,
    fun {other node} hnode time hmem => ?_, fun {other other'} {node node'} hnode hnode' hne time
    hmem => ?_⟩
  · rcases hlookup hnode with ⟨_, hhistory⟩ | ⟨_, hbefore⟩
    · rw [hhistory]
      exact List.append_ne_nil_of_right_ne_nil _ (List.cons_ne_nil _ _)
    · exact h.nonempty hbefore
  · rcases hlookup hnode with ⟨_, hhistory⟩ | ⟨_, hbefore⟩
    · rw [hhistory]
      refine List.pairwise_append.mpr
        ⟨h.historyOf_increasing id, List.pairwise_singleton _ _, fun time hmem now hnow => ?_⟩
      rw [List.mem_singleton.mp hnow]
      exact h.historyOf_past hmem
    · exact h.increasing hbefore
  · rw [accessed_currentTimestamp]
    rcases hlookup hnode with ⟨_, hhistory⟩ | ⟨_, hbefore⟩
    · rw [hhistory] at hmem
      rcases hpast time hmem with hold | hnow
      · exact Nat.lt_succ_of_lt (h.historyOf_past hold)
      · exact hnow ▸ Nat.lt_succ_self _
    · exact Nat.lt_succ_of_lt (h.past hbefore time hmem)
  · rcases hlookup hnode with ⟨heq, hhistory⟩ | ⟨heq, hbefore⟩
    · rcases hlookup hnode' with ⟨heq', _⟩ | ⟨heq', hbefore'⟩
      · exact absurd (heq.trans heq'.symm) hne
      · rw [hhistory] at hmem
        rcases hpast time hmem with hold | hnow
        · exact h.historyOf_disjoint (fun hid => heq' hid.symm) hbefore' hold
        · intro hmem'
          exact absurd hnow (h.past hbefore' time hmem').ne
    · rcases hlookup hnode' with ⟨heq', hhistory'⟩ | ⟨_, hbefore'⟩
      · rw [hhistory']
        intro hmem'
        rcases hpast time hmem' with hold | hnow
        · exact h.historyOf_disjoint (fun hid => heq hid.symm) hbefore hold hmem
        · exact absurd hnow (h.past hbefore time hmem).ne
      · exact h.disjoint hbefore hbefore' hne time hmem

/-- Setting a flag changes no history. -/
theorem flagged (h : replacer.Timely) (id : FrameId) (evictable : Bool) :
    (replacer.flagged id evictable).Timely := by
  have hlookup : ∀ {other : FrameId} {node},
      (replacer.flagged id evictable).currentNodes[other]? = some node →
      ∃ before, replacer.currentNodes[other]? = some before ∧ node.history = before.history := by
    intro other node hnode
    by_cases heq : other = id
    · rw [heq, getElem?_flagged_self] at hnode
      obtain ⟨before, hbefore, rfl⟩ := Option.map_eq_some_iff.mp hnode
      exact ⟨before, heq ▸ hbefore, rfl⟩
    · rw [getElem?_flagged_ne evictable heq] at hnode
      exact ⟨node, hnode, rfl⟩
  refine ⟨h.inRange.flagged id evictable, fun {other node} hnode => ?_,
    fun {other node} hnode => ?_, fun {other node} hnode => ?_,
    fun {other other'} {node node'} hnode hnode' hne => ?_⟩
  · obtain ⟨before, hbefore, hhistory⟩ := hlookup hnode
    exact hhistory ▸ h.nonempty hbefore
  · obtain ⟨before, hbefore, hhistory⟩ := hlookup hnode
    exact hhistory ▸ h.increasing hbefore
  · obtain ⟨before, hbefore, hhistory⟩ := hlookup hnode
    rw [hhistory, flagged_currentTimestamp]
    exact h.past hbefore
  · obtain ⟨before, hbefore, hhistory⟩ := hlookup hnode
    obtain ⟨before', hbefore', hhistory'⟩ := hlookup hnode'
    rw [hhistory, hhistory']
    exact h.disjoint hbefore hbefore' hne

theorem removed (h : replacer.Timely) (id : FrameId) : (replacer.removed id).Timely := by
  rcases removed_cases replacer id with heq | heq
  · rw [heq]
    exact h
  · rw [heq]
    exact h.eraseNode id

/-- Each operation keeps the histories in order. -/
theorem step {op : ReplacerOp} {t : LruK} (hk : 2 ≤ replacer.k) (h : replacer.Timely)
    (hstep : Step replacer op t) : t.Timely ∧ t.k = replacer.k := by
  cases hstep with
  | recordAccess range returns =>
      cases (recordAccess_of_lt range.2).symm.trans returns
      exact ⟨h.accessed range, accessed_k⟩
  | setEvictable range returns =>
      cases (setEvictable_of_lt range.2 _).symm.trans returns
      exact ⟨h.flagged _ _, flagged_k _⟩
  | evict returns =>
      rcases evict_spec hk h.inRange with ⟨hnone, _⟩ | ⟨id, _, hsome⟩
      · cases hnone.symm.trans returns
        exact ⟨h, rfl⟩
      · cases hsome.symm.trans returns
        exact ⟨h.eraseNode id, rfl⟩
  | remove range returns =>
      cases (remove_of_lt range.2).symm.trans returns
      exact ⟨h.removed _, removed_k⟩

theorem of_run {k : Int} {size : FrameId} {start : LruK} (hk : 2 ≤ k)
    (hnew : LruK.new k size = .ok start) {ops : List ReplacerOp}
    (hrun : Run Step start ops replacer) : replacer.Timely ∧ replacer.k = k := by
  rw [LruK.new] at hnew
  split at hnew
  · cases hnew
  · cases hnew
    have hstart : (k.toNat : Int) = k := Int.toNat_of_nonneg (Int.le_trans (by decide) hk)
    have hinvariant : replacer.Timely ∧ replacer.k = k.toNat := by
      refine hrun.invariant (fun _ replacer => replacer.Timely ∧ replacer.k = k.toNat)
        ⟨of_empty rfl, rfl⟩ fun _ s _ t ⟨h, hsame⟩ hstep => ?_
      have hkept := h.step (by omega) hstep
      exact ⟨hkept.1, hkept.2.trans hsame⟩
    exact ⟨hinvariant.1, hinvariant.2 ▸ hstart⟩

end Timely

/-! ## Which frame is the victim -/

section Victims

variable {replacer : LruK} {id other : FrameId} {node : LruKNode} {n : Nat}

/-- The timestamp of the `n`-th most recent of the recorded accesses. -/
def nthRecent (node : LruKNode) (n : Nat) : Nat :=
  node.history.getD (node.history.length - n) 0

/-- An evictable frame whose `n`-th most recent access is the oldest. -/
def HasOldest (replacer : LruK) (n : Nat) (id : FrameId) : Prop :=
  ∃ node, replacer.currentNodes[id]? = some node ∧ node.isEvictable = true ∧
    ∀ (other : FrameId) node', replacer.currentNodes[other]? = some node' →
      node'.isEvictable = true → nthRecent node n ≤ nthRecent node' n

/-- Some frame is evictable. -/
def SomeEvictable (replacer : LruK) : Prop :=
  ∃ (id : FrameId) (node : LruKNode), replacer.currentNodes[id]? = some node ∧
    node.isEvictable = true

theorem nthRecent_mem (hn : 0 < n) (hne : node.history ≠ []) :
    nthRecent node n ∈ node.history := by
  have hindex : node.history.length - n < node.history.length :=
    Nat.sub_lt (List.length_pos_iff.mpr hne) hn
  rw [nthRecent, List.getD_eq_getElem _ _ hindex]
  exact List.getElem_mem hindex

/-- Two frames never share their `n`-th most recent access. -/
theorem HasOldest.unique (htimely : replacer.Timely) (hn : 0 < n) (h : replacer.HasOldest n id)
    (h' : replacer.HasOldest n other) : id = other := by
  obtain ⟨node, hnode, hevictable, holdest⟩ := h
  obtain ⟨node', hnode', hevictable', holdest'⟩ := h'
  have heq : nthRecent node n = nthRecent node' n :=
    le_antisymm (holdest other node' hnode' hevictable') (holdest' id node hnode hevictable)
  by_contra hne
  refine htimely.disjoint hnode hnode' hne _ (nthRecent_mem hn (htimely.nonempty hnode)) ?_
  rw [heq]
  exact nthRecent_mem hn (htimely.nonempty hnode')

theorem exists_hasOldest (h : replacer.SomeEvictable) (n : Nat) :
    ∃ id, replacer.HasOldest n id := by
  have hinhabited : ∃ time id node, replacer.currentNodes[(id : FrameId)]? = some node ∧
      node.isEvictable = true ∧ nthRecent node n = time := by
    obtain ⟨id, node, hnode, hevictable⟩ := h
    exact ⟨_, id, node, hnode, hevictable, rfl⟩
  classical
  obtain ⟨id, node, hnode, hevictable, htime⟩ := Nat.find_spec hinhabited
  refine ⟨id, node, hnode, hevictable, fun other node' hnode' hevictable' => ?_⟩
  rw [htime]
  exact Nat.find_min' hinhabited ⟨other, node', hnode', hevictable', rfl⟩

/-- The search among full histories compares the accesses after the `k`-th most recent ones. -/
theorem isOldest_iff (htimely : replacer.Timely) (hk : 2 ≤ replacer.k) :
    replacer.IsOldest id ↔ replacer.HasOldest (replacer.k - 1) id := by
  have hn : 0 < replacer.k - 1 := by omega
  have hage : ∀ node : LruKNode,
      replacer.age node = replacer.currentTimestamp - nthRecent node (replacer.k - 1) := by
    intro node
    have hindex : node.history.length + 1 - replacer.k =
        node.history.length - (replacer.k - 1) := by omega
    rw [age, hindex, nthRecent]
  have hpast : ∀ {id : FrameId} {node}, replacer.currentNodes[id]? = some node →
      nthRecent node (replacer.k - 1) < replacer.currentTimestamp := fun hnode =>
    htimely.past hnode _ (nthRecent_mem hn (htimely.nonempty hnode))
  constructor
  · rintro ⟨node, hnode, hevictable, _, holdest⟩
    refine ⟨node, hnode, hevictable, fun other node' hnode' hevictable' => ?_⟩
    have hle := (holdest other node' hnode' hevictable').1
    have hlt := hpast hnode'
    rw [hage, hage] at hle
    omega
  · intro holdest
    obtain ⟨node, hnode, hevictable, hleast⟩ := holdest
    have hlt := hpast hnode
    refine ⟨node, hnode, hevictable, ?_, fun other node' hnode' hevictable' =>
      ⟨?_, fun hother => ?_⟩⟩
    · rw [hage]
      omega
    · have hle := hleast other node' hnode' hevictable'
      rw [hage, hage]
      omega
    · have hle := hleast other node' hnode' hevictable'
      have hne : nthRecent node' (replacer.k - 1) ≠ nthRecent node (replacer.k - 1) := by
        intro heq
        refine htimely.disjoint hnode' hnode hother.ne _
          (nthRecent_mem hn (htimely.nonempty hnode')) ?_
        rw [heq]
        exact nthRecent_mem hn (htimely.nonempty hnode)
      rw [hage, hage]
      omega

/-- There is a victim whenever a frame is evictable. -/
theorem exists_victim_iff (htimely : replacer.Timely) (hk : 2 ≤ replacer.k) :
    (∃ id, replacer.IsVictim id) ↔ replacer.SomeEvictable := by
  constructor
  · rintro ⟨id, hvictim⟩
    obtain ⟨node, hnode, hevictable⟩ := hvictim.tracked
    exact ⟨id, node, hnode, hevictable⟩
  · intro hsome
    by_cases hfull : replacer.AllFull
    · obtain ⟨id, holdest⟩ := exists_hasOldest hsome (replacer.k - 1)
      exact ⟨id, .inr ⟨hfull, (isOldest_iff htimely hk).mpr holdest⟩⟩
    · have hshort : ∃ id : FrameId, ∃ node, replacer.currentNodes[id]? = some node ∧
          replacer.isShort node = true := by
        by_contra hnone
        refine hfull fun id node hnode => Bool.eq_false_iff.mpr fun hshort => ?_
        exact hnone ⟨id, node, hnode, hshort⟩
      obtain ⟨id, ⟨node, hnode, hshort⟩, hleast⟩ := Int.exists_least_of_bdd
        ⟨0, fun id ⟨node, hnode, _⟩ => (htimely.inRange id node hnode).1⟩ hshort
      exact ⟨id, .inl ⟨node, hnode, hshort, fun other node' hnode' hshort' =>
        hleast other ⟨node', hnode', hshort'⟩⟩⟩

/-- What `evict` returns, for the frame it picks. -/
theorem evict_of_victim (htimely : replacer.Timely) (hk : 2 ≤ replacer.k)
    (hvictim : replacer.IsVictim id) :
    replacer.evict = .ok (some id, replacer.eraseNode id) := by
  rcases evict_spec hk htimely.inRange with ⟨_, hnone⟩ | ⟨other, hother, hevict⟩
  · exact absurd hvictim (hnone id)
  · rw [hvictim.unique hother]
    exact hevict

end Victims

/-! ## Accesses to two frames -/

/-- A replacer for `k = 2` over two frames. -/
def twoFrames : LruK := ⟨2, 2, ∅, 0⟩

theorem twoFrames_new : LruK.new 2 2 = .ok twoFrames := rfl

/-- Accesses to frames in range return. -/
theorem run_accesses {ids : List FrameId} {replacer : LruK}
    (hrange : ∀ id ∈ ids, 0 ≤ id ∧ id < replacer.size) :
    Run Step replacer (ids.map .recordAccess)
      (ids.foldl (fun replacer id => replacer.accessed id) replacer) := by
  induction ids generalizing replacer with
  | nil => exact .nil
  | cons id ids ih =>
      obtain ⟨hid, hrest⟩ := List.forall_mem_cons.mp hrange
      refine .cons (.recordAccess hid (recordAccess_of_lt hid.2)) (ih fun other hother => ?_)
      rw [accessed_size]
      exact hrest other hother

def accessAll (ids : List FrameId) : LruK :=
  ids.foldl (fun replacer id => replacer.accessed id) twoFrames

theorem accessAll_run {ids : List FrameId} (hrange : ∀ id ∈ ids, 0 ≤ id ∧ id < 2) :
    Run Step twoFrames (ids.map .recordAccess) (accessAll ids) := run_accesses hrange

/-- The entries of a replacer over two frames that have both been accessed. -/
theorem node_cases {replacer : LruK} {first second : LruKNode}
    (hnodes : replacer.currentNodes.toList = [(0, first), (1, second)]) {id : FrameId}
    {node : LruKNode} (hnode : replacer.currentNodes[id]? = some node) :
    id = 0 ∧ node = first ∨ id = 1 ∧ node = second := by
  have hmem := mem_nodes_iff.mpr hnode
  rw [hnodes] at hmem
  simpa using hmem

/-! ## Evictions after every sequence of operations -/

section Runs

variable {k : Int} {size : FrameId} {start replacer : LruK} {ops : List ReplacerOp}

/--
`evict` finds a frame whenever one is evictable; the frame is an evictable one,
and its node is all that changes.
-/
theorem evict_sound_and_complete (hk : 2 ≤ k) (hnew : LruK.new k size = .ok start)
    (hrun : Run Step start ops replacer) :
    ∃ victim after, replacer.evict = .ok (victim, after) ∧
      (victim = none ↔ ¬ replacer.SomeEvictable) ∧ (victim = none → after = replacer) ∧
      ∀ id, victim = some id → (∃ node, replacer.currentNodes[id]? = some node ∧
        node.isEvictable = true) ∧ after.currentNodes[id]? = none ∧
        (∀ other : FrameId, other ≠ id →
          after.currentNodes[other]? = replacer.currentNodes[other]?) ∧
        after.currentTimestamp = replacer.currentTimestamp ∧
        after.evictableSize + 1 = replacer.evictableSize := by
  obtain ⟨htimely, hsame⟩ := Timely.of_run hk hnew hrun
  have hk' : 2 ≤ replacer.k := by omega
  rcases evict_spec hk' htimely.inRange with ⟨hevict, hnone⟩ | ⟨id, hvictim, hevict⟩
  · refine ⟨none, replacer, hevict, iff_of_true rfl fun hsome => ?_, fun _ => rfl, nofun⟩
    obtain ⟨id, hvictim⟩ := (exists_victim_iff htimely hk').mpr hsome
    exact hnone id hvictim
  · obtain ⟨node, hnode, hevictable⟩ := hvictim.tracked
    refine ⟨some id, replacer.eraseNode id, hevict,
      iff_of_false nofun (not_not.mpr ⟨id, node, hnode, hevictable⟩), nofun, ?_⟩
    rintro _ ⟨⟩
    exact ⟨⟨node, hnode, hevictable⟩, getElem?_eraseNode_self,
      fun other hne => getElem?_eraseNode_ne hne, rfl, evictableSize_eraseNode hnode hevictable⟩

/-- After an access to each of two frames there is a frame to evict. -/
theorem two_accesses_evict :
    ∃ victim after, (accessAll [0, 1]).evict = .ok (victim, after) ∧ victim ≠ none := by
  have hrun : Run Step twoFrames ([0, 1].map .recordAccess) (accessAll [0, 1]) :=
    accessAll_run (by decide)
  obtain ⟨victim, after, hevict, hnone, _⟩ :=
    evict_sound_and_complete (by decide) twoFrames_new hrun
  refine ⟨victim, after, hevict, fun hvictim => hnone.mp hvictim ⟨0, ⟨[0], true⟩, ?_, rfl⟩⟩
  decide

/--
Among full histories `evict` picks the frame with the oldest `k`-th most recent
access exactly when that frame has also the oldest one of the accesses after it.
-/
theorem evict_oldest_iff (hk : 2 ≤ k) (hnew : LruK.new k size = .ok start)
    (hrun : Run Step start ops replacer) (hsome : replacer.SomeEvictable)
    (hfull : ∀ (id : FrameId) node, replacer.currentNodes[id]? = some node →
      node.isEvictable = true → k ≤ node.history.length) :
    (∃ id after, replacer.evict = .ok (some id, after) ∧ replacer.HasOldest k.toNat id) ↔
      ∃ id, replacer.HasOldest k.toNat id ∧ replacer.HasOldest (k.toNat - 1) id := by
  obtain ⟨htimely, hsame⟩ := Timely.of_run hk hnew hrun
  have hk' : 2 ≤ replacer.k := by omega
  have hnat : k.toNat = replacer.k := by omega
  have hallFull : replacer.AllFull := by
    intro id node hnode
    refine Bool.eq_false_iff.mpr fun hshort => ?_
    obtain ⟨hevictable, hlt⟩ := Bool.and_eq_true_iff.mp hshort
    have hle := hfull id node hnode hevictable
    have hless := of_decide_eq_true hlt
    omega
  rw [hnat]
  constructor
  · rintro ⟨id, after, hevict, holdest⟩
    obtain ⟨victim, hvictim⟩ := (exists_victim_iff htimely hk').mpr hsome
    cases (evict_of_victim htimely hk' hvictim).symm.trans hevict
    refine ⟨id, holdest, ?_⟩
    rcases hvictim with hfirst | ⟨_, hold⟩
    · exact absurd hallFull hfirst.not_allFull
    · exact (isOldest_iff htimely hk').mp hold
  · rintro ⟨id, holdest, hnext⟩
    have hvictim : replacer.IsVictim id := .inr ⟨hallFull, (isOldest_iff htimely hk').mpr hnext⟩
    exact ⟨id, _, evict_of_victim htimely hk' hvictim, holdest⟩

/-- Frame 0 has both its accesses before those of frame 1. -/
theorem evict_picks_oldest :
    ∃ id after, (accessAll [0, 0, 1, 1]).evict = .ok (some id, after) ∧
      (accessAll [0, 0, 1, 1]).HasOldest 2 id := by
  have hnodes : (accessAll [0, 0, 1, 1]).currentNodes.toList =
      [(0, ⟨[0, 1], true⟩), (1, ⟨[2, 3], true⟩)] := by
    decide
  have hzero : (accessAll [0, 0, 1, 1]).currentNodes[(0 : FrameId)]? = some ⟨[0, 1], true⟩ := by
    decide
  have holdest : ∀ n, nthRecent ⟨[0, 1], true⟩ n ≤ nthRecent ⟨[2, 3], true⟩ n →
      (accessAll [0, 0, 1, 1]).HasOldest n 0 := by
    intro n hle
    refine ⟨_, hzero, rfl, fun other node' hnode' _ => ?_⟩
    rcases node_cases hnodes hnode' with ⟨_, rfl⟩ | ⟨_, rfl⟩
    · exact le_refl _
    · exact hle
  refine (evict_oldest_iff (by decide) twoFrames_new (accessAll_run (by decide)) ?_ ?_).mpr
    ⟨0, holdest 2 (by decide), holdest 1 (by decide)⟩
  · exact ⟨0, _, hzero, rfl⟩
  · intro id node hnode _
    rcases node_cases hnodes hnode with ⟨_, rfl⟩ | ⟨_, rfl⟩ <;> decide

/-- Frame 0 has been accessed first and last: `evict` picks frame 1 all the same. -/
theorem evict_keeps_oldest :
    Run Step twoFrames ([0, 1, 1, 0].map .recordAccess) (accessAll [0, 1, 1, 0]) ∧
      (∀ (id : FrameId) node, (accessAll [0, 1, 1, 0]).currentNodes[id]? = some node →
        node.isEvictable = true → (2 : Int) ≤ node.history.length) ∧
      ∃ after, (accessAll [0, 1, 1, 0]).evict = .ok (some 1, after) ∧
        ¬ (accessAll [0, 1, 1, 0]).HasOldest 2 1 := by
  have hnodes : (accessAll [0, 1, 1, 0]).currentNodes.toList =
      [(0, ⟨[0, 3], true⟩), (1, ⟨[1, 2], true⟩)] := by
    decide
  refine ⟨accessAll_run (by decide), fun id node hnode _ => ?_, _, rfl, ?_⟩
  · rcases node_cases hnodes hnode with ⟨_, rfl⟩ | ⟨_, rfl⟩ <;> decide
  · rintro ⟨node, hnode, _, holdest⟩
    rcases node_cases hnodes hnode with ⟨hid, _⟩ | ⟨_, rfl⟩
    · cases hid
    · exact absurd (holdest 0 ⟨[0, 3], true⟩ (by decide) rfl) (by decide)

/-- An evictable frame with fewer than `k` accesses whose first access is the oldest. -/
def IsEarliestShort (replacer : LruK) (id : FrameId) : Prop :=
  ∃ node, replacer.currentNodes[id]? = some node ∧ replacer.isShort node = true ∧
    ∀ (other : FrameId) node', replacer.currentNodes[other]? = some node' →
      replacer.isShort node' = true → node.history.getD 0 0 ≤ node'.history.getD 0 0

/--
Among short histories `evict` picks the frame with the oldest first access exactly
when that frame is the first one in the order of the frame ids.
-/
theorem evict_earliest_iff (hk : 2 ≤ k) (hnew : LruK.new k size = .ok start)
    (hrun : Run Step start ops replacer)
    (hshort : ∃ (id : FrameId) (node : LruKNode), replacer.currentNodes[id]? = some node ∧
      node.isEvictable = true ∧ node.history.length < k) :
    (∃ id after, replacer.evict = .ok (some id, after) ∧ replacer.IsEarliestShort id) ↔
      ∃ id, replacer.IsEarliestShort id ∧ replacer.IsFirstShort id := by
  obtain ⟨htimely, hsame⟩ := Timely.of_run hk hnew hrun
  have hk' : 2 ≤ replacer.k := by omega
  obtain ⟨short, node, hnode, hevictable, hlength⟩ := hshort
  have hnotFull : ¬ replacer.AllFull := by
    intro hfull
    have hless : node.history.length < replacer.k := by omega
    have hlong := hfull short node hnode
    rw [isShort, hevictable, Bool.true_and, decide_eq_true hless] at hlong
    cases hlong
  constructor
  · rintro ⟨id, after, hevict, hearliest⟩
    obtain ⟨victim, hvictim⟩ :=
      (exists_victim_iff htimely hk').mpr ⟨short, node, hnode, hevictable⟩
    cases (evict_of_victim htimely hk' hvictim).symm.trans hevict
    refine ⟨id, hearliest, ?_⟩
    rcases hvictim with hfirst | ⟨hfull, _⟩
    · exact hfirst
    · exact absurd hfull hnotFull
  · rintro ⟨id, hearliest, hfirst⟩
    exact ⟨id, _, evict_of_victim htimely hk' (.inl hfirst), hearliest⟩

/-- The frames have been accessed in the order of their ids. -/
theorem evict_picks_earliest :
    ∃ id after, (accessAll [0, 1]).evict = .ok (some id, after) ∧
      (accessAll [0, 1]).IsEarliestShort id := by
  have hnodes : (accessAll [0, 1]).currentNodes.toList =
      [(0, ⟨[0], true⟩), (1, ⟨[1], true⟩)] := by
    decide
  have hzero : (accessAll [0, 1]).currentNodes[(0 : FrameId)]? = some ⟨[0], true⟩ := by
    decide
  refine (evict_earliest_iff (by decide) twoFrames_new (accessAll_run (by decide))
    ⟨0, _, hzero, rfl, by decide⟩).mpr ⟨0, ⟨_, hzero, rfl, ?_⟩, ⟨_, hzero, rfl, ?_⟩⟩
  · intro other node' hnode' _
    exact Nat.zero_le _
  · intro other node' hnode' _
    rcases node_cases hnodes hnode' with ⟨rfl, _⟩ | ⟨rfl, _⟩ <;> decide

/-- Frame 1 has been accessed before frame 0: `evict` picks frame 0. -/
theorem evict_keeps_earliest :
    Run Step twoFrames ([1, 0].map .recordAccess) (accessAll [1, 0]) ∧
      (∃ (id : FrameId) (node : LruKNode), (accessAll [1, 0]).currentNodes[id]? = some node ∧
        node.isEvictable = true ∧ node.history.length < (2 : Int)) ∧
      ∃ after, (accessAll [1, 0]).evict = .ok (some 0, after) ∧
        ¬ (accessAll [1, 0]).IsEarliestShort 0 := by
  have hnodes : (accessAll [1, 0]).currentNodes.toList =
      [(0, ⟨[1], true⟩), (1, ⟨[0], true⟩)] := by
    decide
  refine ⟨accessAll_run (by decide), ⟨0, ⟨[1], true⟩, by decide, rfl, by decide⟩, _, rfl, ?_⟩
  rintro ⟨node, hnode, _, hearliest⟩
  rcases node_cases hnodes hnode with ⟨_, rfl⟩ | ⟨hid, _⟩
  · exact absurd (hearliest 1 ⟨[0], true⟩ (by decide) (by decide)) (by decide)
  · cases hid

end Runs

end LruK

end HiveDb
