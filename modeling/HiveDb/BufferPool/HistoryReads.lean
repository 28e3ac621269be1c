import HiveDb.BufferPool.Eviction

/-!
# The reads of an eviction

When no evictable frame has a short history `evict` reads one element of the
history of every evictable frame, without a check.  The element exists for
every `k` from 2 on; for `k` 0 and 1, which the constructor accepts as well,
the index is past the end of every history.
-/

namespace HiveDb

open HiveDb.Lib

namespace LruK

/-- A call that returns, on whatever frame id the operation accepts. -/
inductive Call : LruK → ReplacerOp → LruK → Prop where
  | recordAccess {s t : LruK} {id : FrameId} (returns : recordAccess id s = .ok t) :
      Call s (.recordAccess id) t
  | setEvictable {s t : LruK} {id : FrameId} {evictable : Bool}
      (returns : setEvictable id evictable s = .ok t) : Call s (.setEvictable id evictable) t
  | evict {s t : LruK} {victim : Option FrameId} (returns : s.evict = .ok (victim, t)) :
      Call s .evict t
  | remove {s t : LruK} {id : FrameId} (returns : remove id s = .ok t) : Call s (.remove id) t

/-- `node.history.size() + 1 - m_k`, of type `std::size_t`. -/
def oldIndex (replacer : LruK) (node : LruKNode) : Nat :=
  if replacer.k ≤ node.history.length + 1 then node.history.length + 1 - replacer.k
  else 2 ^ 64 + (node.history.length + 1) - replacer.k

/-- The nodes whose history `evict` reads, each with the index it reads at. -/
def historyReads (replacer : LruK) : List (LruKNode × Nat) :=
  if replacer.currentNodes.toList.any (fun entry => replacer.isShort entry.2) then []
  else (replacer.currentNodes.toList.filter fun entry => entry.2.isEvictable).map
    fun entry => (entry.2, replacer.oldIndex entry.2)

section Reads

variable {replacer : LruK} {id : FrameId} {node : LruKNode}

theorem oldIndex_of_full (hlength : replacer.k ≤ node.history.length) :
    replacer.oldIndex node = node.history.length + 1 - replacer.k :=
  if_pos (Nat.le_succ_of_le hlength)

theorem oldIndex_lt_iff (hlength : replacer.k ≤ node.history.length) :
    replacer.oldIndex node < node.history.length ↔ 2 ≤ replacer.k := by
  rw [oldIndex_of_full hlength]
  omega

theorem full_of_not_short (hevictable : node.isEvictable = true)
    (hfull : replacer.isShort node = false) : replacer.k ≤ node.history.length := by
  rw [isShort, hevictable, Bool.true_and, decide_eq_false_iff_not, Nat.not_lt] at hfull
  exact hfull

theorem mem_historyReads_iff {read : LruKNode × Nat} :
    read ∈ replacer.historyReads ↔
      (∀ entry ∈ replacer.currentNodes.toList, replacer.isShort entry.2 = false) ∧
        (∃ entry ∈ replacer.currentNodes.toList, entry.2.isEvictable = true ∧
          read = (entry.2, replacer.oldIndex entry.2)) := by
  unfold historyReads
  split
  next hany =>
    obtain ⟨entry, hentry, hshort⟩ := List.any_eq_true.mp hany
    refine iff_of_false List.not_mem_nil fun h => ?_
    cases (h.1 entry hentry).symm.trans hshort
  next hnone =>
    have hfull : ∀ entry ∈ replacer.currentNodes.toList, replacer.isShort entry.2 = false :=
      fun entry hmem => Bool.eq_false_iff.mpr fun hshort =>
        hnone (List.any_eq_true.mpr ⟨entry, hmem, hshort⟩)
    rw [List.mem_map]
    constructor
    · rintro ⟨entry, hentry, rfl⟩
      obtain ⟨hmem, hevictable⟩ := List.mem_filter.mp hentry
      exact ⟨hfull, entry, hmem, hevictable, rfl⟩
    · rintro ⟨_, entry, hentry, hevictable, rfl⟩
      exact ⟨entry, List.mem_filter.mpr ⟨hentry, hevictable⟩, rfl⟩

/-- The search among full histories returns when every element it reads exists. -/
theorem search_returns_iff {entries : List (FrameId × LruKNode)}
    (hfull : ∀ entry ∈ entries, replacer.isShort entry.2 = false) (best : Nat × FrameId) :
    (∃ best', entries.foldlM replacer.searchRound best = .ok best') ↔
      ∀ entry ∈ entries, entry.2.isEvictable = true →
        replacer.oldIndex entry.2 < entry.2.history.length := by
  induction entries generalizing best with
  | nil => exact iff_of_true ⟨best, rfl⟩ fun _ hmem => absurd hmem List.not_mem_nil
  | cons entry rest ih =>
      obtain ⟨hentry, hrest⟩ := List.forall_mem_cons.mp hfull
      rw [List.foldlM_cons, List.forall_mem_cons]
      by_cases hevictable : entry.2.isEvictable = true
      · have hindex := oldIndex_of_full (full_of_not_short hevictable hentry)
        rw [searchRound, if_neg (not_not.mpr hevictable), ← hindex]
        cases hread : entry.2.history[replacer.oldIndex entry.2]? with
        | none =>
            have hpast := Nat.not_lt.mpr (List.getElem?_eq_none_iff.mp hread)
            refine iff_of_false ?_ fun hall => hpast (hall.1 hevictable)
            rintro ⟨_, hrun⟩
            cases hrun
        | some oldTimestamp =>
            have hlt := (List.getElem?_eq_some_iff.mp hread).1
            have hround : ∀ diff : Nat, (if diff > best.1 then (pure (diff, entry.1) :
                Except Failure (Nat × FrameId)) else pure best) =
                .ok (if diff > best.1 then (diff, entry.1) else best) := by
              intro diff
              split <;> rfl
            simp only [hround, ok_bind, ih hrest]
            exact ⟨fun h => ⟨fun _ => hlt, h⟩, fun h => h.2⟩
      · rw [searchRound, if_pos hevictable, except_pure, ok_bind, ih hrest]
        exact ⟨fun h => ⟨fun h' => absurd h' hevictable, h⟩, fun h => h.2⟩

/-- `evict` returns exactly when every element it reads exists. -/
theorem evict_returns_iff :
    (∃ victim after, replacer.evict = .ok (victim, after)) ↔
      ∀ read ∈ replacer.historyReads, read.2 < read.1.history.length := by
  unfold evict
  by_cases hempty : replacer.currentNodes.toList.isEmpty = true
  · rw [if_pos hempty]
    refine iff_of_true ⟨none, replacer, rfl⟩ fun read hread => ?_
    obtain ⟨_, entry, hentry, _⟩ := mem_historyReads_iff.mp hread
    rw [List.isEmpty_iff.mp hempty] at hentry
    cases hentry
  rw [if_neg hempty]
  cases hfound : replacer.currentNodes.toList.find? (fun entry => replacer.isShort entry.2) with
  | some entry =>
      refine iff_of_true ⟨some entry.1, _, rfl⟩ fun read hread => ?_
      have hmem := List.mem_of_find?_eq_some hfound
      have hshort : replacer.isShort entry.2 = true := by simpa using List.find?_some hfound
      cases ((mem_historyReads_iff.mp hread).1 entry hmem).symm.trans hshort
  | none =>
      have hfull : ∀ entry ∈ replacer.currentNodes.toList, replacer.isShort entry.2 = false :=
        fun entry hmem => Bool.eq_false_iff.mpr (List.find?_eq_none.mp hfound entry hmem)
      refine Iff.trans ?_ ((search_returns_iff hfull (0, invalidFrameId)).trans ?_)
      · cases hrun : replacer.currentNodes.toList.foldlM replacer.searchRound
            (0, invalidFrameId) with
        | error failure =>
            refine iff_of_false ?_ ?_
            · rintro ⟨_, _, h⟩
              cases h
            · rintro ⟨_, h⟩
              cases h
        | ok best =>
            refine iff_of_true ?_ ⟨best, rfl⟩
            simp only [ok_bind]
            split
            · exact ⟨_, _, rfl⟩
            · exact ⟨_, _, rfl⟩
      · constructor
        · intro h read hread
          obtain ⟨_, entry, hentry, hevictable, rfl⟩ := mem_historyReads_iff.mp hread
          exact h entry hentry hevictable
        · intro h entry hentry hevictable
          exact h _ (mem_historyReads_iff.mpr ⟨hfull, entry, hentry, hevictable, rfl⟩)

end Reads

/-! ## Sequences of calls -/

/-- Every tracked frame has been accessed. -/
def Accessed (replacer : LruK) : Prop :=
  ∀ (id : FrameId) node, replacer.currentNodes[id]? = some node → node.history ≠ []

section Calls

variable {replacer : LruK} {id : FrameId}

theorem Accessed.eraseNode (h : replacer.Accessed) (id : FrameId) :
    (replacer.eraseNode id).Accessed :=
  fun other node hnode => h other node (getElem?_eraseNode_eq_some hnode)

theorem Accessed.accessed (h : replacer.Accessed) (id : FrameId) :
    (replacer.accessed id).Accessed := by
  intro other node hnode
  by_cases heq : other = id
  · rw [heq, getElem?_accessed_self] at hnode
    cases hnode
    exact List.append_ne_nil_of_right_ne_nil _ (List.cons_ne_nil _ _)
  · rw [getElem?_accessed_ne heq] at hnode
    exact h other node hnode

theorem Accessed.flagged (h : replacer.Accessed) (id : FrameId) (evictable : Bool) :
    (replacer.flagged id evictable).Accessed := by
  intro other node hnode
  by_cases heq : other = id
  · rw [heq, getElem?_flagged_self] at hnode
    obtain ⟨before, hbefore, rfl⟩ := Option.map_eq_some_iff.mp hnode
    exact h id before hbefore
  · rw [getElem?_flagged_ne evictable heq] at hnode
    exact h other node hnode

theorem Accessed.removed (h : replacer.Accessed) (id : FrameId) :
    (replacer.removed id).Accessed := by
  rcases removed_cases replacer id with heq | heq
  · rw [heq]
    exact h
  · rw [heq]
    exact h.eraseNode id

/-- An eviction that returns drops at most one node. -/
theorem evict_cases {victim : Option FrameId} {after : LruK}
    (hevict : replacer.evict = .ok (victim, after)) :
    after = replacer ∨ ∃ id, after = replacer.eraseNode id := by
  unfold evict at hevict
  by_cases hempty : replacer.currentNodes.toList.isEmpty = true
  · rw [if_pos hempty] at hevict
    cases hevict
    exact .inl rfl
  rw [if_neg hempty] at hevict
  cases hfound : replacer.currentNodes.toList.find? (fun entry => replacer.isShort entry.2) with
  | some entry =>
      simp only [hfound] at hevict
      cases hevict
      exact .inr ⟨_, rfl⟩
  | none =>
      simp only [hfound] at hevict
      cases hrun : replacer.currentNodes.toList.foldlM replacer.searchRound
          (0, invalidFrameId) with
      | error failure =>
          rw [hrun] at hevict
          cases hevict
      | ok best =>
          rw [hrun, ok_bind] at hevict
          split at hevict
          · cases hevict
            exact .inl rfl
          · cases hevict
            exact .inr ⟨_, rfl⟩

/-- What an operation returns with its check passed. -/
theorem of_checkId {what : String} {after result : LruK}
    (h : (do replacer.checkId id what; return after) = Except.ok result) : result = after := by
  unfold checkId at h
  split at h
  · cases h
  · cases h
    rfl

theorem Accessed.call {op : ReplacerOp} {t : LruK} (h : replacer.Accessed)
    (hcall : Call replacer op t) : t.Accessed ∧ t.k = replacer.k := by
  cases hcall with
  | recordAccess returns =>
      rw [of_checkId returns]
      exact ⟨h.accessed _, accessed_k⟩
  | setEvictable returns =>
      rw [of_checkId returns]
      exact ⟨h.flagged _ _, flagged_k _⟩
  | evict returns =>
      rcases evict_cases returns with rfl | ⟨id, rfl⟩
      · exact ⟨h, rfl⟩
      · exact ⟨h.eraseNode id, rfl⟩
  | remove returns =>
      rw [of_checkId returns]
      exact ⟨h.removed _, removed_k⟩

theorem Accessed.of_calls {k : Int} {size : FrameId} {start : LruK} {ops : List ReplacerOp}
    (hnew : LruK.new k size = .ok start) (hcalls : Run Call start ops replacer) :
    replacer.Accessed ∧ replacer.k = k := by
  rw [LruK.new] at hnew
  split at hnew
  · cases hnew
  next hnonneg =>
    cases hnew
    have hk : (k.toNat : Int) = k :=
      Int.toNat_of_nonneg (Int.not_lt.mp fun hneg => hnonneg (.inl hneg))
    rw [← hk, Int.natCast_inj]
    refine hcalls.invariant (fun _ replacer => replacer.Accessed ∧ replacer.k = k.toNat)
      ⟨fun id node hnode => ?_, rfl⟩ fun _ s _ t h hcall => ?_
    · rw [Std.TreeMap.getElem?_emptyc] at hnode
      cases hnode
    · obtain ⟨hkept, hk⟩ := h.1.call hcall
      exact ⟨hkept, hk.trans h.2⟩

/--
After every sequence of calls the elements `evict` reads exist exactly when
`k` is at least 2 or no frame is evictable.
-/
theorem evict_reads_exist_iff {k : Int} {size : FrameId} {start : LruK} {ops : List ReplacerOp}
    (hnew : LruK.new k size = .ok start) (hcalls : Run Call start ops replacer) :
    (∀ read ∈ replacer.historyReads, read.2 < read.1.history.length) ↔
      2 ≤ k ∨ ¬ replacer.SomeEvictable := by
  obtain ⟨haccessed, hk⟩ := Accessed.of_calls hnew hcalls
  have hshorter : ∀ {node : LruKNode}, node.isEvictable = true → node.history ≠ [] →
      ¬ 2 ≤ replacer.k → replacer.isShort node = false := by
    intro node _ hne hsmall
    have hpos := List.length_pos_iff.mpr hne
    have hle : ¬ node.history.length < replacer.k := by omega
    rw [isShort, decide_eq_false hle, Bool.and_false]
  constructor
  · intro hreads
    by_contra hnot
    obtain ⟨hsmall, hsome⟩ := not_or.mp hnot
    obtain ⟨id, node, hnode, hevictable⟩ := not_not.mp hsome
    have hsmall' : ¬ 2 ≤ replacer.k := by omega
    have hfull : ∀ entry ∈ replacer.currentNodes.toList, replacer.isShort entry.2 = false := by
      rintro ⟨other, node'⟩ hmem
      have hnode' := mem_nodes_iff.mp hmem
      by_cases hevictable' : node'.isEvictable = true
      · exact hshorter hevictable' (haccessed other node' hnode') hsmall'
      · rw [isShort, Bool.eq_false_iff.mpr hevictable', Bool.false_and]
    have hmem := mem_nodes_iff.mpr hnode
    have hread := hreads _ (mem_historyReads_iff.mpr ⟨hfull, _, hmem, hevictable, rfl⟩)
    have hlength := full_of_not_short hevictable (hfull _ hmem)
    exact hsmall' ((oldIndex_lt_iff hlength).mp hread)
  · intro h read hread
    obtain ⟨hfull, entry, hentry, hevictable, rfl⟩ := mem_historyReads_iff.mp hread
    have hlength := full_of_not_short hevictable (hfull entry hentry)
    rcases h with hlarge | hnone
    · exact (oldIndex_lt_iff hlength).mpr (by omega)
    · exact absurd ⟨entry.1, entry.2, mem_nodes_iff.mp hentry, hevictable⟩ hnone

end Calls

/-- A replacer for `k = 1` over one frame. -/
def lastAccess : LruK := ⟨1, 1, ∅, 0⟩

/-- Two accesses to a frame, with `k = 2`: `evict` reads the second one. -/
theorem evict_reads_second :
    (∀ read ∈ (accessAll [0, 0]).historyReads, read.2 < read.1.history.length) ∧
      (accessAll [0, 0]).historyReads ≠ [] := by
  have hcalls : Run Call twoFrames [.recordAccess 0, .recordAccess 0] (accessAll [0, 0]) :=
    (Run.nil.snoc (.recordAccess rfl)).snoc (.recordAccess rfl)
  exact ⟨(evict_reads_exist_iff twoFrames_new hcalls).mpr (.inl (by decide)), by decide⟩

/-- For `k = 1` and a frame accessed once `evict` reads past the only access. -/
theorem evict_reads_past_history :
    ¬ ∀ (k : Int) (size : FrameId) (start replacer : LruK) (ops : List ReplacerOp),
      LruK.new k size = .ok start → Run Call start ops replacer →
      ∀ read ∈ replacer.historyReads, read.2 < read.1.history.length := by
  intro hall
  have hcalls : Run Call lastAccess [.recordAccess 0] (lastAccess.accessed 0) :=
    Run.nil.snoc (.recordAccess rfl)
  have hread : ((⟨[0], true⟩ : LruKNode), 1) ∈ (lastAccess.accessed 0).historyReads := by decide
  exact absurd (hall 1 1 lastAccess _ _ rfl hcalls _ hread) (by decide)

end LruK

end HiveDb
