import HiveDb.Lib.BreadthFirst
import HiveDb.BPlusTree.Leaves

/-!
# What is logged of the tree

`dump_contents` works off a queue of page ids.  It logs the nodes level by level,
each level from left to right, and each node once.  The leaves are the last
level, so that their lines hold all keys in order.
-/

namespace HiveDb.BPlusTree

open HiveDb.Lib
open HiveDb.Lib.Slots

variable {K V : Type} [Index K] [Value V]

/-! ## One node -/

/-- The pages that are queued when a node has been logged. -/
def childPages (pages : PageId → Page K V) (id : PageId) : List PageId :=
  if (pages id).type = .innerNode then
    live (fun i => Value.key ((pages id).values i)) (pages id).currentSize
  else []

/-- The line of a node: what its live slots hold. -/
def logOf (page : Page K V) : NodeDump K V where
  type := page.type
  maxSize := page.maxSize
  currentSize := page.currentSize
  indexes := live page.keys page.currentSize
  pageIds := if page.type = .innerNode then live page.values page.currentSize else []

section Nodes

variable {page : Page K V}

theorem mapM_slots {α : Type} {read : Int → Except Failure α} {slots : Nat → α} {n : Nat}
    (h : ∀ i : Nat, i < n → read i = .ok (slots i)) :
    (do let i ← List.range n; pure (i : Int) : List Int).mapM read = .ok (live slots n) := by
  have hindices : (do let i ← List.range n; pure (i : Int) : List Int) =
      (List.range n).map Nat.cast := List.map_eq_flatMap.symm
  rw [hindices, List.mapM_map]
  exact except_mapM_eq_ok fun i hi => h i (List.mem_range.mp hi)

omit [Index K] [Value V] in
theorem pageIdsOf_eq (hle : page.currentSize ≤ page.maxSize) :
    pageIdsOf (Node.ofBuffer page) = .ok (live page.values page.currentSize) :=
  mapM_slots fun _ hi => Node.records_of_lt (Nat.lt_of_lt_of_le hi hle)

omit [Index K] [Value V] in
theorem dumpNode_eq (hle : page.currentSize ≤ page.maxSize) :
    dumpNode (Node.ofBuffer page) = .ok (logOf page) := by
  unfold dumpNode logOf
  refine except_bind_eq_ok_iff.mpr ⟨live page.keys page.currentSize, ?_, ?_⟩
  · exact mapM_slots fun _ hi => Node.indexes_of_lt (Nat.lt_of_lt_of_le hi hle)
  · rw [pageIdsOf_eq hle, Node.ofBuffer_type]
    split <;> rfl

end Nodes

/-! ## The queue -/

section Queue

variable {tree : IdealTree K V} {queue order : List PageId}

omit [Index K] in
/-- The loop logs the pages in breadth-first order, if it has a round for each of them. -/
theorem dumpLoop_eq (horder : BreadthFirst (childPages tree.bp.pages) queue order)
    (hle : ∀ id ∈ order, (tree.bp.pages id).currentSize ≤ (tree.bp.pages id).maxSize)
    (fuel : Nat) :
    (dumpLoop fuel queue : Prog (IdealTree K V) (List (NodeDump K V))) tree =
      if order.length ≤ fuel then .ok (order.map fun id => logOf (tree.bp.pages id)) tree
      else .error .outOfFuel tree := by
  induction horder generalizing fuel with
  | nil =>
      rw [dumpLoop]
      rfl
  | @cons front rest order _ ih =>
      cases fuel with
      | zero => rfl
      | succ fuel =>
          have hfront := hle front List.mem_cons_self
          have htail : (do
              let dumps ← dumpLoop fuel (rest ++ childPages tree.bp.pages front)
              return logOf (tree.bp.pages front) :: dumps :
                Prog (IdealTree K V) (List (NodeDump K V))) tree =
              if (front :: order).length ≤ fuel + 1 then
                .ok ((front :: order).map fun id => logOf (tree.bp.pages id)) tree
              else .error .outOfFuel tree := by
            rw [bind_apply, ih (fun id hid => hle id (List.mem_cons_of_mem _ hid)),
              List.length_cons]
            by_cases hrounds : order.length ≤ fuel
            · rw [if_pos hrounds, if_pos (Nat.succ_le_succ hrounds)]
              rfl
            · rw [if_neg hrounds, if_neg fun h => hrounds (Nat.le_of_succ_le_succ h)]
          rw [dumpLoop, bind_of_ok (IdealTree.requestPage_apply tree front false),
            bind_of_ok (IdealTree.nodeOf_apply tree front),
            bind_of_ok (IdealTree.readNode_of_ok (dumpNode_eq hfront)), Node.ofBuffer_type]
          unfold childPages at htail
          by_cases hinner : (tree.bp.pages front).type = .innerNode
          · rw [if_pos hinner, ← map_live] at htail
            rw [if_pos hinner, bind_of_ok (IdealTree.readNode_of_ok (pageIdsOf_eq hfront))]
            exact htail
          · rw [if_neg hinner] at htail
            rw [if_neg hinner, pure_bind]
            exact htail

end Queue

/-! ## Levels -/

section Levels

variable {pages : PageId → Page K V} {root id : PageId}

omit [Index K] in
theorem mem_childPages : id ∈ childPages pages root ↔ ∃ i, ChildOf pages root i id := by
  unfold childPages
  split
  · next hinner =>
    rw [mem_live]
    constructor
    · rintro ⟨i, hi, heq⟩
      exact ⟨i, hinner, hi, heq⟩
    · rintro ⟨i, hchild⟩
      exact ⟨i, hchild.lt, hchild.eq⟩
  · next hleaf =>
    constructor
    · intro hmem
      cases hmem
    · rintro ⟨i, hchild⟩
      exact absurd hchild.inner hleaf

omit [Index K] in
theorem mem_generation_iff {depth : Nat} :
    id ∈ generation (childPages pages) depth [root] ↔ Reaches pages root depth id := by
  induction depth generalizing root with
  | zero =>
      rw [generation, List.mem_singleton]
      constructor
      · rintro rfl
        exact .here _
      · rintro ⟨⟩
        rfl
  | succ depth ih =>
      rw [generation, List.flatMap_singleton, generation_flatMap, List.mem_flatMap]
      constructor
      · rintro ⟨child, hchild, hmem⟩
        obtain ⟨i, hof⟩ := mem_childPages.mp hchild
        exact .down hof (ih.mp hmem)
      · rintro (_ | ⟨first, rest⟩)
        exact ⟨_, mem_childPages.mpr ⟨_, first⟩, ih.mpr rest⟩

namespace Subtree

variable {cap height : Nat} {branch : Branch K V} {children : Nat → Branch K V}

theorem childPages_root (hinner : IsInner cap (pages branch.root) children) :
    childPages pages branch.root =
      live (fun i => (children i).root) (pages branch.root).currentSize := by
  rw [childPages, if_pos hinner.type_eq]
  exact live_congr hinner.child_eq

theorem generation_eq_leaves (h : Subtree cap pages height branch) :
    generation (childPages pages) height [branch.root] = branch.leaves pages := by
  induction height generalizing branch with
  | zero => exact h.leaves_zero.symm
  | succ height ih =>
      obtain ⟨children, hinner, _, hids, _, hsub⟩ := h
      rw [generation, List.flatMap_singleton, childPages_root hinner, generation_flatMap,
        flatMap_live, leaves_succ hinner hids]
      exact flat_congr fun i hi => ih (hsub i hi)

theorem generation_eq_nil (h : Subtree cap pages height branch) :
    generation (childPages pages) (height + 1) [branch.root] = [] := by
  refine List.eq_nil_iff_forall_not_mem.mpr fun id hmem => ?_
  obtain ⟨low, _, hdepth, _⟩ := h.of_reaches (mem_generation_iff.mp hmem)
  omega

theorem generations_perm (h : Subtree cap pages height branch) :
    (generations (childPages pages) height [branch.root]).Perm branch.ids := by
  induction height generalizing branch with
  | zero =>
      have hids : branch.ids = [branch.root] := h.2.2.1
      rw [hids]
      exact .refl _
  | succ height ih =>
      obtain ⟨children, hinner, _, hids, _, hsub⟩ := h
      rw [generations, List.flatMap_singleton, childPages_root hinner, hids,
        List.singleton_append]
      refine List.Perm.cons _ ((generations_flatMap _ _ _).trans ?_)
      rw [flatMap_live]
      exact flat_perm fun i hi => ih (hsub i hi)

theorem filter_generations (h : Subtree cap pages height branch) :
    (generations (childPages pages) height [branch.root]).filter
      (fun id => (pages id).type = .leafNode) = branch.leaves pages := by
  have habove : ((List.range height).flatMap fun depth =>
      generation (childPages pages) depth [branch.root]).filter
        (fun id => (pages id).type = .leafNode) = [] := by
    refine List.filter_eq_nil_iff.mpr fun id hid => ?_
    obtain ⟨depth, hdepth, hmem⟩ := List.mem_flatMap.mp hid
    have hlt := List.mem_range.mp hdepth
    intro hleaf
    have heq := h.depth_eq (mem_generation_iff.mp hmem) (of_decide_eq_true hleaf)
    omega
  rw [generations_eq_flatMap, List.range_succ, List.flatMap_append, List.filter_append, habove,
    List.nil_append, List.flatMap_singleton, h.generation_eq_leaves]
  exact List.filter_eq_self.mpr fun id hid => decide_eq_true (Branch.mem_leaves.mp hid).2

/-- Every node of a subtree has slots for what it holds. -/
theorem currentSize_le (h : Subtree cap pages height branch) (hid : id ∈ branch.ids) :
    (pages id).currentSize ≤ (pages id).maxSize := by
  obtain ⟨depth, hreaches⟩ := h.mem_ids_iff.mp hid
  obtain ⟨low, sub, _, rfl, hsub, _⟩ := h.of_reaches hreaches
  cases low with
  | zero =>
      rw [hsub.1.maxSize_eq]
      exact hsub.1.le
  | succ low =>
      obtain ⟨_, hinner, _⟩ := hsub
      rw [hinner.maxSize_eq]
      exact hinner.le

end Subtree

/-- The keys in the lines of the leaves. -/
def leafKeys (dumps : List (NodeDump K V)) : List K :=
  (dumps.filter (·.type = .leafNode)).flatMap NodeDump.indexes

/--
The lines of the log are the nodes below the root, each once, level by level and
from left to right; those of the leaves hold the keys in order.
-/
structure LogsTree (pages : PageId → Page K V) (root : PageId) (keys : List K)
    (dumps : List (NodeDump K V)) : Prop where
  nodes : ∃ ids height,
    ids = ((List.range (height + 1)).flatMap fun depth =>
      generation (childPages pages) depth [root]) ∧
    ids.Nodup ∧ (∀ id, id ∈ ids ↔ ∃ depth, Reaches pages root depth id) ∧
    dumps = ids.map fun id => logOf (pages id)
  keys_lt : (leafKeys dumps).Pairwise (· < ·)
  keys_perm : (leafKeys dumps).Perm keys

theorem Subtree.logsTree {cap height : Nat} {branch : Branch K V}
    (h : Subtree cap pages height branch) (hnodup : branch.ids.Nodup)
    (hdistinct : DistinctKeys branch.entries) :
    LogsTree pages branch.root (branch.entries.map Prod.fst)
      ((generations (childPages pages) height [branch.root]).map fun id => logOf (pages id)) := by
  let ids := generations (childPages pages) height [branch.root]
  have hindexes : ∀ id, (logOf (pages id)).indexes = (pages id).pairs.map Prod.fst := by
    intro id
    rw [Page.pairs, map_live]
    rfl
  have hleaves : leafKeys (ids.map fun id => logOf (pages id)) = branch.entries.map Prod.fst :=
    calc
      _ = (ids.filter fun id => (pages id).type = .leafNode).flatMap
          fun id => (logOf (pages id)).indexes := by
        rw [leafKeys, List.filter_map, List.flatMap_map]
        rfl
      _ = (branch.leaves pages).flatMap fun id => (pages id).pairs.map Prod.fst := by
        rw [h.filter_generations]
        simp only [hindexes]
      _ = branch.entries.map Prod.fst := by rw [← List.map_flatMap, h.flatMap_leaves]
  refine ⟨⟨_, height, generations_eq_flatMap _ _ _, ?_, fun id => ?_, rfl⟩, ?_, ?_⟩
  · exact h.generations_perm.nodup_iff.mpr hnodup
  · rw [h.generations_perm.mem_iff, h.mem_ids_iff]
  · rw [hleaves]
    exact h.keys_lt hdistinct
  · rw [hleaves]

end Levels

/-- The log of a tree, if the loop has a round for each page of it. -/
theorem Represents.dumpContents_eq {cap height : Nat} {tree : IdealTree K V}
    {branch : Branch K V} (h : Represents cap tree height branch)
    (hdistinct : DistinctKeys branch.entries) :
    ∃ dumps, LogsTree tree.bp.pages tree.rootPageId (branch.entries.map Prod.fst) dumps ∧ ∀ fuel,
      dumpContents fuel tree =
        if branch.ids.length ≤ fuel then .ok dumps tree else .error .outOfFuel tree := by
  have hperm := h.subtree.generations_perm
  have horder := BreadthFirst.of_generations h.subtree.generation_eq_nil
  refine ⟨_, h.root_eq ▸ h.subtree.logsTree h.nodup hdistinct, fun fuel => ?_⟩
  have hle : ∀ id ∈ generations (childPages tree.bp.pages) height [branch.root],
      (tree.bp.pages id).currentSize ≤ (tree.bp.pages id).maxSize :=
    fun id hid => h.subtree.currentSize_le (hperm.subset hid)
  rw [dumpContents, bind_of_ok (get_apply tree), h.root_eq, dumpLoop_eq horder hle,
    hperm.length_eq]

end HiveDb.BPlusTree
