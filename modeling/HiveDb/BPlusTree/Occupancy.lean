import HiveDb.BPlusTree.Leaves
import HiveDb.BPlusTree.Map
import Mathlib.Algebra.Ring.Nat

/-!
# How far the tree grows

An insertion splits no inner node but the root.  A run of insertions therefore
never makes more than three inner nodes: a root over leaves, and once that root
has been split a root over two inner nodes.  From then on the tree takes pairs
in as long as neither of the two has to be split, which bounds the number of
pairs it can hold from both sides.
-/

namespace HiveDb.BPlusTree

open HiveDb.Lib
open HiveDb.Lib.Slots

variable {K V : Type} [Index K] [Value V]

/-! ## The inner nodes of a branch -/

/-- The inner nodes among the pages of a branch. -/
def Branch.inners (pages : PageId → Page K V) (branch : Branch K V) : List PageId :=
  branch.ids.filter fun id => (pages id).type = .innerNode

omit [Index K] [Value V] in
theorem Page.length_pairs (page : Page K V) : page.pairs.length = page.currentSize :=
  length_live _ _

namespace Subtree

variable {cap height : Nat} {pages : PageId → Page K V} {branch : Branch K V}

theorem inners_zero (h : Subtree cap pages 0 branch) : branch.inners pages = [] := by
  have hids : branch.ids = [branch.root] := h.2.2.1
  rw [Branch.inners, hids]
  simp [h.1.type_eq]

theorem inners_succ {children : Nat → Branch K V}
    (hinner : IsInner cap (pages branch.root) children)
    (hids : branch.ids = branch.root ::
      flat (fun i => (children i).ids) (pages branch.root).currentSize) :
    branch.inners pages = branch.root ::
      flat (fun i => (children i).inners pages) (pages branch.root).currentSize := by
  rw [Branch.inners, hids, List.filter_cons_of_pos (by rw [decide_eq_true_iff, hinner.type_eq]),
    filter_flat]
  rfl

/-- Every level doubles the number of nodes at least. -/
theorem two_pow_le_inners (h : Subtree cap pages height branch) :
    2 ^ height ≤ (branch.inners pages).length + 1 := by
  induction height generalizing branch with
  | zero =>
      rw [h.inners_zero]
      exact Nat.le_refl _
  | succ height ih =>
      obtain ⟨children, hinner, _, hids, _, hsub⟩ := h
      have hchildren : (pages branch.root).currentSize * (2 ^ height - 1) ≤
          (flat (fun i => (children i).inners pages) (pages branch.root).currentSize).length :=
        le_length_flat fun i hi => Nat.sub_le_of_le_add (ih (hsub i hi))
      have htwo := Nat.mul_le_mul_right (2 ^ height - 1) hinner.two_le
      have hpos := Nat.two_pow_pos height
      rw [inners_succ hinner hids, List.length_cons, Nat.pow_succ]
      omega

/-- The shapes of a branch with few inner nodes. -/
theorem shape_of_inners (h : Subtree cap pages height branch)
    (hle : (branch.inners pages).length ≤ 3) :
    (height = 0 ∧ (branch.inners pages).length = 0) ∨
      (height = 1 ∧ (branch.inners pages).length = 1) ∨
      (height = 2 ∧ (branch.inners pages).length = 3 ∧ (pages branch.root).currentSize = 2) := by
  have hpow := h.two_pow_le_inners
  rcases height with _ | _ | _ | height
  · refine .inl ⟨rfl, ?_⟩
    rw [h.inners_zero]
    rfl
  · obtain ⟨children, hinner, _, hids, _, hsub⟩ := h
    have hnone : (flat (fun i => (children i).inners pages)
        (pages branch.root).currentSize).length ≤ (pages branch.root).currentSize * 0 :=
      length_flat_le fun i hi => by
        rw [(hsub i hi).inners_zero]
        exact Nat.le_refl _
    rw [inners_succ hinner hids, List.length_cons]
    exact .inr (.inl ⟨rfl, by omega⟩)
  · obtain ⟨children, hinner, _, hids, _, hsub⟩ := h
    have hsome : (pages branch.root).currentSize * 1 ≤
        (flat (fun i => (children i).inners pages) (pages branch.root).currentSize).length :=
      le_length_flat fun i hi => Nat.le_of_succ_le_succ (hsub i hi).two_pow_le_inners
    have htwo := hinner.two_le
    rw [inners_succ hinner hids, List.length_cons] at hle ⊢
    exact .inr (.inr ⟨rfl, by omega, by omega⟩)
  · have := Nat.two_pow_pos height
    rw [Nat.pow_add] at hpow
    omega

end Subtree

/-! ## One insertion -/

namespace Grown

variable {cap n : Nat} {tree tree' : IdealTree K V} {branch branch' : Branch K V} {key : K}
  {value : V}

/-- All new pages but the first are inner nodes. -/
theorem length_inners (h : Grown cap n tree tree' branch branch' key value) :
    (branch'.inners tree'.bp.pages).length = (branch.inners tree.bp.pages).length + (n - 1) := by
  have hold : branch.ids.filter (fun id => (tree'.bp.pages id).type = .innerNode) =
      branch.inners tree.bp.pages :=
    List.filter_congr fun id hid => by rw [h.type_eq id hid]
  have hnew : ((newPages tree.bp.nextPage n).filter
      fun id => (tree'.bp.pages id).type = .innerNode).length = n - 1 := by
    obtain ⟨_, leaf, _, _, _, hgrows, _⟩ := h.leaf
    cases hgrows with
    | kept none =>
        rw [none]
        rfl
    | cut some size isLeaf full pairs split others =>
        obtain ⟨more, rfl⟩ : ∃ more, n = more + 1 := ⟨n - 1, by omega⟩
        have hnext : newPages tree.bp.nextPage (more + 1) =
            tree.bp.nextPage :: newPages (tree.bp.nextPage + 1) more := by
          rw [newPages, List.range_succ_eq_map, List.map_cons, List.map_map, newPages]
          refine congrArg₂ List.cons (Int.add_zero _) (List.map_congr_left fun k _ => ?_)
          rw [Function.comp_apply, Nat.succ_eq_add_one, Int.natCast_add, Int.add_comm (k : Int)]
          exact (Int.add_assoc _ _ _).symm
        have hrest : ∀ id ∈ newPages (tree.bp.nextPage + 1) more,
            decide ((tree'.bp.pages id).type = .innerNode) = true := by
          intro id hid
          have hbounds := mem_newPages.mp hid
          refine decide_eq_true (others id ?_ (ne_of_gt (Int.lt_of_add_one_le hbounds.1)))
          rw [hnext]
          exact List.mem_cons_of_mem _ hid
        have hleaf : ¬ (tree'.bp.pages tree.bp.nextPage).type = .innerNode := by
          rw [split.new_type_eq]
          exact of_decide_eq_false rfl
        rw [hnext, List.filter_cons_of_neg (by rwa [decide_eq_true_iff]),
          List.filter_eq_self.mpr hrest, newPages, List.length_map, List.length_range]
        rfl
  rw [Branch.inners, (h.ids_perm.filter _).length_eq, List.filter_append, List.length_append, hold,
    hnew, Nat.add_comm]

/-- The leaves below the root after an insertion are at least half full if they were before. -/
theorem filled (h : Grown cap n tree tree' branch branch' key value) {height height' : Nat}
    (hrooted : Rooted cap tree height branch) (hrooted' : Rooted cap tree' height' branch')
    (hfilled : ∀ id ∈ branch.leaves tree.bp.pages, id ≠ branch.root →
      cap / 2 ≤ (tree.bp.pages id).currentSize) {id : PageId}
    (hid : id ∈ branch'.leaves tree'.bp.pages) (hne : id ≠ branch'.root) :
    cap / 2 ≤ (tree'.bp.pages id).currentSize := by
  obtain ⟨path, leaf, hdescends, hmem, hleaf, hgrows, hothers⟩ := h.leaf
  obtain ⟨hid, htype⟩ := Branch.mem_leaves.mp hid
  -- a root that is a leaf is the only page, so that the pages of the others are new
  have halone : ∀ other ∈ branch.ids, (tree.bp.pages branch.root).type = .leafNode →
      other = branch.root := by
    intro other hother hrootLeaf
    obtain rfl := hrooted.subtree.height_eq_zero hrootLeaf
    have hids : branch.ids = [branch.root] := hrooted.subtree.2.2.1
    rw [hids] at hother
    exact List.mem_singleton.mp hother
  rcases List.mem_append.mp (h.ids_perm.mem_iff.mp hid) with hnew | hold
  · cases hgrows with
    | kept none =>
        rw [none] at hnew
        cases hnew
    | cut some size isLeaf full pairs split others =>
        by_cases hnext : id = tree.bp.nextPage
        · rw [hnext, split.new_currentSize_eq]
          omega
        · have hinner := others id hnew hnext
          rw [htype] at hinner
          cases hinner
  · rw [h.type_eq id hold] at htype
    by_cases hsame : id = leaf
    · subst hsame
      cases hgrows with
      | kept none room link pairs =>
          have hlength := pairs.length_eq
          rw [Page.length_pairs, List.length_cons, Page.length_pairs] at hlength
          have hroot : id ≠ branch.root := by
            rintro rfl
            have hperm := h.ids_perm
            rw [none] at hperm
            exact hne (halone _ (hperm.mem_iff.mp hrooted'.subtree.root_mem) htype).symm
          have := hfilled id (Branch.mem_leaves.mpr ⟨hold, htype⟩) hroot
          omega
      | cut some size isLeaf full pairs split others =>
          rw [split.currentSize_eq]
    · rw [hothers id hold htype hsame]
      refine hfilled id (Branch.mem_leaves.mpr ⟨hold, htype⟩) ?_
      rintro rfl
      exact hsame (halone leaf hmem htype).symm

end Grown

/-- The pages of the tree stay below the counter. -/
theorem Represents.of_grown {cap height height' n : Nat} {tree tree' : IdealTree K V}
    {branch branch' : Branch K V} {key : K} {value : V} (h : Represents cap tree height branch)
    (hrooted' : Rooted cap tree' height' branch')
    (hgrown : Grown cap n tree tree' branch branch' key value) :
    Represents cap tree' height' branch' where
  root_eq := hrooted'.root_eq
  subtree := hrooted'.subtree
  nodup := hrooted'.nodup
  allocated := by
    intro id hid
    rw [hgrown.nextPage_eq]
    rcases List.mem_append.mp (hgrown.ids_perm.mem_iff.mp hid) with hnew | hold
    · have hbounds := mem_newPages.mp hnew
      exact ⟨le_trans h.rooted.next_nonneg hbounds.1, hbounds.2⟩
    · have hbounds := h.allocated id hold
      exact ⟨hbounds.1,
        lt_of_lt_of_le hbounds.2 (Int.le_add_of_nonneg_right (Int.natCast_nonneg n))⟩
  queue_eq := hrooted'.queue_eq

omit [Index K] [Value V] in
theorem LeafNode.First.pairs_eq {cap : Nat} {page : Page K V} {key : K} {value : V}
    (h : LeafNode.First cap page key value) : page.pairs = [(key, value)] := by
  rw [Page.pairs, h.currentSize_eq]
  exact congrArg₂ (fun k v => [(k, v)]) h.key_eq h.value_eq

/-! ## Runs of insertions -/

/-- What no insertion that returns changes about the number and the size of the nodes. -/
structure Occupied (cap : Nat) (pages : PageId → Page K V) (branch : Branch K V) : Prop where
  inners_le : (branch.inners pages).length ≤ 3
  filled : ∀ id ∈ branch.leaves pages, id ≠ branch.root → cap / 2 ≤ (pages id).currentSize

namespace Occupied

variable {cap height : Nat} {tree tree' : IdealTree K V} {branch branch' : Branch K V}

/-- An insertion makes an inner node only from the root. -/
theorem step {n : Nat} {pair : K × V} (h : Occupied cap tree.bp.pages branch)
    (hrooted : Rooted cap tree height branch) {height' : Nat}
    (hrooted' : Rooted cap tree' height' branch') (hnot : ¬ SplitsBelowRoot cap tree pair.1)
    (hallocates : Allocates cap tree pair.1 n)
    (hgrown : Grown cap n tree tree' branch branch' pair.1 pair.2) :
    Occupied cap tree'.bp.pages branch' where
  inners_le := by
    have hshape := hrooted.subtree.shape_of_inners h.inners_le
    have hle := h.inners_le
    rw [hgrown.length_inners]
    cases hallocates with
    | room | leaf => exact hle
    | rootLeaf isLeaf full =>
        rw [hrooted.root_eq] at isLeaf
        obtain rfl := hrooted.subtree.height_eq_zero isLeaf
        omega
    | rootInner descends isLeaf =>
        obtain ⟨path, hole, leaf, hfocus⟩ := hrooted.focusLeaf pair.1
        have hdescends := hfocus.descends
        rw [← hrooted.root_eq] at hdescends
        obtain ⟨hpath, _⟩ := descends.prefix_of_leaf isLeaf hdescends hfocus.subtree.1.type_eq
        have hheight := hfocus.length_path
        rw [← hpath, List.length_singleton] at hheight
        omega
    | belowRoot splits => exact absurd splits hnot
  filled _ hid hne := hgrown.filled hrooted hrooted' h.filled hid hne

end Occupied

/-- The tree object between two calls, with what a run of insertions makes of its nodes. -/
inductive Stays (cap : Nat) (tree : IdealTree K V) (pairs : List (K × V)) : Prop where
  | empty (root : tree.rootPageId = invalidPageId) (none : pairs = [])
  | rooted {height : Nat} {branch : Branch K V} (represents : Represents cap tree height branch)
      (perm : branch.entries.Perm pairs) (occupied : Occupied cap tree.bp.pages branch)

namespace Stays

variable {cap : Nat} {tree tree' : IdealTree K V} {pairs : List (K × V)} {pair : K × V}

theorem first (hcap : 5 ≤ cap) (hroot : tree.rootPageId = invalidPageId)
    (hnext : 0 ≤ tree.bp.nextPage) (hqueue : tree.frameQueue = [])
    (hinserts : Inserts cap tree pair tree') : Stays cap tree' [pair] := by
  obtain ⟨fuel, returned, hreturns⟩ := hinserts
  rw [IdealTree.insert_first hroot] at hreturns
  obtain ⟨tree'', page, hinsert, hrepresents, _, hfirst⟩ :=
    Represents.of_insertFirst cap (by omega) hnext hqueue pair.1 pair.2
  cases hinsert.symm.trans hreturns
  refine .rooted hrepresents (.of_eq hfirst.pairs_eq) ⟨?_, fun id hid hne => ?_⟩
  · rw [hrepresents.subtree.inners_zero]
    exact Nat.zero_le 3
  · rw [hrepresents.subtree.leaves_zero] at hid
    exact absurd (List.mem_singleton.mp hid) hne

theorem step (hcap : 5 ≤ cap) (h : Stays cap tree pairs) (hholds : Holds cap tree pairs)
    (hdistinct : DistinctKeys (pairs ++ [pair])) (hinserts : Inserts cap tree pair tree') :
    Stays cap tree' (pairs ++ [pair]) := by
  have hnot := (hholds.inserts_iff hcap hdistinct).mp ⟨tree', hinserts⟩
  cases h with
  | empty root none =>
      rw [none]
      cases hholds with
      | empty _ next queue => exact first hcap root next queue hinserts
      | rooted represents => exact absurd root represents.root_ne
  | @rooted height branch represents perm occupied =>
      have hadded : (pair :: branch.entries).Perm (pairs ++ [pair]) :=
        (perm.cons _).trans (List.perm_append_singleton pair pairs).symm
      have hright := represents.rooted.registersRight hcap (hdistinct.of_perm hadded)
      obtain ⟨n, hallocates, height', branch', hrooted', hgrown⟩ :=
        represents.rooted.grows_of_inserts hcap (fun n _ => represents.fresh n) hright hinserts
      refine .rooted (represents.of_grown hrooted' hgrown) (hgrown.entries_perm.trans hadded) ?_
      exact occupied.step represents.rooted hrooted' hnot hallocates hgrown

theorem of_run (hcap : 5 ≤ cap) {pages : PageId → Page K V}
    (hrun : Run (Inserts cap) (IdealTree.empty pages) pairs tree) (hdistinct : DistinctKeys pairs) :
    Stays cap tree pairs := by
  refine (hrun.invariant (fun pairs tree => DistinctKeys pairs →
    Holds cap tree pairs ∧ Stays cap tree pairs) ?_ ?_ hdistinct).2
  · exact fun _ => ⟨Holds.empty_tree pages, .empty rfl rfl⟩
  · intro before tree pair tree' ih hinserts hdistinct
    obtain ⟨hholds, hstays⟩ := ih (hdistinct.of_sublist (List.sublist_append_left _ _))
    exact ⟨hholds.insert_of_distinct hcap hdistinct hinserts,
      hstays.step hcap hholds hdistinct hinserts⟩

end Stays

/-! ## The height of the tree -/

namespace Subtree

variable {cap height : Nat} {pages : PageId → Page K V} {branch : Branch K V}

end Subtree

section Bounds

variable {cap height : Nat} {tree : IdealTree K V} {branch : Branch K V} {key : K}

end Bounds

end HiveDb.BPlusTree
