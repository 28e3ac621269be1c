import HiveDb.BPlusTree.IdealEval

/-!
# One insertion keeps the representation

A tree object over the ideal store represents a branch when its pages form the
branch without sharing.  Each case of an insertion is followed from the tree
before to the tree after it; the one case that does not return is the split of
an inner node below the root.

A tree that the program has built itself only has pages below the page counter.
The cases are followed for a tree wherever its pages are in the store, as long
as the pages the case allocates are not among them.
-/

namespace HiveDb.BPlusTree

open HiveDb.Lib
open HiveDb.Lib.Slots

variable {K V : Type} [Index K] [Value V]

/-- Between two calls the tree object represents the branch below its root. -/
structure Represents (cap : Nat) (tree : IdealTree K V) (height : Nat) (branch : Branch K V) :
    Prop where
  root_eq : tree.rootPageId = branch.root
  subtree : Subtree cap tree.bp.pages height branch
  nodup : branch.ids.Nodup
  allocated : ∀ id ∈ branch.ids, 0 ≤ id ∧ id < tree.bp.nextPage
  queue_eq : tree.frameQueue = []

/-- The pages form a branch without sharing, wherever they are in the store. -/
structure Rooted (cap : Nat) (tree : IdealTree K V) (height : Nat) (branch : Branch K V) :
    Prop where
  root_eq : tree.rootPageId = branch.root
  root_ne : tree.rootPageId ≠ invalidPageId
  subtree : Subtree cap tree.bp.pages height branch
  nodup : branch.ids.Nodup
  next_nonneg : 0 ≤ tree.bp.nextPage
  queue_eq : tree.frameQueue = []

def leafBranch (id : PageId) (page : Page K V) : Branch K V := ⟨id, [id], page.pairs⟩

/-- An inner node with `n` children as a branch. -/
def innerBranch (id : PageId) (children : Nat → Branch K V) (n : Nat) : Branch K V :=
  ⟨id, id :: flat (fun i => (children i).ids) n, flat (fun i => (children i).entries) n⟩

theorem Subtree.of_leaf {cap : Nat} {pages : PageId → Page K V} {id : PageId} {page : Page K V}
    (hpage : pages id = page) (hleaf : IsLeaf cap page) (hroom : page.currentSize < cap) :
    Subtree cap pages 0 (leafBranch id page) := by
  subst hpage
  exact ⟨hleaf, hroom, rfl, rfl⟩

theorem Subtree.eq_leafBranch {cap : Nat} {pages : PageId → Page K V} {branch : Branch K V}
    (h : Subtree cap pages 0 branch) : branch = leafBranch branch.root (pages branch.root) := by
  obtain ⟨root, ids, entries⟩ := branch
  obtain ⟨_, _, hids, hentries⟩ := h
  simp only at hids hentries
  subst hids
  subst hentries
  rfl

theorem Subtree.of_inner {cap height n : Nat} {pages : PageId → Page K V} {id : PageId}
    {page : Page K V} {children : Nat → Branch K V} (hpage : pages id = page)
    (hinner : IsInner cap page children) (hsize : page.currentSize = n) (hroom : n < cap)
    (hsub : ∀ i, i < n → Subtree cap pages height (children i)) :
    Subtree cap pages (height + 1) (innerBranch id children n) := by
  subst hpage
  subst hsize
  exact ⟨children, hinner, hroom, rfl, rfl, hsub⟩

/--
If inserting the key fills its leaf, the first key of the upper half of that
leaf is registered at the position of the leaf among its siblings.
-/
def RegistersRight (cap : Nat) (tree : IdealTree K V) (key : K) (value : V) : Prop :=
  ∀ path parent leaf node j, tree.rootPageId ≠ invalidPageId →
    Descends tree.bp.pages key tree.rootPageId (path ++ [parent]) leaf →
    (tree.bp.pages leaf).type = .leafNode → (tree.bp.pages leaf).currentSize + 1 = cap →
    LeafNode.trivialInsert key value (Node.ofBuffer (tree.bp.pages leaf)) = .ok node →
    InnerNode.findIndex (Node.ofBuffer (tree.bp.pages parent)) key = .ok j →
    InnerNode.findIndexForInsert (Node.ofBuffer (tree.bp.pages parent))
      (node.buffer.keys (cap / 2)) = .ok j

/-! ## New pages -/

/-- The next `n` pages the store allocates. -/
def newPages (next : PageId) (n : Nat) : List PageId :=
  (List.range n).map fun k : Nat => next + (k : Int)

theorem mem_newPages {next id : Int} {n : Nat} :
    id ∈ newPages next n ↔ next ≤ id ∧ id < next + n := by
  rw [newPages, List.mem_map]
  constructor
  · rintro ⟨k, hk, rfl⟩
    have hlt := List.mem_range.mp hk
    omega
  · rintro ⟨hle, hlt⟩
    exact ⟨(id - next).toNat, List.mem_range.mpr (by omega), by omega⟩

theorem nodup_newPages (next : PageId) (n : Nat) : (newPages next n).Nodup :=
  List.nodup_range.map fun _ _ heq => Int.ofNat_inj.mp (Int.add_left_cancel heq)

theorem newPages_one (next : PageId) : newPages next 1 = [next] :=
  congrArg (fun id => [id]) (Int.add_zero next)

/-- The next `n` pages are not pages of the branch. -/
def FreshFor (tree : IdealTree K V) (branch : Branch K V) (n : Nat) : Prop :=
  ∀ id ∈ newPages tree.bp.nextPage n, id ∉ branch.ids

/-! ## Pages around a hole -/

section Outside

omit [Index K] [Value V]

theorem Hole.not_mem_outside {hole : Hole K V} {branch : Branch K V} {id : PageId}
    (hnodup : (hole.fill branch).ids.Nodup) (hid : id ∈ branch.ids) : id ∉ hole.outside := by
  intro hmem
  have happend := List.nodup_append.mp hnodup
  rcases List.mem_append.mp hmem with hbefore | hafter
  · exact (List.nodup_append.mp happend.1).2.2 id hbefore id hid rfl
  · exact happend.2.2 id (List.mem_append_right _ hid) id hafter rfl

theorem Hole.outside_subset {hole : Hole K V} {branch : Branch K V} {id : PageId}
    (hid : id ∈ hole.outside) : id ∈ (hole.fill branch).ids := by
  rcases List.mem_append.mp hid with hbefore | hafter
  · exact List.mem_append_left _ (List.mem_append_left _ hbefore)
  · exact List.mem_append_right _ hafter

theorem Hole.ids_subset {hole : Hole K V} {branch : Branch K V} {id : PageId}
    (hid : id ∈ branch.ids) : id ∈ (hole.fill branch).ids :=
  List.mem_append_left _ (List.mem_append_right _ hid)

end Outside

/-- Filling a hole with more fills the whole with the same more. -/
theorem perm_fill {α : Type} {before after middle middle' : List α} (added : List α)
    (h : middle'.Perm (added ++ middle)) :
    (before ++ middle' ++ after).Perm (added ++ (before ++ middle ++ after)) := by
  calc
    (before ++ middle' ++ after).Perm (before ++ (added ++ middle) ++ after) :=
      (h.append_left before).append_right after
    List.Perm _ (added ++ before ++ middle ++ after) := by
      rw [← List.append_assoc before]
      exact ((List.perm_append_comm).append_right middle).append_right after
    List.Perm _ (added ++ (before ++ middle ++ after)) := by
      rw [List.append_assoc, List.append_assoc, List.append_assoc]

/-! ## What an insertion does to the pages -/

/-- The leaf that takes the pair in has room for it, or it is cut in two. -/
inductive LeafGrows (cap n : Nat) (tree tree' : IdealTree K V) (leaf : PageId) (key : K)
    (value : V) : Prop where
  | kept (none : n = 0) (room : (tree.bp.pages leaf).currentSize + 1 < cap)
      (link : (tree'.bp.pages leaf).linkedPageId = (tree.bp.pages leaf).linkedPageId)
      (pairs : (tree'.bp.pages leaf).pairs.Perm ((key, value) :: (tree.bp.pages leaf).pairs))
  | cut {mid : Page K V} (some : 0 < n) (size : (tree.bp.pages leaf).currentSize + 1 = cap)
      (isLeaf : IsLeaf cap mid) (full : mid.currentSize = cap)
      (pairs : mid.pairs.Perm ((key, value) :: (tree.bp.pages leaf).pairs))
      (split : LeafNode.Split cap tree.bp.nextPage mid (tree.bp.pages tree.bp.nextPage)
        (tree'.bp.pages leaf) (tree'.bp.pages tree.bp.nextPage))
      (others : ∀ id ∈ newPages tree.bp.nextPage n, id ≠ tree.bp.nextPage →
        (tree'.bp.pages id).type = .innerNode)

/-- The branch after an insertion that allocates `n` pages. -/
structure Grown (cap n : Nat) (tree tree' : IdealTree K V) (branch branch' : Branch K V) (key : K)
    (value : V) : Prop where
  nextPage_eq : tree'.bp.nextPage = tree.bp.nextPage + (n : Int)
  ids_perm : branch'.ids.Perm (newPages tree.bp.nextPage n ++ branch.ids)
  entries_perm : branch'.entries.Perm ((key, value) :: branch.entries)
  type_eq : ∀ id ∈ branch.ids, (tree'.bp.pages id).type = (tree.bp.pages id).type
  leaf : ∃ path leaf, Descends tree.bp.pages key tree.rootPageId path leaf ∧
    leaf ∈ branch.ids ∧ (tree.bp.pages leaf).type = .leafNode ∧
    LeafGrows cap n tree tree' leaf key value ∧
    ∀ id ∈ branch.ids, (tree.bp.pages id).type = .leafNode → id ≠ leaf →
      tree'.bp.pages id = tree.bp.pages id

/-- What an insertion that returns and allocates `n` pages leaves behind. -/
def GrowsTo (cap n : Nat) (tree tree' : IdealTree K V) (branch : Branch K V) (key : K)
    (value : V) : Prop :=
  ∃ height' branch', Rooted cap tree' height' branch' ∧
    Grown cap n tree tree' branch branch' key value

namespace Represents

variable {cap height : Nat} {tree tree' : IdealTree K V} {branch : Branch K V} {key : K} {value : V}

theorem root_ne (h : Represents cap tree height branch) : tree.rootPageId ≠ invalidPageId := by
  have hroot := (h.allocated branch.root h.subtree.root_mem).1
  rw [h.root_eq]
  intro heq
  rw [heq] at hroot
  exact absurd hroot (by decide)

theorem rooted (h : Represents cap tree height branch) : Rooted cap tree height branch where
  root_eq := h.root_eq
  root_ne := h.root_ne
  subtree := h.subtree
  nodup := h.nodup
  next_nonneg := by
    have hbounds := h.allocated branch.root h.subtree.root_mem
    exact le_trans hbounds.1 (le_of_lt hbounds.2)
  queue_eq := h.queue_eq

/-- The pages behind the counter are not in use. -/
theorem fresh (h : Represents cap tree height branch) (n : Nat) : FreshFor tree branch n := by
  intro id hid hmem
  exact absurd (mem_newPages.mp hid).1 (not_le.mpr (h.allocated id hmem).2)

/-- What an insertion that returns leaves behind. -/
def Takes (cap : Nat) (tree' : IdealTree K V) (branch : Branch K V) (key : K) (value : V) : Prop :=
  ∃ height' branch', Represents cap tree' height' branch' ∧
    branch'.entries.Perm ((key, value) :: branch.entries)

/-- The pages of the tree stay below the counter. -/
theorem takes {n : Nat} (h : Represents cap tree height branch)
    (hgrows : GrowsTo cap n tree tree' branch key value) : Takes cap tree' branch key value := by
  obtain ⟨height', branch', hrooted, hgrown⟩ := hgrows
  refine ⟨height', branch', ⟨hrooted.root_eq, hrooted.subtree, hrooted.nodup, ?_,
    hrooted.queue_eq⟩, hgrown.entries_perm⟩
  intro id hid
  rw [hgrown.nextPage_eq]
  rcases List.mem_append.mp (hgrown.ids_perm.mem_iff.mp hid) with hnew | hold
  · have hbounds := mem_newPages.mp hnew
    exact ⟨le_trans h.rooted.next_nonneg hbounds.1, hbounds.2⟩
  · have hbounds := h.allocated id hold
    exact ⟨hbounds.1, lt_of_lt_of_le hbounds.2 (Int.le_add_of_nonneg_right (Int.natCast_nonneg n))⟩

end Represents

namespace FreshFor

omit [Index K] [Value V]

variable {tree : IdealTree K V} {branch : Branch K V} {n m : Nat}

theorem zero (tree : IdealTree K V) (branch : Branch K V) : FreshFor tree branch 0 :=
  fun _ hid => nomatch hid

theorem mono (h : FreshFor tree branch n) (hle : m ≤ n) : FreshFor tree branch m := by
  intro id hid
  have hbounds := mem_newPages.mp hid
  refine h id (mem_newPages.mpr ⟨hbounds.1, lt_of_lt_of_le hbounds.2 ?_⟩)
  exact Int.add_le_add_left (Int.ofNat_le.mpr hle) _

theorem ne {k : Nat} {id : PageId} (h : FreshFor tree branch n) (hk : k < n)
    (hid : id ∈ branch.ids) : id ≠ tree.bp.nextPage + (k : Int) := by
  rintro rfl
  exact h _ (List.mem_map.mpr ⟨k, List.mem_range.mpr hk, rfl⟩) hid

theorem ne_next {id : PageId} (h : FreshFor tree branch (n + 1)) (hid : id ∈ branch.ids) :
    id ≠ tree.bp.nextPage := by
  have hne := h.ne (Nat.succ_pos n) hid
  rwa [Int.natCast_zero, Int.add_zero] at hne

end FreshFor

namespace Rooted

variable {cap height : Nat} {tree tree' : IdealTree K V} {branch : Branch K V} {key : K} {value : V}

/-- Exchanging the subtree a key belongs to for one that has taken the key in. -/
theorem exchange {low depth n : Nat} {path : List PageId} {hole : Hole K V}
    {target : Branch K V} (h : Rooted cap tree (low + depth) branch)
    (target' : Branch K V)
    (hfocus : Focus cap tree.bp.pages key low depth branch path hole target)
    (hroot : tree'.rootPageId = tree.rootPageId) (hqueue : tree'.frameQueue = [])
    (hpages : ∀ id ∈ branch.ids, id ∉ target.ids → tree'.bp.pages id = tree.bp.pages id)
    (hnext : tree'.bp.nextPage = tree.bp.nextPage + (n : Int)) (hfresh : FreshFor tree branch n)
    (hsub : Subtree cap tree'.bp.pages low target') (htarget : target'.root = target.root)
    (hids : target'.ids.Perm (newPages tree.bp.nextPage n ++ target.ids))
    (hentries : target'.entries.Perm ((key, value) :: target.entries)) :
    Rooted cap tree' (low + depth) (hole.fill target') ∧
      (hole.fill target').ids.Perm (newPages tree.bp.nextPage n ++ branch.ids) ∧
      (hole.fill target').entries.Perm ((key, value) :: branch.entries) := by
  have hbranch := hfocus.fill_eq
  have hnodup : (hole.fill target).ids.Nodup := hbranch ▸ h.nodup
  have hidsAll : (hole.fill target').ids.Perm (newPages tree.bp.nextPage n ++ branch.ids) := by
    rw [← hbranch]
    exact perm_fill _ hids
  refine ⟨⟨?_, hroot ▸ h.root_ne, ?_, ?_, ?_, hqueue⟩, hidsAll, ?_⟩
  · rw [hroot, h.root_eq, ← hbranch]
    rfl
  · refine hfocus.replace _ _ htarget (Grows.of_perm hentries) ?_ hsub
    intro id hid
    refine hpages id (hbranch ▸ Hole.outside_subset hid) ?_
    intro hmem
    exact Hole.not_mem_outside hnodup hmem hid
  · rw [hidsAll.nodup_iff, List.nodup_append]
    refine ⟨nodup_newPages _ n, h.nodup, ?_⟩
    rintro id hid _ hold rfl
    exact hfresh id hid hold
  · rw [hnext]
    exact Int.add_nonneg h.next_nonneg (Int.natCast_nonneg n)
  · rw [← hbranch]
    exact perm_fill [(key, value)] hentries

/-! ## The cases of an insertion -/

/-- The leaf a key belongs to has room for one more pair. -/
theorem insert_room {fuel : Nat} {path : List PageId} {hole : Hole K V} {leaf : Branch K V}
    (h : Rooted cap tree (0 + height) branch)
    (hfocus : Focus cap tree.bp.pages key 0 height branch path hole leaf)
    (hroom : (tree.bp.pages leaf.root).currentSize + 1 < cap) :
    ∃ tree', insert cap (height + (fuel + 1)) key value tree = .ok true tree' ∧
      GrowsTo cap 0 tree tree' branch key value := by
  have hleaf := hfocus.subtree.1
  have hdescends := hfocus.descends
  rw [← h.root_eq] at hdescends
  obtain ⟨w, page', hinsert, hposition, hinserted⟩ := IdealTree.insertIntoLeaf_room
    (tree.queued (path.reverse ++ tree.frameQueue)) leaf.root key value hleaf hroom
  have hplace : findPlaceLoop cap key value (height + (fuel + 1)) tree.rootPageId tree =
      .ok none ((tree.queued (path.reverse ++ tree.frameQueue)).put leaf.root page') := by
    rw [← hfocus.length_path, IdealTree.findPlaceLoop_descends cap value hdescends,
      IdealTree.findPlaceLoop_leaf (by exact hleaf.type_eq)]
    exact hinsert
  refine ⟨_, IdealTree.insert_unsplit h.root_ne hplace, ?_⟩
  have hleaf' : IsLeaf cap page' := hleaf.insert (by omega) hposition hinserted
  have hids : leaf.ids = [leaf.root] := hfocus.subtree.2.2.1
  have hentries : leaf.entries = (tree.bp.pages leaf.root).pairs := hfocus.subtree.2.2.2
  have hpairs := IsLeaf.pairs_insert hposition.le hinserted
  generalize htree : ((tree.queued (path.reverse ++ tree.frameQueue)).put leaf.root page').queued
    [] = tree'
  have hself : tree'.bp.pages leaf.root = page' := by
    rw [← htree]
    exact IdealTree.put_pages_self _ _ _
  have hother : ∀ id, id ≠ leaf.root → tree'.bp.pages id = tree.bp.pages id := by
    intro id hid
    rw [← htree]
    exact IdealTree.put_pages_of_ne _ _ hid
  obtain ⟨hrooted, hidsAll, hentriesAll⟩ := h.exchange
    (leafBranch leaf.root page') hfocus (show tree'.rootPageId = _ from htree ▸ rfl) (htree ▸ rfl)
    (fun id _ hid => hother id fun heq => hid (heq ▸ hfocus.subtree.root_mem))
    (by rw [← htree]; exact (Int.add_zero _).symm) (FreshFor.zero tree branch)
    (Subtree.of_leaf hself hleaf' (by rw [hinserted.currentSize_eq]; exact hroom)) rfl
    (by rw [hids]; exact List.Perm.refl _) (by rw [hentries]; exact hpairs)
  refine ⟨_, _, hrooted, (by rw [← htree]; exact (Int.add_zero _).symm), hidsAll, hentriesAll, ?_,
    path, leaf.root, hdescends, ?_, hleaf.type_eq, ?_, fun id _ _ hne => hother id hne⟩
  · intro id _
    by_cases hid : id = leaf.root
    · rw [hid, hself]
      exact hinserted.type_eq
    · rw [hother id hid]
  · rw [← hfocus.fill_eq]
    exact Hole.ids_subset hfocus.subtree.root_mem
  · exact .kept rfl hroom (hself ▸ hinserted.linkedPageId_eq) (hself ▸ hpairs)

def twoChildren (left right : Branch K V) : Nat → Branch K V := fun i =>
  if i = 0 then left else right

omit [Index K] [Value V] in
theorem ids_two (id : PageId) (left right : Branch K V) :
    (innerBranch id (twoChildren left right) 2).ids = id :: (left.ids ++ right.ids) :=
  congrArg (id :: ·) (flat_two fun i => (twoChildren left right i).ids)

omit [Index K] [Value V] in
theorem entries_two (id : PageId) (left right : Branch K V) :
    (innerBranch id (twoChildren left right) 2).entries = left.entries ++ right.entries :=
  flat_two fun i => (twoChildren left right i).entries

/-- A new root over two branches that its key separates. -/
theorem isInner_of_newRoot {rootPage : Page K V} {separator : K} {left right : Branch K V}
    (hcap : 2 ≤ cap) (hroot : IdealTree.NewRoot cap rootPage separator left.root right.root)
    (hseparates : Separates (twoChildren left right) 2 0 separator) :
    IsInner cap rootPage (twoChildren left right) where
  type_eq := hroot.type_eq
  maxSize_eq := hroot.maxSize_eq
  two_le := by rw [hroot.currentSize_eq]
  le := by rwa [hroot.currentSize_eq]
  child_eq := by
    intro i hi
    rw [hroot.currentSize_eq] at hi
    rcases Nat.eq_zero_or_pos i with rfl | hpos
    · exact hroot.left_eq
    · obtain rfl : i = 1 := by omega
      exact hroot.right_eq
  separates := by
    intro i hi
    rw [hroot.currentSize_eq] at hi ⊢
    obtain rfl : i = 0 := by omega
    rw [hroot.key_eq]
    exact hseparates

/-- The tree after its root, the page `root` of `split`, has been cut in two below a new root. -/
structure RootGrown (split tree' : IdealTree K V) (root : PageId)
    (leftPage rightPage rootPage : Page K V) : Prop where
  root_eq : tree'.rootPageId = split.bp.nextPage + 1
  nextPage_eq : tree'.bp.nextPage = split.bp.nextPage + 1 + 1
  queue_eq : tree'.frameQueue = []
  rootPage_eq : tree'.bp.pages (split.bp.nextPage + 1) = rootPage
  leftPage_eq : tree'.bp.pages root = leftPage
  rightPage_eq : tree'.bp.pages split.bp.nextPage = rightPage
  other_eq : ∀ id, id ≠ root → id ≠ split.bp.nextPage → id ≠ split.bp.nextPage + 1 →
    tree'.bp.pages id = split.bp.pages id

theorem RootGrown.rooted {low : Nat} {split : IdealTree K V} {root : PageId}
    {leftPage rightPage rootPage : Page K V} {separator : K} {left right : Branch K V}
    (grown : RootGrown split tree' root leftPage rightPage rootPage) (hcap : 3 ≤ cap)
    (hroot : IdealTree.NewRoot cap rootPage separator left.root right.root)
    (hleft : Subtree cap tree'.bp.pages low left) (hright : Subtree cap tree'.bp.pages low right)
    (hseparates : Separates (twoChildren left right) 2 0 separator)
    (hnodup : ((split.bp.nextPage + 1) :: (left.ids ++ right.ids)).Nodup)
    (hnonneg : 0 ≤ split.bp.nextPage) :
    Rooted cap tree' (low + 1)
      (innerBranch (split.bp.nextPage + 1) (twoChildren left right) 2) := by
  have hids := ids_two (split.bp.nextPage + 1) left right
  have hroot_nonneg : 0 ≤ split.bp.nextPage + 1 := le_trans hnonneg (le_of_lt (Int.lt_succ _))
  refine ⟨grown.root_eq, ?_, ?_, hids ▸ hnodup, ?_, grown.queue_eq⟩
  · intro heq
    rw [← grown.root_eq, heq] at hroot_nonneg
    exact absurd hroot_nonneg (by decide)
  · refine Subtree.of_inner grown.rootPage_eq
      (isInner_of_newRoot (by omega) hroot hseparates) hroot.currentSize_eq (by omega) ?_
    intro i hi
    rcases Nat.eq_zero_or_pos i with rfl | hpos
    · exact hleft
    · obtain rfl : i = 1 := by omega
      exact hright
  · rw [grown.nextPage_eq]
    exact le_trans hroot_nonneg (le_of_lt (Int.lt_succ _))

omit [Value V] in
/-- The two halves of a cut child are separated by the first key of the right one. -/
theorem separates_two {child left right : Branch K V} {separator : K}
    (hcut : IsInner.Cut child left right separator) :
    Separates (twoChildren left right) 2 0 separator where
  left := by
    intro m hm x hx
    obtain rfl : m = 0 := by omega
    exact hcut.left_le x hx
  right := by
    intro m hm hn x hx
    obtain rfl : m = 1 := by omega
    exact hcut.le_right x hx
  found := .inr hcut.right_first

omit [Value V] in
theorem cut_of_split (leaf : PageId) {newPageId : PageId} {mid newPage page' newPage' : Page K V}
    (hcap : 2 ≤ cap) (hleaf : IsLeaf cap mid) (hfull : mid.currentSize = cap)
    (hsplit : LeafNode.Split cap newPageId mid newPage page' newPage') :
    IsInner.Cut (leafBranch leaf mid) (leafBranch leaf page') (leafBranch newPageId newPage')
      (newPage'.keys 0) where
  root_eq := rfl
  entries_eq := IsLeaf.pairs_split hfull hsplit
  left_ne_nil := by
    obtain ⟨x, hx, _⟩ := (hleaf.split_left hcap hfull hsplit).first_mem
    exact ⟨x, hx⟩
  left_le x hx := hleaf.le_new_first hfull hsplit hx hcap
  le_right x hx := (hleaf.split_right hcap hfull hsplit).first_le hx
  right_first := (hleaf.split_right hcap hfull hsplit).first_mem

/-- Cutting a root that is a full leaf and growing the tree by one level. -/
theorem growRootLeaf (key : K) (value : V) (fuel : Nat) (hcap : 2 ≤ cap)
    (hrootNe : tree.rootPageId ≠ invalidPageId)
    (hqueue : tree.frameQueue = []) (hleaf : IsLeaf cap (tree.bp.pages tree.rootPageId))
    (hfull : (tree.bp.pages tree.rootPageId).currentSize + 1 = cap)
    (hne : tree.rootPageId ≠ tree.bp.nextPage) (hne' : tree.rootPageId ≠ tree.bp.nextPage + 1) :
    ∃ (tree' : IdealTree K V) (w : Nat) (mid page' newPage' rootPage : Page K V),
      insert cap (fuel + 1) key value tree = .ok true tree' ∧
      Node.IsPosition (tree.bp.pages tree.rootPageId)
        (tree.bp.pages tree.rootPageId).currentSize key w ∧
      LeafNode.Inserted (tree.bp.pages tree.rootPageId) mid w key value ∧
      LeafNode.Split cap tree.bp.nextPage mid (tree.bp.pages tree.bp.nextPage) page' newPage' ∧
      IdealTree.NewRoot cap rootPage (newPage'.keys 0) tree.rootPageId tree.bp.nextPage ∧
      RootGrown tree tree' tree.rootPageId page' newPage' rootPage := by
  have hnext : tree.bp.nextPage ≠ tree.bp.nextPage + 1 := ne_of_lt (Int.lt_succ _)
  obtain ⟨w, mid, page', newPage', hinsert, _, hposition, hinserted, hsplit⟩ :=
    IdealTree.insertIntoLeaf_full tree tree.rootPageId key value hcap hleaf hfull hne.symm
  have hmid : IsLeaf cap mid := hleaf.insert (by omega) hposition hinserted
  have hmidFull : mid.currentSize = cap := hinserted.currentSize_eq.trans hfull
  have hplace : findPlaceLoop cap key value (fuel + 1) tree.rootPageId tree =
      .ok (some tree.bp.nextPage) ((((tree.put tree.rootPageId mid).allocated).put tree.rootPageId
        page').put tree.bp.nextPage newPage') := by
    rw [IdealTree.findPlaceLoop_leaf hleaf.type_eq]
    exact hinsert
  obtain ⟨rootPage, hcreate, hroot⟩ := IdealTree.createRootWithLeaves_eq
    ((((tree.put tree.rootPageId mid).allocated).put tree.rootPageId page').put tree.bp.nextPage
      newPage') tree.bp.nextPage hcap (by
        rw [IdealTree.put_pages_self]
        exact (hmid.split_right hcap hmidFull hsplit).maxSize_eq)
  rw [IdealTree.put_pages_self] at hroot
  refine ⟨_, w, mid, page', newPage', rootPage,
    IdealTree.insert_splitRoot hrootNe hplace hqueue hcreate, hposition, hinserted, hsplit, hroot,
    rfl, rfl, hqueue, IdealTree.put_pages_self _ _ _, ?_, ?_, ?_⟩
  · exact (IdealTree.put_pages_of_ne _ _ hne').trans
      ((IdealTree.put_pages_of_ne _ _ hne).trans (IdealTree.put_pages_self _ _ _))
  · exact (IdealTree.put_pages_of_ne _ _ hnext).trans (IdealTree.put_pages_self _ _ _)
  · intro id hid hidRight hidRoot
    exact (IdealTree.put_pages_of_ne _ _ hidRoot).trans
      ((IdealTree.put_pages_of_ne _ _ hidRight).trans
        ((IdealTree.put_pages_of_ne _ _ hid).trans (IdealTree.put_pages_of_ne _ _ hid)))

/-- The root is a leaf and fills up. -/
theorem insert_splitRootLeaf {fuel : Nat} (hcap : 5 ≤ cap) (h : Rooted cap tree 0 branch)
    (hfresh : FreshFor tree branch 2)
    (hfull : (tree.bp.pages branch.root).currentSize + 1 = cap) :
    ∃ tree', insert cap (fuel + 1) key value tree = .ok true tree' ∧
      GrowsTo cap 2 tree tree' branch key value := by
  have hleaf := h.subtree.1
  have hids : branch.ids = [branch.root] := h.subtree.2.2.1
  have hentries : branch.entries = (tree.bp.pages branch.root).pairs := h.subtree.2.2.2
  have hneNew := hfresh.ne_next h.subtree.root_mem
  have hneRoot : branch.root ≠ tree.bp.nextPage + 1 := hfresh.ne Nat.one_lt_two h.subtree.root_mem
  have hgrow := growRootLeaf key value fuel (by omega) h.root_ne h.queue_eq
    (h.root_eq ▸ hleaf)
    (h.root_eq ▸ hfull) (h.root_eq ▸ hneNew) (h.root_eq ▸ hneRoot)
  rw [h.root_eq] at hgrow
  obtain ⟨tree', w, mid, page', newPage', rootPage, hinsert, hposition, hinserted, hsplit, hroot,
    grown⟩ := hgrow
  have hmid : IsLeaf cap mid := hleaf.insert (by omega) hposition hinserted
  have hmidFull : mid.currentSize = cap := hinserted.currentSize_eq.trans hfull
  have hpairs := IsLeaf.pairs_insert hposition.le hinserted
  have hcut := cut_of_split branch.root (by omega) hmid hmidFull hsplit
  have hleft : Subtree cap tree'.bp.pages 0 (leafBranch branch.root page') := by
    refine Subtree.of_leaf grown.leftPage_eq (hmid.split_left (by omega) hmidFull hsplit) ?_
    rw [hsplit.currentSize_eq]
    omega
  have hright : Subtree cap tree'.bp.pages 0 (leafBranch tree.bp.nextPage newPage') := by
    refine Subtree.of_leaf grown.rightPage_eq (hmid.split_right (by omega) hmidFull hsplit) ?_
    rw [hsplit.new_currentSize_eq]
    omega
  have hnewIds : newPages tree.bp.nextPage 2 = [tree.bp.nextPage, tree.bp.nextPage + 1] :=
    congrArg (· :: _) (Int.add_zero _)
  refine ⟨tree', hinsert, 1, _, grown.rooted (by omega) hroot hleft hright (separates_two hcut) ?_
    h.next_nonneg, ?_, ?_, ?_, ?_, [], branch.root, ?_, h.subtree.root_mem, hleaf.type_eq,
    .cut Nat.two_pos hfull hmid hmidFull hpairs ?_ ?_, ?_⟩
  · simp [leafBranch, hneRoot.symm, hneNew, (Int.lt_succ tree.bp.nextPage).ne']
  · rw [grown.nextPage_eq, Int.add_assoc]
    rfl
  · rw [ids_two, hnewIds, hids]
    show [tree.bp.nextPage + 1, branch.root, tree.bp.nextPage].Perm
      [tree.bp.nextPage, tree.bp.nextPage + 1, branch.root]
    exact List.perm_append_comm_assoc [tree.bp.nextPage + 1, branch.root] [tree.bp.nextPage] []
  · have hboth : page'.pairs ++ newPage'.pairs = mid.pairs := hcut.entries_eq.symm
    rw [entries_two, hentries]
    show (page'.pairs ++ newPage'.pairs).Perm _
    rw [hboth]
    exact hpairs
  · intro id hid
    rw [hids] at hid
    obtain rfl := List.mem_singleton.mp hid
    rw [grown.leftPage_eq, hsplit.type_eq, hinserted.type_eq]
  · rw [h.root_eq]
    exact .here _
  · rw [grown.leftPage_eq, grown.rightPage_eq]
    exact hsplit
  · intro id hid hne
    rw [hnewIds] at hid
    obtain rfl : id = tree.bp.nextPage + 1 := by simpa [hne] using hid
    rw [grown.rootPage_eq, hroot.type_eq]
  · intro id hid _ hne
    rw [hids] at hid
    exact absurd (List.mem_singleton.mp hid) hne

/-! ### A leaf is cut in two below an inner node -/

section SplitLeaf

variable {children : Nat → Branch K V} {j n : Nat} {leaf newPageId : PageId}
  {old mid newPage page' newPage' : Page K V} {pages' : PageId → Page K V}

omit [Index K] [Value V] in
/-- The pages below the inner node after the cut. -/
theorem ids_cutLeaf (newPageId : PageId) (page' newPage' : Page K V) (hj : j < n)
    (hchild : children j = leafBranch leaf old) :
    (flat (fun i => (IsInner.cutChildren children j (leafBranch leaf page')
      (leafBranch newPageId newPage') i).ids) (n + 1)).Perm
        ([newPageId] ++ flat (fun i => (children i).ids) n) := by
  rw [IsInner.flat_cutChildren Branch.ids hj, flat_eq_append _ hj, hchild]
  exact perm_fill [newPageId] (List.Perm.swap newPageId leaf [])

omit [Index K] [Value V] in
/-- The pairs below the inner node after the cut. -/
theorem entries_cutLeaf (newPageId : PageId) (hj : j < n)
    (hchild : children j = leafBranch leaf old)
    (hsplit : mid.pairs = page'.pairs ++ newPage'.pairs)
    (hinsert : mid.pairs.Perm ((key, value) :: old.pairs)) :
    (flat (fun i => (IsInner.cutChildren children j (leafBranch leaf page')
      (leafBranch newPageId newPage') i).entries) (n + 1)).Perm
        ([(key, value)] ++ flat (fun i => (children i).entries) n) := by
  rw [IsInner.flat_cutChildren Branch.entries hj, flat_eq_append _ hj, hchild]
  exact perm_fill [(key, value)] (hsplit ▸ hinsert)

/-- The children after the cut, in pages where only the cut leaf and its new sibling changed. -/
theorem subtree_cutLeaf (pages : PageId → Page K V) (hj : j < n)
    (hchild : children j = leafBranch leaf old)
    (hnodup : (flat (fun i => (children i).ids) n).Nodup)
    (hsub : ∀ i, i < n → Subtree cap pages 0 (children i))
    (hpages : ∀ i, i < n → i ≠ j → ∀ id ∈ (children i).ids, id ≠ leaf → pages' id = pages id)
    (hleaf : pages' leaf = page') (hnew : pages' newPageId = newPage')
    (hleft : IsLeaf cap page') (hleftRoom : page'.currentSize < cap)
    (hright : IsLeaf cap newPage') (hrightRoom : newPage'.currentSize < cap) {i : Nat}
    (hi : i < n + 1) :
    Subtree cap pages' 0 (IsInner.cutChildren children j (leafBranch leaf page')
      (leafBranch newPageId newPage') i) := by
  have hsame : ∀ k, k < n → k ≠ j → Subtree cap pages' 0 (children k) := by
    intro k hk hkj
    refine (hsub k hk).congr fun id hid => hpages k hk hkj id hid ?_
    rintro rfl
    have hmem : id ∈ (children j).ids := by
      rw [hchild]
      exact List.mem_singleton_self id
    exact not_mem_of_nodup_flat hnodup hk hj hkj hid hmem
  rcases Nat.lt_trichotomy i j with hlt | rfl | hgt
  · rw [IsInner.cutChildren_of_lt hlt]
    exact hsame i (by omega) (by omega)
  · rw [IsInner.cutChildren_left]
    exact Subtree.of_leaf hleaf hleft hleftRoom
  · obtain ⟨k, rfl⟩ : ∃ k, i = k + 1 := ⟨i - 1, by omega⟩
    rcases Nat.eq_or_lt_of_le (Nat.le_of_lt_succ hgt) with rfl | hlt
    · rw [IsInner.cutChildren_right]
      exact Subtree.of_leaf hnew hright hrightRoom
    · rw [IsInner.cutChildren_succ_of_gt hlt]
      exact hsame k (by omega) (by omega)

end SplitLeaf

/-- The tree after a leaf below `parent` has been cut in two and before it is registered. -/
structure LeafCut (cap : Nat) (tree tree' : IdealTree K V) (parent leaf : PageId)
    (path : List PageId) (key : K) (value : V) (mid page' newPage' : Page K V) : Prop where
  root_eq : tree'.rootPageId = tree.rootPageId
  nextPage_eq : tree'.bp.nextPage = tree.bp.nextPage + 1
  queue_eq : tree'.frameQueue = parent :: path.reverse
  new_eq : tree'.bp.pages tree.bp.nextPage = newPage'
  leaf_eq : tree'.bp.pages leaf = page'
  other_eq : ∀ id, id ≠ leaf → id ≠ tree.bp.nextPage → tree'.bp.pages id = tree.bp.pages id
  inserted : LeafNode.trivialInsert key value (Node.ofBuffer (tree.bp.pages leaf)) =
    .ok (Node.ofBuffer mid)
  isLeaf : IsLeaf cap mid
  full : mid.currentSize = cap
  pairs_insert : mid.pairs.Perm ((key, value) :: (tree.bp.pages leaf).pairs)
  split : LeafNode.Split cap tree.bp.nextPage mid (tree.bp.pages tree.bp.nextPage) page' newPage'

omit [Value V] in
theorem LeafCut.next_lt {parent leaf : PageId} {path : List PageId} {mid page' newPage' : Page K V}
    (cut : LeafCut cap tree tree' parent leaf path key value mid page' newPage') :
    tree.bp.nextPage < tree'.bp.nextPage := by
  rw [cut.nextPage_eq]
  exact Int.lt_succ _

/-- The descent cuts a full leaf in two. -/
theorem cutLeaf (value : V) (fuel : Nat) {path : List PageId} {parent leaf : PageId}
    (hcap : 2 ≤ cap)
    (hqueue : tree.frameQueue = [])
    (hdescends : Descends tree.bp.pages key tree.rootPageId (path ++ [parent]) leaf)
    (hleaf : IsLeaf cap (tree.bp.pages leaf)) (hfull : (tree.bp.pages leaf).currentSize + 1 = cap)
    (hfresh : tree.bp.nextPage ≠ leaf) :
    ∃ (tree' : IdealTree K V) (mid page' newPage' : Page K V),
      findPlaceLoop cap key value ((path ++ [parent]).length + (fuel + 1)) tree.rootPageId tree =
        .ok (some tree.bp.nextPage) tree' ∧
      LeafCut cap tree tree' parent leaf path key value mid page' newPage' := by
  obtain ⟨w, mid, page', newPage', heval, hinsert, hposition, hinserted, hsplit⟩ :=
    IdealTree.insertIntoLeaf_full (tree.queued ((path ++ [parent]).reverse ++ tree.frameQueue))
      leaf key value hcap hleaf hfull hfresh
  have hplace := IdealTree.findPlaceLoop_descends cap value hdescends
    (fuel + 1)
  rw [IdealTree.findPlaceLoop_leaf (by exact hleaf.type_eq)] at hplace
  refine ⟨_, mid, page', newPage', hplace.trans heval, rfl, rfl, ?_, ?_, ?_, ?_, hinsert, ?_, ?_,
    ?_, hsplit⟩
  · show (path ++ [parent]).reverse ++ tree.frameQueue = _
    simp [hqueue]
  · exact IdealTree.put_pages_self _ _ _
  · exact (IdealTree.put_pages_of_ne _ _ hfresh.symm).trans (IdealTree.put_pages_self _ _ _)
  · intro id hid hnew
    exact (IdealTree.put_pages_of_ne _ _ hnew).trans
      ((IdealTree.put_pages_of_ne _ _ hid).trans (IdealTree.put_pages_of_ne _ _ hid))
  · exact hleaf.insert (by omega) hposition hinserted
  · exact hinserted.currentSize_eq.trans hfull
  · exact IsLeaf.pairs_insert hposition.le hinserted

/-- The parent of the leaf a key belongs to, and the position of that leaf among its children. -/
structure AtParent (cap : Nat) (pages : PageId → Page K V) (key : K) (depth : Nat)
    (branch : Branch K V) (path : List PageId) (hole : Hole K V) (parent : Branch K V)
    (children : Nat → Branch K V) (j : Nat) : Prop where
  focus : Focus cap pages key 1 depth branch path hole parent
  inner : IsInner cap (pages parent.root) children
  room : (pages parent.root).currentSize < cap
  ids_eq : parent.ids =
    parent.root :: flat (fun i => (children i).ids) (pages parent.root).currentSize
  entries_eq : parent.entries =
    flat (fun i => (children i).entries) (pages parent.root).currentSize
  sub : ∀ i, i < (pages parent.root).currentSize → Subtree cap pages 0 (children i)
  found : InnerNode.findIndex (Node.ofBuffer (pages parent.root)) key = .ok j
  routes : IsInner.Routes (pages parent.root) key j

theorem exists_atParent {depth : Nat} {pages : PageId → Page K V} {path : List PageId}
    {hole : Hole K V} {parent : Branch K V}
    (hfocus : Focus cap pages key 1 depth branch path hole parent) :
    ∃ children j, AtParent cap pages key depth branch path hole parent children j := by
  obtain ⟨children, hinner, hroom, hids, hentries, hsub⟩ := hfocus.subtree
  obtain ⟨j, hfound, hroutes⟩ := hinner.findIndex_eq
    (fun i hi => (hsub i hi).entries_ne_nil) key
  exact ⟨children, j, hfocus, hinner, hroom, hids, hentries, hsub, hfound, hroutes⟩

namespace AtParent

variable {depth : Nat} {path : List PageId} {hole : Hole K V} {parent : Branch K V}
  {children : Nat → Branch K V} {j : Nat} {pages : PageId → Page K V}

theorem isLeaf (at' : AtParent cap pages key depth branch path hole parent children j) :
    IsLeaf cap (pages (children j).root) :=
  (at'.sub j at'.routes.lt).1

theorem child_eq (at' : AtParent cap pages key depth branch path hole parent children j) :
    children j = leafBranch (children j).root (pages (children j).root) :=
  (at'.sub j at'.routes.lt).eq_leafBranch

theorem sorted (at' : AtParent cap pages key depth branch path hole parent children j) :
    SortedKeys (pages parent.root) ((pages parent.root).currentSize - 1) :=
  at'.inner.sorted fun i hi => (at'.sub i hi).entries_ne_nil

theorem descends (at' : AtParent cap pages key depth branch path hole parent children j) :
    Descends pages key branch.root (path ++ [parent.root]) (children j).root := by
  refine at'.focus.descends.trans (.down at'.inner.type_eq at'.found ?_ ?_)
  · have hlt := at'.routes.lt
    have hroom := at'.room
    rw [at'.inner.maxSize_eq]
    omega
  · rw [at'.inner.child_eq j at'.routes.lt]
    exact .here _

theorem nodup (at' : AtParent cap pages key depth branch path hole parent children j)
    (h : branch.ids.Nodup) : parent.ids.Nodup := by
  rw [← at'.focus.fill_eq] at h
  exact (List.nodup_append.mp (List.nodup_append.mp h).1).2.1

theorem mem_branch (at' : AtParent cap pages key depth branch path hole parent children j)
    {id : PageId} (hid : id ∈ parent.ids) : id ∈ branch.ids := by
  rw [← at'.focus.fill_eq]
  exact Hole.ids_subset hid

theorem mem_parent (at' : AtParent cap pages key depth branch path hole parent children j)
    {id : PageId} {i : Nat} (hi : i < (pages parent.root).currentSize)
    (hid : id ∈ (children i).ids) : id ∈ parent.ids := by
  rw [at'.ids_eq]
  exact List.mem_cons_of_mem _ (mem_flat.mpr ⟨i, hi, hid⟩)

theorem leaf_mem (at' : AtParent cap pages key depth branch path hole parent children j) :
    (children j).root ∈ parent.ids :=
  at'.mem_parent at'.routes.lt (at'.sub j at'.routes.lt).root_mem

theorem parent_not_mem (at' : AtParent cap pages key depth branch path hole parent children j)
    (h : branch.ids.Nodup) {id : PageId} {i : Nat} (hi : i < (pages parent.root).currentSize)
    (hid : id ∈ (children i).ids) : id ≠ parent.root := by
  have hnodup := at'.nodup h
  rw [at'.ids_eq, List.nodup_cons] at hnodup
  rintro rfl
  exact hnodup.1 (mem_flat.mpr ⟨i, hi, hid⟩)

theorem leaf_ne_parent (at' : AtParent cap pages key depth branch path hole parent children j)
    (h : branch.ids.Nodup) : (children j).root ≠ parent.root :=
  at'.parent_not_mem h at'.routes.lt (at'.sub j at'.routes.lt).root_mem

theorem length_path (at' : AtParent cap pages key depth branch path hole parent children j) :
    (path ++ [parent.root]).length = 1 + depth := by
  rw [List.length_append, at'.focus.length_path]
  exact Nat.add_comm depth 1

/-- The inner node with the cut leaf replaced by its two halves, the right one registered. -/
theorem register {newPageId : PageId} {mid newPage page' newPage' parentPage : Page K V}
    (at' : AtParent cap pages key depth branch path hole parent children j) (hcap : 2 ≤ cap)
    (hmid : IsLeaf cap mid) (hfull : mid.currentSize = cap)
    (hinsert : mid.pairs.Perm ((key, value) :: (pages (children j).root).pairs))
    (hsplit : LeafNode.Split cap newPageId mid newPage page' newPage')
    (hregistered : InnerNode.Registered (pages parent.root) parentPage j (newPage'.keys 0)
      (Value.ofPageId newPageId)) :
    IsInner cap parentPage (IsInner.cutChildren children j (leafBranch (children j).root page')
      (leafBranch newPageId newPage')) := by
  have hgrows : Grows key (children j).entries (leafBranch (children j).root mid).entries := by
    rw [at'.child_eq]
    exact Grows.of_perm hinsert
  have hinner := at'.inner.replace (leafBranch (children j).root mid) at'.routes rfl
    hgrows
  have hcut : IsInner.Cut (setSlot children j (leafBranch (children j).root mid) j)
      (leafBranch (children j).root page') (leafBranch newPageId newPage') (newPage'.keys 0) := by
    rw [setSlot_self]
    exact cut_of_split _ hcap hmid hfull hsplit
  have hresult := hinner.register at'.room at'.routes.lt hcut (Value.key_ofPageId _) hregistered
  rwa [IsInner.cutChildren_setSlot] at hresult

end AtParent

/-! ### The new leaf is registered -/

section Register

variable {depth fuel : Nat} {path : List PageId} {hole : Hole K V} {parent : Branch K V}
  {children : Nat → Branch K V} {j : Nat}

theorem registers_at (at' : AtParent cap tree.bp.pages key depth branch path hole parent children j)
    (h : Rooted cap tree (1 + depth) branch) (hright : RegistersRight cap tree key value)
    (hfull : (tree.bp.pages (children j).root).currentSize + 1 = cap) (hcap : 2 ≤ cap)
    {mid page' newPage' : Page K V}
    (cut : LeafCut cap tree tree' parent.root (children j).root path key value mid page' newPage') :
    InnerNode.findIndexForInsert (Node.ofBuffer (tree.bp.pages parent.root)) (newPage'.keys 0) =
      .ok j := by
  have hdescends := at'.descends
  rw [← h.root_eq] at hdescends
  have hsearch := hright path parent.root (children j).root (Node.ofBuffer mid) j h.root_ne
    hdescends at'.isLeaf.type_eq hfull cut.inserted at'.found
  rw [cut.split.new_keys_eq 0 (by omega)]
  exact hsearch

/-- The descent to a full leaf below an inner node, which stays as it was. -/
theorem exists_cut (value : V) (fuel : Nat) (hcap : 2 ≤ cap)
    (h : Rooted cap tree (1 + depth) branch) (hfresh : FreshFor tree branch 1)
    (at' : AtParent cap tree.bp.pages key depth branch path hole parent children j)
    (hfull : (tree.bp.pages (children j).root).currentSize + 1 = cap) :
    ∃ (split : IdealTree K V) (mid page' newPage' : Page K V),
      findPlaceLoop cap key value (1 + depth + (fuel + 1)) tree.rootPageId tree =
        .ok (some tree.bp.nextPage) split ∧
      LeafCut cap tree split parent.root (children j).root path key value mid page' newPage' ∧
      split.bp.pages parent.root = tree.bp.pages parent.root := by
  have hdescends := at'.descends
  rw [← h.root_eq] at hdescends
  have hleafNew := hfresh.ne_next (at'.mem_branch at'.leaf_mem)
  have hparentNew := hfresh.ne_next (at'.mem_branch at'.focus.subtree.root_mem)
  obtain ⟨split, mid, page', newPage', hplace, cut⟩ := cutLeaf value fuel
    hcap h.queue_eq hdescends at'.isLeaf hfull hleafNew.symm
  rw [at'.length_path] at hplace
  exact ⟨split, mid, page', newPage', hplace, cut,
    cut.other_eq _ (at'.leaf_ne_parent h.nodup).symm hparentNew⟩

/-- The children of the parent after the cut, in pages where nothing else below it changed. -/
theorem subtree_cut (hcap : 5 ≤ cap) (h : Rooted cap tree (1 + depth) branch)
    (hfresh : FreshFor tree branch 1)
    (at' : AtParent cap tree.bp.pages key depth branch path hole parent children j)
    {split : IdealTree K V} {mid page' newPage' : Page K V}
    (cut : LeafCut cap tree split parent.root (children j).root path key value mid page' newPage')
    {pages' : PageId → Page K V}
    (hpages : ∀ id, id ≠ parent.root → id ∈ parent.ids ∨ id = tree.bp.nextPage →
      pages' id = split.bp.pages id)
    {i : Nat} (hi : i < (tree.bp.pages parent.root).currentSize + 1) :
    Subtree cap pages' 0 (IsInner.cutChildren children j (leafBranch (children j).root page')
      (leafBranch tree.bp.nextPage newPage') i) := by
  have hnew : ∀ id ∈ parent.ids, id ≠ tree.bp.nextPage := fun id hid =>
    hfresh.ne_next (at'.mem_branch hid)
  have hflatNodup := (List.nodup_cons.mp (at'.ids_eq ▸ at'.nodup h.nodup)).2
  refine subtree_cutLeaf tree.bp.pages at'.routes.lt at'.child_eq hflatNodup at'.sub
    ?_ ?_ ?_ (cut.isLeaf.split_left (by omega) cut.full cut.split) ?_
    (cut.isLeaf.split_right (by omega) cut.full cut.split) ?_ hi
  · intro k hk _ id hid hleaf
    have hid' := at'.mem_parent hk hid
    rw [hpages id (at'.parent_not_mem h.nodup hk hid) (.inl hid')]
    exact cut.other_eq id hleaf (hnew id hid')
  · rw [hpages _ (at'.leaf_ne_parent h.nodup) (.inl at'.leaf_mem)]
    exact cut.leaf_eq
  · rw [hpages _ (hnew _ at'.focus.subtree.root_mem).symm (.inr rfl)]
    exact cut.new_eq
  · rw [cut.split.currentSize_eq]
    omega
  · rw [cut.split.new_currentSize_eq]
    omega

/-- What the tree after the cut has to say about its pages, whatever was done above the leaf. -/
theorem grown_of_cut {n : Nat} {branch' : Branch K V} {split : IdealTree K V}
    {mid page' newPage' : Page K V} (h : Rooted cap tree (1 + depth) branch)
    (hfresh : FreshFor tree branch 1)
    (at' : AtParent cap tree.bp.pages key depth branch path hole parent children j)
    (hfull : (tree.bp.pages (children j).root).currentSize + 1 = cap)
    (cut : LeafCut cap tree split parent.root (children j).root path key value mid page' newPage')
    (hsome : 0 < n) (hnext : tree'.bp.nextPage = tree.bp.nextPage + (n : Int))
    (hpages : ∀ id ∈ branch.ids, id ≠ parent.root → tree'.bp.pages id = split.bp.pages id)
    (hparent : (tree'.bp.pages parent.root).type = .innerNode)
    (hnew : tree'.bp.pages tree.bp.nextPage = newPage')
    (hothers : ∀ id ∈ newPages tree.bp.nextPage n, id ≠ tree.bp.nextPage →
      (tree'.bp.pages id).type = .innerNode)
    (hids : branch'.ids.Perm (newPages tree.bp.nextPage n ++ branch.ids))
    (hentries : branch'.entries.Perm ((key, value) :: branch.entries)) :
    Grown cap n tree tree' branch branch' key value := by
  have hleafMem := at'.mem_branch at'.leaf_mem
  have hleaf : tree'.bp.pages (children j).root = page' :=
    (hpages _ hleafMem (at'.leaf_ne_parent h.nodup)).trans cut.leaf_eq
  have hother : ∀ id ∈ branch.ids, id ≠ parent.root → id ≠ (children j).root →
      tree'.bp.pages id = tree.bp.pages id := fun id hid hneParent hneLeaf =>
    (hpages id hid hneParent).trans (cut.other_eq id hneLeaf (hfresh.ne_next hid))
  have hdescends := at'.descends
  rw [← h.root_eq] at hdescends
  refine ⟨hnext, hids, hentries, ?_, path ++ [parent.root], (children j).root, hdescends, hleafMem,
    at'.isLeaf.type_eq, .cut hsome hfull cut.isLeaf cut.full cut.pairs_insert ?_ hothers, ?_⟩
  · intro id hid
    by_cases hidParent : id = parent.root
    · rw [hidParent, hparent, at'.inner.type_eq]
    by_cases hidLeaf : id = (children j).root
    · rw [hidLeaf, hleaf, cut.split.type_eq, cut.isLeaf.type_eq, at'.isLeaf.type_eq]
    · rw [hother id hid hidParent hidLeaf]
  · rw [hleaf, hnew]
    exact cut.split
  · intro id hid htype hne
    refine hother id hid ?_ hne
    rintro rfl
    rw [at'.inner.type_eq] at htype
    cases htype

/-- The parent of the cut leaf has room. -/
theorem insert_registers (hcap : 5 ≤ cap) (h : Rooted cap tree (1 + depth) branch)
    (hfresh : FreshFor tree branch 1)
    (at' : AtParent cap tree.bp.pages key depth branch path hole parent children j)
    (hfull : (tree.bp.pages (children j).root).currentSize + 1 = cap)
    (hroom : (tree.bp.pages parent.root).currentSize + 1 < cap)
    (hright : RegistersRight cap tree key value) :
    ∃ tree', insert cap (1 + depth + (fuel + 1)) key value tree = .ok true tree' ∧
      GrowsTo cap 1 tree tree' branch key value := by
  obtain ⟨split, leafPage, page', newPage', hplace, cut, hparentPage⟩ :=
    exists_cut value fuel (by omega) h hfresh at' hfull
  have hnewLeaf := cut.isLeaf.split_right (by omega) cut.full cut.split
  obtain ⟨w, parentPage, hregister, hsearch, hregistered⟩ := IdealTree.registerNewPage_room
    split parent.root tree.bp.nextPage (hparentPage ▸ at'.inner) (hparentPage ▸ at'.sorted)
    (cut.new_eq ▸ hnewLeaf) (hparentPage ▸ hroom)
  rw [hparentPage, cut.new_eq] at hsearch hregistered
  obtain rfl : j = w := by
    cases (registers_at at' h hright hfull (by omega) cut).symm.trans hsearch
    rfl
  have hunwind : unwindQueue cap (path.reverse.length + 1) (some tree.bp.nextPage) split =
      .ok none ((split.put parent.root parentPage).queued []) := by
    rw [IdealTree.unwindQueue_some cut.queue_eq, hregister]
    exact IdealTree.unwindQueue_none _ path.reverse
  refine ⟨(split.put parent.root parentPage).queued [], ?_, ?_⟩
  · rw [IdealTree.insert_splitLeaf h.root_ne hplace cut.queue_eq, registerInQueue,
      bind_of_ok hunwind]
    rfl
  have hpages : ∀ id, id ≠ parent.root →
      ((split.put parent.root parentPage).queued []).bp.pages id = split.bp.pages id :=
    fun id hid => IdealTree.put_pages_of_ne _ _ hid
  have hparent : ((split.put parent.root parentPage).queued []).bp.pages parent.root =
      parentPage := IdealTree.put_pages_self _ _ _
  have hnext : tree.bp.nextPage ≠ parent.root :=
    (hfresh.ne_next (at'.mem_branch at'.focus.subtree.root_mem)).symm
  have hinner := at'.register (by omega) cut.isLeaf cut.full cut.pairs_insert cut.split hregistered
  have hout : ∀ id ∈ branch.ids, id ∉ parent.ids →
      ((split.put parent.root parentPage).queued []).bp.pages id = tree.bp.pages id := by
    intro id hid hout
    have hnotParent : id ≠ parent.root := by
      rintro rfl
      exact hout at'.focus.subtree.root_mem
    rw [hpages id hnotParent]
    refine cut.other_eq id ?_ (hfresh.ne_next hid)
    rintro rfl
    exact hout at'.leaf_mem
  have hidsParent := (ids_cutLeaf tree.bp.nextPage page' newPage' at'.routes.lt at'.child_eq).cons
    parent.root
  have hentriesParent := entries_cutLeaf tree.bp.nextPage at'.routes.lt at'.child_eq
    (IsLeaf.pairs_split cut.full cut.split) cut.pairs_insert
  obtain ⟨hrooted, hids, hentries⟩ := h.exchange
    (innerBranch parent.root _ ((tree.bp.pages parent.root).currentSize + 1))
    at'.focus (show ((split.put parent.root parentPage).queued []).rootPageId = _ from cut.root_eq)
    rfl hout cut.nextPage_eq hfresh
    (Subtree.of_inner hparent hinner hregistered.currentSize_eq hroom
      fun i hi => subtree_cut hcap h hfresh at' cut (fun id hid _ => hpages id hid) hi) rfl
    (by
      rw [at'.ids_eq, newPages_one]
      exact hidsParent.trans (List.Perm.swap _ _ _))
    (by
      rw [at'.entries_eq]
      exact hentriesParent)
  refine ⟨_, _, hrooted, grown_of_cut h hfresh at' hfull cut Nat.one_pos cut.nextPage_eq
    (fun id _ hid => hpages id hid) ?_ ((hpages _ hnext).trans cut.new_eq) ?_ hids hentries⟩
  · rw [hparent, hregistered.type_eq, at'.inner.type_eq]
  · intro id hid hne
    exact absurd (List.mem_singleton.mp (newPages_one _ ▸ hid)) hne

end Register

/-! ### The root is a full inner node -/

section SplitRoot

variable {fuel : Nat} {children : Nat → Branch K V} {j : Nat}

/-- The two parts of a full inner node are separated by its middle key. -/
theorem separates_parts {page : Page K V} {left right : PageId} (hcap : 5 ≤ cap)
    (h : IsInner cap page children) (hfull : page.currentSize = cap) :
    Separates (twoChildren (innerBranch left children (cap / 2 + 1))
      (innerBranch right (shift children (cap / 2 + 1)) (cap - (cap / 2 + 1)))) 2 0
        (page.keys (cap / 2)) := by
  have hseparates := h.separates (cap / 2) (by omega)
  rw [hfull] at hseparates
  refine ⟨?_, ?_, ?_⟩
  · intro m hm x hx
    obtain rfl : m = 0 := by omega
    obtain ⟨i, hi, hx⟩ := mem_flat.mp hx
    exact hseparates.left i (by omega) x hx
  · intro m hm hn x hx
    obtain rfl : m = 1 := by omega
    obtain ⟨i, hi, hx⟩ := mem_flat.mp hx
    exact hseparates.right (cap / 2 + 1 + i) (by omega) (by omega) x hx
  · rcases hseparates.found with hstrict | ⟨x, hx, hkey⟩
    · refine .inl fun m hm x hx => ?_
      obtain rfl : m = 0 := by omega
      obtain ⟨i, hi, hx⟩ := mem_flat.mp hx
      exact hstrict i (by omega) x hx
    · exact .inr ⟨x, mem_flat.mpr ⟨0, by omega, hx⟩, hkey⟩

omit [Index K] [Value V] in
/-- The pages of a tree after its root has been cut in two below a new root. -/
theorem perm_rootGrown {a b n : Nat} {parts : Nat → Branch K V} {newPageId : PageId}
    (root right newRoot : PageId) (hsizes : a + b = cap)
    (hids : (flat (fun i => (parts i).ids) cap).Perm
      ([newPageId] ++ flat (fun i => (children i).ids) n)) :
    (newRoot :: ((innerBranch root parts a).ids ++ (innerBranch right (shift parts a) b).ids)).Perm
      ([newRoot, right, newPageId] ++ (root :: flat (fun i => (children i).ids) n)) := by
  rw [← hsizes, flat_add] at hids
  refine List.Perm.cons newRoot (List.perm_middle.trans (List.Perm.cons right ?_))
  exact (hids.cons root).trans (List.Perm.swap _ _ _)

/-- Registering a leaf at a full root and growing the tree by one level. -/
theorem growRoot (hcap : 5 ≤ cap) {split : IdealTree K V} (root newPageId : PageId)
    (hroot : split.rootPageId = root) (hqueue : split.frameQueue = [root])
    (hinner : IsInner cap (split.bp.pages root) children)
    (hsorted : SortedKeys (split.bp.pages root) ((split.bp.pages root).currentSize - 1))
    (hleaf : IsLeaf cap (split.bp.pages newPageId))
    (hfull : (split.bp.pages root).currentSize + 1 = cap) (hne : root ≠ split.bp.nextPage)
    (hne' : root ≠ split.bp.nextPage + 1) :
    ∃ (tree' : IdealTree K V) (w : Nat) (mid midLeft leftPage rightPage rootPage : Page K V),
      registerInQueue cap 1 (some newPageId) split = .ok true tree' ∧
      InnerNode.findIndexForInsert (Node.ofBuffer (split.bp.pages root))
        ((split.bp.pages newPageId).keys 0) = .ok w ∧
      InnerNode.Registered (split.bp.pages root) mid w ((split.bp.pages newPageId).keys 0)
        (Value.ofPageId newPageId) ∧
      InnerNode.Split cap newPageId mid midLeft rightPage ∧
      IdealTree.Promoted midLeft leftPage ∧
      IdealTree.NewRoot cap rootPage (mid.keys (cap / 2)) root split.bp.nextPage ∧
      RootGrown split tree' root leftPage rightPage rootPage := by
  obtain ⟨made, w, mid, midLeft, rightPage, hregister, hsearch, hregistered, hsplit, cut⟩ :=
    IdealTree.registerNewPage_full split root newPageId (by omega) hinner hsorted hleaf hfull
      hne.symm
  have hunwind : unwindQueue cap 1 (some newPageId) split =
      .ok (some split.bp.nextPage) (made.queued []) := by
    rw [IdealTree.unwindQueue_some hqueue, hregister]
    rfl
  have hsize : midLeft.currentSize = cap / 2 + 1 := hsplit.currentSize_eq
  obtain ⟨rootPage, leftPage, hcreate, hnewRoot, hpromoted⟩ :=
    IdealTree.createRootWithInnerNodes_eq (made.queued []) root split.bp.nextPage
      (by omega : 2 ≤ cap)
      (by
        rw [IdealTree.queued_bp, cut.left_eq, hsplit.maxSize_eq, hregistered.maxSize_eq]
        exact hinner.maxSize_eq)
      (by
        rw [IdealTree.queued_bp, cut.left_eq, hsize]
        omega)
      (by
        rw [IdealTree.queued_bp, cut.left_eq, hsize]
        omega)
      (by
        rw [IdealTree.queued_bp, cut.nextPage_eq]
        exact hne'.symm)
  rw [IdealTree.queued_bp, cut.left_eq] at hnewRoot hpromoted
  rw [hsize, Nat.add_sub_cancel, hsplit.keys_eq _ (Nat.le_refl _)] at hnewRoot
  rw [IdealTree.queued_bp, cut.nextPage_eq] at hcreate
  have hltNext : split.bp.nextPage < split.bp.nextPage + 1 := Int.lt_succ _
  refine ⟨((((made.queued []).allocated.put (split.bp.nextPage + 1) rootPage).put root
    leftPage).rooted (split.bp.nextPage + 1)), w, mid, midLeft, leftPage, rightPage, rootPage, ?_,
    hsearch, hregistered, hsplit, hpromoted, hnewRoot,
    ⟨rfl, congrArg (· + 1) cut.nextPage_eq, rfl, ?_, ?_, ?_, ?_⟩⟩
  · rw [registerInQueue, bind_of_ok hunwind]
    dsimp only
    rw [bind_of_ok (get_apply (made.queued [])), IdealTree.queued_rootPageId, cut.root_eq, hroot,
      bind_of_ok hcreate]
    rfl
  · refine (IdealTree.put_pages_of_ne _ _ ?_).trans (IdealTree.put_pages_self _ _ _)
    exact hne'.symm
  · exact IdealTree.put_pages_self _ _ _
  · refine (IdealTree.put_pages_of_ne _ _ hne.symm).trans
      ((IdealTree.put_pages_of_ne _ _ (ne_of_lt hltNext)).trans ?_)
    exact cut.right_eq
  · intro id hid hidRight hidRoot
    refine (IdealTree.put_pages_of_ne _ _ hid).trans
      ((IdealTree.put_pages_of_ne _ _ hidRoot).trans ?_)
    exact cut.other_eq id hid hidRight

/-- The root is an inner node, and the new leaf fills it up. -/
theorem insert_splitInnerRoot (hcap : 5 ≤ cap) (h : Rooted cap tree (1 + 0) branch)
    (hfresh : FreshFor tree branch 3)
    (at' : AtParent cap tree.bp.pages key 0 branch [] (Hole.top branch.root) branch children j)
    (hfull : (tree.bp.pages (children j).root).currentSize + 1 = cap)
    (hfullRoot : (tree.bp.pages branch.root).currentSize + 1 = cap)
    (hright : RegistersRight cap tree key value) :
    ∃ tree', insert cap (1 + 0 + (fuel + 1)) key value tree = .ok true tree' ∧
      GrowsTo cap 3 tree tree' branch key value := by
  have hfresh' : FreshFor tree branch 1 := hfresh.mono (by omega)
  obtain ⟨split, leafPage, page', newPage', hplace, cut, hrootPage⟩ :=
    exists_cut value fuel (by omega) h hfresh' at' hfull
  have hnewLeaf := cut.isLeaf.split_right (by omega) cut.full cut.split
  have hmem := h.subtree.root_mem
  have hne : ∀ id ∈ branch.ids, id ≠ split.bp.nextPage := by
    intro id hid
    rw [cut.nextPage_eq]
    exact hfresh.ne (by omega : 1 < 3) hid
  have hne' : ∀ id ∈ branch.ids, id ≠ split.bp.nextPage + 1 := by
    intro id hid
    rw [cut.nextPage_eq, Int.add_assoc]
    exact hfresh.ne (by omega : 2 < 3) hid
  have hnext : tree.bp.nextPage ≠ split.bp.nextPage := ne_of_lt cut.next_lt
  have hnext' : tree.bp.nextPage ≠ split.bp.nextPage + 1 :=
    ne_of_lt (lt_trans cut.next_lt (Int.lt_succ _))
  obtain ⟨tree', w, mid, midLeft, leftPage, rightPage, rootPage, hgrow, hsearch, hregistered,
    hsplit, hpromoted, hnewRoot, grown⟩ := growRoot hcap branch.root
      tree.bp.nextPage (cut.root_eq.trans h.root_eq) cut.queue_eq
      (hrootPage ▸ at'.inner) (hrootPage ▸ at'.sorted) (cut.new_eq ▸ hnewLeaf)
      (hrootPage ▸ hfullRoot) (hne _ hmem) (hne' _ hmem)
  rw [hrootPage, cut.new_eq] at hsearch hregistered
  obtain rfl : j = w := by
    cases (registers_at at' h hright hfull (by omega) cut).symm.trans hsearch
    rfl
  have hinner := at'.register (by omega) cut.isLeaf cut.full cut.pairs_insert cut.split hregistered
  have hmidFull : mid.currentSize = cap := hregistered.currentSize_eq.trans hfullRoot
  have hsame : ∀ id, id ≠ branch.root → id ∈ branch.ids ∨ id = tree.bp.nextPage →
      tree'.bp.pages id = split.bp.pages id := by
    rintro id hid (hold | rfl)
    · exact grown.other_eq id hid (hne id hold) (hne' id hold)
    · exact grown.other_eq _ hid hnext hnext'
  have hchildren : ∀ i, i < cap → Subtree cap tree'.bp.pages 0 (IsInner.cutChildren children j
      (leafBranch (children j).root page') (leafBranch tree.bp.nextPage newPage') i) := by
    intro i hi
    exact subtree_cut hcap h hfresh' at' cut hsame (by omega)
  have hids := ids_cutLeaf tree.bp.nextPage page' newPage'
    at'.routes.lt at'.child_eq
  have hentries := entries_cutLeaf tree.bp.nextPage at'.routes.lt at'.child_eq
    (IsLeaf.pairs_split cut.full cut.split) cut.pairs_insert
  rw [hfullRoot] at hids hentries
  generalize IsInner.cutChildren children j (leafBranch (children j).root page')
    (leafBranch tree.bp.nextPage newPage') = parts at hinner hchildren hids hentries
  have hsizes : cap / 2 + 1 + (cap - (cap / 2 + 1)) = cap := by omega
  have hleft : Subtree cap tree'.bp.pages 1 (innerBranch branch.root parts (cap / 2 + 1)) :=
    Subtree.of_inner grown.leftPage_eq
      (hpromoted.isInner (hinner.split_left (by omega) hmidFull hsplit))
      (hpromoted.currentSize_eq.trans hsplit.currentSize_eq) (by omega)
      fun i hi => hchildren i (by omega)
  have hrightInner := hinner.split_right hcap hmidFull hsplit
  have hrightPart : Subtree cap tree'.bp.pages 1 (innerBranch split.bp.nextPage
      (shift parts (cap / 2 + 1)) (cap - (cap / 2 + 1))) :=
    Subtree.of_inner grown.rightPage_eq hrightInner
      hsplit.new_currentSize_eq (by omega) fun i hi => hchildren _ (by omega)
  have hnewIds : newPages tree.bp.nextPage 3 =
      [tree.bp.nextPage, split.bp.nextPage, split.bp.nextPage + 1] := by
    rw [cut.nextPage_eq, Int.add_assoc]
    exact congrArg (· :: _) (Int.add_zero _)
  have hall := perm_rootGrown branch.root split.bp.nextPage (split.bp.nextPage + 1) hsizes hids
  rw [← at'.ids_eq] at hall
  have hperm := hall.trans ((List.reverse_perm _).symm.append_right branch.ids)
  rw [show [split.bp.nextPage + 1, split.bp.nextPage, tree.bp.nextPage].reverse =
    newPages tree.bp.nextPage 3 from hnewIds.symm] at hperm
  refine ⟨tree', ?_, 1 + 1, _, grown.rooted (by omega) hnewRoot hleft hrightPart
    (separates_parts hcap hinner hmidFull) ?_ (le_trans h.next_nonneg (le_of_lt cut.next_lt)),
    grown_of_cut h hfresh' at' hfull cut (by omega) ?_ (fun id hid hne => hsame id hne (.inl hid))
      ?_ ((hsame _ (hfresh.ne_next hmem).symm (.inr rfl)).trans cut.new_eq) ?_ ?_ ?_⟩
  · rw [IdealTree.insert_splitLeaf h.root_ne hplace cut.queue_eq]
    exact hgrow
  · rw [hperm.nodup_iff, List.nodup_append]
    refine ⟨nodup_newPages _ 3, h.nodup, ?_⟩
    rintro id hid _ hold rfl
    exact hfresh id hid hold
  · rw [grown.nextPage_eq, cut.nextPage_eq, Int.add_assoc, Int.add_assoc]
    rfl
  · rw [grown.leftPage_eq]
    exact (hpromoted.isInner (hinner.split_left (by omega) hmidFull hsplit)).type_eq
  · intro id hid hidNext
    rw [hnewIds] at hid
    simp only [List.mem_cons, hidNext, List.not_mem_nil, or_false, false_or] at hid
    rcases hid with rfl | rfl
    · rw [grown.rightPage_eq, hrightInner.type_eq]
    · rw [grown.rootPage_eq, hnewRoot.type_eq]
  · rw [ids_two]
    exact hperm
  · rw [entries_two, at'.entries_eq]
    show (flat _ _ ++ flat _ _).Perm _
    rw [← hsizes, flat_add] at hentries
    exact hentries

end SplitRoot

/-! ### An inner node below the root is full -/

/-- The new inner node cannot be registered at its parent. -/
theorem insert_fails {depth fuel : Nat} {path : List PageId} {hole : Hole K V}
    {parent : Branch K V} {children : Nat → Branch K V} {j : Nat} (hcap : 5 ≤ cap)
    (h : Rooted cap tree (1 + (depth + 1)) branch) (hfresh : FreshFor tree branch 2)
    (at' : AtParent cap tree.bp.pages key (depth + 1) branch path hole parent children j)
    (hfull : (tree.bp.pages (children j).root).currentSize + 1 = cap)
    (hfullParent : (tree.bp.pages parent.root).currentSize + 1 = cap) :
    ∃ tree', insert cap (1 + (depth + 1) + (fuel + 1)) key value tree =
      .error .assertion tree' := by
  obtain ⟨split, leafPage, page', newPage', hplace, cut, hparentPage⟩ :=
    exists_cut value fuel (by omega) h (hfresh.mono (by omega)) at' hfull
  have hnewLeaf := cut.isLeaf.split_right (by omega) cut.full cut.split
  have hne : parent.root ≠ split.bp.nextPage := by
    rw [cut.nextPage_eq]
    exact hfresh.ne Nat.one_lt_two (at'.mem_branch at'.focus.subtree.root_mem)
  obtain ⟨back, rest, hpath⟩ : ∃ back rest, path.reverse = back :: rest := by
    cases hrev : path.reverse with
    | nil =>
        have hlength := at'.focus.length_path
        rw [List.reverse_eq_nil_iff.mp hrev] at hlength
        cases hlength
    | cons back rest => exact ⟨back, rest, rfl⟩
  have hqueue : split.frameQueue = parent.root :: back :: rest := hpath ▸ cut.queue_eq
  obtain ⟨made, w, mid, leftPage, rightPage, hregister, _, _, hsplit, cut'⟩ :=
    IdealTree.registerNewPage_full split parent.root tree.bp.nextPage (by omega)
      (hparentPage ▸ at'.inner) (hparentPage ▸ at'.sorted) (cut.new_eq ▸ hnewLeaf)
      (hparentPage ▸ hfullParent) hne.symm
  have hinner : ((made.queued (back :: rest)).bp.pages split.bp.nextPage).type = .innerNode :=
    (congrArg Page.type cut'.right_eq).trans hsplit.new_type_eq
  obtain ⟨tree', hfail⟩ := IdealTree.registerNewPage_inner (made.queued (back :: rest)) back
    split.bp.nextPage cap hinner
  have hunwind : unwindQueue cap ((back :: rest).length + 1) (some tree.bp.nextPage) split =
      .error .assertion tree' := by
    rw [IdealTree.unwindQueue_some hqueue, hregister]
    show unwindQueue cap (rest.length + 1) (some split.bp.nextPage)
      (made.queued (back :: rest)) = _
    rw [IdealTree.unwindQueue_some rfl, hfail]
  refine ⟨tree', ?_⟩
  rw [IdealTree.insert_splitLeaf h.root_ne hplace hqueue, registerInQueue, bind_of_error hunwind]

end Rooted

end HiveDb.BPlusTree
