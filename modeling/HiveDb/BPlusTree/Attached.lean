import HiveDb.BPlusTree.Leaves
import HiveDb.BPlusTree.Map
import HiveDb.BPlusTree.Returned

/-!
# A tree attached to an existing root

The constructor of the tree takes the page of a root that is already in the
store, but the pool it makes counts its pages from 0.  An insertion that needs
pages may therefore be given pages of the tree itself.  As long as that does not
happen the tree keeps all its pairs, and it does not happen exactly when no page
that the insertion needs was one of the tree when it was attached.
-/

namespace HiveDb.BPlusTree

open HiveDb.Lib
open HiveDb.Lib.Slots

variable {K V : Type} [Index K] [Value V]

/-- No insertion that returns takes more than three pages. -/
theorem Allocates.le_three {cap n : Nat} {tree : IdealTree K V} {key : K}
    (h : Allocates cap tree key n) : n ≤ 3 := by
  cases h <;> decide

/-- `b_plus_tree` constructed with a root page over a store with the given contents. -/
def IdealTree.attached (pages : PageId → Page K V) (root : PageId) : IdealTree K V :=
  ⟨⟨pages, 0⟩, root, []⟩

/-- `id` is a page of the tree. -/
def Reachable (tree : IdealTree K V) (id : PageId) : Prop :=
  ∃ depth, Reaches tree.bp.pages tree.rootPageId depth id

/-- The pages below `root` form a tree in which every key occurs once, holding the pairs. -/
def WellFormed (cap : Nat) (pages : PageId → Page K V) (root : PageId) (pairs : List (K × V)) :
    Prop :=
  DistinctKeys pairs ∧ ∃ height branch, branch.root = root ∧ Subtree cap pages height branch ∧
    branch.ids.Nodup ∧ branch.entries = pairs

/--
None of the pages that inserting the key takes from the counter was a page of the
tree below `root` when it was attached.
-/
def AllocatesOutside (cap : Nat) (pages : PageId → Page K V) (root : PageId)
    (tree : IdealTree K V) (key : K) : Prop :=
  ∀ n, Allocates cap tree key n → ∀ id ∈ newPages tree.bp.nextPage n,
    ¬ Reachable (IdealTree.attached pages root) id

theorem allocatesOutside_of_le {cap : Nat} {pages : PageId → Page K V} {root : PageId}
    {tree : IdealTree K V} (key : K)
    (hle : ∀ id, Reachable (IdealTree.attached pages root) id → tree.bp.nextPage + 3 ≤ id) :
    AllocatesOutside cap pages root tree key := by
  intro n hallocates id hid hattached
  have hbound : tree.bp.nextPage + (n : Int) ≤ tree.bp.nextPage + 3 :=
    Int.add_le_add_left (Int.ofNat_le.mpr hallocates.le_three) _
  have hlt := (mem_newPages.mp hid).2.trans_le (hbound.trans (hle id hattached))
  exact absurd hlt (lt_irrefl id)

/-- An insertion that returns, in a state in which the pages it takes are not the attached ones. -/
def InsertsOutside (cap : Nat) (pages : PageId → Page K V) (root : PageId) (tree : IdealTree K V)
    (pair : K × V) (tree' : IdealTree K V) : Prop :=
  AllocatesOutside cap pages root tree pair.1 ∧ Inserts cap tree pair tree'

/-! ## Pages taken by insertions that return -/

namespace Rooted

variable {cap height fuel n : Nat} {tree tree' : IdealTree K V} {branch : Branch K V} {key : K}
  {value : V} {pair : K × V} {path : List PageId} {parent leaf : PageId} {returned : Bool}

theorem reachable_iff (h : Rooted cap tree height branch) {id : PageId} :
    Reachable tree id ↔ id ∈ branch.ids := by
  rw [Reachable, h.root_eq]
  exact h.subtree.mem_ids_iff.symm

/-- The pages a descent passes are pages of the tree, which have its capacity. -/
theorem descent (h : Rooted cap tree height branch)
    (hdescends : Descends tree.bp.pages key tree.rootPageId path leaf) :
    leaf ∈ branch.ids ∧ (tree.bp.pages leaf).maxSize = cap := by
  have hreaches := hdescends.reaches
  refine ⟨h.reachable_iff.mp ⟨_, hreaches⟩, ?_⟩
  rw [h.root_eq] at hreaches
  exact h.subtree.maxSize_of_reaches hreaches

/-- An insertion that returns does not lower the counter. -/
theorem next_le (h : Rooted cap tree height branch)
    (hrun : insert cap fuel key value tree = .ok returned tree') :
    tree.bp.nextPage ≤ tree'.bp.nextPage := by
  obtain ⟨path, hole, leaf, hfocus⟩ := h.focusLeaf key
  have hdescends := hfocus.descends
  rw [← h.root_eq] at hdescends
  obtain ⟨newPageId, placed, hinto, hrest⟩ := IdealTree.of_insert h.root_ne h.queue_eq hdescends
    hfocus.subtree.1.type_eq hrun
  obtain ⟨_, _, _, _, hput⟩ := IdealTree.of_insertIntoLeaf hinto
  refine hput.next_le.trans ?_
  rcases hrest with ⟨_, id, _, hcreate⟩ | ⟨_, hregister⟩
  · obtain ⟨_, rfl⟩ := IdealTree.of_createRootWithLeaves hcreate
    exact Int.le_of_lt (Int.lt_succ _)
  · obtain ⟨_, _, hunwind, hle, _⟩ := IdealTree.of_registerInQueue hregister
    exact (IdealTree.next_le_of_unwindQueue hunwind).trans hle

/--
An insertion that fills its leaf and returns has taken a page for it; then it has
made a root, or registered that page on the way up.
-/
theorem of_fullLeaf (h : Rooted cap tree height branch)
    (hdescends : Descends tree.bp.pages key tree.rootPageId path leaf)
    (hleaf : (tree.bp.pages leaf).type = .leafNode)
    (hfull : (tree.bp.pages leaf).currentSize + 1 = cap)
    (hrun : insert cap fuel key value tree = .ok returned tree') :
    ∃ placed, placed.bp.nextPage = tree.bp.nextPage + 1 ∧ placed.frameQueue = path.reverse ∧
      (∀ other, other ≠ leaf → other ≠ tree.bp.nextPage →
        placed.bp.pages other = tree.bp.pages other) ∧
      (path = [] ∧ tree'.bp.nextPage = placed.bp.nextPage + 1 ∨
        path ≠ [] ∧ registerInQueue cap path.length (some tree.bp.nextPage) placed =
          .ok returned tree') := by
  obtain ⟨newPageId, placed, hinto, hrest⟩ :=
    IdealTree.of_insert h.root_ne h.queue_eq hdescends hleaf hrun
  obtain ⟨w, page', _, hinserted, hput⟩ := IdealTree.of_insertIntoLeaf hinto
  obtain ⟨rfl, hnext⟩ := hput.of_full (hinserted.currentSize_eq.trans
    (hfull.trans ((h.descent hdescends).2.symm.trans hinserted.maxSize_eq.symm)))
  refine ⟨placed, hnext, hput.frameQueue_eq, fun other hid hother => hput.other_eq hid hother, ?_⟩
  rcases hrest with ⟨hpath, id, _, hcreate⟩ | ⟨hpath, hregister⟩
  · obtain ⟨_, rfl⟩ := IdealTree.of_createRootWithLeaves hcreate
    exact .inl ⟨hpath, rfl⟩
  · refine .inr ⟨hpath.resolve_left (by simp), ?_⟩
    exact hregister

theorem next_lt_of_fullLeaf (h : Rooted cap tree height branch)
    (hdescends : Descends tree.bp.pages key tree.rootPageId path leaf)
    (hleaf : (tree.bp.pages leaf).type = .leafNode)
    (hfull : (tree.bp.pages leaf).currentSize + 1 = cap)
    (hrun : insert cap fuel key value tree = .ok returned tree') :
    tree.bp.nextPage + 1 ≤ tree'.bp.nextPage := by
  obtain ⟨placed, hnext, _, _, ⟨_, hcreated⟩ | ⟨_, hregister⟩⟩ :=
    h.of_fullLeaf hdescends hleaf hfull hrun
  · rw [hcreated, hnext]
    exact Int.le_of_lt (Int.lt_succ _)
  · obtain ⟨_, _, hunwind, hle, _⟩ := IdealTree.of_registerInQueue hregister
    rw [← hnext]
    exact (IdealTree.next_le_of_unwindQueue hunwind).trans hle

/--
Above a full leaf that is not the root, a parent one short of being full takes a
page as well, unless the page taken for the leaf is a page of the tree.
-/
theorem of_fullParent (h : Rooted cap tree height branch)
    (hdescends : Descends tree.bp.pages key tree.rootPageId (path ++ [parent]) leaf)
    (hleaf : (tree.bp.pages leaf).type = .leafNode)
    (hfull : (tree.bp.pages leaf).currentSize + 1 = cap)
    (hfullParent : (tree.bp.pages parent).currentSize + 1 = cap)
    (hunused : tree.bp.nextPage ∉ branch.ids)
    (hrun : insert cap fuel key value tree = .ok returned tree') :
    ∃ (leftOver : Option PageId) (mid split : IdealTree K V),
      mid.bp.nextPage = tree.bp.nextPage + 2 ∧
      unwindQueue cap path.length (some (tree.bp.nextPage + 1)) mid = .ok leftOver split ∧
      split.bp.nextPage ≤ tree'.bp.nextPage ∧
      (leftOver ≠ none → tree'.bp.nextPage = split.bp.nextPage + 1) := by
  obtain ⟨placed, hnext, hqueue, hother, hrest⟩ := h.of_fullLeaf hdescends hleaf hfull hrun
  obtain ⟨hparent, hinner⟩ := hdescends.of_concat
  obtain ⟨hmem, hmax⟩ := h.descent hparent
  rcases hrest with ⟨hnil, _⟩ | ⟨_, hregister⟩
  · exact absurd hnil (by simp)
  obtain ⟨leftOver, split, hunwind, hle, hleftOver⟩ := IdealTree.of_registerInQueue hregister
  rw [List.length_append, List.length_singleton] at hunwind
  rw [List.reverse_append] at hqueue
  -- the page of the parent is neither the leaf nor the page taken for it
  have hpage : placed.bp.pages parent = tree.bp.pages parent := by
    refine hother parent ?_ ?_
    · rintro rfl
      cases hleaf.symm.trans hinner
    · rintro rfl
      exact hunused hmem
  obtain ⟨mid, hmid, hunwind'⟩ := IdealTree.of_unwindQueue_full hqueue
    (by rw [hpage, hfullParent, hmax]) hunwind
  rw [hnext] at hmid hunwind'
  refine ⟨leftOver, _, split, ?_, hunwind', hle, hleftOver⟩
  rw [IdealTree.queued_bp, hmid, Int.add_assoc]
  rfl

/--
An insertion that returns takes all the pages it needs from the counter, unless
the first of them is a page of the tree.
-/
theorem takes_of_inserts (h : Rooted cap tree height branch)
    (hallocates : Allocates cap tree pair.1 n) (hinserts : Inserts cap tree pair tree') :
    tree.bp.nextPage + (n : Int) ≤ tree'.bp.nextPage ∨
      tree.bp.nextPage ∈ branch.ids ∧ tree.bp.nextPage < tree'.bp.nextPage := by
  obtain ⟨fuel, returned, hrun⟩ := hinserts
  have hle := h.next_le hrun
  cases hallocates with
  | room descends isLeaf room =>
      rw [Int.natCast_zero, Int.add_zero]
      exact .inl hle
  | rootLeaf isLeaf full =>
      obtain ⟨placed, hnext, _, _, ⟨_, hcreated⟩ | ⟨hne, _⟩⟩ :=
        h.of_fullLeaf (.here tree.rootPageId) isLeaf full hrun
      · rw [hcreated, hnext, Int.add_assoc]
        exact .inl (le_refl _)
      · exact absurd rfl hne
  | leaf descends isLeaf full roomParent =>
      exact .inl (h.next_lt_of_fullLeaf descends isLeaf full hrun)
  | rootInner descends isLeaf full fullRoot =>
      by_cases hunused : tree.bp.nextPage ∈ branch.ids
      · exact .inr ⟨hunused, h.next_lt_of_fullLeaf descends isLeaf full hrun⟩
      · obtain ⟨leftOver, mid, split, hmid, hunwind, _, hleftOver⟩ :=
          h.of_fullParent (List.nil_append [tree.rootPageId] ▸ descends) isLeaf full fullRoot
            hunused hrun
        cases hunwind
        refine .inl (le_of_eq ?_)
        rw [hleftOver (by simp), hmid, Int.add_assoc]
        rfl
  | belowRoot splits =>
      obtain ⟨_, path, parent, leaf, _, hdescends, hleaf, hfull, hfullParent⟩ := splits
      by_cases hunused : tree.bp.nextPage ∈ branch.ids
      · exact .inr ⟨hunused, h.next_lt_of_fullLeaf hdescends hleaf hfull hrun⟩
      · obtain ⟨leftOver, mid, split, hmid, hunwind, hsplit, _⟩ :=
          h.of_fullParent hdescends hleaf hfull hfullParent hunused hrun
        refine .inl (le_trans (le_of_eq hmid.symm) ?_)
        exact (IdealTree.next_le_of_unwindQueue hunwind).trans hsplit

end Rooted

/-! ## Runs -/

/--
The attached tree between two calls: the pairs it holds, the pages it had from
the start and where its pages come from.
-/
structure AttachedHolds (cap : Nat) (pages : PageId → Page K V) (root : PageId)
    (tree : IdealTree K V) (pairs : List (K × V)) (height : Nat) (branch : Branch K V) : Prop where
  rooted : Rooted cap tree height branch
  perm : branch.entries.Perm pairs
  kept : ∀ id, Reachable (IdealTree.attached pages root) id → id ∈ branch.ids
  origin : ∀ id ∈ branch.ids,
    Reachable (IdealTree.attached pages root) id ∨ id < tree.bp.nextPage

namespace AttachedHolds

variable {cap height : Nat} {pages : PageId → Page K V} {root : PageId} {tree tree' : IdealTree K V}
  {pairs : List (K × V)} {branch : Branch K V} {pair : K × V}

/-- The pages taken from the counter are fresh, for those taken before are below it. -/
theorem freshFor (h : AttachedHolds cap pages root tree pairs height branch)
    (houtside : AllocatesOutside cap pages root tree pair.1) (n : Nat)
    (hallocates : Allocates cap tree pair.1 n) : FreshFor tree branch n := by
  intro id hid hmem
  rcases h.origin id hmem with hattached | hlt
  · exact houtside n hallocates id hid hattached
  · exact absurd (mem_newPages.mp hid).1 (not_le.mpr hlt)

/-- An insertion of a new key takes pages outside the tree and adds its pair. -/
theorem insert (hcap : 5 ≤ cap) (h : AttachedHolds cap pages root tree pairs height branch)
    (hdistinct : DistinctKeys (pairs ++ [pair]))
    (hinserts : InsertsOutside cap pages root tree pair tree') :
    (∃ height' branch', AttachedHolds cap pages root tree' (pairs ++ [pair]) height' branch') ∧
      tree'.bp.nextPage ≤ tree.bp.nextPage + 3 ∧
      ∀ id : PageId, tree.bp.nextPage ≤ id → id < tree'.bp.nextPage → ¬ Reachable tree id := by
  have hperm : (pair :: branch.entries).Perm (pairs ++ [pair]) :=
    (h.perm.cons pair).trans (List.perm_append_singleton pair pairs).symm
  have hfresh := h.freshFor hinserts.1
  obtain ⟨n, hallocates, height', branch', hrooted', hgrown⟩ := h.rooted.grows_of_inserts hcap
    hfresh (h.rooted.registersRight hcap (hdistinct.of_perm hperm)) hinserts.2
  have hle : tree.bp.nextPage ≤ tree'.bp.nextPage := by
    rw [hgrown.nextPage_eq]
    exact Int.le_add_of_nonneg_right (Int.natCast_nonneg n)
  refine ⟨⟨height', branch', hrooted', hgrown.entries_perm.trans hperm, ?_, ?_⟩, ?_, ?_⟩
  · intro id hattached
    exact hgrown.ids_perm.mem_iff.mpr (List.mem_append_right _ (h.kept id hattached))
  · intro id hid
    rcases List.mem_append.mp (hgrown.ids_perm.mem_iff.mp hid) with hnew | hold
    · rw [hgrown.nextPage_eq]
      exact .inr (mem_newPages.mp hnew).2
    · exact (h.origin id hold).imp_right fun hlt => lt_of_lt_of_le hlt hle
  · rw [hgrown.nextPage_eq]
    exact Int.add_le_add_left (Int.ofNat_le.mpr hallocates.le_three) _
  · intro id hid hlt
    rw [h.rooted.reachable_iff]
    refine hfresh n hallocates id (mem_newPages.mpr ⟨hid, ?_⟩)
    rw [← hgrown.nextPage_eq]
    exact hlt

/-- The pages an insertion takes are outside the tree exactly if they were when it was attached. -/
theorem outside_iff (hcap : 5 ≤ cap) (h : AttachedHolds cap pages root tree pairs height branch)
    (hdistinct : DistinctKeys (pairs ++ [pair])) (hinserts : Inserts cap tree pair tree') :
    AllocatesOutside cap pages root tree pair.1 ↔
      ∀ id : PageId, tree.bp.nextPage ≤ id → id < tree'.bp.nextPage → ¬ Reachable tree id := by
  constructor
  · intro houtside
    exact (h.insert hcap hdistinct ⟨houtside, hinserts⟩).2.2
  · intro hunused n hallocates id hid hattached
    obtain ⟨hle, hlt⟩ := mem_newPages.mp hid
    rcases h.rooted.takes_of_inserts hallocates hinserts with htaken | ⟨hnext, hmore⟩
    · exact hunused id hle (lt_of_lt_of_le hlt htaken)
        (h.rooted.reachable_iff.mpr (h.kept id hattached))
    · exact hunused _ (le_refl _) hmore (h.rooted.reachable_iff.mpr hnext)

/-- Every run of insertions whose pages are not the attached ones. -/
theorem of_run {initial : List (K × V)} (hcap : 5 ≤ cap) (hroot : 0 ≤ root)
    (hformed : WellFormed cap pages root initial)
    (hrun : Run (InsertsOutside cap pages root) (IdealTree.attached pages root) pairs tree)
    (hdistinct : DistinctKeys (initial ++ pairs)) :
    ∃ height branch, AttachedHolds cap pages root tree (initial ++ pairs) height branch := by
  refine hrun.invariant (fun pairs tree => DistinctKeys (initial ++ pairs) → ∃ height branch,
    AttachedHolds cap pages root tree (initial ++ pairs) height branch) ?_ ?_ hdistinct
  · intro _
    obtain ⟨_, height, branch, rfl, hsub, hnodup, rfl⟩ := hformed
    have hrooted : Rooted cap (IdealTree.attached pages branch.root) height branch := by
      refine ⟨rfl, fun heq => ?_, hsub, hnodup, le_refl _, rfl⟩
      rw [show branch.root = invalidPageId from heq] at hroot
      exact absurd hroot (by decide)
    refine ⟨height, branch, hrooted, ?_, fun id hid => hrooted.reachable_iff.mp hid,
      fun id hid => .inl (hrooted.reachable_iff.mpr hid)⟩
    rw [List.append_nil]
  · intro before tree pair tree' ih hinserts hdistinct
    rw [← List.append_assoc] at hdistinct ⊢
    obtain ⟨height, branch, hholds⟩ := ih (hdistinct.of_sublist (List.sublist_append_left _ _))
    exact (hholds.insert hcap hdistinct hinserts).1

/-- Attached pages far enough from 0 are not taken by a run, whatever it inserts. -/
theorem run_of_le {initial : List (K × V)} (hcap : 5 ≤ cap) (hroot : 0 ≤ root)
    (hformed : WellFormed cap pages root initial)
    (hrun : Run (Inserts cap) (IdealTree.attached pages root) pairs tree)
    (hdistinct : DistinctKeys (initial ++ pairs))
    (hle : ∀ id, Reachable (IdealTree.attached pages root) id → 3 * (pairs.length : Int) ≤ id) :
    Run (InsertsOutside cap pages root) (IdealTree.attached pages root) pairs tree := by
  generalize hlength : pairs.length = length at hle
  refine (hrun.invariant
    (fun pairs tree => pairs.length ≤ length → DistinctKeys (initial ++ pairs) →
      Run (InsertsOutside cap pages root) (IdealTree.attached pages root) pairs tree ∧
        tree.bp.nextPage ≤ 3 * (pairs.length : Int)) ?_ ?_ (le_of_eq hlength) hdistinct).1
  · exact fun _ _ => ⟨.nil, le_refl _⟩
  · intro before tree pair tree' ih hinserts hshort hdistinct
    rw [List.length_append, List.length_singleton] at hshort ⊢
    rw [← List.append_assoc] at hdistinct
    have hbefore := hdistinct.of_sublist (List.sublist_append_left _ _)
    obtain ⟨hrun, hnext⟩ := ih (Nat.le_of_succ_le hshort) hbefore
    obtain ⟨height, branch, hholds⟩ := of_run hcap hroot hformed hrun hbefore
    have houtside : AllocatesOutside cap pages root tree pair.1 :=
      allocatesOutside_of_le pair.1 fun id hattached =>
        (Int.add_le_add_right hnext 3).trans (le_trans (by omega) (hle id hattached))
    refine ⟨hrun.snoc ⟨houtside, hinserts⟩, ?_⟩
    have hthree := (hholds.insert hcap hdistinct ⟨houtside, hinserts⟩).2.1
    exact hthree.trans ((Int.add_le_add_right hnext 3).trans (by omega))

/-- A search for a pair of the tree finds it. -/
theorem find_eq (h : AttachedHolds cap pages root tree pairs height branch)
    (hdistinct : DistinctKeys pairs) {key : K} {value : V} (hmem : (key, value) ∈ pairs) (out : V) :
    ∃ budget, ∀ fuel, budget ≤ fuel → find fuel key out tree = .ok value tree := by
  refine ⟨height + 1, fun fuel hfuel => ?_⟩
  obtain ⟨extra, rfl⟩ : ∃ extra, fuel = height + (extra + 1) := ⟨fuel - (height + 1), by omega⟩
  obtain ⟨result, hfind, hresult⟩ := h.rooted.find_spec key out extra
  rcases hresult with hfound | ⟨_, hnone⟩
  · rw [hfind, hdistinct.value_unique (h.perm.mem_iff.mp hfound) hmem]
  · exact absurd rfl (hnone _ (h.perm.mem_iff.mpr hmem))

end AttachedHolds

/--
In a run of insertions of new keys into an attached tree, none of which needs one
of the attached pages, every pair of the tree and every inserted pair is found,
and the next insertion that returns allocates no page that the tree has at that
time if and only if it needs none of the attached ones either.
-/
theorem attached_tree_keeps_pairs {cap : Nat} (hcap : 5 ≤ cap) {pages : PageId → Page K V}
    {root : PageId} (hroot : 0 ≤ root) {initial pairs : List (K × V)}
    (hformed : WellFormed cap pages root initial) {tree : IdealTree K V}
    (hrun : Run (InsertsOutside cap pages root) (IdealTree.attached pages root) pairs tree)
    (hdistinct : DistinctKeys (initial ++ pairs)) :
    (∀ key value, (key, value) ∈ initial ++ pairs → ∀ out, ∃ budget, ∀ fuel, budget ≤ fuel →
      find fuel key out tree = .ok value tree) ∧
    ∀ pair tree', DistinctKeys (initial ++ pairs ++ [pair]) → Inserts cap tree pair tree' →
      (AllocatesOutside cap pages root tree pair.1 ↔
        ∀ id : PageId, tree.bp.nextPage ≤ id → id < tree'.bp.nextPage → ¬ Reachable tree id) := by
  obtain ⟨height, branch, hholds⟩ := AttachedHolds.of_run hcap hroot hformed hrun hdistinct
  refine ⟨fun key value hmem out => hholds.find_eq hdistinct hmem out, ?_⟩
  intro pair tree' hdistinct' hinserts
  exact hholds.outside_iff hcap hdistinct' hinserts

/-! ## A root over two leaves -/

/-- A page of a full-to-be leaf: the multiples of 10 from `first` on. -/
def tensPage (currentSize : Nat) (first : Int) (nextPageId : PageId) : Page Int Int :=
  ⟨.leafNode, 5, currentSize, nextPageId, fun i => first + 10 * i, fun i => first + 10 * i⟩

/-- A page of a root over two leaves. -/
def tensRoot (left right : PageId) : Page Int Int :=
  ⟨.innerNode, 5, 2, invalidPageId, fun i => if i = 0 then 40 else -99,
    fun i => if i = 0 then left else right⟩

/-- The pages of a tree of capacity 5 with the keys 0 to 30 in one leaf and 40 to 60 in another. -/
def tensPages (root left right : PageId) : PageId → Page Int Int := fun id =>
  if id = root then tensRoot left right
  else if id = left then tensPage 4 0 right
  else if id = right then tensPage 3 40 invalidPageId
  else blankPages id

def tensPairs : List (Int × Int) :=
  [(0, 0), (10, 10), (20, 20), (30, 30), (40, 40), (50, 50), (60, 60)]

def tensBranch (root left right : PageId) : Branch Int Int :=
  innerBranch root
    (Rooted.twoChildren (leafBranch left (tensPage 4 0 right))
      (leafBranch right (tensPage 3 40 invalidPageId))) 2

theorem tensPage_isLeaf {currentSize : Nat} (hpos : 0 < currentSize) (hle : currentSize ≤ 5)
    (first : Int) (nextPageId : PageId) : IsLeaf 5 (tensPage currentSize first nextPageId) where
  type_eq := rfl
  maxSize_eq := rfl
  pos := hpos
  le := hle
  sorted i j hij _ := by
    show first + 10 * (i : Int) ≤ first + 10 * (j : Int)
    omega

theorem tensBranch_subtree {root left right : PageId} (hleft : left ≠ root)
    (hright : right ≠ root) (hne : right ≠ left) :
    Subtree 5 (tensPages root left right) 1 (tensBranch root left right) := by
  have hrootPage : tensPages root left right root = tensRoot left right := if_pos rfl
  have hleftPage : tensPages root left right left = tensPage 4 0 right :=
    (if_neg hleft).trans (if_pos rfl)
  have hrightPage : tensPages root left right right = tensPage 3 40 invalidPageId :=
    (if_neg hright).trans ((if_neg hne).trans (if_pos rfl))
  have hlow : ∀ x ∈ (tensPage 4 0 right).pairs, x.1 < 40 := by
    show ∀ x ∈ [((0 : Int), (0 : Int)), (10, 10), (20, 20), (30, 30)], x.1 < 40
    decide
  have hhigh : ∀ x ∈ (tensPage 3 40 invalidPageId).pairs, 40 ≤ x.1 := by decide
  have hseparates : Separates (Rooted.twoChildren (leafBranch left (tensPage 4 0 right))
      (leafBranch right (tensPage 3 40 invalidPageId))) 2 0 40 := by
    refine ⟨fun m hm x hx => ?_, fun m hm hn x hx => ?_, .inl fun m hm x hx => ?_⟩
    · obtain rfl : m = 0 := Nat.le_zero.mp hm
      exact (hlow x hx).le
    · obtain rfl : m = 1 := by omega
      exact hhigh x hx
    · obtain rfl : m = 0 := Nat.le_zero.mp hm
      exact hlow x hx
  have hroot : IdealTree.NewRoot 5 (tensRoot left right) 40 left right :=
    ⟨rfl, rfl, rfl, rfl, rfl, rfl⟩
  refine Subtree.of_inner hrootPage (Rooted.isInner_of_newRoot (by decide) hroot hseparates) rfl
    (by decide) fun i hi => ?_
  obtain rfl | rfl : i = 0 ∨ i = 1 := by omega
  · exact Subtree.of_leaf hleftPage (tensPage_isLeaf (by decide) (by decide) _ _)
      (Nat.lt_succ_self 4)
  · exact Subtree.of_leaf hrightPage (tensPage_isLeaf (by decide) (by decide) _ _) (by decide)

theorem tensPages_wellFormed {root left right : PageId} (hleft : left ≠ root)
    (hright : right ≠ root) (hne : right ≠ left) :
    WellFormed 5 (tensPages root left right) root tensPairs := by
  refine ⟨by decide, 1, tensBranch root left right, rfl, tensBranch_subtree hleft hright hne, ?_,
    Rooted.entries_two root _ _⟩
  rw [tensBranch, Rooted.ids_two]
  show [root, left, right].Nodup
  simp [hleft.symm, hright.symm, hne.symm]

/-- The tree with its root in page 2 over the leaves 1 and 0, after a fifth key for leaf 1. -/
def attachedInserted : IdealTree Int Int :=
  stateOf (insert 5 4 15 15 (IdealTree.attached (tensPages 2 1 0) 2))

/--
The insertion that fills leaf 1 is given page 0 for its upper half, which is the
leaf next to it, returns, and loses the keys of that leaf.
-/
theorem attachedInserted_loses_pair :
    WellFormed 5 (tensPages 2 1 0) 2 tensPairs ∧ ((40 : Int), (40 : Int)) ∈ tensPairs ∧
      DistinctKeys (tensPairs ++ [(15, 15)]) ∧
      Inserts 5 (IdealTree.attached (tensPages 2 1 0) 2) (15, 15) attachedInserted ∧
      Reachable (IdealTree.attached (tensPages 2 1 0) 2)
        (IdealTree.attached (tensPages 2 1 0) 2).bp.nextPage ∧
      (IdealTree.attached (tensPages 2 1 0) 2).bp.nextPage < attachedInserted.bp.nextPage ∧
      ∀ fuel, 2 ≤ fuel → ∃ tree, find fuel 40 99 attachedInserted = .ok 99 tree := by
  have hinsert : resultOf (insert 5 4 15 15 (IdealTree.attached (tensPages 2 1 0) 2)) =
      some true := by decide +kernel
  have hfind : resultOf (find 2 40 99 attachedInserted) = some 99 := by decide +kernel
  refine ⟨tensPages_wellFormed (by decide) (by decide) (by decide), by decide, by decide,
    ⟨4, true, eq_ok_of_resultOf hinsert⟩, ⟨1, .down ⟨rfl, Nat.one_lt_two, rfl⟩ (.here 0)⟩,
    by decide +kernel, fun fuel hfuel => ⟨_, IdealTree.find_of_le hfuel (eq_ok_of_resultOf hfind)⟩⟩

/-- The same insertion into the tree with its root in page 9 over the leaves 8 and 7. -/
def attachedGrown : IdealTree Int Int :=
  stateOf (insert 5 4 15 15 (IdealTree.attached (tensPages 9 8 7) 9))

/-- There the root gets a third leaf, in a page outside the tree, and every key is still found. -/
theorem attachedGrown_keeps_pairs :
    Run (InsertsOutside 5 (tensPages 9 8 7) 9) (IdealTree.attached (tensPages 9 8 7) 9)
        ([] ++ [((15 : Int), (15 : Int))]) attachedGrown ∧
      (attachedGrown.bp.pages attachedGrown.rootPageId).currentSize = 3 ∧
      (∃ budget, ∀ fuel, budget ≤ fuel → find fuel 40 99 attachedGrown = .ok 40 attachedGrown) ∧
      attachedGrown.bp.nextPage = 1 ∧ ∀ id : PageId, 0 ≤ id → id < attachedGrown.bp.nextPage →
        ¬ Reachable (IdealTree.attached (tensPages 9 8 7) 9) id := by
  have hformed : WellFormed 5 (tensPages 9 8 7) 9 tensPairs :=
    tensPages_wellFormed (by decide) (by decide) (by decide)
  have hsubtree : Subtree 5 (tensPages 9 8 7) 1 (tensBranch 9 8 7) :=
    tensBranch_subtree (by decide) (by decide) (by decide)
  have hinsert : resultOf (insert 5 4 15 15 (IdealTree.attached (tensPages 9 8 7) 9)) =
      some true := by decide +kernel
  have hinserts : Inserts 5 (IdealTree.attached (tensPages 9 8 7) 9) (15, 15) attachedGrown :=
    ⟨4, true, eq_ok_of_resultOf hinsert⟩
  have hfar : ∀ id, Reachable (IdealTree.attached (tensPages 9 8 7) 9) id → (3 : Int) ≤ id := by
    rintro id ⟨depth, hreaches⟩
    have hmem : id ∈ [(9 : PageId), 8, 7] := by
      rw [← show (tensBranch 9 8 7).ids = [9, 8, 7] from Rooted.ids_two 9 _ _]
      exact hsubtree.mem_ids_iff.mpr ⟨depth, hreaches⟩
    clear hreaches
    revert id
    decide
  have hrun := AttachedHolds.run_of_le (by decide) (by decide) hformed (Run.nil.snoc hinserts)
    (by decide) hfar
  have hstart := attached_tree_keeps_pairs (by decide) (by decide) hformed .nil (by decide)
  have hkeeps := attached_tree_keeps_pairs (by decide) (by decide) hformed hrun (by decide)
  exact ⟨hrun, by decide +kernel, hkeeps.1 40 40 (by decide) 99, by decide +kernel,
    (hstart.2 (15, 15) attachedGrown (by decide) hinserts).mp (allocatesOutside_of_le 15 hfar)⟩

end HiveDb.BPlusTree
