import HiveDb.BPlusTree.Insertions

/-!
# The shape of the tree

The representation invariant read off the pages alone: which pages are children
of which, which keys lie below a page, and what therefore holds of every node
that can be reached from the root.
-/

namespace HiveDb.BPlusTree

open HiveDb.Lib
open HiveDb.Lib.Slots

variable {K V : Type} [Index K] [Value V]

/-- `child` is the page id in slot `i` of the inner node in page `parent`. -/
structure ChildOf (pages : PageId → Page K V) (parent : PageId) (i : Nat) (child : PageId) :
    Prop where
  inner : (pages parent).type = .innerNode
  lt : i < (pages parent).currentSize
  eq : Value.key ((pages parent).values i) = child

/-- `id` is `depth` levels below `root`. -/
inductive Reaches (pages : PageId → Page K V) : PageId → Nat → PageId → Prop where
  | here (root : PageId) : Reaches pages root 0 root
  | down {root child id : PageId} {i depth : Nat} (first : ChildOf pages root i child)
      (rest : Reaches pages child depth id) : Reaches pages root (depth + 1) id

/-- `key` is stored in a leaf below `root`. -/
def KeyBelow (pages : PageId → Page K V) (root : PageId) (key : K) : Prop :=
  ∃ depth leaf slot, Reaches pages root depth leaf ∧ (pages leaf).type = .leafNode ∧
    slot < (pages leaf).currentSize ∧ (pages leaf).keys slot = key

omit [Index K] in
/-- A page below the root has a parent below the root. -/
theorem Reaches.exists_parent {pages : PageId → Page K V} {root id : PageId} {depth : Nat}
    (h : Reaches pages root depth id) (hne : id ≠ root) :
    ∃ depth' parent i, Reaches pages root depth' parent ∧ ChildOf pages parent i id := by
  induction h with
  | here root => exact absurd rfl hne
  | @down root child id i depth first rest ih =>
      by_cases hchild : id = child
      · subst hchild
        exact ⟨0, root, i, .here root, first⟩
      · obtain ⟨depth', parent, j, hparent, hof⟩ := ih hchild
        exact ⟨depth' + 1, parent, j, .down first hparent, hof⟩

theorem Descends.reaches {pages : PageId → Page K V} {key : K} {id target : PageId}
    {path : List PageId} (h : Descends pages key id path target) :
    Reaches pages id path.length target := by
  induction h with
  | here id => exact .here id
  | down inner found inside _ ih => exact .down ⟨inner, (InnerNode.lt_of_findIndex found).1, rfl⟩ ih

/-- The representation invariant of the tree below `root`. -/
structure WellShaped (pages : PageId → Page K V) (root : PageId) : Prop where
  leaf : ∀ depth id, Reaches pages root depth id → (pages id).type = .leafNode →
    1 ≤ (pages id).currentSize ∧ (pages id).currentSize < (pages id).maxSize ∧
    ∀ i j, i < j → j < (pages id).currentSize → (pages id).keys i < (pages id).keys j
  inner : ∀ depth id, Reaches pages root depth id → (pages id).type = .innerNode →
    2 ≤ (pages id).currentSize ∧ (pages id).currentSize < (pages id).maxSize ∧
    ∀ i j, i < j → j + 1 < (pages id).currentSize → (pages id).keys i < (pages id).keys j
  between : ∀ depth id i child key, Reaches pages root depth id → ChildOf pages id i child →
    KeyBelow pages child key →
    (∀ s, s + 1 = i → (pages id).keys s ≤ key) ∧
    (i + 1 < (pages id).currentSize → key < (pages id).keys i)
  balanced : ∀ depth depth' id id', Reaches pages root depth id → Reaches pages root depth' id' →
    (pages id).type = .leafNode → (pages id').type = .leafNode → depth = depth'
  oneParent : ∀ depth depth' id id' i i' child, Reaches pages root depth id →
    Reaches pages root depth' id' → ChildOf pages id i child → ChildOf pages id' i' child →
    id = id' ∧ i = i'
  hasParent : ∀ depth id, Reaches pages root depth id → id ≠ root →
    ∃ depth' parent i, Reaches pages root depth' parent ∧ ChildOf pages parent i id
  noParent : ∀ depth id i, Reaches pages root depth id → ¬ ChildOf pages id i root

namespace Subtree

variable {cap height : Nat} {pages : PageId → Page K V} {branch : Branch K V}

theorem not_childOf_zero (h : Subtree cap pages 0 branch) {i : Nat} {child : PageId} :
    ¬ ChildOf pages branch.root i child := by
  intro hchild
  have hleaf := h.1.type_eq
  rw [hchild.inner] at hleaf
  cases hleaf

/-- A page below the root of a subtree is the root of a subtree of it. -/
theorem of_reaches (h : Subtree cap pages height branch) {depth : Nat} {id : PageId}
    (hreaches : Reaches pages branch.root depth id) :
    ∃ low sub, depth + low = height ∧ sub.root = id ∧ Subtree cap pages low sub ∧
      sub.entries.Sublist branch.entries ∧ ∀ p ∈ sub.ids.tail, p ∈ branch.ids.tail := by
  generalize hroot : branch.root = root at hreaches
  induction hreaches generalizing branch height with
  | here root => exact ⟨height, branch, Nat.zero_add _, hroot, h, .refl _, fun _ hp => hp⟩
  | @down root child id i depth first rest ih =>
      subst hroot
      cases height with
      | zero => exact absurd first h.not_childOf_zero
      | succ height =>
          obtain ⟨children, hinner, hroom, hids, hentries, hsub⟩ := h
          have hchild : (children i).root = child := by
            rw [← hinner.child_eq i first.lt, first.eq]
          have hsublist : (children i).entries.Sublist branch.entries := by
            rw [hentries, flat_eq_append _ first.lt, List.append_assoc]
            exact (List.sublist_append_left _ _).trans (List.sublist_append_right _ _)
          obtain ⟨low, sub, hdepth, hsubRoot, hsubtree, hsubEntries, hmem⟩ :=
            ih (hsub i first.lt) hchild
          refine ⟨low, sub, by omega, hsubRoot, hsubtree, hsubEntries.trans hsublist,
            fun p hp => ?_⟩
          rw [hids]
          exact mem_flat.mpr ⟨i, first.lt, List.mem_of_mem_tail (hmem p hp)⟩

theorem maxSize_of_reaches (h : Subtree cap pages height branch) {depth : Nat} {id : PageId}
    (hreaches : Reaches pages branch.root depth id) : (pages id).maxSize = cap := by
  obtain ⟨low, sub, _, rfl, hsub, _⟩ := h.of_reaches hreaches
  cases low with
  | zero => exact hsub.1.maxSize_eq
  | succ low =>
      obtain ⟨children, hinner, _⟩ := hsub
      exact hinner.maxSize_eq

theorem height_eq_zero (h : Subtree cap pages height branch)
    (hleaf : (pages branch.root).type = .leafNode) : height = 0 := by
  cases height with
  | zero => rfl
  | succ height =>
      obtain ⟨children, hinner, _⟩ := h
      rw [hinner.type_eq] at hleaf
      cases hleaf

theorem mem_of_keyBelow (h : Subtree cap pages height branch) {key : K}
    (hkey : KeyBelow pages branch.root key) : ∃ x ∈ branch.entries, x.1 = key := by
  obtain ⟨depth, leaf, slot, hreaches, hleaf, hslot, hkey⟩ := hkey
  obtain ⟨low, sub, _, rfl, hsub, hentries, _⟩ := h.of_reaches hreaches
  obtain rfl := hsub.height_eq_zero hleaf
  obtain ⟨_, _, _, hpairs⟩ := hsub
  refine ⟨((pages sub.root).keys slot, (pages sub.root).values slot), hentries.subset ?_, hkey⟩
  rw [hpairs]
  exact Page.mem_pairs.mpr ⟨slot, hslot, rfl⟩

/-- Leaves are exactly at the height of the subtree. -/
theorem depth_eq (h : Subtree cap pages height branch) {depth : Nat} {id : PageId}
    (hreaches : Reaches pages branch.root depth id) (hleaf : (pages id).type = .leafNode) :
    depth = height := by
  obtain ⟨low, sub, hdepth, rfl, hsub, _⟩ := h.of_reaches hreaches
  obtain rfl := hsub.height_eq_zero hleaf
  exact hdepth

theorem ids_eq_cons (h : Subtree cap pages height branch) :
    branch.ids = branch.root :: branch.ids.tail := by
  cases height with
  | zero =>
      obtain ⟨_, _, hids, _⟩ := h
      rw [hids]
      rfl
  | succ height =>
      obtain ⟨_, _, _, hids, _⟩ := h
      rw [hids]
      rfl

theorem child_mem_tail (h : Subtree cap pages height branch) {depth i : Nat} {id child : PageId}
    (hreaches : Reaches pages branch.root depth id) (hchild : ChildOf pages id i child) :
    child ∈ branch.ids.tail := by
  obtain ⟨low, sub, _, rfl, hsub, _, hmem⟩ := h.of_reaches hreaches
  cases low with
  | zero => exact absurd hchild hsub.not_childOf_zero
  | succ low =>
      obtain ⟨children, hinner, _, hids, _, hchildren⟩ := hsub
      have heq : (children i).root = child := by
        rw [← hinner.child_eq i hchild.lt, hchild.eq]
      refine hmem child ?_
      rw [hids, ← heq]
      exact mem_flat.mpr ⟨i, hchild.lt, (hchildren i hchild.lt).root_mem⟩

/-- The root of a subtree is no child of a page of it. -/
theorem root_noParent (h : Subtree cap pages height branch) (hnodup : branch.ids.Nodup)
    {depth i : Nat} {id : PageId} (hreaches : Reaches pages branch.root depth id) :
    ¬ ChildOf pages id i branch.root := by
  intro hchild
  have hmem := h.child_mem_tail hreaches hchild
  rw [h.ids_eq_cons] at hnodup
  exact (List.nodup_cons.mp hnodup).1 hmem

/-- A page is the child of at most one slot of one page. -/
theorem parent_unique (h : Subtree cap pages height branch) (hnodup : branch.ids.Nodup)
    {depth depth' i i' : Nat} {id id' child : PageId}
    (hreaches : Reaches pages branch.root depth id)
    (hreaches' : Reaches pages branch.root depth' id') (hchild : ChildOf pages id i child)
    (hchild' : ChildOf pages id' i' child) : id = id' ∧ i = i' := by
  induction height generalizing branch depth depth' with
  | zero =>
      cases hreaches with
      | here => exact absurd hchild h.not_childOf_zero
      | down first => exact absurd first h.not_childOf_zero
  | succ height ih =>
      obtain ⟨children, hinner, _, hids, _, hsub⟩ := h
      rw [hids] at hnodup
      have hflat := (List.nodup_cons.mp hnodup).2
      have hroots : ∀ {k : Nat} {next : PageId}, ChildOf pages branch.root k next →
          next = (children k).root := fun hof => by
        rw [← hinner.child_eq _ hof.lt, hof.eq]
      have hsame : ∀ {k k' : Nat}, k < (pages branch.root).currentSize →
          k' < (pages branch.root).currentSize → child ∈ (children k).ids →
          child ∈ (children k').ids → k = k' := by
        intro k k' hk hk' hmem hmem'
        by_contra hne
        exact not_mem_of_nodup_flat hflat hk hk' hne hmem hmem'
      -- a child of the root is no child of a page further down
      have hmixed : ∀ {k k' depth : Nat} {next deep : PageId} {slot : Nat},
          ChildOf pages branch.root k child → ChildOf pages branch.root k' next →
          Reaches pages next depth deep → ¬ ChildOf pages deep slot child := by
        intro k k' depth next deep slot hof hof' hdeep hslot
        rw [hroots hof'] at hdeep
        have hmem := (hsub k' hof'.lt).child_mem_tail hdeep hslot
        have hroot : child ∈ (children k).ids := by
          rw [hroots hof]
          exact (hsub k hof.lt).root_mem
        obtain rfl := hsame hof.lt hof'.lt hroot (List.mem_of_mem_tail hmem)
        have hnodup' : (children k).ids.Nodup := by
          rw [flat_eq_append _ hof.lt, List.nodup_append, List.nodup_append] at hflat
          exact hflat.1.2.1
        rw [hroots hof] at hslot
        exact (hsub k hof.lt).root_noParent hnodup' hdeep hslot
      cases hreaches with
      | here =>
          cases hreaches' with
          | here =>
              refine ⟨rfl, hsame hchild.lt hchild'.lt ?_ ?_⟩
              · rw [hroots hchild]
                exact (hsub i hchild.lt).root_mem
              · rw [hroots hchild']
                exact (hsub i' hchild'.lt).root_mem
          | down first rest => exact absurd hchild' (hmixed hchild first rest)
      | @down _ next _ k _ first rest =>
          cases hreaches' with
          | here => exact absurd hchild (hmixed hchild' first rest)
          | @down _ next' _ k' _ first' rest' =>
              rw [hroots first] at rest
              rw [hroots first'] at rest'
              have hmem := List.mem_of_mem_tail ((hsub k first.lt).child_mem_tail rest hchild)
              have hmem' := List.mem_of_mem_tail ((hsub k' first'.lt).child_mem_tail rest' hchild')
              obtain rfl := hsame first.lt first'.lt hmem hmem'
              have hnodup' : (children k).ids.Nodup := by
                rw [flat_eq_append _ first.lt, List.nodup_append, List.nodup_append] at hflat
                exact hflat.1.2.1
              exact ih (hsub k first.lt) hnodup' rest rest'

end Subtree

theorem Represents.wellShaped {cap height : Nat} {tree : IdealTree K V} {branch : Branch K V}
    (h : Represents cap tree height branch) (hdistinct : DistinctKeys branch.entries) :
    WellShaped tree.bp.pages tree.rootPageId := by
  rw [h.root_eq]
  refine ⟨?_, ?_, ?_, ?_, ?_, fun _ _ hreaches hne => hreaches.exists_parent hne, ?_⟩
  · intro depth id hreaches hleaf
    obtain ⟨low, sub, _, rfl, hsub, hsublist, _⟩ := h.subtree.of_reaches hreaches
    have hsubDistinct := hdistinct.of_sublist hsublist
    obtain rfl := hsub.height_eq_zero hleaf
    obtain ⟨hisLeaf, hroom, _, hentries⟩ := hsub
    rw [hentries] at hsubDistinct
    rw [hisLeaf.maxSize_eq]
    exact ⟨hisLeaf.pos, hroom, fun i j hij hj => hsubDistinct.keys_lt hisLeaf.sorted hij hj⟩
  · intro depth id hreaches hinnerType
    obtain ⟨low, sub, _, rfl, hsub, hsublist, _⟩ := h.subtree.of_reaches hreaches
    have hsubDistinct := hdistinct.of_sublist hsublist
    cases low with
    | zero =>
        rw [hsub.1.type_eq] at hinnerType
        cases hinnerType
    | succ low =>
        obtain ⟨children, hinner, hroom, _, hentries, hchildren⟩ := hsub
        rw [hentries] at hsubDistinct
        rw [hinner.maxSize_eq]
        refine ⟨hinner.two_le, hroom, fun i j hij hj => ?_⟩
        obtain ⟨x, hx⟩ := (hchildren j (by omega)).entries_ne_nil
        exact lt_of_le_of_lt ((hinner.separates i (by omega)).right j hij (by omega) x hx)
          (hsubDistinct.lt_separator hinner (Nat.le_refl j) hj hx)
  · intro depth id i child key hreaches hchild hkey
    obtain ⟨low, sub, _, rfl, hsub, hsublist, _⟩ := h.subtree.of_reaches hreaches
    have hsubDistinct := hdistinct.of_sublist hsublist
    cases low with
    | zero => exact absurd hchild hsub.not_childOf_zero
    | succ low =>
        obtain ⟨children, hinner, hroom, _, hentries, hchildren⟩ := hsub
        rw [hentries] at hsubDistinct
        have hroot : child = (children i).root := by
          rw [← hinner.child_eq i hchild.lt, hchild.eq]
        rw [hroot] at hkey
        obtain ⟨x, hx, rfl⟩ := (hchildren i hchild.lt).mem_of_keyBelow hkey
        refine ⟨fun s hs => ?_, fun hi => hsubDistinct.lt_separator hinner (Nat.le_refl i) hi hx⟩
        exact (hinner.separates s (by rw [hs]; exact hchild.lt)).right i (by omega) hchild.lt x hx
  · intro depth depth' id id' hreaches hreaches' hleaf hleaf'
    rw [h.subtree.depth_eq hreaches hleaf, h.subtree.depth_eq hreaches' hleaf']
  · intro depth depth' id id' i i' child hreaches hreaches' hchild hchild'
    exact h.subtree.parent_unique h.nodup hreaches hreaches' hchild hchild'
  · intro depth id i hreaches
    exact h.subtree.root_noParent h.nodup hreaches

/-- In every state reached by insertions of distinct keys the tree is well shaped. -/
theorem wellShaped_after_insertions {cap : Nat} (hcap : 5 ≤ cap) {pages : PageId → Page K V}
    {pairs : List (K × V)} {tree : IdealTree K V}
    (hrun : Run (Inserts cap) (IdealTree.empty pages) pairs tree) (hdistinct : DistinctKeys pairs)
    (hroot : tree.rootPageId ≠ invalidPageId) : WellShaped tree.bp.pages tree.rootPageId := by
  cases Holds.of_run hcap hrun hdistinct with
  | empty root => exact absurd root hroot
  | rooted represents perm => exact represents.wellShaped (hdistinct.of_perm perm)

/-- The tree of capacity 5 after nine insertions, which has a root over three leaves. -/
def nineInserted : IdealTree Int Int :=
  stateOf (insertAll 5 4 (increasing 9) (IdealTree.empty blankPages))

theorem nineInserted_wellShaped : WellShaped nineInserted.bp.pages nineInserted.rootPageId :=
  wellShaped_after_insertions (by decide)
    (run_of_resultOf 5 4 (increasing 9) (IdealTree.empty blankPages) (by decide +kernel))
    (by decide +kernel) (by decide +kernel)

end HiveDb.BPlusTree
