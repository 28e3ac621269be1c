import HiveDb.Lib.Chain
import HiveDb.BPlusTree.Shape

/-!
# The leaves in key order

The pages of a branch list its leaves in the order of their keys.  That order is
determined by the leaves and their keys, so an insertion either keeps it or puts
the new leaf right behind the one it was cut from.
-/

namespace HiveDb.BPlusTree

open HiveDb.Lib
open HiveDb.Lib.Slots

variable {K V : Type} [Index K] [Value V]

/-- `id` is a leaf below `root`. -/
def LeafBelow (pages : PageId → Page K V) (root id : PageId) : Prop :=
  (∃ depth, Reaches pages root depth id) ∧ (pages id).type = .leafNode

/-- Going down through the first child of every inner node arrives at the leaf. -/
inductive Leftmost (pages : PageId → Page K V) : PageId → PageId → Prop where
  | here {id : PageId} (leaf : (pages id).type = .leafNode) : Leftmost pages id id
  | down {root child leaf : PageId} (first : ChildOf pages root 0 child)
      (rest : Leftmost pages child leaf) : Leftmost pages root leaf

/-- Each leaf below `root` once, in increasing key order. -/
structure LeafOrder (pages : PageId → Page K V) (root : PageId) (leaves : List PageId) : Prop where
  mem_iff : ∀ id, id ∈ leaves ↔ LeafBelow pages root id
  nodup : leaves.Nodup
  keys_lt : (leaves.flatMap fun id => (pages id).pairs.map Prod.fst).Pairwise (· < ·)

/-- The keys of one page are smaller than those of another. -/
def KeysBelow (pages : PageId → Page K V) (lower upper : PageId) : Prop :=
  ∀ x ∈ (pages lower).pairs, ∀ y ∈ (pages upper).pairs, x.1 < y.1

/-- Some key of one page is smaller than some key of another. -/
def SomeKeyBelow (pages : PageId → Page K V) (lower upper : PageId) : Prop :=
  ∃ x ∈ (pages lower).pairs, ∃ y ∈ (pages upper).pairs, x.1 < y.1

/-- A page of the new pages holds a pair that a page of the old ones held. -/
def KeepsPair (pages pages' : PageId → Page K V) (id id' : PageId) : Prop :=
  ∃ x ∈ (pages' id').pairs, x ∈ (pages id).pairs

omit [Value V] in
theorem KeysBelow.someKeyBelow {pages pages' : PageId → Page K V}
    {lower lower' upper upper' : PageId} (h : KeysBelow pages lower upper)
    (hlower : KeepsPair pages pages' lower lower') (hupper : KeepsPair pages pages' upper upper') :
    SomeKeyBelow pages' lower' upper' := by
  obtain ⟨x, hx, hxold⟩ := hlower
  obtain ⟨y, hy, hyold⟩ := hupper
  exact ⟨x, hx, y, hy, h x hxold y hyold⟩

omit [Index K] in
theorem Leftmost.unique {pages : PageId → Page K V} {root first second : PageId}
    (hfirst : Leftmost pages root first) (hsecond : Leftmost pages root second) :
    first = second := by
  induction hfirst with
  | here leaf =>
      cases hsecond with
      | here => rfl
      | down child => rw [child.inner] at leaf; cases leaf
  | down child _ ih =>
      cases hsecond with
      | here leaf => rw [child.inner] at leaf; cases leaf
      | down child' rest' =>
          obtain rfl := child.eq.symm.trans child'.eq
          exact ih rest'

/-! ## The leaves of a branch -/

/-- The leaves among the pages of a branch. -/
def Branch.leaves (pages : PageId → Page K V) (branch : Branch K V) : List PageId :=
  branch.ids.filter fun id => (pages id).type = .leafNode

omit [Index K] [Value V] in
theorem Branch.mem_leaves {pages : PageId → Page K V} {branch : Branch K V} {id : PageId} :
    id ∈ branch.leaves pages ↔ id ∈ branch.ids ∧ (pages id).type = .leafNode := by
  rw [leaves, List.mem_filter, decide_eq_true_iff]

namespace Subtree

variable {cap height : Nat} {pages : PageId → Page K V} {branch : Branch K V}

/-- The pages of a branch are the ones below its root. -/
theorem mem_ids_iff (h : Subtree cap pages height branch) {id : PageId} :
    id ∈ branch.ids ↔ ∃ depth, Reaches pages branch.root depth id := by
  induction height generalizing branch with
  | zero =>
      have hids : branch.ids = [branch.root] := h.2.2.1
      rw [hids, List.mem_singleton]
      constructor
      · rintro rfl
        exact ⟨0, .here _⟩
      · rintro ⟨depth, hreaches⟩
        cases hreaches with
        | here => rfl
        | down first => exact absurd first h.not_childOf_zero
  | succ height ih =>
      obtain ⟨children, hinner, _, hids, _, hsub⟩ := h
      rw [hids, List.mem_cons]
      constructor
      · rintro (rfl | hmem)
        · exact ⟨0, .here _⟩
        · obtain ⟨i, hi, hmem⟩ := mem_flat.mp hmem
          obtain ⟨depth, hreaches⟩ := (ih (hsub i hi)).mp hmem
          exact ⟨depth + 1, .down ⟨hinner.type_eq, hi, hinner.child_eq i hi⟩ hreaches⟩
      · rintro ⟨depth, hreaches⟩
        cases hreaches with
        | here => exact .inl rfl
        | @down _ child _ i _ first rest =>
            obtain rfl : child = (children i).root :=
              first.eq.symm.trans (hinner.child_eq i first.lt)
            exact .inr (mem_flat.mpr ⟨i, first.lt, (ih (hsub i first.lt)).mpr ⟨_, rest⟩⟩)

theorem mem_leaves_iff (h : Subtree cap pages height branch) {id : PageId} :
    id ∈ branch.leaves pages ↔ LeafBelow pages branch.root id := by
  rw [Branch.mem_leaves, h.mem_ids_iff]
  rfl

theorem leaves_zero (h : Subtree cap pages 0 branch) : branch.leaves pages = [branch.root] := by
  have hids : branch.ids = [branch.root] := h.2.2.1
  rw [Branch.leaves, hids]
  simp [h.1.type_eq]

theorem leaves_succ {children : Nat → Branch K V}
    (hinner : IsInner cap (pages branch.root) children)
    (hids : branch.ids = branch.root ::
      flat (fun i => (children i).ids) (pages branch.root).currentSize) :
    branch.leaves pages =
      flat (fun i => (children i).leaves pages) (pages branch.root).currentSize := by
  have hroot : ¬ ((pages branch.root).type = .leafNode) := by
    rw [hinner.type_eq]
    exact nofun
  rw [Branch.leaves, hids, List.filter_cons_of_neg (by rwa [decide_eq_true_iff]), filter_flat]
  rfl

/-- The leaves hold the pairs of the branch, in its order. -/
theorem flatMap_leaves (h : Subtree cap pages height branch) :
    (branch.leaves pages).flatMap (fun id => (pages id).pairs) = branch.entries := by
  induction height generalizing branch with
  | zero =>
      have hentries : branch.entries = (pages branch.root).pairs := h.2.2.2
      rw [h.leaves_zero, hentries]
      exact List.append_nil _
  | succ height ih =>
      obtain ⟨children, hinner, _, hids, hentries, hsub⟩ := h
      rw [leaves_succ hinner hids, hentries, flatMap_flat]
      exact flat_congr fun i hi => ih (hsub i hi)

/-- The keys of a branch are in order. -/
theorem keys_lt (h : Subtree cap pages height branch) (hdistinct : DistinctKeys branch.entries) :
    (branch.entries.map Prod.fst).Pairwise (· < ·) := by
  induction height generalizing branch with
  | zero =>
      obtain ⟨hleaf, _, _, hentries⟩ := h
      rw [hentries] at hdistinct ⊢
      rw [Page.pairs, map_live]
      exact pairwise_live fun i j hij hj => hdistinct.keys_lt hleaf.sorted hij hj
  | succ height ih =>
      obtain ⟨children, hinner, _, _, hentries, hsub⟩ := h
      rw [hentries] at hdistinct ⊢
      rw [map_flat]
      refine pairwise_flat (fun i hi => ih (hsub i hi) ?_) ?_
      · refine hdistinct.of_sublist ?_
        rw [flat_eq_append _ hi, List.append_assoc]
        exact (List.sublist_append_left _ _).trans (List.sublist_append_right _ _)
      · intro i j hij hj key hkey key' hkey'
        obtain ⟨x, hx, rfl⟩ := List.mem_map.mp hkey
        obtain ⟨y, hy, rfl⟩ := List.mem_map.mp hkey'
        have hseparates := hinner.separates i (by omega)
        exact lt_of_lt_of_le (hdistinct.lt_separator hinner (Nat.le_refl i) (by omega) hx)
          (hseparates.right j hij hj y hy)

theorem leafOrder (h : Subtree cap pages height branch) (hnodup : branch.ids.Nodup)
    (hdistinct : DistinctKeys branch.entries) :
    LeafOrder pages branch.root (branch.leaves pages) where
  mem_iff _ := h.mem_leaves_iff
  nodup := hnodup.filter _
  keys_lt := by
    rw [← List.map_flatMap, h.flatMap_leaves]
    exact h.keys_lt hdistinct

/-- The first of the leaves is the leftmost one. -/
theorem leftmost (h : Subtree cap pages height branch) :
    ∃ first rest, branch.leaves pages = first :: rest ∧ Leftmost pages branch.root first := by
  induction height generalizing branch with
  | zero =>
      exact ⟨branch.root, [], h.leaves_zero, .here h.1.type_eq⟩
  | succ height ih =>
      obtain ⟨children, hinner, _, hids, _, hsub⟩ := h
      have hfirst : 0 < (pages branch.root).currentSize := lt_of_lt_of_le Nat.two_pos hinner.two_le
      obtain ⟨first, rest, hleaves, hleftmost⟩ := ih (hsub 0 hfirst)
      have hdown : Leftmost pages branch.root first :=
        .down ⟨hinner.type_eq, hfirst, hinner.child_eq 0 hfirst⟩ hleftmost
      rw [leaves_succ hinner hids, flat_eq_append _ hfirst, flat_zero, hleaves]
      exact ⟨first, _, rfl, hdown⟩

/-- A leaf below the root holds a pair. -/
theorem pairs_ne_nil (h : Subtree cap pages height branch) {id : PageId} (hid : id ∈ branch.ids)
    (hleaf : (pages id).type = .leafNode) : ∃ x, x ∈ (pages id).pairs := by
  induction height generalizing branch with
  | zero =>
      obtain ⟨hisLeaf, _, hids, _⟩ := h
      obtain rfl := List.mem_singleton.mp (hids ▸ hid)
      exact ⟨_, Page.mem_pairs.mpr ⟨0, hisLeaf.pos, rfl⟩⟩
  | succ height ih =>
      obtain ⟨children, hinner, _, hids, _, hsub⟩ := h
      rcases List.mem_cons.mp (hids ▸ hid) with rfl | hmem
      · rw [hinner.type_eq] at hleaf
        cases hleaf
      · obtain ⟨i, hi, hmem⟩ := mem_flat.mp hmem
        exact ih (hsub i hi) hmem

end Subtree

/-! ## The order is determined by the keys -/

namespace LeafOrder

variable {pages : PageId → Page K V} {root : PageId} {leaves other : List PageId}

theorem keysBelow (h : LeafOrder pages root leaves) : leaves.Pairwise (KeysBelow pages) := by
  refine (List.pairwise_flatMap.mp h.keys_lt).2.imp ?_
  intro lower upper hbelow x hx y hy
  exact hbelow x.1 (List.mem_map_of_mem hx) y.1 (List.mem_map_of_mem hy)

/-- One key in each leaf is enough to tell how two leaves are ordered. -/
theorem keysBelow_of_lt (h : LeafOrder pages root leaves) {lower upper : PageId}
    (hlower : lower ∈ leaves) (hupper : upper ∈ leaves) (hne : lower ≠ upper) {x y : K × V}
    (hx : x ∈ (pages lower).pairs) (hy : y ∈ (pages upper).pairs) (hlt : x.1 < y.1) :
    KeysBelow pages lower upper := by
  have : Std.Symm fun a b => KeysBelow pages a b ∨ KeysBelow pages b a := ⟨fun _ _ => Or.symm⟩
  have hall : leaves.Pairwise fun a b => KeysBelow pages a b ∨ KeysBelow pages b a :=
    h.keysBelow.imp fun hbelow => .inl hbelow
  have heither : KeysBelow pages lower upper ∨ KeysBelow pages upper lower :=
    hall.forall hlower hupper hne
  rcases heither with hbelow | hbelow
  · exact hbelow
  · exact absurd (hbelow y hy x hx) (lt_asymm hlt)

/-- A list of the leaves in which one key in each tells them in order is the list of the leaves. -/
theorem eq_of_lt (h : LeafOrder pages root leaves)
    (hpair : ∀ id ∈ leaves, ∃ x, x ∈ (pages id).pairs) (hnodup : other.Nodup)
    (hmem : ∀ id, id ∈ other ↔ id ∈ leaves)
    (hlt : other.Pairwise (SomeKeyBelow pages)) : other = leaves := by
  refine eq_of_mem_iff_of_pairwise (r := KeysBelow pages) hnodup h.nodup hmem ?_ h.keysBelow ?_
  · refine (hlt.and hnodup).imp_of_mem ?_
    rintro lower upper hlower hupper ⟨⟨x, hx, y, hy, hlt⟩, hne⟩
    exact h.keysBelow_of_lt ((hmem lower).mp hlower) ((hmem upper).mp hupper) hne hx hy hlt
  · intro lower hlower upper hupper hbelow hbelow'
    obtain ⟨x, hx⟩ := hpair lower ((hmem lower).mp hlower)
    obtain ⟨y, hy⟩ := hpair upper ((hmem upper).mp hupper)
    exact lt_asymm (hbelow x hx y hy) (hbelow' y hy x hx)

theorem unique (h : LeafOrder pages root leaves) (hother : LeafOrder pages root other)
    (hpair : ∀ id ∈ leaves, ∃ x, x ∈ (pages id).pairs) : other = leaves := by
  have hmem : ∀ id, id ∈ other ↔ id ∈ leaves := fun id =>
    (hother.mem_iff id).trans (h.mem_iff id).symm
  refine h.eq_of_lt hpair hother.nodup hmem (hother.keysBelow.imp_of_mem ?_)
  intro lower upper hlower hupper hbelow
  obtain ⟨x, hx⟩ := hpair lower ((hmem lower).mp hlower)
  obtain ⟨y, hy⟩ := hpair upper ((hmem upper).mp hupper)
  exact hbelow.someKeyBelow ⟨x, hx, hx⟩ ⟨y, hy, hy⟩

/-- The leaves that keep a pair are still in order. -/
theorem someKeyBelow {pages' : PageId → Page K V} (h : LeafOrder pages root leaves)
    (hkept : ∀ id ∈ leaves, KeepsPair pages pages' id id) :
    leaves.Pairwise (SomeKeyBelow pages') :=
  h.keysBelow.imp_of_mem fun hlower hupper hbelow =>
    hbelow.someKeyBelow (hkept _ hlower) (hkept _ hupper)

end LeafOrder

/-! ## The leaves after an insertion -/

omit [Value V] in
/-- A leaf that was cut in two, and its sibling, each keep a pair from before. -/
theorem IsLeaf.old_pair {cap : Nat} {mid : Page K V} {key : K} {value : V} {old : List (K × V)}
    (hleaf : IsLeaf cap mid) (hdistinct : DistinctKeys mid.pairs)
    (hpairs : mid.pairs.Perm ((key, value) :: old)) {i j : Nat} (hij : i < j)
    (hj : j < mid.currentSize) :
    ∃ k, (k = i ∨ k = j) ∧ (mid.keys k, mid.values k) ∈ old := by
  have hold : ∀ k, k < mid.currentSize →
      (mid.keys k, mid.values k) = (key, value) ∨ (mid.keys k, mid.values k) ∈ old := by
    intro k hk
    exact List.mem_cons.mp (hpairs.mem_iff.mp (Page.mem_pairs.mpr ⟨k, hk, rfl⟩))
  rcases hold i (by omega) with hi | hi
  · rcases hold j hj with hj' | hj'
    · have hlt := hdistinct.keys_lt hleaf.sorted hij hj
      have hkey : mid.keys i = key := congrArg Prod.fst hi
      have hkey' : mid.keys j = key := congrArg Prod.fst hj'
      exact absurd (hkey.trans hkey'.symm) (ne_of_lt hlt)
    · exact ⟨j, .inr rfl, hj'⟩
  · exact ⟨i, .inl rfl, hi⟩

omit [Index K] [Value V] in
/-- The pairs of a leaf after it has been cut in two. -/
theorem LeafNode.Split.mem_pairs {cap : Nat} {newPageId : PageId}
    {mid newPage page' newPage' : Page K V}
    (h : LeafNode.Split cap newPageId mid newPage page' newPage') :
    (∀ i, i < cap / 2 → (mid.keys i, mid.values i) ∈ page'.pairs) ∧
      ∀ i, i < cap - cap / 2 →
        (mid.keys (cap / 2 + i), mid.values (cap / 2 + i)) ∈ newPage'.pairs := by
  constructor
  · intro i hi
    refine Page.mem_pairs.mpr ⟨i, h.currentSize_eq.symm ▸ hi, ?_⟩
    rw [h.keys_eq i hi, h.values_eq i hi]
  · intro i hi
    refine Page.mem_pairs.mpr ⟨i, h.new_currentSize_eq.symm ▸ hi, ?_⟩
    rw [h.new_keys_eq i hi, h.new_values_eq i hi]

/-- What an insertion does to the leaves in key order and to what they name as their successor. -/
inductive LeavesGrow (cap : Nat) (tree tree' : IdealTree K V) (leaf : PageId)
    (leaves leaves' : List PageId) : Prop where
  | kept (room : (tree.bp.pages leaf).currentSize + 1 < cap) (same : leaves' = leaves)
      (link : ∀ id ∈ leaves, (tree'.bp.pages id).linkedPageId = (tree.bp.pages id).linkedPageId)
  | cut {before after : List PageId} (full : (tree.bp.pages leaf).currentSize + 1 = cap)
      (old : leaves = before ++ leaf :: after)
      (new : leaves' = before ++ leaf :: tree.bp.nextPage :: after)
      (link : (tree'.bp.pages leaf).linkedPageId = tree.bp.nextPage)
      (newLink : (tree'.bp.pages tree.bp.nextPage).linkedPageId =
        (tree.bp.pages tree.bp.nextPage).linkedPageId)
      (others : ∀ id, id ∈ before ∨ id ∈ after →
        (tree'.bp.pages id).linkedPageId = (tree.bp.pages id).linkedPageId)

omit [Value V] in
/-- Both halves of a leaf that was cut keep a pair, and the left one has the smaller keys. -/
theorem LeafNode.Split.halves {cap : Nat} {newPageId : PageId}
    {mid newPage page' newPage' : Page K V} {key : K} {value : V} {old : List (K × V)}
    (h : LeafNode.Split cap newPageId mid newPage page' newPage') (hcap : 5 ≤ cap)
    (hleaf : IsLeaf cap mid) (hfull : mid.currentSize = cap) (hdistinct : DistinctKeys mid.pairs)
    (hpairs : mid.pairs.Perm ((key, value) :: old)) :
    (∃ x ∈ page'.pairs, x ∈ old) ∧ (∃ x ∈ newPage'.pairs, x ∈ old) ∧
      ∃ x ∈ page'.pairs, ∃ y ∈ newPage'.pairs, x.1 < y.1 := by
  obtain ⟨hlow, hhigh⟩ := h.mem_pairs
  refine ⟨?_, ?_, ?_⟩
  · obtain ⟨k, hk, hold⟩ := hleaf.old_pair hdistinct hpairs Nat.zero_lt_one
      (by omega : 1 < mid.currentSize)
    exact ⟨_, hlow k (by omega), hold⟩
  · obtain ⟨k, hk, hold⟩ := hleaf.old_pair hdistinct hpairs (Nat.lt_succ_self (cap / 2))
      (by omega : cap / 2 + 1 < mid.currentSize)
    have hmem := hhigh (k - cap / 2) (by omega)
    rw [Nat.add_sub_cancel' (by omega)] at hmem
    exact ⟨_, hmem, hold⟩
  · have hhalf : mid.keys 0 < mid.keys (cap / 2 + 0) :=
      hdistinct.keys_lt hleaf.sorted (by omega) (by omega)
    exact ⟨_, hlow 0 (by omega), _, hhigh 0 (by omega), hhalf⟩

section Grown

variable {cap height height' n : Nat} {tree tree' : IdealTree K V} {branch branch' : Branch K V}
variable {key : K} {value : V}

theorem Rooted.pair_of_mem_leaves (h : Rooted cap tree height branch) :
    ∀ id ∈ branch.leaves tree.bp.pages, ∃ x, x ∈ (tree.bp.pages id).pairs := by
  intro id hid
  have hmem := Branch.mem_leaves.mp hid
  exact h.subtree.pairs_ne_nil hmem.1 hmem.2

/-- The leaves after an insertion are the old ones and the leaves among the new pages. -/
theorem Grown.mem_leaves (hgrown : Grown cap n tree tree' branch branch' key value) (id : PageId) :
    id ∈ branch'.leaves tree'.bp.pages ↔
      (id ∈ newPages tree.bp.nextPage n ∧ (tree'.bp.pages id).type = .leafNode) ∨
        id ∈ branch.leaves tree.bp.pages := by
  rw [Branch.mem_leaves, Branch.mem_leaves, hgrown.ids_perm.mem_iff, List.mem_append,
    or_and_right]
  refine or_congr_right (and_congr_right fun hid => ?_)
  rw [hgrown.type_eq id hid]

/-- Leaves that the insertion leaves alone keep their pairs, so one kept pair is left to show. -/
theorem Rooted.keepsPair (h : Rooted cap tree height branch) {leaf : PageId}
    (hsame : ∀ id ∈ branch.leaves tree.bp.pages, id ≠ leaf →
      tree'.bp.pages id = tree.bp.pages id)
    (hleaf : KeepsPair tree.bp.pages tree'.bp.pages leaf leaf) :
    ∀ id ∈ branch.leaves tree.bp.pages, KeepsPair tree.bp.pages tree'.bp.pages id id := by
  intro id hid
  by_cases hne : id = leaf
  · rw [hne]
    exact hleaf
  · obtain ⟨x, hx⟩ := h.pair_of_mem_leaves id hid
    exact ⟨x, (hsame id hid hne).symm ▸ hx, hx⟩

/-- The new leaf comes right behind the one it was cut from. -/
theorem Grown.leaves (hcap : 5 ≤ cap)
    (h : Rooted cap tree height branch) (h' : Rooted cap tree' height' branch')
    (hfresh : FreshFor tree branch n) (hgrown : Grown cap n tree tree' branch branch' key value)
    (hdistinct : DistinctKeys ((key, value) :: branch.entries)) :
    ∃ path leaf, Descends tree.bp.pages key tree.rootPageId path leaf ∧
      (tree.bp.pages leaf).type = .leafNode ∧
      LeavesGrow cap tree tree' leaf (branch.leaves tree.bp.pages)
        (branch'.leaves tree'.bp.pages) := by
  obtain ⟨path, leaf, hdescends, hleafMem, hleafType, hgrows, hother⟩ := hgrown.leaf
  refine ⟨path, leaf, hdescends, hleafType, ?_⟩
  have horder := h.subtree.leafOrder h.nodup (hdistinct.of_sublist (List.sublist_cons_self _ _))
  have horder' := h'.subtree.leafOrder h'.nodup (hdistinct.of_perm hgrown.entries_perm)
  have hleafIn : leaf ∈ branch.leaves tree.bp.pages := Branch.mem_leaves.mpr ⟨hleafMem, hleafType⟩
  have hsame : ∀ id ∈ branch.leaves tree.bp.pages, id ≠ leaf →
      tree'.bp.pages id = tree.bp.pages id := by
    intro id hid hne
    have hmem := Branch.mem_leaves.mp hid
    exact hother id hmem.1 hmem.2 hne
  cases hgrows with
  | kept none room link pairs =>
      subst none
      obtain ⟨x, hx⟩ := h.pair_of_mem_leaves leaf hleafIn
      have hkept := h.keepsPair hsame ⟨x, pairs.mem_iff.mpr (List.mem_cons_of_mem _ hx), hx⟩
      have hmem : ∀ id, id ∈ branch.leaves tree.bp.pages ↔ id ∈ branch'.leaves tree'.bp.pages := by
        intro id
        rw [hgrown.mem_leaves]
        exact ⟨.inr, fun hid => hid.resolve_left fun hnew => nomatch hnew.1⟩
      refine .kept room (Eq.symm ?_) ?_
      · exact horder'.eq_of_lt h'.pair_of_mem_leaves horder.nodup hmem (horder.someKeyBelow hkept)
      · intro id hid
        by_cases hne : id = leaf
        · rw [hne, link]
        · rw [hsame id hid hne]
  | @cut mid some size isLeaf full pairs split others =>
      obtain ⟨before, after, hleaves⟩ := List.append_of_mem hleafIn
      have hnew : tree.bp.nextPage ∉ branch.leaves tree.bp.pages := by
        intro hmem
        obtain ⟨m, rfl⟩ : ∃ m, n = m + 1 := ⟨n - 1, by omega⟩
        exact hfresh.ne_next (Branch.mem_leaves.mp hmem).1 rfl
      have hmidDistinct : DistinctKeys mid.pairs := by
        refine DistinctKeys.of_perm (hdistinct.of_sublist (List.Sublist.cons_cons _ ?_)) pairs
        rw [← h.subtree.flatMap_leaves, hleaves, List.flatMap_append, List.flatMap_cons]
        exact (List.sublist_append_left _ _).trans (List.sublist_append_right _ _)
      obtain ⟨hlow, hhigh, hhalves⟩ := split.halves hcap isLeaf full hmidDistinct pairs
      have hkept := h.keepsPair hsame hlow
      have hlt := horder.someKeyBelow hkept
      have hbelow := horder.keysBelow
      have hnodup := horder.nodup
      rw [hleaves] at hlt hbelow hnodup hnew hsame hkept
      obtain ⟨_, hbelowRest, hbelowCross⟩ := List.pairwise_append.mp hbelow
      -- the new leaf holds a pair that was in the leaf, so it stands to the others as the leaf did
      have hcandidate : (before ++ leaf :: tree.bp.nextPage :: after).Pairwise
          (SomeKeyBelow tree'.bp.pages) := by
        apply pairwise_insert_behind hlt hhalves
        · intro other hother
          have hbelowLeaf := hbelowCross other hother leaf List.mem_cons_self
          exact hbelowLeaf.someKeyBelow (hkept other (List.mem_append_left _ hother)) hhigh
        · intro other hother
          have hkeeps := hkept other (List.mem_append_right _ (List.mem_cons_of_mem _ hother))
          exact ((List.pairwise_cons.mp hbelowRest).1 other hother).someKeyBelow hhigh hkeeps
      have hperm := perm_insert_behind before after leaf tree.bp.nextPage
      have hmem : ∀ id, id ∈ before ++ leaf :: tree.bp.nextPage :: after ↔
          id ∈ branch'.leaves tree'.bp.pages := by
        intro id
        rw [hgrown.mem_leaves, hperm.mem_iff, List.mem_cons, hleaves]
        refine or_congr_left ⟨?_, ?_⟩
        · rintro rfl
          refine ⟨mem_newPages.mpr ⟨le_refl _, ?_⟩, split.new_type_eq⟩
          exact Int.lt_add_of_pos_right _ (Int.natCast_pos.mpr some)
        · rintro ⟨hid, htype⟩
          by_contra hne
          rw [others id hid hne] at htype
          cases htype
      refine .cut size hleaves (Eq.symm ?_) split.linkedPageId_eq split.new_linkedPageId_eq ?_
      · exact horder'.eq_of_lt h'.pair_of_mem_leaves
          (hperm.nodup_iff.mpr (List.nodup_cons.mpr ⟨hnew, hnodup⟩)) hmem hcandidate
      · intro id hid
        have hin : id ∈ before ++ leaf :: after := by
          rcases hid with hbefore | hafter
          · exact List.mem_append_left _ hbefore
          · exact List.mem_append_right _ (List.mem_cons_of_mem _ hafter)
        have hne : id ≠ leaf := by
          rintro rfl
          rcases hid with hbefore | hafter
          · exact (List.nodup_append.mp hnodup).2.2 id hbefore id List.mem_cons_self rfl
          · exact (List.nodup_cons.mp (List.nodup_append.mp hnodup).2.1).1 hafter
        rw [hsame id hin hne]

end Grown

end HiveDb.BPlusTree
