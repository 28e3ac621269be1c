import HiveDb.BPlusTree.Insertion

/-!
# What an insertion and a search do

The cases of an insertion put together: it fails exactly when it would split an
inner node below the root, and otherwise leaves a tree that represents one pair
more.  A search returns the value of one of the pairs with its key.
-/

namespace HiveDb.BPlusTree

open HiveDb.Lib
open HiveDb.Lib.Slots

variable {K V : Type} [Index K] [Value V]

/--
Inserting the key fills a leaf whose parent is one short of being full as well,
and that parent is not the root.
-/
def SplitsBelowRoot (cap : Nat) (tree : IdealTree K V) (key : K) : Prop :=
  tree.rootPageId ≠ invalidPageId ∧ ∃ path parent leaf, path ≠ [] ∧
    Descends tree.bp.pages key tree.rootPageId (path ++ [parent]) leaf ∧
    (tree.bp.pages leaf).type = .leafNode ∧ (tree.bp.pages leaf).currentSize + 1 = cap ∧
    (tree.bp.pages parent).currentSize + 1 = cap

/--
The number of pages an insertion of the key allocates, read off the tree before
it.  Below a full parent that is not the root the insertion allocates two pages
and then fails.
-/
inductive Allocates (cap : Nat) (tree : IdealTree K V) (key : K) : Nat → Prop where
  | room {path : List PageId} {leaf : PageId}
      (descends : Descends tree.bp.pages key tree.rootPageId path leaf)
      (isLeaf : (tree.bp.pages leaf).type = .leafNode)
      (room : (tree.bp.pages leaf).currentSize + 1 < cap) : Allocates cap tree key 0
  | rootLeaf (isLeaf : (tree.bp.pages tree.rootPageId).type = .leafNode)
      (full : (tree.bp.pages tree.rootPageId).currentSize + 1 = cap) : Allocates cap tree key 2
  | leaf {path : List PageId} {parent leaf : PageId}
      (descends : Descends tree.bp.pages key tree.rootPageId (path ++ [parent]) leaf)
      (isLeaf : (tree.bp.pages leaf).type = .leafNode)
      (full : (tree.bp.pages leaf).currentSize + 1 = cap)
      (roomParent : (tree.bp.pages parent).currentSize + 1 < cap) : Allocates cap tree key 1
  | rootInner {leaf : PageId}
      (descends : Descends tree.bp.pages key tree.rootPageId [tree.rootPageId] leaf)
      (isLeaf : (tree.bp.pages leaf).type = .leafNode)
      (full : (tree.bp.pages leaf).currentSize + 1 = cap)
      (fullRoot : (tree.bp.pages tree.rootPageId).currentSize + 1 = cap) : Allocates cap tree key 3
  | belowRoot (splits : SplitsBelowRoot cap tree key) : Allocates cap tree key 2

namespace Rooted

variable {cap height : Nat} {tree tree' : IdealTree K V} {branch : Branch K V} {key : K} {value : V}

theorem focusLeaf (h : Rooted cap tree height branch) (key : K) :
    ∃ path hole leaf, Focus cap tree.bp.pages key 0 height branch path hole leaf := by
  refine Subtree.focus key 0 height ?_
  rw [Nat.zero_add]
  exact h.subtree

/-- Whether an insertion splits below the root is read off the descent of its key. -/
theorem splitsBelowRoot_iff {path : List PageId} {leaf : PageId}
    (h : Rooted cap tree height branch)
    (hdescends : Descends tree.bp.pages key branch.root path leaf)
    (hleaf : (tree.bp.pages leaf).type = .leafNode) :
    SplitsBelowRoot cap tree key ↔ ∃ front parent, front ≠ [] ∧ path = front ++ [parent] ∧
      (tree.bp.pages leaf).currentSize + 1 = cap ∧
      (tree.bp.pages parent).currentSize + 1 = cap := by
  rw [← h.root_eq] at hdescends
  constructor
  · rintro ⟨_, front, parent, other, hne, hother, hotherLeaf, hfull, hfullParent⟩
    obtain ⟨rfl, rfl⟩ := hdescends.prefix_of_leaf hleaf hother hotherLeaf
    exact ⟨front, parent, hne, rfl, hfull, hfullParent⟩
  · rintro ⟨front, parent, hne, rfl, hfull, hfullParent⟩
    exact ⟨h.root_ne, front, parent, leaf, hne, hdescends, hleaf, hfull, hfullParent⟩

/-- An insertion with an ample budget, when the pages it allocates are not in use. -/
theorem insert_spec (hcap : 5 ≤ cap) (h : Rooted cap tree height branch) (key : K) (value : V)
    (fuel : Nat) (hfresh : ∀ n, Allocates cap tree key n → FreshFor tree branch n) :
    (¬ SplitsBelowRoot cap tree key ∧ (RegistersRight cap tree key value →
      ∃ tree', insert cap (height + (fuel + 1)) key value tree = .ok true tree' ∧
        ∃ n, Allocates cap tree key n ∧ GrowsTo cap n tree tree' branch key value)) ∨
    (SplitsBelowRoot cap tree key ∧
      ∃ tree', insert cap (height + (fuel + 1)) key value tree = .error .assertion tree') := by
  obtain ⟨path, hole, leaf, hfocus⟩ := h.focusLeaf key
  have hleaf := hfocus.subtree.1
  have hroomLeaf := hfocus.subtree.2.1
  have hsplits := h.splitsBelowRoot_iff hfocus.descends hleaf.type_eq
  have hdescends := hfocus.descends
  rw [← h.root_eq] at hdescends
  by_cases hroom : (tree.bp.pages leaf.root).currentSize + 1 < cap
  · refine .inl ⟨?_, fun _ => ?_⟩
    · rw [hsplits]
      rintro ⟨_, _, _, _, hfull, _⟩
      omega
    · obtain ⟨tree', hinsert, hgrows⟩ :=
        insert_room (by rw [Nat.zero_add]; exact h) hfocus hroom
      exact ⟨tree', hinsert, 0, .room hdescends hleaf.type_eq hroom, hgrows⟩
  have hfull : (tree.bp.pages leaf.root).currentSize + 1 = cap := by omega
  cases height with
  | zero =>
      obtain rfl : path = [] := List.length_eq_zero_iff.mp hfocus.length_path
      have hroot : leaf.root = tree.rootPageId := hdescends.eq_of_nil.symm
      have hallocates : Allocates cap tree key 2 :=
        .rootLeaf (hroot ▸ hleaf.type_eq) (hroot ▸ hfull)
      refine .inl ⟨?_, fun _ => ?_⟩
      · rw [hsplits]
        rintro ⟨front, parent, _, hpath, _⟩
        exact absurd hpath (by simp)
      · rw [Nat.zero_add]
        obtain ⟨tree', hinsert, hgrows⟩ := h.insert_splitRootLeaf hcap (hfresh 2 hallocates)
          (h.root_eq ▸ hroot ▸ hfull)
        exact ⟨tree', hinsert, 2, hallocates, hgrows⟩
  | succ depth =>
      rw [Nat.add_comm depth 1] at h ⊢
      cases depth with
      | zero =>
          obtain ⟨children, j, at'⟩ := exists_atParent (Focus.top key h.subtree)
          obtain ⟨rfl, hsame⟩ := at'.descends.prefix_of_leaf at'.isLeaf.type_eq hfocus.descends
            hleaf.type_eq
          rw [← hsame] at hfull hdescends
          refine .inl ⟨?_, fun hright => ?_⟩
          · rw [hsplits]
            rintro ⟨front, parent, hne, hpath, _⟩
            obtain ⟨rfl, _⟩ := List.append_inj' hpath rfl
            exact hne rfl
          · by_cases hroomRoot : (tree.bp.pages branch.root).currentSize + 1 < cap
            · have hallocates : Allocates cap tree key 1 :=
                .leaf hdescends at'.isLeaf.type_eq hfull hroomRoot
              obtain ⟨tree', hinsert, hgrows⟩ := insert_registers hcap h (hfresh 1 hallocates) at'
                hfull hroomRoot hright
              exact ⟨tree', hinsert, 1, hallocates, hgrows⟩
            · have hroom' := at'.room
              have hfullRoot : (tree.bp.pages branch.root).currentSize + 1 = cap := by omega
              rw [← h.root_eq, List.nil_append] at hdescends
              have hallocates : Allocates cap tree key 3 :=
                .rootInner hdescends at'.isLeaf.type_eq hfull (h.root_eq ▸ hfullRoot)
              obtain ⟨tree', hinsert, hgrows⟩ := insert_splitInnerRoot hcap h (hfresh 3 hallocates)
                at' hfull hfullRoot hright
              exact ⟨tree', hinsert, 3, hallocates, hgrows⟩
      | succ depth =>
          obtain ⟨front, around, parent, hparent⟩ := h.subtree.focus key 1 (depth + 1)
          obtain ⟨children, j, at'⟩ := exists_atParent hparent
          obtain ⟨rfl, hsame⟩ := at'.descends.prefix_of_leaf at'.isLeaf.type_eq hfocus.descends
            hleaf.type_eq
          by_cases hroomParent : (tree.bp.pages parent.root).currentSize + 1 < cap
          · refine .inl ⟨?_, fun hright => ?_⟩
            · rw [hsplits]
              rintro ⟨other, last, _, hpath, _, hfullParent⟩
              obtain ⟨_, hlast⟩ := List.append_inj' hpath rfl
              cases hlast
              omega
            · have hallocates : Allocates cap tree key 1 :=
                .leaf hdescends hleaf.type_eq hfull hroomParent
              obtain ⟨tree', hinsert, hgrows⟩ := insert_registers hcap h (hfresh 1 hallocates) at'
                (hsame ▸ hfull) hroomParent hright
              exact ⟨tree', hinsert, 1, hallocates, hgrows⟩
          · have hroom' := at'.room
            have hfullParent : (tree.bp.pages parent.root).currentSize + 1 = cap := by omega
            have hbelow : SplitsBelowRoot cap tree key := by
              rw [hsplits]
              refine ⟨front, parent.root, ?_, rfl, hfull, hfullParent⟩
              rintro rfl
              cases at'.focus.length_path
            exact .inr ⟨hbelow, insert_fails hcap h (hfresh 2 (.belowRoot hbelow)) at'
              (hsame ▸ hfull) hfullParent⟩

/-- Once the budget is ample, its size does not matter. -/
theorem insert_budget (h : Rooted cap tree height branch) (fuel fuel' : Nat) :
    insert cap (height + (fuel + 1)) key value tree =
      insert cap (height + (fuel' + 1)) key value tree := by
  obtain ⟨path, hole, leaf, hfocus⟩ := h.focusLeaf key
  have hdescends := hfocus.descends
  rw [← h.root_eq] at hdescends
  have hplace : ∀ extra, findPlaceForNewKeyAndInsert cap (height + (extra + 1)) key value tree =
      insertIntoLeaf cap key value leaf.root (Node.ofBuffer (tree.bp.pages leaf.root))
        (tree.queued (path.reverse ++ tree.frameQueue)) := by
    intro extra
    rw [findPlaceForNewKeyAndInsert, bind_of_ok (get_apply tree), ← hfocus.length_path,
      IdealTree.findPlaceLoop_descends cap value hdescends,
      IdealTree.findPlaceLoop_leaf (by exact hfocus.subtree.1.type_eq)]
    rfl
  rw [insert, insert, bind_of_ok (get_apply tree), bind_of_ok (get_apply tree),
    if_neg h.root_ne, if_neg h.root_ne, bind_apply, bind_apply, hplace, hplace]

/-- With too small a budget an insertion does not return. -/
theorem insert_exhausted {fuel : Nat} (h : Rooted cap tree height branch) (key : K)
    (value : V) (hfuel : fuel ≤ height) :
    ∃ tree', insert cap fuel key value tree = .error .outOfFuel tree' := by
  obtain ⟨path, hole, leaf, hfocus⟩ := h.focusLeaf key
  have hdescends := hfocus.descends
  rw [← h.root_eq] at hdescends
  obtain ⟨tree', hexhausted⟩ := IdealTree.findPlaceLoop_exhausted cap value
    hdescends (hfocus.length_path.symm ▸ hfuel)
  exact ⟨tree', IdealTree.insert_error h.root_ne hexhausted⟩

/-- A search returns the value of a pair with its key, or leaves the output as it was. -/
theorem find_spec (h : Rooted cap tree height branch) (key : K) (value : V)
    (fuel : Nat) :
    ∃ result, find (height + (fuel + 1)) key value tree = .ok result tree ∧
      ((key, result) ∈ branch.entries ∨
        result = value ∧ ∀ x ∈ branch.entries, x.1 ≠ key) := by
  obtain ⟨path, hole, leaf, hfocus⟩ := h.focusLeaf key
  have hleaf := hfocus.subtree.1
  have hentries : leaf.entries = (tree.bp.pages leaf.root).pairs := hfocus.subtree.2.2.2
  have hdescends := hfocus.descends
  rw [← h.root_eq] at hdescends
  obtain ⟨found, hfound, hsome, hnone⟩ := LeafNode.findIndex_spec key hleaf.pos
    (hleaf.maxSize_eq ▸ hleaf.le) hleaf.sorted
  have heval : find (height + (fuel + 1)) key value tree =
      .ok ((found.map (tree.bp.pages leaf.root).values).getD value) tree := by
    rw [find, bind_of_ok (get_apply tree), if_neg h.root_ne, ← hfocus.length_path]
    have hloop := IdealTree.findLoop_descends value hdescends (fuel + 1)
    rw [IdealTree.findLoop_leaf hleaf.type_eq hfound fun i hi => by
      rw [hleaf.maxSize_eq]
      exact lt_of_lt_of_le (hsome i hi).1 hleaf.le] at hloop
    exact hloop
  refine ⟨_, heval, ?_⟩
  cases found with
  | none =>
      refine .inr ⟨rfl, fun x hx hkey => ?_⟩
      obtain ⟨y, hy, hykey⟩ := hfocus.found x hx hkey
      rw [hentries] at hy
      obtain ⟨i, hi, rfl⟩ := Page.mem_pairs.mp hy
      exact hnone rfl i hi hykey
  | some i =>
      obtain ⟨hi, hkey⟩ := hsome i rfl
      refine .inl ?_
      rw [← hfocus.fill_eq]
      refine List.mem_append_left _ (List.mem_append_right _ ?_)
      rw [hentries]
      exact Page.mem_pairs.mpr ⟨i, hi, by rw [hkey]; rfl⟩

end Rooted

/-- An insertion into a tree the program has built itself, with an ample budget. -/
theorem Represents.insert_spec {cap height : Nat} {tree : IdealTree K V} {branch : Branch K V}
    (hcap : 5 ≤ cap) (h : Represents cap tree height branch) (key : K) (value : V) (fuel : Nat) :
    (¬ SplitsBelowRoot cap tree key ∧ (RegistersRight cap tree key value →
      ∃ tree', insert cap (height + (fuel + 1)) key value tree = .ok true tree' ∧
        Takes cap tree' branch key value)) ∨
    (SplitsBelowRoot cap tree key ∧
      ∃ tree', insert cap (height + (fuel + 1)) key value tree = .error .assertion tree') := by
  rcases h.rooted.insert_spec hcap key value fuel fun n _ => h.fresh n with
    ⟨hsplits, hreturns⟩ | hfails
  · refine .inl ⟨hsplits, fun hright => ?_⟩
    obtain ⟨tree', hinsert, n, _, hgrows⟩ := hreturns hright
    exact ⟨tree', hinsert, h.takes hgrows⟩
  · exact .inr hfails

/-! ## Distinct keys -/

/-- No key occurs twice. -/
def DistinctKeys (entries : List (K × V)) : Prop := (entries.map Prod.fst).Nodup

instance (entries : List (K × V)) : Decidable (DistinctKeys entries) :=
  inferInstanceAs (Decidable (entries.map Prod.fst).Nodup)

namespace DistinctKeys

omit [Index K] [Value V] in
theorem of_perm {entries entries' : List (K × V)} (h : DistinctKeys entries)
    (hperm : entries'.Perm entries) : DistinctKeys entries' :=
  (hperm.map Prod.fst).nodup_iff.mpr h

omit [Index K] [Value V] in
theorem of_sublist {entries entries' : List (K × V)} (h : DistinctKeys entries)
    (hsub : entries'.Sublist entries) : DistinctKeys entries' :=
  h.sublist (hsub.map Prod.fst)

omit [Index K] [Value V] in
/-- Different children of an inner node have no key in common. -/
theorem ne_of_flat {children : Nat → Branch K V} {n i j : Nat}
    (h : DistinctKeys (flat (fun i => (children i).entries) n)) (hi : i < n) (hj : j < n)
    (hij : i ≠ j) {x y : K × V} (hx : x ∈ (children i).entries) (hy : y ∈ (children j).entries) :
    x.1 ≠ y.1 := by
  intro heq
  rw [DistinctKeys, map_flat] at h
  exact not_mem_of_nodup_flat h hi hj hij (List.mem_map_of_mem hx) (heq ▸ List.mem_map_of_mem hy)

omit [Value V] in
/-- The keys of a leaf are strictly increasing. -/
theorem keys_lt {page : Page K V} (h : DistinctKeys page.pairs)
    (hsorted : SortedKeys page page.currentSize) {i j : Nat} (hij : i < j)
    (hj : j < page.currentSize) : page.keys i < page.keys j := by
  rw [DistinctKeys, Page.pairs, map_live] at h
  exact lt_of_le_of_ne (hsorted i j (Nat.le_of_lt hij) hj)
    (live_ne_of_nodup h (by omega) hj (Nat.ne_of_lt hij))

/-- Separators are strictly above the keys on their left. -/
theorem lt_separator {cap : Nat} {page : Page K V} {children : Nat → Branch K V}
    (h : DistinctKeys (flat (fun i => (children i).entries) page.currentSize))
    (hinner : IsInner cap page children) {m i : Nat} (hm : m ≤ i) (hi : i + 1 < page.currentSize)
    {x : K × V} (hx : x ∈ (children m).entries) : x.1 < page.keys i := by
  have hseparates := hinner.separates i hi
  rcases hseparates.found with hstrict | ⟨y, hy, hkey⟩
  · exact hstrict m hm x hx
  · refine lt_of_le_of_ne (hseparates.left m hm x hx) ?_
    rw [← hkey]
    exact h.ne_of_flat (by omega) hi (by omega) hx hy

end DistinctKeys

/-- The middle key of a leaf that took the key in lies strictly between the separators around it. -/
theorem Rooted.AtParent.position_eq {cap depth : Nat} {pages : PageId → Page K V} {key : K}
    {value : V} {branch : Branch K V} {path : List PageId} {hole : Hole K V} {parent : Branch K V}
    {children : Nat → Branch K V} {j w : Nat} {mid : Page K V} (hcap : 5 ≤ cap)
    (at' : AtParent cap pages key depth branch path hole parent children j)
    (hmid : IsLeaf cap mid) (hfull : mid.currentSize = cap)
    (hpairs : mid.pairs.Perm ((key, value) :: (children j).entries))
    (hdistinct : DistinctKeys ((key, value) :: parent.entries))
    (hposition : Node.IsPosition (pages parent.root) ((pages parent.root).currentSize - 1)
      (mid.keys (cap / 2)) w) : w = j := by
  have hj := at'.routes.lt
  have hle := hposition.le
  rw [at'.entries_eq] at hdistinct
  have hmidDistinct : DistinctKeys mid.pairs := by
    refine DistinctKeys.of_perm (hdistinct.of_sublist (List.Sublist.cons_cons _ ?_)) hpairs
    rw [flat_eq_append _ hj, List.append_assoc]
    exact (List.sublist_append_left _ _).trans (List.sublist_append_right _ _)
  have hold : DistinctKeys
      (flat (fun i => (children i).entries) (pages parent.root).currentSize) :=
    hdistinct.of_sublist (List.sublist_cons_self _ _)
  -- a pair of the leaf is the new one or an old one
  have hcases : ∀ i, i < cap →
      mid.keys i = key ∨ ∃ x ∈ (children j).entries, x.1 = mid.keys i := by
    intro i hi
    have hmem : (mid.keys i, mid.values i) ∈ mid.pairs :=
      Page.mem_pairs.mpr ⟨i, hfull.symm ▸ hi, rfl⟩
    rcases List.mem_cons.mp (hpairs.mem_iff.mp hmem) with heq | hmem'
    · exact .inl (congrArg Prod.fst heq)
    · exact .inr ⟨_, hmem', rfl⟩
  rcases Nat.lt_trichotomy w j with hlt | heq | hgt
  · have hfirst : (pages parent.root).keys w ≤ mid.keys 0 := by
      rcases hcases 0 (by omega) with hkey | ⟨x, hx, hkey⟩
      · rw [hkey]
        exact at'.routes.before w hlt
      · rw [← hkey]
        exact (at'.inner.separates w (by omega)).right j hlt hj x hx
    have hstrict : mid.keys 0 < mid.keys (cap / 2) :=
      hmidDistinct.keys_lt hmid.sorted (by omega) (by omega)
    exact absurd (hposition.from_position w (Nat.le_refl w) (by omega))
      (not_le.mpr (lt_of_le_of_lt hfirst hstrict))
  · exact heq
  · have hbelow : mid.keys (cap / 2) < (pages parent.root).keys j := by
      rcases hcases (cap / 2) (by omega) with hkey | ⟨x, hx, hkey⟩
      · rw [hkey]
        exact at'.routes.after j (Nat.le_refl j) (by omega)
      · rw [← hkey]
        exact hold.lt_separator at'.inner (Nat.le_refl j) (by omega) hx
    exact absurd (hposition.before j hgt) (not_le.mpr hbelow)

/-- With distinct keys a new leaf is always registered right of the one it was cut from. -/
theorem Rooted.registersRight {cap height : Nat} {tree : IdealTree K V} {branch : Branch K V}
    {key : K} {value : V} (hcap : 5 ≤ cap) (h : Rooted cap tree height branch)
    (hdistinct : DistinctKeys ((key, value) :: branch.entries)) :
    RegistersRight cap tree key value := by
  intro path parentId leafId node j _ hdescends hleafType hfull hinsert hfound
  rw [h.root_eq] at hdescends
  cases height with
  | zero =>
      obtain ⟨hpath, _⟩ := (Descends.here branch.root).prefix_of_leaf h.subtree.1.type_eq hdescends
        hleafType
      exact absurd hpath.symm (by simp)
  | succ depth =>
      rw [Nat.add_comm depth 1] at h
      obtain ⟨front, hole, parent, hparent⟩ := h.subtree.focus key 1 depth
      obtain ⟨children, j', at'⟩ := exists_atParent hparent
      obtain ⟨hpath, rfl⟩ := at'.descends.prefix_of_leaf at'.isLeaf.type_eq hdescends hleafType
      obtain ⟨_, hlast⟩ := List.append_inj' hpath rfl
      cases hlast
      cases at'.found.symm.trans hfound
      have hleaf := at'.isLeaf
      have hroom := at'.room
      obtain ⟨w, mid, hmid, hposition, hinserted⟩ := LeafNode.trivialInsert_spec key
        value (by rw [hleaf.maxSize_eq]; omega) hleaf.sorted
      cases hinsert.symm.trans hmid
      obtain ⟨u, hu, hposition'⟩ := InnerNode.findIndexForInsert_spec at'.inner.two_le
        (by rw [at'.inner.maxSize_eq]; exact hroom) at'.sorted (mid.keys (cap / 2))
      have hpairs : mid.pairs.Perm ((key, value) :: (children j).entries) := by
        rw [at'.child_eq]
        exact IsLeaf.pairs_insert hposition.le hinserted
      have hparentDistinct : DistinctKeys ((key, value) :: parent.entries) := by
        refine hdistinct.of_sublist (List.Sublist.cons_cons _ ?_)
        rw [← at'.focus.fill_eq]
        exact (List.sublist_append_right _ _).trans (List.sublist_append_left _ _)
      obtain rfl := at'.position_eq hcap (hleaf.insert (by omega) hposition hinserted)
        (hinserted.currentSize_eq.trans hfull) hpairs hparentDistinct hposition'
      exact hu

end HiveDb.BPlusTree
