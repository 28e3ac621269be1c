import HiveDb.BPlusTree.Leaves

/-!
# The chain of leaves

Every leaf has a field for the page of its successor.  When a leaf is cut in two
its lower half is linked to the new leaf, but the new leaf is never given the
successor the old one had: it keeps whatever the new page has in that place.  The
chain stays complete as long as that happens to be the successor.
-/

namespace HiveDb.BPlusTree

open HiveDb.Lib

variable {K V : Type} [Index K] [Value V]

def nextPageId (pages : PageId → Page K V) (id : PageId) : PageId := (pages id).linkedPageId

/--
Following `next_page_id` from the leftmost leaf visits every leaf of the tree
once, in increasing key order, and ends.
-/
def LeafChain (tree : IdealTree K V) : Prop :=
  tree.rootPageId ≠ invalidPageId → ∃ first leaves,
    Leftmost tree.bp.pages tree.rootPageId first ∧
    Chain (nextPageId tree.bp.pages) invalidPageId first leaves ∧
    LeafOrder tree.bp.pages tree.rootPageId leaves

/--
If inserting the key fills its leaf, the page the store allocates next already
names the successor of that leaf.
-/
def LinksSuccessor (cap : Nat) (tree : IdealTree K V) (key : K) : Prop :=
  ∀ path leaf, tree.rootPageId ≠ invalidPageId →
    Descends tree.bp.pages key tree.rootPageId path leaf →
    (tree.bp.pages leaf).type = .leafNode → (tree.bp.pages leaf).currentSize + 1 = cap →
    nextPageId tree.bp.pages tree.bp.nextPage = nextPageId tree.bp.pages leaf

theorem Rooted.leafChain_iff {cap height : Nat} {tree : IdealTree K V} {branch : Branch K V}
    (h : Rooted cap tree height branch) (hdistinct : DistinctKeys branch.entries) :
    LeafChain tree ↔ ∃ first, Chain (nextPageId tree.bp.pages) invalidPageId first
      (branch.leaves tree.bp.pages) := by
  have horder := h.subtree.leafOrder h.nodup hdistinct
  obtain ⟨first, rest, hleaves, hleftmost⟩ := h.subtree.leftmost
  rw [← h.root_eq] at horder hleftmost
  constructor
  · intro hchain
    obtain ⟨first', leaves, _, hchain, horder'⟩ := hchain h.root_ne
    have hpair : ∀ id ∈ branch.leaves tree.bp.pages, ∃ x, x ∈ (tree.bp.pages id).pairs := by
      intro id hid
      have hmem := Branch.mem_leaves.mp hid
      exact h.subtree.pairs_ne_nil hmem.1 hmem.2
    exact ⟨first', horder.unique horder' hpair ▸ hchain⟩
  · rintro ⟨first', hchain⟩ _
    refine ⟨first, _, hleftmost, ?_, horder⟩
    rw [hleaves] at hchain ⊢
    obtain rfl := hchain.head_eq
    exact hchain

/-- A step keeps the chain exactly when the new leaf, if there is one, names the right successor. -/
theorem Grown.leafChain_iff {cap height height' n : Nat} {tree tree' : IdealTree K V}
    {branch branch' : Branch K V} {key : K} {value : V} (hcap : 5 ≤ cap)
    (h : Rooted cap tree height branch) (h' : Rooted cap tree' height' branch')
    (hfresh : FreshFor tree branch n) (hgrown : Grown cap n tree tree' branch branch' key value)
    (hdistinct : DistinctKeys ((key, value) :: branch.entries)) (hchain : LeafChain tree) :
    LeafChain tree' ↔ LinksSuccessor cap tree key := by
  obtain ⟨first, hfirst⟩ := (h.leafChain_iff
    (hdistinct.of_sublist (List.sublist_cons_self _ _))).mp hchain
  rw [h'.leafChain_iff (hdistinct.of_perm hgrown.entries_perm)]
  obtain ⟨path, leaf, hdescends, htype, hgrow⟩ := hgrown.leaves hcap h h' hfresh hdistinct
  cases hgrow with
  | kept room same link =>
      rw [same]
      refine ⟨fun _ => ?_, fun _ => ⟨first, hfirst.congr link⟩⟩
      intro path' leaf' _ hdescends' htype' hfull
      obtain ⟨_, rfl⟩ := hdescends.prefix_of_leaf htype hdescends' htype'
      omega
  | @cut before after full old new link newLink others =>
      rw [old] at hfirst
      rw [new]
      constructor
      · rintro ⟨first', hfirst'⟩ path' leaf' _ hdescends' htype' _
        obtain ⟨_, rfl⟩ := hdescends.prefix_of_leaf htype hdescends' htype'
        exact newLink.symm.trans (hfirst.next_of_splice hfirst')
      · intro hlinks
        have hnew : tree.bp.nextPage ≠ invalidPageId := by
          intro heq
          have hnonneg := h.next_nonneg
          rw [heq] at hnonneg
          exact absurd hnonneg (by decide)
        exact ⟨first, hfirst.splice hnew link
          (newLink.trans (hlinks path leaf h.root_ne hdescends htype full))
          (fun id hid => others id (.inl hid)) fun id hid => others id (.inr hid)⟩

theorem leafChain_insertFirst {cap : Nat} (hcap : 2 ≤ cap) {tree tree' : IdealTree K V}
    (hnext : 0 ≤ tree.bp.nextPage) (hqueue : tree.frameQueue = []) {key : K} {value : V}
    {returned : Bool} (hinsert : insertFirst cap key value tree = .ok returned tree') :
    LeafChain tree' := by
  obtain ⟨tree'', page, hok, hrepresents, hpage, hfirst⟩ :=
    Represents.of_insertFirst cap hcap hnext hqueue key value
  cases hok.symm.trans hinsert
  have hpairs : page.pairs = [(key, value)] := by
    rw [Page.pairs, hfirst.currentSize_eq]
    exact congrArg₂ (fun k v => [(k, v)]) hfirst.key_eq hfirst.value_eq
  have hdistinct : DistinctKeys (leafBranch tree.bp.nextPage page).entries := by
    rw [show (leafBranch tree.bp.nextPage page).entries = [(key, value)] from hpairs]
    exact List.nodup_singleton _
  refine (hrepresents.rooted.leafChain_iff hdistinct).mpr ⟨tree.bp.nextPage, ?_⟩
  rw [hrepresents.subtree.leaves_zero]
  have hroot : tree'.rootPageId = tree.bp.nextPage := hrepresents.root_eq
  refine .cons (hroot ▸ hrepresents.root_ne) ?_
  show Chain _ _ (tree'.bp.pages tree.bp.nextPage).linkedPageId []
  rw [hpage, hfirst.linkedPageId_eq]
  exact .nil

theorem Holds.leafChain_iff {cap : Nat} {tree tree' : IdealTree K V} {pairs : List (K × V)}
    {pair : K × V} (hcap : 5 ≤ cap) (h : Holds cap tree pairs) (hchain : LeafChain tree)
    (hdistinct : DistinctKeys (pairs ++ [pair])) (hinserts : Inserts cap tree pair tree') :
    LeafChain tree' ↔ LinksSuccessor cap tree pair.1 := by
  cases h with
  | empty root next queue none =>
      obtain ⟨fuel, returned, hreturns⟩ := hinserts
      rw [IdealTree.insert_first root] at hreturns
      refine iff_of_true (leafChain_insertFirst (by omega) next queue hreturns) ?_
      intro _ _ hroot
      exact absurd root hroot
  | @rooted height branch represents perm =>
      have hperm : (pair :: branch.entries).Perm (pairs ++ [pair]) :=
        (perm.cons _).trans (List.perm_append_singleton pair pairs).symm
      have hdistinct' : DistinctKeys ((pair.1, pair.2) :: branch.entries) :=
        hdistinct.of_perm hperm
      obtain ⟨n, _, height', branch', hrooted', hgrown⟩ := represents.rooted.grows_of_inserts hcap
        (fun n _ => represents.fresh n) (represents.rooted.registersRight hcap hdistinct') hinserts
      exact hgrown.leafChain_iff hcap represents.rooted hrooted' (represents.fresh n) hdistinct'
        hchain

/-- An insertion that returns, into a state from which the chain is kept. -/
def InsertsLinked (cap : Nat) (tree : IdealTree K V) (pair : K × V) (tree' : IdealTree K V) :
    Prop :=
  LinksSuccessor cap tree pair.1 ∧ Inserts cap tree pair tree'

/--
After insertions of distinct keys, each of which found the successor of the leaf
it cut in two in the new page, the chain of leaves is complete and ordered.  The
next insertion of a new key keeps it so exactly when it finds the same.
-/
theorem leafChain_after_insertions {cap : Nat} (hcap : 5 ≤ cap) {pages : PageId → Page K V}
    {pairs : List (K × V)} {tree : IdealTree K V}
    (hrun : Run (InsertsLinked cap) (IdealTree.empty pages) pairs tree)
    (hdistinct : DistinctKeys pairs) :
    LeafChain tree ∧ ∀ pair tree', DistinctKeys (pairs ++ [pair]) →
      Inserts cap tree pair tree' → (LeafChain tree' ↔ LinksSuccessor cap tree pair.1) := by
  have hall := hrun.invariant (fun pairs tree => DistinctKeys pairs →
    Holds cap tree pairs ∧ LeafChain tree) ?_ ?_ hdistinct
  · refine ⟨hall.2, fun pair tree' hdistinct' hinserts => ?_⟩
    exact hall.1.leafChain_iff hcap hall.2 hdistinct' hinserts
  · exact fun _ => ⟨Holds.empty_tree pages, fun hroot => absurd rfl hroot⟩
  · intro before tree pair tree' ih hinserts hdistinct
    obtain ⟨hholds, hchain⟩ := ih (hdistinct.of_sublist (List.sublist_append_left _ _))
    exact ⟨hholds.insert_of_distinct hcap hdistinct hinserts.2,
      (hholds.leafChain_iff hcap hchain hdistinct hinserts.2).mpr hinserts.1⟩

/-- The tree of capacity 5 after five insertions over blank pages, the last of which splits it. -/
def fiveInserted : IdealTree Int Int :=
  stateOf (insertAll 5 4 (increasing 5) (IdealTree.empty blankPages))

/-- Over blank pages the second leaf names the first one as its successor. -/
theorem fiveInserted_not_chained :
    DistinctKeys (increasing 5) ∧
      Run (Inserts 5) (IdealTree.empty blankPages) (increasing 5) fiveInserted ∧
      ¬ LeafChain fiveInserted := by
  refine ⟨by decide +kernel, run_of_resultOf 5 4 _ _ (by decide +kernel), fun hchain => ?_⟩
  obtain ⟨first, leaves, hleftmost, hchain, horder⟩ := hchain (by decide +kernel)
  have hdown : ChildOf fiveInserted.bp.pages fiveInserted.rootPageId 0 0 :=
    ⟨by decide +kernel, by decide +kernel, by decide +kernel⟩
  have hleaf : (fiveInserted.bp.pages 0).type = .leafNode := by decide +kernel
  obtain rfl := hleftmost.unique (.down hdown (.here hleaf))
  have hfirst : nextPageId fiveInserted.bp.pages 0 = 1 := by decide +kernel
  have hsecond : nextPageId fiveInserted.bp.pages 1 = 0 := by decide +kernel
  -- the chain would go through page 0 a second time
  cases hchain with
  | cons _ tail =>
      rw [hfirst] at tail
      cases tail with
      | cons _ tail =>
          rw [hsecond] at tail
          cases tail with
          | cons _ tail => exact absurd horder.nodup (by simp)

/-- The condition is evaluated while the root is a leaf. -/
theorem InsertsLinked.of_leafRoot {cap : Nat} {tree : IdealTree K V} (fuel : Nat) (key : K)
    (value : V)
    (hleaf : tree.rootPageId ≠ invalidPageId → (tree.bp.pages tree.rootPageId).type = .leafNode)
    (hlink : (tree.bp.pages tree.rootPageId).currentSize + 1 = cap →
      nextPageId tree.bp.pages tree.bp.nextPage = nextPageId tree.bp.pages tree.rootPageId)
    (hreturns : resultOf (insert cap fuel key value tree) = some true) :
    InsertsLinked cap tree (key, value) (stateOf (insert cap fuel key value tree)) := by
  refine ⟨fun path leaf hroot hdescends htype hfull => ?_, fuel, true, eq_ok_of_resultOf hreturns⟩
  obtain ⟨_, rfl⟩ := (Descends.here tree.rootPageId).prefix_of_leaf (hleaf hroot) hdescends htype
  exact hlink hfull

/-- Pages whose contents end every chain. -/
def endedPages : PageId → Page Int Int := fun id =>
  { blankPages id with linkedPageId := invalidPageId }

/-- Over such pages the leaves are chained after the root leaf has been cut in two. -/
theorem five_insertions_chained :
    ∃ tree, Run (InsertsLinked 5) (IdealTree.empty endedPages)
      ([] ++ [((0 : Int), (0 : Int))] ++ [(1, 1)] ++ [(2, 2)] ++ [(3, 3)] ++ [(4, 4)]) tree ∧
      (tree.bp.pages tree.rootPageId).type = .innerNode ∧ LeafChain tree := by
  have hstart : Run (InsertsLinked 5) (IdealTree.empty endedPages) [] _ := .nil
  have hfirst := hstart.snoc (.of_leafRoot 4 0 0 (by decide +kernel) (by decide +kernel)
    (by decide +kernel))
  have hsecond := hfirst.snoc (.of_leafRoot 4 1 1 (by decide +kernel) (by decide +kernel)
    (by decide +kernel))
  have hthird := hsecond.snoc (.of_leafRoot 4 2 2 (by decide +kernel) (by decide +kernel)
    (by decide +kernel))
  have hfourth := hthird.snoc (.of_leafRoot 4 3 3 (by decide +kernel) (by decide +kernel)
    (by decide +kernel))
  have hrun := hfourth.snoc (.of_leafRoot 4 4 4 (by decide +kernel) (by decide +kernel)
    (by decide +kernel))
  exact ⟨_, hrun, by decide +kernel, (leafChain_after_insertions (by decide) hrun (by decide)).1⟩

end HiveDb.BPlusTree
