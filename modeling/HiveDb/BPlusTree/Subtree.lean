import HiveDb.BPlusTree.NodeSpec

/-!
# The representation of subtrees

A subtree of height `h` is described by its branch: the page at its root, the
pages it is made of and the pairs its leaves hold, in key order.  The relation
`Subtree` ties a branch to the contents of the pages.  It allows repeated keys:
a separator is at least every key on its left and at most every key on its
right, and when a key on its left equals it, the same key is also found in the
first child on its right, which is where a search for that key goes.
-/

namespace HiveDb.BPlusTree

open HiveDb.Lib
open HiveDb.Lib.Slots

variable {K V : Type} [Index K] [Value V]

/-- The page at the root of a subtree, its pages and the pairs in its leaves. -/
structure Branch (K V : Type) where
  root : PageId
  ids : List PageId
  entries : List (K × V)

/-- The pairs in the live slots of a leaf. -/
def Page.pairs (page : Page K V) : List (K × V) :=
  live (fun i => (page.keys i, page.values i)) page.currentSize

/-- A leaf of a tree with nodes of capacity `cap`, possibly full. -/
structure IsLeaf (cap : Nat) (page : Page K V) : Prop where
  type_eq : page.type = .leafNode
  maxSize_eq : page.maxSize = cap
  pos : 0 < page.currentSize
  le : page.currentSize ≤ cap
  sorted : SortedKeys page page.currentSize

/-- The separator `s` between child `i` and child `i + 1` of `n` children. -/
structure Separates (children : Nat → Branch K V) (n i : Nat) (s : K) : Prop where
  left : ∀ m, m ≤ i → ∀ x ∈ (children m).entries, x.1 ≤ s
  right : ∀ m, i < m → m < n → ∀ x ∈ (children m).entries, s ≤ x.1
  found : (∀ m, m ≤ i → ∀ x ∈ (children m).entries, x.1 < s) ∨
    ∃ x ∈ (children (i + 1)).entries, x.1 = s

/-- An inner node with the given children, possibly full; its last key slot is not looked at. -/
structure IsInner (cap : Nat) (page : Page K V) (children : Nat → Branch K V) : Prop where
  type_eq : page.type = .innerNode
  maxSize_eq : page.maxSize = cap
  two_le : 2 ≤ page.currentSize
  le : page.currentSize ≤ cap
  child_eq : ∀ i, i < page.currentSize → Value.key (page.values i) = (children i).root
  separates : ∀ i, i + 1 < page.currentSize →
    Separates children page.currentSize i (page.keys i)

/-- The branch is represented by the pages, and no node of it is full. -/
def Subtree (cap : Nat) (pages : PageId → Page K V) : Nat → Branch K V → Prop
  | 0, branch =>
      IsLeaf cap (pages branch.root) ∧ (pages branch.root).currentSize < cap ∧
        branch.ids = [branch.root] ∧ branch.entries = (pages branch.root).pairs
  | height + 1, branch =>
      ∃ children : Nat → Branch K V,
        IsInner cap (pages branch.root) children ∧ (pages branch.root).currentSize < cap ∧
        branch.ids = branch.root ::
          flat (fun i => (children i).ids) (pages branch.root).currentSize ∧
        branch.entries = flat (fun i => (children i).entries) (pages branch.root).currentSize ∧
        ∀ i, i < (pages branch.root).currentSize → Subtree cap pages height (children i)

/-! ## What a subtree consists of -/

namespace Subtree

variable {cap height : Nat} {pages pages' : PageId → Page K V} {branch : Branch K V}

theorem root_mem (h : Subtree cap pages height branch) : branch.root ∈ branch.ids := by
  cases height with
  | zero =>
      obtain ⟨_, _, hids, _⟩ := h
      simp [hids]
  | succ height =>
      obtain ⟨_, _, _, hids, _⟩ := h
      simp [hids]

theorem entries_ne_nil (h : Subtree cap pages height branch) : ∃ x, x ∈ branch.entries := by
  induction height generalizing branch with
  | zero =>
      obtain ⟨hleaf, _, _, hentries⟩ := h
      rw [hentries]
      exact ⟨_, mem_live.mpr ⟨0, hleaf.pos, rfl⟩⟩
  | succ height ih =>
      obtain ⟨children, hinner, _, _, hentries, hsub⟩ := h
      have hfirst : 0 < (pages branch.root).currentSize := by
        have := hinner.two_le
        omega
      obtain ⟨x, hx⟩ := ih (hsub 0 hfirst)
      exact ⟨x, hentries ▸ mem_flat.mpr ⟨0, hfirst, hx⟩⟩

/-- A subtree depends on nothing but its own pages. -/
theorem congr (h : Subtree cap pages height branch)
    (hpages : ∀ id ∈ branch.ids, pages' id = pages id) : Subtree cap pages' height branch := by
  have hroot := hpages _ h.root_mem
  induction height generalizing branch with
  | zero =>
      unfold Subtree at h ⊢
      rw [hroot]
      exact h
  | succ height ih =>
      unfold Subtree at h ⊢
      rw [hroot]
      obtain ⟨children, hinner, hroom, hids, hentries, hsub⟩ := h
      refine ⟨children, hinner, hroom, hids, hentries, fun i hi => ?_⟩
      have hchild : ∀ id ∈ (children i).ids, pages' id = pages id := fun id hid =>
        hpages id (hids ▸ List.mem_cons_of_mem _ (mem_flat.mpr ⟨i, hi, hid⟩))
      exact ih (hsub i hi) hchild (hchild _ (hsub i hi).root_mem)

end Subtree

/-! ## Routing through an inner node -/

namespace IsInner

variable {cap : Nat} {page : Page K V} {children : Nat → Branch K V}

/-- Separators are in order because every child holds a pair. -/
theorem sorted (h : IsInner cap page children)
    (hpair : ∀ i, i < page.currentSize → ∃ x, x ∈ (children i).entries) :
    SortedKeys page (page.currentSize - 1) := by
  intro i j hij hj
  rcases Nat.eq_or_lt_of_le hij with heq | hlt
  · rw [heq]
  · obtain ⟨x, hx⟩ := hpair j (by omega)
    exact le_trans ((h.separates i (by omega)).right j hlt (by omega) x hx)
      ((h.separates j (by omega)).left j (Nat.le_refl _) x hx)

/-- Child `j` is where a key belongs: the separators before it are at most the key. -/
structure Routes (page : Page K V) (key : K) (j : Nat) : Prop where
  lt : j < page.currentSize
  before : ∀ i, i < j → page.keys i ≤ key
  after : ∀ i, j ≤ i → i + 1 < page.currentSize → key < page.keys i

theorem findIndex_eq (h : IsInner cap page children)
    (hpair : ∀ i, i < page.currentSize → ∃ x, x ∈ (children i).entries) (key : K) :
    ∃ j, InnerNode.findIndex (Node.ofBuffer page) key = .ok j ∧ Routes page key j := by
  have htwo := h.two_le
  obtain ⟨j, hj, hcut⟩ := InnerNode.findIndex_spec key htwo
    (h.maxSize_eq ▸ h.le) (h.sorted hpair)
  have hle := hcut.le
  refine ⟨j, hj, by omega, ?_, ?_⟩
  · intro i hi
    exact not_lt.mp (hcut.before i hi)
  · intro i hji hi
    exact hcut.from_cut i hji (by omega)

theorem entries_after {key : K} {j m : Nat} (h : IsInner cap page children)
    (hroute : Routes page key j) (hjm : j < m) (hm : m < page.currentSize) {x : K × V}
    (hx : x ∈ (children m).entries) : key < x.1 :=
  lt_of_lt_of_le (hroute.after j (Nat.le_refl _) (by omega))
    ((h.separates j (by omega)).right m hjm hm x hx)

theorem entries_found {key : K} {j m : Nat} (h : IsInner cap page children)
    (hroute : Routes page key j) (hm : m < page.currentSize) {x : K × V}
    (hx : x ∈ (children m).entries) (hkey : x.1 = key) :
    ∃ y ∈ (children j).entries, y.1 = key := by
  rcases Nat.lt_trichotomy m j with hlt | heq | hgt
  · obtain ⟨i, rfl⟩ : ∃ i, j = i + 1 := ⟨j - 1, by omega⟩
    have hseparates := h.separates i hroute.lt
    have hle : x.1 ≤ page.keys i := hseparates.left m (by omega) x hx
    have heq : page.keys i = key := le_antisymm (hroute.before i (by omega)) (hkey ▸ hle)
    rcases hseparates.found with hstrict | ⟨y, hy, hykey⟩
    · exact absurd (hstrict m (by omega) x hx) (by rw [heq, hkey]; exact lt_irrefl key)
    · exact ⟨y, hy, hykey.trans heq⟩
  · exact ⟨x, heq ▸ hx, hkey⟩
  · exact absurd (h.entries_after hroute hgt hm hx) (by rw [hkey]; exact lt_irrefl key)

end IsInner

end HiveDb.BPlusTree
