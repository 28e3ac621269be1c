import HiveDb.BPlusTree.Update

/-!
# Descending to the place of a key

The descent of a key is the list of inner nodes it passes.  A subtree on that
descent can be exchanged for one that has taken the key in, while the rest of
the tree, the hole around it, stays as it is.
-/

namespace HiveDb.BPlusTree

open HiveDb.Lib
open HiveDb.Lib.Slots

variable {K V : Type} [Index K] [Value V]

/-- The inner nodes passed on the way of `key` from one page down to another. -/
inductive Descends (pages : PageId → Page K V) (key : K) :
    PageId → List PageId → PageId → Prop where
  | here (id : PageId) : Descends pages key id [] id
  | down {id target : PageId} {path : List PageId} {j : Nat}
      (inner : (pages id).type = .innerNode)
      (found : InnerNode.findIndex (Node.ofBuffer (pages id)) key = .ok j)
      (inside : j < (pages id).maxSize)
      (rest : Descends pages key (Value.key ((pages id).values j)) path target) :
      Descends pages key id (id :: path) target

namespace Descends

variable {pages : PageId → Page K V} {key : K} {id mid target : PageId} {path rest : List PageId}

theorem trans (first : Descends pages key id path mid)
    (second : Descends pages key mid rest target) :
    Descends pages key id (path ++ rest) target := by
  induction first with
  | here id => exact second
  | down inner found inside _ ih => exact .down inner found inside (ih second)

/-- A descent through no inner node stays where it is. -/
theorem eq_of_nil (h : Descends pages key id [] target) : id = target := by
  generalize hpath : ([] : List PageId) = path at h
  cases h with
  | here => rfl
  | down => cases hpath

/-- The page a descent passed last is an inner node. -/
theorem of_concat {parent : PageId} (h : Descends pages key id (path ++ [parent]) target) :
    Descends pages key id path parent ∧ (pages parent).type = .innerNode := by
  generalize hall : path ++ [parent] = all at h
  induction h generalizing path with
  | here id => exact absurd hall (by simp)
  | down inner found inside _ ih =>
      cases path with
      | nil =>
          obtain ⟨rfl, _⟩ := List.cons.inj hall
          exact ⟨.here _, inner⟩
      | cons head rest =>
          obtain ⟨rfl, hrest⟩ := List.cons.inj hall
          obtain ⟨hdescends, htype⟩ := ih hrest
          exact ⟨.down inner found inside hdescends, htype⟩

/-- Two descents from one page agree as long as both go on. -/
theorem prefix_of_leaf (hleaf : (pages target).type = .leafNode)
    (first : Descends pages key id path target) {other : PageId}
    (second : Descends pages key id rest other) (hother : (pages other).type = .leafNode) :
    path = rest ∧ target = other := by
  induction first generalizing rest with
  | here id =>
      cases second with
      | here => exact ⟨rfl, rfl⟩
      | down inner => rw [hleaf] at inner; cases inner
  | down inner found inside _ ih =>
      cases second with
      | here => rw [hother] at inner; cases inner
      | down _ found' _ tail =>
          cases found.symm.trans found'
          obtain ⟨hpath, htarget⟩ := ih hleaf tail
          exact ⟨by rw [hpath], htarget⟩

end Descends

/-- The descent of a key to a leaf, within a number of levels. -/
def descend? (pages : PageId → Page K V) (key : K) : Nat → PageId → Option (List PageId × PageId)
  | 0, _ => none
  | levels + 1, id =>
      if (pages id).type = .leafNode then some ([], id)
      else
        match InnerNode.findIndex (Node.ofBuffer (pages id)) key with
        | .error _ => none
        | .ok j =>
            if j < (pages id).maxSize then
              (descend? pages key levels (Value.key ((pages id).values j))).map fun below =>
                (id :: below.1, below.2)
            else none

theorem Descends.of_descend {pages : PageId → Page K V} {key : K} {levels : Nat} {id : PageId}
    {below : List PageId × PageId} (h : descend? pages key levels id = some below) :
    Descends pages key id below.1 below.2 ∧ (pages below.2).type = .leafNode := by
  induction levels generalizing id below with
  | zero => cases h
  | succ levels ih =>
      rw [descend?] at h
      by_cases hleaf : (pages id).type = .leafNode
      · rw [if_pos hleaf] at h
        cases h
        exact ⟨.here id, hleaf⟩
      rw [if_neg hleaf] at h
      have hinner : (pages id).type = .innerNode := by
        cases htype : (pages id).type with
        | leafNode => exact absurd htype hleaf
        | innerNode => rfl
      cases hfound : InnerNode.findIndex (Node.ofBuffer (pages id)) key with
      | error failure =>
          rw [hfound] at h
          cases h
      | ok j =>
          rw [hfound] at h
          dsimp only at h
          by_cases hinside : j < (pages id).maxSize
          · rw [if_pos hinside] at h
            obtain ⟨rest, hrest, rfl⟩ := Option.map_eq_some_iff.mp h
            obtain ⟨hdescends, htype⟩ := ih hrest
            exact ⟨.down hinner hfound hinside hdescends, htype⟩
          · rw [if_neg hinside] at h
            cases h

/-- A branch with one subtree taken out. -/
structure Hole (K V : Type) where
  root : PageId
  idsBefore : List PageId
  idsAfter : List PageId
  before : List (K × V)
  after : List (K × V)

namespace Hole

omit [Index K] [Value V]

/-- The pages around the hole. -/
def outside (hole : Hole K V) : List PageId := hole.idsBefore ++ hole.idsAfter

/-- Put a subtree into the hole. -/
def fill (hole : Hole K V) (branch : Branch K V) : Branch K V where
  root := hole.root
  ids := hole.idsBefore ++ branch.ids ++ hole.idsAfter
  entries := hole.before ++ branch.entries ++ hole.after

/-- The hole with nothing around it. -/
def top (root : PageId) : Hole K V := ⟨root, [], [], [], []⟩

theorem fill_top (branch : Branch K V) : (top branch.root).fill branch = branch := by
  simp [fill, top]

/-- The hole of child `j` of an inner node with `n` children, seen from that node. -/
def below (hole : Hole K V) (id : PageId) (children : Nat → Branch K V) (j n : Nat) :
    Hole K V where
  root := id
  idsBefore := id :: flat (fun i => (children i).ids) j ++ hole.idsBefore
  idsAfter := hole.idsAfter ++ flat (shift (fun i => (children i).ids) (j + 1)) (n - (j + 1))
  before := flat (fun i => (children i).entries) j ++ hole.before
  after := hole.after ++ flat (shift (fun i => (children i).entries) (j + 1)) (n - (j + 1))

theorem fill_below_ids (hole : Hole K V) (id : PageId) (children : Nat → Branch K V) {j n : Nat}
    (hj : j < n) (branch : Branch K V) :
    ((hole.below id children j n).fill branch).ids =
      id :: flat (fun i => (setSlot children j (hole.fill branch) i).ids) n := by
  have hslots : (fun i => (setSlot children j (hole.fill branch) i).ids) =
      setSlot (fun i => (children i).ids) j (hole.fill branch).ids := by
    funext i
    exact apply_setSlot children _ Branch.ids
  rw [hslots, flat_setSlot _ _ hj]
  simp [fill, below]

theorem fill_below_entries (hole : Hole K V) (id : PageId) (children : Nat → Branch K V)
    {j n : Nat} (hj : j < n) (branch : Branch K V) :
    ((hole.below id children j n).fill branch).entries =
      flat (fun i => (setSlot children j (hole.fill branch) i).entries) n := by
  have hslots : (fun i => (setSlot children j (hole.fill branch) i).entries) =
      setSlot (fun i => (children i).entries) j (hole.fill branch).entries := by
    funext i
    exact apply_setSlot children _ Branch.entries
  rw [hslots, flat_setSlot _ _ hj]
  simp [fill, below]

section Outside

variable {hole : Hole K V} {id p : PageId} {children : Nat → Branch K V} {j n : Nat}

theorem root_mem_outside_below : id ∈ (hole.below id children j n).outside := by
  simp [outside, below]

theorem mem_outside_below (h : p ∈ hole.outside) :
    p ∈ (hole.below id children j n).outside := by
  rcases List.mem_append.mp h with hbefore | hafter
  · simp [outside, below, hbefore]
  · simp [outside, below, hafter]

/-- The pages of the other children are around the hole. -/
theorem sibling_mem_outside_below {i : Nat} (hi : i < n) (hij : i ≠ j)
    (h : p ∈ (children i).ids) : p ∈ (hole.below id children j n).outside := by
  rcases Nat.lt_or_gt_of_ne hij with hlt | hgt
  · have hmem : p ∈ flat (fun i => (children i).ids) j := mem_flat.mpr ⟨i, hlt, h⟩
    exact List.mem_append_left _ (List.mem_append_left _ (List.mem_cons_of_mem _ hmem))
  · have hmem : p ∈ flat (shift (fun i => (children i).ids) (j + 1)) (n - (j + 1)) := by
      refine mem_flat.mpr ⟨i - (j + 1), by omega, ?_⟩
      have heq : j + 1 + (i - (j + 1)) = i := by omega
      simp only [shift, heq]
      exact h
    exact List.mem_append_right _ (List.mem_append_right _ hmem)

end Outside

end Hole

/-! ## The subtree a key belongs to -/

/--
The descent of `key` from the root of `branch` through `depth` inner nodes: the
subtree of height `height` it arrives at and the hole around it.
-/
structure Focus (cap : Nat) (pages : PageId → Page K V) (key : K) (height depth : Nat)
    (branch : Branch K V) (path : List PageId) (hole : Hole K V) (target : Branch K V) : Prop where
  length_path : path.length = depth
  descends : Descends pages key branch.root path target.root
  subtree : Subtree cap pages height target
  fill_eq : hole.fill target = branch
  found : ∀ x ∈ branch.entries, x.1 = key → ∃ y ∈ target.entries, y.1 = key
  replace : ∀ (pages' : PageId → Page K V) (target' : Branch K V), target'.root = target.root →
    Grows key target.entries target'.entries → (∀ id ∈ hole.outside, pages' id = pages id) →
    Subtree cap pages' height target' → Subtree cap pages' (height + depth) (hole.fill target')

/-- A subtree is its own focus at depth 0. -/
theorem Focus.top {cap : Nat} {pages : PageId → Page K V} {height : Nat} {branch : Branch K V}
    (key : K) (h : Subtree cap pages height branch) :
    Focus cap pages key height 0 branch [] (Hole.top branch.root) branch where
  length_path := rfl
  descends := .here _
  subtree := h
  fill_eq := Hole.fill_top branch
  found x hx hkey := ⟨x, hx, hkey⟩
  replace := by
    intro pages' target' hroot _ _ hsub
    rw [← hroot, Hole.fill_top]
    exact hsub

/-- One level: the child a key belongs to. -/
theorem Subtree.focus_child {cap : Nat} {pages : PageId → Page K V} {key : K}
    {height depth : Nat} {branch : Branch K V} {children : Nat → Branch K V} {j : Nat}
    {path : List PageId} {hole : Hole K V} {target : Branch K V}
    (hinner : IsInner cap (pages branch.root) children)
    (hroom : (pages branch.root).currentSize < cap)
    (hids : branch.ids = branch.root ::
      flat (fun i => (children i).ids) (pages branch.root).currentSize)
    (hentries : branch.entries =
      flat (fun i => (children i).entries) (pages branch.root).currentSize)
    (hsub : ∀ i, i < (pages branch.root).currentSize →
      Subtree cap pages (height + depth) (children i))
    (hfound : InnerNode.findIndex (Node.ofBuffer (pages branch.root)) key = .ok j)
    (hroute : IsInner.Routes (pages branch.root) key j)
    (hfocus : Focus cap pages key height depth (children j) path hole target) :
    Focus cap pages key height (depth + 1) branch (branch.root :: path)
      (hole.below branch.root children j (pages branch.root).currentSize) target where
  length_path := by
    rw [List.length_cons, hfocus.length_path]
  descends := by
    refine .down hinner.type_eq hfound ?_ ?_
    · have hlt := hroute.lt
      have hle := hinner.le
      rw [hinner.maxSize_eq]
      omega
    · rw [hinner.child_eq j hroute.lt]
      exact hfocus.descends
  subtree := hfocus.subtree
  fill_eq := by
    have hsame : setSlot children j (hole.fill target) = children := by
      funext i
      rw [hfocus.fill_eq]
      by_cases hij : i = j
      · rw [hij, setSlot_self]
      · rw [setSlot_of_ne _ _ hij]
    have hbranch : ∀ b : Branch K V, b.root = branch.root → b.ids = branch.ids →
        b.entries = branch.entries → b = branch := by
      rintro ⟨root, ids, entries⟩ rfl rfl rfl
      rfl
    refine hbranch _ rfl ?_ ?_
    · rw [Hole.fill_below_ids _ _ _ hroute.lt, hsame, hids]
    · rw [Hole.fill_below_entries _ _ _ hroute.lt, hsame, hentries]
  found := by
    intro x hx hkey
    rw [hentries] at hx
    obtain ⟨m, hm, hxm⟩ := mem_flat.mp hx
    obtain ⟨y, hy, hykey⟩ := hinner.entries_found hroute hm hxm hkey
    exact hfocus.found y hy hykey
  replace := by
    intro pages' target' hroot hgrows hpages hsub'
    have hpage : pages' branch.root = pages branch.root := hpages _ Hole.root_mem_outside_below
    have hchild : Subtree cap pages' (height + depth) (hole.fill target') :=
      hfocus.replace pages' target' hroot hgrows
        (fun id hid => hpages id (Hole.mem_outside_below hid)) hsub'
    have hrootEq : (hole.fill target').root = (children j).root := by
      rw [← hfocus.fill_eq]
      rfl
    have hgrowsChild : Grows key (children j).entries (hole.fill target').entries := by
      rw [← hfocus.fill_eq]
      exact hgrows.append
    refine ⟨setSlot children j (hole.fill target'), ?_, ?_, ?_, ?_, ?_⟩
    · show IsInner cap (pages' branch.root) _
      rw [hpage]
      exact hinner.replace _ hroute hrootEq hgrowsChild
    · show (pages' branch.root).currentSize < cap
      rw [hpage]
      exact hroom
    · show _ = branch.root :: flat _ (pages' branch.root).currentSize
      rw [hpage]
      exact Hole.fill_below_ids _ _ _ hroute.lt _
    · show _ = flat _ (pages' branch.root).currentSize
      rw [hpage]
      exact Hole.fill_below_entries _ _ _ hroute.lt _
    · intro i hi
      have hi' : i < (pages branch.root).currentSize := hpage ▸ hi
      by_cases hij : i = j
      · rw [hij, setSlot_self]
        exact hchild
      · rw [setSlot_of_ne _ _ hij]
        exact (hsub i hi').congr fun id hid =>
          hpages id (Hole.sibling_mem_outside_below hi' hij hid)

/-- From a subtree of height `height + depth` the descent reaches the height `height`. -/
theorem Subtree.focus {cap : Nat} {pages : PageId → Page K V} (key : K) (height depth : Nat)
    {branch : Branch K V} (h : Subtree cap pages (height + depth) branch) :
    ∃ path hole target, Focus cap pages key height depth branch path hole target := by
  induction depth generalizing branch with
  | zero =>
      exact ⟨_, _, _, Focus.top key h⟩
  | succ depth ih =>
      obtain ⟨children, hinner, hroom, hids, hentries, hsub⟩ := h
      obtain ⟨j, hfound, hroute⟩ := hinner.findIndex_eq
        (fun i hi => (hsub i hi).entries_ne_nil) key
      obtain ⟨path, hole, target, hfocus⟩ := ih (hsub j hroute.lt)
      exact ⟨_, _, target,
        focus_child hinner hroom hids hentries hsub hfound hroute hfocus⟩

end HiveDb.BPlusTree
