import HiveDb.Lib.Run
import HiveDb.BPlusTree.InsertSpec

/-!
# Runs of insertions

Starting from an empty tree object over pages of arbitrary contents, every run
of insertions that return leaves a tree that holds exactly the inserted pairs.
-/

namespace HiveDb.BPlusTree

open HiveDb.Lib

variable {K V : Type} [Index K] [Value V]

/-- The call `insert(pair.1, pair.2)` returns, after as many rounds as it takes. -/
def Inserts (cap : Nat) (tree : IdealTree K V) (pair : K × V) (tree' : IdealTree K V) : Prop :=
  ∃ fuel returned, insert cap fuel pair.1 pair.2 tree = .ok returned tree'

/-- The first insertion makes the root leaf. -/
theorem Represents.of_insertFirst {tree : IdealTree K V} (cap : Nat) (hcap : 2 ≤ cap)
    (hnext : 0 ≤ tree.bp.nextPage) (hqueue : tree.frameQueue = []) (key : K) (value : V) :
    ∃ tree' page, insertFirst cap key value tree = .ok true tree' ∧
      Represents cap tree' 0 (leafBranch tree.bp.nextPage page) ∧
      tree'.bp.pages tree.bp.nextPage = page ∧ LeafNode.First cap page key value := by
  obtain ⟨page, hinsert, hfirst⟩ := IdealTree.insertFirst_eq tree
    (by omega : 0 < cap) key value
  have hpage := IdealTree.put_pages_self tree.allocated tree.bp.nextPage page
  refine ⟨_, page, hinsert, ⟨rfl, Subtree.of_leaf hpage
      ⟨hfirst.type_eq, hfirst.maxSize_eq, ?_, ?_, ?_⟩ ?_, List.pairwise_singleton _ _, ?_, hqueue⟩,
    hpage, hfirst⟩
  · rw [hfirst.currentSize_eq]
    exact Nat.one_pos
  · rw [hfirst.currentSize_eq]
    omega
  · intro i j hij hj
    rw [hfirst.currentSize_eq] at hj
    obtain rfl : j = 0 := by omega
    obtain rfl : i = 0 := by omega
    exact le_refl _
  · rw [hfirst.currentSize_eq]
    omega
  · intro id hid
    obtain rfl := List.mem_singleton.mp hid
    exact ⟨hnext, Int.lt_succ _⟩

/-- An insertion that returns lets the branch grow, if the pages it allocates are not in use. -/
theorem Rooted.grows_of_inserts {cap height : Nat} {tree tree' : IdealTree K V}
    {branch : Branch K V} {pair : K × V} (hcap : 5 ≤ cap) (h : Rooted cap tree height branch)
    (hfresh : ∀ n, Allocates cap tree pair.1 n → FreshFor tree branch n)
    (hright : RegistersRight cap tree pair.1 pair.2) (hinserts : Inserts cap tree pair tree') :
    ∃ n, Allocates cap tree pair.1 n ∧ GrowsTo cap n tree tree' branch pair.1 pair.2 := by
  obtain ⟨fuel, returned, hreturns⟩ := hinserts
  rcases Nat.lt_or_ge height fuel with hlt | hge
  · obtain ⟨extra, rfl⟩ : ∃ extra, fuel = height + (extra + 1) :=
      ⟨fuel - (height + 1), by omega⟩
    rcases h.insert_spec hcap pair.1 pair.2 extra hfresh with ⟨_, hok⟩ | ⟨_, tree'', hfail⟩
    · obtain ⟨tree'', hok, hgrows⟩ := hok hright
      cases hok.symm.trans hreturns
      exact hgrows
    · cases hfail.symm.trans hreturns
  · obtain ⟨tree'', hexhausted⟩ := h.insert_exhausted pair.1 pair.2 hge
    cases hexhausted.symm.trans hreturns

/-- The tree object between two calls, with the pairs it holds. -/
inductive Holds (cap : Nat) (tree : IdealTree K V) (pairs : List (K × V)) : Prop where
  | empty (root : tree.rootPageId = invalidPageId) (next : 0 ≤ tree.bp.nextPage)
      (queue : tree.frameQueue = []) (none : pairs = [])
  | rooted {height : Nat} {branch : Branch K V} (represents : Represents cap tree height branch)
      (perm : branch.entries.Perm pairs)

namespace Holds

variable {cap : Nat} {tree tree' : IdealTree K V} {pairs : List (K × V)} {pair : K × V}

theorem empty_tree (pages : PageId → Page K V) : Holds cap (IdealTree.empty pages) [] :=
  .empty rfl (le_refl _) rfl rfl

theorem insertFirst (cap : Nat) (hcap : 2 ≤ cap) (hnext : 0 ≤ tree.bp.nextPage)
    (hqueue : tree.frameQueue = [])
    (key : K) (value : V) :
    ∃ tree', insertFirst cap key value tree = .ok true tree' ∧ Holds cap tree' [(key, value)] := by
  obtain ⟨tree', page, hinsert, hrepresents, _, hfirst⟩ :=
    Represents.of_insertFirst cap hcap hnext hqueue key value
  refine ⟨tree', hinsert, .rooted hrepresents ?_⟩
  have hpairs : page.pairs = [(key, value)] := by
    rw [Page.pairs, hfirst.currentSize_eq]
    exact congrArg₂ (fun k v => [(k, v)]) hfirst.key_eq hfirst.value_eq
  exact List.Perm.of_eq hpairs

theorem insert (hcap : 5 ≤ cap) (h : Holds cap tree pairs)
    (hright : RegistersRight cap tree pair.1 pair.2) (hinserts : Inserts cap tree pair tree') :
    Holds cap tree' (pairs ++ [pair]) := by
  cases h with
  | empty root next queue none =>
      obtain ⟨fuel, returned, hreturns⟩ := hinserts
      rw [IdealTree.insert_first root] at hreturns
      obtain ⟨tree'', hfirst, hholds⟩ := insertFirst cap (by omega) next queue pair.1 pair.2
      cases hfirst.symm.trans hreturns
      rw [none]
      exact hholds
  | @rooted height branch represents perm =>
      obtain ⟨n, _, hgrows⟩ := represents.rooted.grows_of_inserts hcap
        (fun n _ => represents.fresh n) hright hinserts
      obtain ⟨height', branch', represents', perm'⟩ := represents.takes hgrows
      refine .rooted represents' (perm'.trans ((perm.cons _).trans ?_))
      exact (List.perm_append_singleton pair pairs).symm

/-- With a key that is new the registration needs no assumption. -/
theorem insert_of_distinct (hcap : 5 ≤ cap) (h : Holds cap tree pairs)
    (hdistinct : DistinctKeys (pairs ++ [pair])) (hinserts : Inserts cap tree pair tree') :
    Holds cap tree' (pairs ++ [pair]) := by
  refine h.insert hcap ?_ hinserts
  cases h with
  | empty root =>
      intro _ _ _ _ _ hroot
      exact absurd root hroot
  | rooted represents perm =>
      refine represents.rooted.registersRight hcap (hdistinct.of_perm ?_)
      exact ((perm.cons _).trans (List.perm_append_singleton pair pairs).symm)

theorem of_run (hcap : 5 ≤ cap) {pages : PageId → Page K V}
    (hrun : Run (Inserts cap) (IdealTree.empty pages) pairs tree) (hdistinct : DistinctKeys pairs) :
    Holds cap tree pairs := by
  refine hrun.invariant (fun pairs tree => DistinctKeys pairs → Holds cap tree pairs) ?_ ?_
    hdistinct
  · intro _
    exact empty_tree pages
  · intro before tree pair tree' ih hinserts hdistinct
    exact (ih (hdistinct.of_sublist (List.sublist_append_left _ _))).insert_of_distinct hcap
      hdistinct hinserts

/-- An insertion that returns does so on every budget that is not too small. -/
theorem insert_of_inserts (h : Holds cap tree pairs) (hinserts : Inserts cap tree pair tree')
    (fuel : Nat) :
    (∃ returned, BPlusTree.insert cap fuel pair.1 pair.2 tree = .ok returned tree') ∨
      ∃ tree'', BPlusTree.insert cap fuel pair.1 pair.2 tree = .error .outOfFuel tree'' := by
  obtain ⟨enough, returned, hreturns⟩ := hinserts
  cases h with
  | empty root =>
      rw [IdealTree.insert_first root] at hreturns ⊢
      exact .inl ⟨returned, hreturns⟩
  | @rooted height branch represents perm =>
      rcases Nat.lt_or_ge height fuel with hlt | hge
      · rcases Nat.lt_or_ge height enough with hlt' | hge'
        · obtain ⟨extra, rfl⟩ : ∃ extra, fuel = height + (extra + 1) :=
            ⟨fuel - (height + 1), by omega⟩
          obtain ⟨extra', rfl⟩ : ∃ extra, enough = height + (extra + 1) :=
            ⟨enough - (height + 1), by omega⟩
          rw [represents.rooted.insert_budget extra extra']
          exact .inl ⟨returned, hreturns⟩
        · obtain ⟨tree'', hexhausted⟩ :=
            represents.rooted.insert_exhausted pair.1 pair.2 hge'
          cases hexhausted.symm.trans hreturns
      · exact .inr (represents.rooted.insert_exhausted pair.1 pair.2 hge)

/-- What an insertion leaves behind does not depend on its budget. -/
theorem inserts_unique (h : Holds cap tree pairs) {first second : IdealTree K V}
    (hfirst : Inserts cap tree pair first) (hsecond : Inserts cap tree pair second) :
    first = second := by
  obtain ⟨fuel, returned, hreturns⟩ := hsecond
  rcases h.insert_of_inserts hfirst fuel with ⟨returned', hok⟩ | ⟨tree'', hexhausted⟩
  · cases hok.symm.trans hreturns
    rfl
  · cases hexhausted.symm.trans hreturns

/-- In a tree that holds other keys, an insertion returns or would split below the root. -/
theorem inserts_iff (hcap : 5 ≤ cap) (h : Holds cap tree pairs)
    (hdistinct : DistinctKeys (pairs ++ [pair])) :
    (∃ tree', Inserts cap tree pair tree') ↔ ¬ SplitsBelowRoot cap tree pair.1 := by
  obtain ⟨key, value⟩ := pair
  cases h with
  | empty root next queue none =>
      refine ⟨fun _ hsplits => hsplits.1 root, fun _ => ?_⟩
      obtain ⟨tree', hfirst, _⟩ := insertFirst cap (by omega) next queue key value
      refine ⟨tree', 0, true, ?_⟩
      rw [IdealTree.insert_first root]
      exact hfirst
  | @rooted height branch represents perm =>
      have hright : RegistersRight cap tree key value := by
        refine represents.rooted.registersRight hcap (hdistinct.of_perm ?_)
        exact ((perm.cons _).trans (List.perm_append_singleton (key, value) pairs).symm)
      rcases represents.insert_spec hcap key value 0 with ⟨hnot, hok⟩ | ⟨hsplits, tree'', hfail⟩
      · refine ⟨fun _ => hnot, fun _ => ?_⟩
        obtain ⟨tree', hok, _⟩ := hok hright
        exact ⟨tree', _, true, hok⟩
      · refine ⟨?_, fun hnot => absurd hsplits hnot⟩
        rintro ⟨tree', hinserts⟩
        rcases (Holds.rooted represents perm).insert_of_inserts hinserts (height + (0 + 1)) with
          ⟨returned, hok⟩ | ⟨tree₂, hexhausted⟩
        · cases hfail.symm.trans hok
        · cases hfail.symm.trans hexhausted

/-- Two runs of the same insertions of distinct keys end in the same tree. -/
theorem run_unique (hcap : 5 ≤ cap) {pages : PageId → Page K V} {first second : IdealTree K V}
    (hdistinct : DistinctKeys pairs)
    (hfirst : Run (Inserts cap) (IdealTree.empty pages) pairs first)
    (hsecond : Run (Inserts cap) (IdealTree.empty pages) pairs second) : first = second := by
  refine hfirst.invariant (fun pairs first => DistinctKeys pairs → ∀ second,
    Run (Inserts cap) (IdealTree.empty pages) pairs first ∧
      (Run (Inserts cap) (IdealTree.empty pages) pairs second → first = second)) ?_ ?_ hdistinct
      second |>.2 hsecond
  · intro _ second
    refine ⟨.nil, fun hrun => ?_⟩
    generalize hnil : ([] : List (K × V)) = none at hrun
    cases hrun with
    | nil => rfl
    | snoc => simp at hnil
  · intro before tree pair tree' ih hinserts hdistinct second
    have hbefore := hdistinct.of_sublist (List.sublist_append_left before [pair])
    refine ⟨(ih hbefore tree).1.snoc hinserts, fun hrun => ?_⟩
    obtain ⟨tree₂, hrun₂, hinserts₂⟩ := hrun.of_concat
    obtain rfl := (ih hbefore tree₂).2 hrun₂
    exact (of_run hcap hrun₂ hbefore).inserts_unique hinserts hinserts₂

end Holds

/-! ## Evaluating a run -/

/-- The insertions of a list, each with the same budget. -/
def insertAll (cap fuel : Nat) : List (K × V) → Prog (IdealTree K V) Unit
  | [] => return ()
  | pair :: rest => do
      let _ ← insert cap fuel pair.1 pair.2
      insertAll cap fuel rest

theorem run_of_insertAll {cap fuel : Nat} {pairs : List (K × V)} {tree tree' : IdealTree K V}
    (h : insertAll cap fuel pairs tree = .ok () tree') : Run (Inserts cap) tree pairs tree' := by
  induction pairs generalizing tree with
  | nil =>
      cases h
      exact .nil
  | cons pair rest ih =>
      obtain ⟨returned, mid, hinsert, hrest⟩ := bind_eq_ok_iff.mp h
      exact (ih hrest).cons ⟨fuel, returned, hinsert⟩

theorem run_of_resultOf (cap fuel : Nat) (pairs : List (K × V)) (tree : IdealTree K V)
    (h : resultOf (insertAll cap fuel pairs tree) = some ()) :
    Run (Inserts cap) tree pairs (stateOf (insertAll cap fuel pairs tree)) :=
  run_of_insertAll (eq_ok_of_resultOf h)

/-- A page whose contents do not matter. -/
def blankPages : PageId → Page Int Int := fun _ => ⟨.leafNode, 0, 0, 0, fun _ => 0, fun _ => 0⟩

/-- The keys `0..n-1` in increasing order, each with itself as its value. -/
def increasing (n : Nat) : List (Int × Int) :=
  (List.range n).map fun i => ((i : Int), (i : Int))

end HiveDb.BPlusTree
