import HiveDb.BPlusTree.Insertions
import HiveDb.BPlusTree.Returned

/-!
# The tree as a map

After a run of insertions of distinct keys the tree is the map the insertions
describe.  The insertions that return are characterised, and so is what is left
of the map when keys repeat.
-/

namespace HiveDb.BPlusTree

open HiveDb.Lib

variable {K V : Type} [Index K] [Value V]

theorem Holds.find_spec {cap : Nat} {tree : IdealTree K V} {pairs : List (K × V)}
    (h : Holds cap tree pairs) (key : K) (out : V) :
    ∃ budget, ∀ fuel, budget ≤ fuel →
      (∃ result, find fuel key out tree = .ok result tree ∧
        ((key, result) ∈ pairs ∨ result = out ∧ ∀ x ∈ pairs, x.1 ≠ key)) ∨
      (pairs = [] ∧ find fuel key out tree =
        .error (.invalidArgument "root page doesn't exist!") tree) := by
  cases h with
  | empty root next queue none =>
      refine ⟨0, fun fuel _ => .inr ⟨none, ?_⟩⟩
      rw [find, bind_of_ok (get_apply tree), if_pos root]
      rfl
  | @rooted height branch represents perm =>
      refine ⟨height + 1, fun fuel hfuel => .inl ?_⟩
      obtain ⟨extra, rfl⟩ : ∃ extra, fuel = height + (extra + 1) :=
        ⟨fuel - (height + 1), by omega⟩
      obtain ⟨result, hfind, hresult⟩ := represents.rooted.find_spec key out extra
      refine ⟨result, hfind, ?_⟩
      rcases hresult with hmem | ⟨hout, hnone⟩
      · exact .inl (perm.mem_iff.mp hmem)
      · exact .inr ⟨hout, fun x hx => hnone x (perm.mem_iff.mpr hx)⟩

omit [Index K] [Value V] in
theorem DistinctKeys.value_unique {pairs : List (K × V)} (h : DistinctKeys pairs) {key : K}
    {first second : V} (hfirst : (key, first) ∈ pairs) (hsecond : (key, second) ∈ pairs) :
    first = second := by
  have heq := List.inj_on_of_nodup_map h hfirst hsecond rfl
  exact congrArg Prod.snd heq

/--
After insertions of distinct keys, in any order, `find` sets its output to the
inserted value and otherwise leaves it as it was; in the tree without a root it
throws before it assigns its output.
-/
theorem find_after_insertions {cap : Nat} (hcap : 5 ≤ cap) {pages : PageId → Page K V}
    {pairs : List (K × V)} {tree : IdealTree K V}
    (hrun : Run (Inserts cap) (IdealTree.empty pages) pairs tree) (hdistinct : DistinctKeys pairs)
    (key : K) (out : V) :
    ∃ budget, ∀ fuel, budget ≤ fuel →
      (∀ value, (key, value) ∈ pairs → find fuel key out tree = .ok value tree) ∧
      ((∀ value, (key, value) ∉ pairs) →
        find fuel key out tree = .ok out tree ∨
        (pairs = [] ∧ find fuel key out tree =
          .error (.invalidArgument "root page doesn't exist!") tree)) := by
  obtain ⟨budget, hfind⟩ := (Holds.of_run hcap hrun hdistinct).find_spec key out
  refine ⟨budget, fun fuel hfuel => ⟨fun value hmem => ?_, fun hnone => ?_⟩⟩
  · rcases hfind fuel hfuel with ⟨result, hok, hresult | ⟨_, hother⟩⟩ | ⟨hempty, _⟩
    · rw [hok, hdistinct.value_unique hresult hmem]
    · exact absurd rfl (hother _ hmem)
    · rw [hempty] at hmem
      cases hmem
  · rcases hfind fuel hfuel with ⟨result, hok, hresult | ⟨hout, _⟩⟩ | hthrows
    · exact absurd hresult (hnone result)
    · exact .inl (hout ▸ hok)
    · exact .inr hthrows

/-- Six insertions out of order, which split the root leaf, and a search. -/
theorem find_after_six_insertions :
    ∃ tree : IdealTree Int Int,
      Run (Inserts 5) (IdealTree.empty blankPages)
        [(5, 50), (1, 10), (4, 40), (2, 20), (6, 60), (3, 30)] tree ∧
      ∃ budget, ∀ fuel, budget ≤ fuel → find fuel 2 0 tree = .ok 20 tree := by
  have hrun := run_of_resultOf 5 4 [((5 : Int), (50 : Int)), (1, 10), (4, 40), (2, 20), (6, 60),
    (3, 30)] (IdealTree.empty blankPages) (by decide +kernel)
  obtain ⟨budget, hfind⟩ := find_after_insertions (by decide) hrun (by decide +kernel) 2 0
  exact ⟨_, hrun, budget, fun fuel hfuel => (hfind fuel hfuel).1 20 (by decide)⟩

/-! ## Insertions that return -/

/--
A list of insertions of distinct keys returns throughout exactly when no
insertion on the way would split an inner node below the root.
-/
theorem insertions_return_iff {cap : Nat} (hcap : 5 ≤ cap) (pages : PageId → Page K V)
    {pairs : List (K × V)} (hdistinct : DistinctKeys pairs) :
    (∃ tree, Run (Inserts cap) (IdealTree.empty pages) pairs tree) ↔
      ∀ before pair after tree, pairs = before ++ pair :: after →
        Run (Inserts cap) (IdealTree.empty pages) before tree →
        ¬ SplitsBelowRoot cap tree pair.1 := by
  have hprefix : ∀ before pair after, pairs = before ++ pair :: after →
      DistinctKeys (before ++ [pair]) := by
    rintro before pair after rfl
    refine hdistinct.of_sublist ?_
    exact List.Sublist.append_left (List.Sublist.cons_cons _ (List.nil_sublist _)) _
  constructor
  · rintro ⟨final, hrun⟩ before pair after tree rfl hbefore
    have hdistinct' := hprefix before pair after rfl
    have hdistinct'' := hdistinct'.of_sublist (List.sublist_append_left before [pair])
    obtain ⟨tree', next, hbefore', hinserts⟩ := hrun.of_append
    obtain rfl := Holds.run_unique hcap hdistinct'' hbefore hbefore'
    exact ((Holds.of_run hcap hbefore hdistinct'').inserts_iff hcap hdistinct').mp ⟨next, hinserts⟩
  · intro hcondition
    induction pairs using List.reverseRecOn with
    | nil => exact ⟨_, .nil⟩
    | append_singleton before pair ih =>
        have hbefore := hdistinct.of_sublist (List.sublist_append_left before [pair])
        obtain ⟨tree, hrun⟩ := ih hbefore
          (by
            rintro front other after rfl
            refine hbefore.of_sublist ?_
            exact List.Sublist.append_left (List.Sublist.cons_cons _ (List.nil_sublist _)) _)
          (by
            rintro front other after tree rfl hfront
            exact hcondition front other (after ++ [pair]) tree (by simp) hfront)
        obtain ⟨next, hinserts⟩ := ((Holds.of_run hcap hrun hbefore).inserts_iff hcap
          hdistinct).mpr (hcondition before pair [] tree rfl hrun)
        exact ⟨next, hrun.snoc hinserts⟩

/-- A failed evaluation of distinct insertions rules a run out, unless the budget was too small. -/
theorem not_run_of_insertAll {cap fuel : Nat} (hcap : 5 ≤ cap) {pages : PageId → Page K V}
    {pairs : List (K × V)} (hdistinct : DistinctKeys pairs) {failure : Failure}
    {tree : IdealTree K V}
    (hfails : insertAll cap fuel pairs (IdealTree.empty pages) = .error failure tree)
    (hbudget : failure ≠ .outOfFuel) :
    ¬ ∃ final, Run (Inserts cap) (IdealTree.empty pages) pairs final := by
  rintro ⟨final, hrun⟩
  have hconcat : ∀ (before : List (K × V)) pair (start : IdealTree K V),
      insertAll cap fuel (before ++ [pair]) start =
        (insertAll cap fuel before >>= fun _ => insertAll cap fuel [pair]) start := by
    intro before pair start
    induction before generalizing start with
    | nil => rfl
    | cons first rest ih =>
        rw [List.cons_append, insertAll, insertAll, bind_assoc, bind_apply, bind_apply]
        cases insert cap fuel first.1 first.2 start with
        | ok returned next => exact ih next
        | error other next => rfl
  have heval : insertAll cap fuel pairs (IdealTree.empty pages) = .ok () final ∨
      ∃ tree', insertAll cap fuel pairs (IdealTree.empty pages) = .error .outOfFuel tree' := by
    refine (hrun.invariant (fun pairs final => DistinctKeys pairs →
      Run (Inserts cap) (IdealTree.empty pages) pairs final ∧
      (insertAll cap fuel pairs (IdealTree.empty pages) = .ok () final ∨
      ∃ tree', insertAll cap fuel pairs (IdealTree.empty pages) = .error .outOfFuel tree')) ?_ ?_
      hdistinct).2
    · exact fun _ => ⟨.nil, .inl rfl⟩
    · intro before tree pair tree' ih hinserts hdistinct
      have hbefore := hdistinct.of_sublist (List.sublist_append_left before [pair])
      obtain ⟨hrun, heval⟩ := ih hbefore
      refine ⟨hrun.snoc hinserts, ?_⟩
      rw [hconcat]
      rcases heval with hok | ⟨stuck, hexhausted⟩
      · rw [bind_of_ok hok]
        rcases (Holds.of_run hcap hrun hbefore).insert_of_inserts hinserts fuel with
          ⟨returned, hinsert⟩ | ⟨stuck, hexhausted⟩
        · exact .inl (bind_of_ok hinsert)
        · exact .inr ⟨stuck, bind_of_error hexhausted⟩
      · exact .inr ⟨stuck, bind_of_error hexhausted⟩
  rcases heval with hok | ⟨stuck, hexhausted⟩
  · cases hok.symm.trans hfails
  · cases hexhausted.symm.trans hfails
    exact hbudget rfl

/-- With capacity 5 the insertions of the keys 0 to 16 in increasing order do not all return. -/
theorem increasing_insertions_fail :
    DistinctKeys (increasing 17) ∧
      ¬ ∃ tree, Run (Inserts 5) (IdealTree.empty blankPages) (increasing 17) tree := by
  have hdistinct : DistinctKeys (increasing 17) := by decide +kernel
  have hfails : failureOf (insertAll 5 4 (increasing 17) (IdealTree.empty blankPages)) =
      some .assertion := by decide +kernel
  exact ⟨hdistinct, not_run_of_insertAll (by decide) hdistinct (eq_error_of_failureOf hfails)
    (by decide)⟩

theorem six_insertions_return :
    (∃ tree, Run (Inserts 5) (IdealTree.empty blankPages) (increasing 6) tree) ∧
      ∀ before pair after tree, increasing 6 = before ++ pair :: after →
        Run (Inserts 5) (IdealTree.empty blankPages) before tree →
        ¬ SplitsBelowRoot 5 tree pair.1 := by
  have hrun := run_of_resultOf 5 4 (increasing 6) (IdealTree.empty blankPages) (by decide +kernel)
  exact ⟨⟨_, hrun⟩,
    (insertions_return_iff (by decide) blankPages (by decide +kernel)).mp ⟨_, hrun⟩⟩

/-! ## Repeated keys -/

/-- An insertion that returns and registers a new leaf, if it makes one, next to the cut one. -/
def InsertsRight (cap : Nat) (tree : IdealTree K V) (pair : K × V) (tree' : IdealTree K V) :
    Prop :=
  RegistersRight cap tree pair.1 pair.2 ∧ Inserts cap tree pair tree'

/--
When keys repeat, and every new leaf is registered right of the leaf it was cut
from, each key inserted so far is found with the value of one of its insertions.
-/
theorem find_after_repeated_insertions {cap : Nat} (hcap : 6 ≤ cap) {pages : PageId → Page K V}
    {pairs : List (K × V)} {tree : IdealTree K V}
    (hrun : Run (InsertsRight cap) (IdealTree.empty pages) pairs tree) {key : K} {value : V}
    (hmem : (key, value) ∈ pairs) (out : V) :
    ∃ budget, ∀ fuel, budget ≤ fuel →
      ∃ found, (key, found) ∈ pairs ∧ find fuel key out tree = .ok found tree := by
  have hholds : Holds cap tree pairs :=
    hrun.invariant (fun pairs tree => Holds cap tree pairs) (Holds.empty_tree pages)
      fun before tree pair tree' ih hinserts => ih.insert (by omega) hinserts.1 hinserts.2
  obtain ⟨budget, hfind⟩ := hholds.find_spec key out
  refine ⟨budget, fun fuel hfuel => ?_⟩
  rcases hfind fuel hfuel with ⟨result, hok, hresult | ⟨_, hnone⟩⟩ | ⟨hempty, _⟩
  · exact ⟨result, hresult, hok⟩
  · exact absurd rfl (hnone _ hmem)
  · rw [hempty] at hmem
    cases hmem

def twiceInserted : IdealTree Int Int :=
  stateOf (insertAll 6 4 [(1, 10), (1, 20)] (IdealTree.empty blankPages))

/-- Insertions of the key 3 once, of 2 five times and of 1 three times. -/
def repeatedPairs : List (Int × Int) :=
  [(3, 30), (2, 20), (2, 21), (2, 22), (2, 23), (2, 24), (1, 10), (1, 11), (1, 12)]

def repeatedInserted : IdealTree Int Int :=
  stateOf (insertAll 6 4 repeatedPairs (IdealTree.empty blankPages))

/--
A key inserted twice is found with its first value, not with its most recent one.
When a new leaf is not registered right of the leaf it was cut from, another key
gets lost: the upper half of the leaf with the keys 1 and 2 is registered behind the
leaf with the keys 2 and 3, and a search for 3 ends there.
-/
theorem find_returns_first_value :
    (Run (Inserts 6) (IdealTree.empty blankPages) [(1, 10), (1, 20)] twiceInserted ∧
      ∃ fuel tree, find fuel 1 0 twiceInserted = .ok 10 tree) ∧
    Run (Inserts 6) (IdealTree.empty blankPages) repeatedPairs repeatedInserted ∧
      (3, 30) ∈ repeatedPairs ∧
      ∀ fuel, 2 ≤ fuel → ∃ tree, find fuel 3 99 repeatedInserted = .ok 99 tree := by
  have hfind : resultOf (find 4 1 0 twiceInserted) = some 10 := by decide +kernel
  have hlost : resultOf (find 2 3 99 repeatedInserted) = some 99 := by decide +kernel
  refine ⟨⟨run_of_resultOf 6 4 _ _ (by decide +kernel), 4, _, eq_ok_of_resultOf hfind⟩,
    run_of_resultOf 6 4 _ _ (by decide +kernel), by decide, fun fuel hfuel => ?_⟩
  exact ⟨_, IdealTree.find_of_le hfuel (eq_ok_of_resultOf hlost)⟩

/-- Whether the leaf cut from the page `leaf` would be registered right of it at `parent`. -/
def registersAt (cap : Nat) (parent leaf : Page K V) (key : K) (value : V) :
    Except Failure Bool := do
  let node ← LeafNode.trivialInsert key value (Node.ofBuffer leaf)
  let j ← InnerNode.findIndex (Node.ofBuffer parent) key
  let w ← InnerNode.findIndexForInsert (Node.ofBuffer parent) (node.buffer.keys (cap / 2))
  return w == j

/-- The check of an insertion, for trees of so many levels at most. -/
def registersRight? (cap levels : Nat) (tree : IdealTree K V) (key : K) (value : V) : Bool :=
  match descend? tree.bp.pages key levels tree.rootPageId with
  | none => false
  | some below =>
      (tree.bp.pages below.2).currentSize + 1 ≠ cap ||
        match below.1.getLast? with
        | none => true
        | some parent =>
            match registersAt cap (tree.bp.pages parent) (tree.bp.pages below.2) key value with
            | .ok registers => registers
            | .error _ => false

theorem RegistersRight.of_checked {cap levels : Nat} {tree : IdealTree K V} {key : K} {value : V}
    (h : registersRight? cap levels tree key value = true) :
    RegistersRight cap tree key value := by
  intro path parent leaf node j _ hdescends hleaf hfull hinsert hfound
  unfold registersRight? at h
  cases hdescent : descend? tree.bp.pages key levels tree.rootPageId with
  | none =>
      rw [hdescent] at h
      cases h
  | some below =>
      obtain ⟨hbelow, hbelowLeaf⟩ := Descends.of_descend hdescent
      obtain ⟨hpath, rfl⟩ := hdescends.prefix_of_leaf hleaf hbelow hbelowLeaf
      rw [hdescent] at h
      dsimp only at h
      rw [decide_eq_false (not_not.mpr hfull), Bool.false_or, ← hpath, List.getLast?_concat] at h
      dsimp only at h
      cases hsearch : InnerNode.findIndexForInsert (Node.ofBuffer (tree.bp.pages parent))
          (node.buffer.keys (cap / 2)) with
      | error failure =>
          rw [registersAt, hinsert, ok_bind, hfound, ok_bind, hsearch, error_bind] at h
          cases h
      | ok w =>
          rw [registersAt, hinsert, ok_bind, hfound, ok_bind, hsearch, ok_bind] at h
          rw [eq_of_beq (show (w == j) = true from h)]

/-- The insertions of a list as far as each returns and passes the check. -/
def insertsRight? (cap fuel : Nat) : IdealTree K V → List (K × V) → Option (IdealTree K V)
  | tree, [] => some tree
  | tree, pair :: rest =>
      if registersRight? cap fuel tree pair.1 pair.2 then
        match insert cap fuel pair.1 pair.2 tree with
        | .ok _ tree' => insertsRight? cap fuel tree' rest
        | .error _ _ => none
      else none

theorem run_of_insertsRight {cap fuel : Nat} {tree tree' : IdealTree K V} {pairs : List (K × V)}
    (h : insertsRight? cap fuel tree pairs = some tree') :
    Run (InsertsRight cap) tree pairs tree' := by
  induction pairs generalizing tree with
  | nil =>
      cases h
      exact .nil
  | cons pair rest ih =>
      rw [insertsRight?] at h
      by_cases hright : registersRight? cap fuel tree pair.1 pair.2 = true
      · rw [if_pos hright] at h
        cases hinsert : insert cap fuel pair.1 pair.2 tree with
        | error failure stuck =>
            rw [hinsert] at h
            cases h
        | ok returned mid =>
            rw [hinsert] at h
            exact Run.cons ⟨.of_checked hright, fuel, returned, hinsert⟩ (ih h)
      · rw [if_neg hright] at h
        cases h

/-- Nine insertions, with the key 5 on both sides of the second leaf that is cut. -/
def spreadPairs : List (Int × Int) :=
  [(1, 10), (1, 20), (2, 20), (3, 30), (4, 40), (5, 50), (5, 51), (6, 60), (7, 70)]

/-- Both leaves that are cut are registered, and a key on both sides of a cut is found. -/
theorem find_after_repeated_insertion :
    ∃ tree : IdealTree Int Int,
      Run (InsertsRight 6) (IdealTree.empty blankPages) spreadPairs tree ∧
      (tree.bp.pages tree.rootPageId).currentSize = 3 ∧
      ∃ budget, ∀ fuel, budget ≤ fuel →
        ∃ found, (5, found) ∈ spreadPairs ∧ find fuel 5 0 tree = .ok found tree := by
  have hchildren : ((insertsRight? 6 4 (IdealTree.empty blankPages) spreadPairs).map fun tree =>
      (tree.bp.pages tree.rootPageId).currentSize) = some 3 := by decide +kernel
  obtain ⟨tree, hinserts, hthree⟩ := Option.map_eq_some_iff.mp hchildren
  have hrun := run_of_insertsRight hinserts
  exact ⟨tree, hrun, hthree, find_after_repeated_insertions (by decide) hrun
    (show ((5 : Int), (50 : Int)) ∈ _ by decide) 0⟩

end HiveDb.BPlusTree
