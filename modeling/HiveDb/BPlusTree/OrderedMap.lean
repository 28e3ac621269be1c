import HiveDb.BPlusTree.Atomicity
import HiveDb.BPlusTree.Dump
import HiveDb.BPlusTree.Map

/-!
# The tree over a pool as an ordered map

Whatever the pool holds and evicts, the public member functions do what they do
to a partial function from keys to values: an insertion extends it, a search
reads it, and the leaves of a log list its keys in order.  Calls that throw in
between leave it as it is.
-/

namespace HiveDb.BPlusTree

open HiveDb.Lib

variable {K V : Type}

/-! ## Calls with what they deliver -/

/-- A call that has returned or thrown; `out` is what the output of a search holds before. -/
inductive TreeEvent (K V : Type) where
  | inserted (key : K) (value : V)
  | refused (key : K) (value : V)
  | found (key : K) (out result : V)
  | notSearched (key : K)
  | logged (dumps : List (NodeDump K V))
  | notLogged

def insertedKeys : List (TreeEvent K V) → List K
  | [] => []
  | .inserted key _ :: rest => key :: insertedKeys rest
  | _ :: rest => insertedKeys rest

theorem insertedKeys_append (first second : List (TreeEvent K V)) :
    insertedKeys (first ++ second) = insertedKeys first ++ insertedKeys second := by
  induction first with
  | nil => rfl
  | cons event rest ih =>
      cases event with
      | inserted key value => exact congrArg (key :: ·) ih
      | _ => exact ih

variable [Index K]

/-- The call does this to a map. -/
inductive MapStep (map : K → Option V) : TreeEvent K V → (K → Option V) → Prop where
  | inserted {key : K} {value : V} (fresh : map key = none) :
      MapStep map (.inserted key value) (Function.update map key (some value))
  | refused (key : K) (value : V) : MapStep map (.refused key value) map
  | found (key : K) (out : V) : MapStep map (.found key out ((map key).getD out)) map
  | notSearched (key : K) : MapStep map (.notSearched key) map
  | logged {dumps : List (NodeDump K V)} (keys_lt : (leafKeys dumps).Pairwise (· < ·))
      (mem_iff : ∀ key, key ∈ leafKeys dumps ↔ (map key).isSome) : MapStep map (.logged dumps) map
  | notLogged : MapStep map .notLogged map

variable [Value V]

/--
A call of a public member function.  An insertion that throws does so where the
root is unavailable.
-/
inductive Performs (cap : Nat) (tree : PoolTree K V) : TreeEvent K V → PoolTree K V → Prop where
  | inserted {tree' : PoolTree K V} {fuel : Nat} {key : K} {value : V} {result : Bool}
      (returns : insert cap fuel key value tree = .ok result tree') :
      Performs cap tree (.inserted key value) tree'
  | refused {tree' : PoolTree K V} {fuel : Nat} {key : K} {value : V} {failure : Failure}
      (unavailable : RootUnavailable tree)
      (throws : insert cap fuel key value tree = .error failure tree')
      (exception : failure.isException = true) : Performs cap tree (.refused key value) tree'
  | found {tree' : PoolTree K V} {fuel : Nat} {key : K} {out result : V}
      (returns : find fuel key out tree = .ok result tree') :
      Performs cap tree (.found key out result) tree'
  | notSearched {tree' : PoolTree K V} {fuel : Nat} {key : K} {out : V} {failure : Failure}
      (throws : find fuel key out tree = .error failure tree')
      (exception : failure.isException = true) : Performs cap tree (.notSearched key) tree'
  | logged {tree' : PoolTree K V} {fuel : Nat} {dumps : List (NodeDump K V)}
      (returns : dumpContents fuel tree = .ok dumps tree') :
      Performs cap tree (.logged dumps) tree'
  | notLogged {tree' : PoolTree K V} {fuel : Nat} {failure : Failure}
      (throws : dumpContents fuel tree = .error failure tree')
      (exception : failure.isException = true) : Performs cap tree .notLogged tree'

/-! ## Searches with a small budget -/

section Rounds

variable {σ F : Type} [PageStore σ F K V]

/-- More rounds do not change what a search returns. -/
theorem findLoop_mono {key : K} {value result : V} {fuel : Nat} {id : PageId}
    {tree tree' : Tree σ F} (h : findLoop key value fuel id tree = .ok result tree')
    (more : Nat) : findLoop key value (fuel + more) id tree = .ok result tree' := by
  induction fuel generalizing id tree with
  | zero => cases h
  | succ fuel ih =>
      rw [findLoop] at h
      rw [Nat.add_right_comm, findLoop]
      obtain ⟨page, paged, hpage, h⟩ := bind_eq_ok_iff.mp h
      refine bind_eq_ok_iff.mpr ⟨page, paged, hpage, ?_⟩
      obtain ⟨node, read, hnode, h⟩ := bind_eq_ok_iff.mp h
      refine bind_eq_ok_iff.mpr ⟨node, read, hnode, ?_⟩
      split at h
      · next hinner =>
        rw [if_pos hinner]
        obtain ⟨next, routed, hnext, h⟩ := bind_eq_ok_iff.mp h
        refine bind_eq_ok_iff.mpr ⟨next, routed, hnext, ?_⟩
        obtain ⟨_, released, hreleased, h⟩ := bind_eq_ok_iff.mp h
        exact bind_eq_ok_iff.mpr ⟨_, released, hreleased, ih h⟩
      · next hleaf =>
        rw [if_neg hleaf]
        exact h

theorem find_mono {key : K} {value result : V} {fuel : Nat} {tree tree' : Tree σ F}
    (h : find fuel key value tree = .ok result tree') (more : Nat) :
    find (fuel + more) key value tree = .ok result tree' := by
  rw [find, bind_of_ok (get_apply tree)] at h ⊢
  split at h
  · cases h
  · next hvalid =>
    rw [if_neg hvalid]
    exact findLoop_mono h more

end Rounds

/-! ## The map of a tree -/

section Contents

variable {cap : Nat} {ideal : IdealTree K V} {pairs : List (K × V)} {map : K → Option V}

/-- The map has the pairs. -/
def MapOf (pairs : List (K × V)) (map : K → Option V) : Prop :=
  ∀ key value, map key = some value ↔ (key, value) ∈ pairs

omit [Index K] [Value V] in
theorem MapOf.none_iff (h : MapOf pairs map) (key : K) :
    map key = none ↔ ∀ x ∈ pairs, x.1 ≠ key := by
  rw [Option.eq_none_iff_forall_ne_some]
  constructor
  · rintro hnone ⟨key', value⟩ hx rfl
    exact hnone value ((h _ value).mpr hx)
  · intro hnone value hvalue
    exact hnone (key, value) ((h key value).mp hvalue) rfl

omit [Value V] in
theorem MapOf.insert (h : MapOf pairs map) {key : K} (hfresh : map key = none) (value : V) :
    MapOf (pairs ++ [(key, value)]) (Function.update map key (some value)) := by
  intro other result
  rw [List.mem_append, List.mem_singleton]
  by_cases hkey : other = key
  · subst hkey
    rw [Function.update_self]
    constructor
    · rintro ⟨⟩
      exact .inr rfl
    · rintro (hmem | heq)
      · exact absurd rfl ((h.none_iff _).mp hfresh _ hmem)
      · cases heq
        rfl
  · rw [Function.update_of_ne hkey, h other result]
    constructor
    · exact fun hmem => .inl hmem
    · rintro (hmem | heq)
      · exact hmem
      · cases heq
        exact absurd rfl hkey

/-- What a search returns on any budget. -/
theorem Holds.find_getD (h : Holds cap ideal pairs) (hmap : MapOf pairs map) {fuel : Nat}
    {key : K} {out result : V} {ideal' : IdealTree K V}
    (hreturns : find fuel key out ideal = .ok result ideal') : result = (map key).getD out := by
  obtain ⟨budget, hfind⟩ := h.find_spec key out
  have hmore := find_mono hreturns budget
  rcases hfind (fuel + budget) (Nat.le_add_left _ _) with ⟨found, hok, hfound⟩ | ⟨_, hthrows⟩
  · cases hok.symm.trans hmore
    rcases hfound with hmem | ⟨rfl, hnone⟩
    · rw [(hmap key result).mpr hmem]
      rfl
    · rw [(hmap.none_iff key).mpr hnone]
      rfl
  · cases hthrows.symm.trans hmore

end Contents

/-! ## Runs -/

section Runs

variable {cap : Nat} {tree tree' : PoolTree K V} {ideal : IdealTree K V} {pairs : List (K × V)}
variable {map : K → Option V} {events : List (TreeEvent K V)}

/-- The tree, the ideal tree it mirrors and the map have the same pairs between two calls. -/
structure Stands (cap : Nat) (tree : PoolTree K V) (ideal : IdealTree K V) (pairs : List (K × V))
    (map : K → Option V) : Prop where
  rests : Rests cap tree ideal
  holds : Holds cap ideal pairs
  mapOf : MapOf pairs map

namespace Stands

/-- An insertion that returns is one into the ideal tree. -/
theorem insert (h : Stands cap tree ideal pairs map) (hcap : 5 ≤ cap) {fuel : Nat} {key : K}
    {value : V} {result : Bool} (hreturns : insert cap fuel key value tree = .ok result tree')
    (hdistinct : DistinctKeys (pairs ++ [(key, value)])) (hfresh : map key = none) :
    ∃ ideal', Stands cap tree' ideal' (pairs ++ [(key, value)])
      (Function.update map key (some value)) := by
  obtain ⟨_, ideal', hideal, hsettled⟩ :=
    Mirrors.insert cap fuel key value tree ideal h.rests.settled result tree' hreturns
  obtain ⟨hsized, hroot⟩ := h.rests.sized.insert h.rests.settled.idealQueue_eq hideal
  refine ⟨ideal', ⟨hsettled, hsized, fun hinvalid => ?_⟩, ?_, h.mapOf.insert hfresh value⟩
  · rw [hsettled.root_eq, hinvalid] at hroot
    exact absurd hroot.1 (by decide)
  · exact h.holds.insert_of_distinct hcap hdistinct ⟨fuel, _, hideal⟩

theorem find_eq (h : Stands cap tree ideal pairs map) {fuel : Nat} {key : K} {out result : V}
    (hreturns : find fuel key out tree = .ok result tree') : result = (map key).getD out := by
  obtain ⟨_, ideal', hideal, rfl, _⟩ :=
    Mirrors.find fuel key out tree ideal h.rests.settled result tree' hreturns
  exact h.holds.find_getD h.mapOf hideal

/-- What is logged through the pool is the tree that its pages form. -/
theorem logsTree (h : Stands cap tree ideal pairs map) (hdistinct : DistinctKeys pairs)
    {fuel : Nat} {dumps : List (NodeDump K V)}
    (hreturns : dumpContents fuel tree = .ok dumps tree') :
    LogsTree tree.page tree.rootPageId (pairs.map Prod.fst) dumps := by
  obtain ⟨_, ideal', hideal, rfl, _⟩ :=
    Mirrors.dumpContents fuel tree ideal h.rests.settled dumps tree' hreturns
  rw [h.rests.settled.page_eq, ← h.rests.settled.root_eq]
  cases h.holds with
  | empty root =>
      rw [h.rests.settled.root_eq] at root
      obtain ⟨failure, hfails⟩ := dumpContents_of_invalid root fuel
      cases hfails.symm.trans hreturns
  | rooted represents perm =>
      obtain ⟨dumps', hlogs, heval⟩ :=
        represents.dumpContents_eq (hdistinct.of_perm perm)
      rw [heval] at hideal
      split at hideal
      · cases hideal
        exact ⟨hlogs.nodes, hlogs.keys_lt, hlogs.keys_perm.trans (perm.map _)⟩
      · cases hideal

/-- A search, or a log, leaves everything as it is. -/
theorem reads {α : Type} {x : Prog (PoolTree K V) α} (h : Stands cap tree ideal pairs map)
    (hreads : Mirrors.OnlyReads ideal x) (hleaves : Leaves x tree tree')
    (hempty : tree.rootPageId = invalidPageId → tree' = tree) :
    Stands cap tree' ideal pairs map :=
  ⟨h.rests.reads hreads hleaves hempty, h.holds, h.mapOf⟩

theorem afterFind (h : Stands cap tree ideal pairs map) {fuel : Nat} {key : K} {out : V}
    (hleaves : Leaves (find fuel key out) tree tree') : Stands cap tree' ideal pairs map :=
  h.reads (Mirrors.find_onlyReads _ _ _) hleaves fun hinvalid =>
    (hleaves.eq_of_error (find_of_invalid hinvalid)).1

theorem afterDump (h : Stands cap tree ideal pairs map) {fuel : Nat}
    (hleaves : Leaves (dumpContents fuel) tree tree') : Stands cap tree' ideal pairs map := by
  refine h.reads (Mirrors.dumpContents_onlyReads _) hleaves fun hinvalid => ?_
  obtain ⟨_, hfails⟩ := dumpContents_of_invalid hinvalid fuel
  exact (hleaves.eq_of_error hfails).1

/-- The step of the map that belongs to a call. -/
theorem step {event : TreeEvent K V} (h : Stands cap tree ideal pairs map) (hcap : 5 ≤ cap)
    (hstep : Performs cap tree event tree')
    (hdistinct : (pairs.map Prod.fst ++ insertedKeys [event]).Nodup) :
    ∃ ideal' pairs' map', Stands cap tree' ideal' pairs' map' ∧ MapStep map event map' ∧
      pairs'.map Prod.fst = pairs.map Prod.fst ++ insertedKeys [event] := by
  cases hstep with
  | @inserted _ _ key value _ returns =>
      have hpairs : (pairs ++ [(key, value)]).map Prod.fst =
          pairs.map Prod.fst ++ insertedKeys [.inserted key value] := List.map_append
      have hfresh : map key = none := by
        refine (h.mapOf.none_iff key).mpr fun x hx hkey => ?_
        have hmem : key ∈ pairs.map Prod.fst := hkey ▸ List.mem_map_of_mem hx
        exact (List.nodup_append.mp hdistinct).2.2 key hmem key List.mem_cons_self rfl
      rw [← hpairs] at hdistinct
      obtain ⟨ideal', hstands⟩ := h.insert hcap returns hdistinct hfresh
      exact ⟨ideal', _, _, hstands, .inserted hfresh, hpairs⟩
  | refused unavailable throws exception =>
      have hrests := (h.rests.refused unavailable throws exception).1
      exact ⟨ideal, pairs, map, ⟨hrests, h.holds, h.mapOf⟩, .refused _ _, (List.append_nil _).symm⟩
  | found returns =>
      obtain rfl := h.find_eq returns
      exact ⟨ideal, pairs, map, h.afterFind (.inl ⟨_, returns⟩), .found _ _,
        (List.append_nil _).symm⟩
  | notSearched throws exception =>
      exact ⟨ideal, pairs, map, h.afterFind (.inr ⟨_, exception, throws⟩), .notSearched _,
        (List.append_nil _).symm⟩
  | logged returns =>
      have hkeys : (pairs.map Prod.fst).Nodup := (List.nodup_append.mp hdistinct).1
      have hlogs := h.logsTree hkeys returns
      refine ⟨ideal, pairs, map, h.afterDump (.inl ⟨_, returns⟩),
        .logged hlogs.keys_lt fun key => ?_, (List.append_nil _).symm⟩
      rw [hlogs.keys_perm.mem_iff, Option.isSome_iff_ne_none, ne_eq, h.mapOf.none_iff, List.mem_map]
      push Not
      rfl
  | notLogged throws exception =>
      exact ⟨ideal, pairs, map, h.afterDump (.inr ⟨_, exception, throws⟩), .notLogged,
        (List.append_nil _).symm⟩

/-- The run lemma: the keys of the pairs are those of the insertions so far. -/
theorem of_run {pool : BufferPool (IdealDisk (Page K V)) (Page K V)} {maxFrames : FrameId}
    (hcap : 5 ≤ cap) (hframes : 1 ≤ maxFrames) {disk : IdealDisk (Page K V)}
    {order : IterationOrder PageId FrameId}
    (hnew : BufferPool.new maxFrames disk order = .ok pool)
    (hrun : Run (Performs cap) (PoolTree.empty pool) events tree)
    (hdistinct : (insertedKeys events).Nodup) :
    ∃ ideal pairs map, Stands cap tree ideal pairs map ∧ Run MapStep (fun _ => none) events map ∧
      pairs.map Prod.fst = insertedKeys events := by
  induction hrun with
  | nil =>
      have hstart : Run (Step cap) (PoolTree.empty pool) [] (PoolTree.empty pool) := .nil
      obtain ⟨ideal, hrests⟩ := Rests.of_run hframes hnew hstart
      have hideal : IdealTree.empty disk.pages = ideal := by
        rw [← hrests.settled.onDisk_eq]
        obtain ⟨n, _, rfl⟩ := BufferPool.eq_initial_of_new hnew
        rfl
      have hmap : MapOf [] fun _ : K => (none : Option V) := by
        intro key value
        constructor <;> rintro ⟨⟩
      have hholds : Holds cap ideal [] := hideal ▸ Holds.empty_tree disk.pages
      exact ⟨ideal, [], fun _ => none, ⟨hrests, hholds, hmap⟩, .nil, rfl⟩
  | @snoc events before after event _ hlast ih =>
      rw [insertedKeys_append] at hdistinct ⊢
      obtain ⟨ideal, pairs, map, hstands, hmap, hkeys⟩ := ih (List.nodup_append.mp hdistinct).1
      rw [← hkeys] at hdistinct ⊢
      obtain ⟨ideal', pairs', map', hstands', hstep, hkeys'⟩ := hstands.step hcap hlast hdistinct
      exact ⟨ideal', pairs', map', hstands', hmap.snoc hstep, hkeys'⟩

end Stands

/-- What a call that returns has delivered. -/
def Call.event : Call K V → Option V → TreeEvent K V
  | .insert key value, _ => .inserted key value
  | .find key out, result => .found key out (result.getD out)

theorem Performs.of_runCall {fuel : Nat} {call : Call K V} {result : Option V}
    (hrun : runCall cap fuel call tree = .ok result tree') :
    Performs cap tree (call.event result) tree' := by
  cases call with
  | insert key value =>
      obtain ⟨returned, mid, hinsert, hreturn⟩ := bind_eq_ok_iff.mp hrun
      cases hreturn
      exact .inserted hinsert
  | find key out =>
      obtain ⟨found, mid, hfind, hreturn⟩ := bind_eq_ok_iff.mp hrun
      cases hreturn
      exact .found hfind

theorem Performs.run_of_runCalls {fuel : Nat} {calls : List (Call K V)}
    {results : List (Option V)} (hrun : runCalls cap fuel calls tree = .ok results tree') :
    Run (Performs cap) tree (List.zipWith Call.event calls results) tree' := by
  induction calls generalizing tree results with
  | nil =>
      cases hrun
      exact .nil
  | cons call calls ih =>
      rw [runCalls] at hrun
      obtain ⟨result, mid, hcall, hrest⟩ := bind_eq_ok_iff.mp hrun
      obtain ⟨others, last, hcalls, hreturn⟩ := bind_eq_ok_iff.mp hrest
      cases hreturn
      exact .cons (.of_runCall hcall) (ih hcalls)

end Runs

/-! ### A root that has been split -/

section SplitRoot

end SplitRoot

end HiveDb.BPlusTree
