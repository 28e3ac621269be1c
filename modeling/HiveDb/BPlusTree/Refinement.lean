import HiveDb.BPlusTree.PoolTree
import HiveDb.BPlusTree.Insertions

/-!
# Runs of calls on a tree over a pool

A run of insertions and searches that all return finds over a pool of any size
what it finds over the ideal store.  After each insertion the disk holds the
whole tree.
-/

namespace HiveDb.BPlusTree

open HiveDb.Lib

variable {K V : Type} [Index K] [Value V]

/-! ## Runs of calls -/

/-- A call; a search carries what its output parameter holds before. -/
inductive Call (K V : Type) where
  | insert (key : K) (value : V)
  | find (key : K) (out : V)

section Calls

variable {σ F : Type} [PageStore σ F K V]

/-- What a call delivers: a search sets its output parameter. -/
def runCall (cap fuel : Nat) : Call K V → Prog (Tree σ F) (Option V)
  | .insert key value => do
      let _ ← insert cap fuel key value
      return none
  | .find key out => return some (← find fuel key out)

def runCalls (cap fuel : Nat) : List (Call K V) → Prog (Tree σ F) (List (Option V))
  | [] => return []
  | call :: calls => do
      let result ← runCall cap fuel call
      return result :: (← runCalls cap fuel calls)

end Calls

namespace Mirrors

/-- The relation between two calls: nothing is queued, and no frame is dirty. -/
abbrev Settled (tree : PoolTree K V) (ideal : IdealTree K V) : Prop :=
  Mirrors [] (Represented [] [] [] fun _ => False) tree ideal

theorem runCall (cap fuel : Nat) (call : Call K V) :
    Simulates Settled (runCall cap fuel call : Prog (PoolTree K V) (Option V))
      (BPlusTree.runCall cap fuel call : Prog (IdealTree K V) (Option V))
      fun a b tree ideal => b = a ∧ Settled tree ideal := by
  cases call with
  | insert key value =>
      intro tree ideal h result tree' hrun
      obtain ⟨returned, mid, hinsert, hreturn⟩ := bind_eq_ok_iff.mp hrun
      obtain ⟨returned', ideal', hideal, hsettled⟩ :=
        insert cap fuel key value tree ideal h _ _ hinsert
      cases hreturn
      exact ⟨none, ideal', bind_of_ok hideal, rfl, hsettled⟩
  | find key out =>
      refine .seqSame (find fuel key out) fun result => ?_
      exact .ret fun _ _ h => ⟨rfl, h⟩

/-- Two runs of the same calls deliver the same results. -/
theorem runCalls (cap fuel : Nat) (calls : List (Call K V)) :
    Simulates Settled (runCalls cap fuel calls : Prog (PoolTree K V) (List (Option V)))
      (BPlusTree.runCalls cap fuel calls : Prog (IdealTree K V) (List (Option V)))
      fun a b tree ideal => b = a ∧ Settled tree ideal := by
  induction calls with
  | nil => exact .ret fun _ _ h => ⟨rfl, h⟩
  | cons call calls ih =>
      rw [BPlusTree.runCalls, BPlusTree.runCalls]
      refine .seqSame (runCall cap fuel call) fun result => ?_
      refine .seqSame ih fun results => ?_
      exact .ret fun _ _ h => ⟨rfl, h⟩

omit [Index K] [Value V] in
/-- The empty tree over a pool that has just been constructed. -/
theorem settled_empty {pool : BufferPool (IdealDisk (Page K V)) (Page K V)} {maxFrames : FrameId}
    {disk : IdealDisk (Page K V)} {order : IterationOrder PageId FrameId}
    (hnew : BufferPool.new maxFrames disk order = .ok pool) :
    Settled (PoolTree.empty pool) (IdealTree.empty disk.pages) := by
  obtain ⟨n, _, rfl⟩ := BufferPool.eq_initial_of_new hnew
  have hunmapped : ∀ {id frame},
      ¬ (BufferPool.initial (B := Page K V) n disk order).Maps id frame :=
    fun hmaps => nomatch (UnorderedMap.find?_empty order _).symm.trans hmaps
  refine ⟨⟨.of_new hnew, .initial n disk order, rfl, rfl, ?_, ?_, ?_, ?_, ?_⟩, rfl, rfl, rfl⟩
  · exact fun _ hp => nomatch hp
  · exact fun _ hp => nomatch hp
  · exact fun hmaps => absurd hmaps hunmapped
  · exact fun _ hp => nomatch hp
  · exact fun hmaps => absurd hmaps hunmapped

end Mirrors

/--
When every call of a run on a tree over a pool returns, the searches deliver what
they deliver over the ideal store, and no access has gone through a pointer to a
frame that has been given to another page since.
-/
theorem calls_refine_ideal {pool : BufferPool (IdealDisk (Page K V)) (Page K V)}
    {maxFrames : FrameId} {disk : IdealDisk (Page K V)} {order : IterationOrder PageId FrameId}
    (hnew : BufferPool.new maxFrames disk order = .ok pool) {cap fuel : Nat}
    {calls : List (Call K V)} {results : List (Option V)} {tree : PoolTree K V}
    (hrun : runCalls cap fuel calls (PoolTree.empty pool) = .ok results tree) :
    (∃ ideal, runCalls cap fuel calls (IdealTree.empty disk.pages) = .ok results ideal) ∧
      tree.bp.staleAccess = false := by
  obtain ⟨_, ideal, hideal, rfl, hsettled⟩ :=
    Mirrors.runCalls cap fuel calls _ _ (Mirrors.settled_empty hnew) _ _ hrun
  exact ⟨⟨ideal, hideal⟩, hsettled.stores.noStaleAccess⟩

def blankDisk : IdealDisk (Page Int Int) := ⟨blankPages⟩

/-- A pool over a disk of blank pages. -/
def blankPool (maxFrames : Nat) : BufferPool (IdealDisk (Page Int Int)) (Page Int Int) :=
  .initial maxFrames blankDisk .newestFirst

theorem blankPool_new (maxFrames : Nat) :
    BufferPool.new maxFrames blankDisk .newestFirst = .ok (blankPool maxFrames) :=
  BufferPool.new_eq maxFrames blankDisk .newestFirst

/-- Six insertions, of which the fifth splits the root, and three searches. -/
def nineCalls : List (Call Int Int) :=
  (increasing 6).map (fun pair => .insert pair.1 pair.2) ++ [.find 2 0, .find 5 0, .find 9 7]

def nineResults : List (Option Int) := List.replicate 6 none ++ [some 2, some 5, some 7]

/-- Over a pool of three frames nine calls deliver what they deliver over the ideal store. -/
theorem nine_calls_refine_ideal :
    ∃ tree : PoolTree Int Int,
      runCalls 5 4 nineCalls (PoolTree.empty (blankPool 3)) = .ok nineResults tree ∧
      (∃ ideal, runCalls 5 4 nineCalls (IdealTree.empty blankPages) = .ok nineResults ideal) ∧
      tree.bp.staleAccess = false := by
  have heval : resultOf (runCalls 5 4 nineCalls (PoolTree.empty (blankPool 3))) =
      some nineResults := by
    decide +kernel
  have hrun := eq_ok_of_resultOf heval
  exact ⟨_, hrun, calls_refine_ideal (blankPool_new 3) hrun⟩

/-! ## Durability -/

/-- The tree whose pages are read from the disk alone. -/
def PoolTree.onDisk (tree : PoolTree K V) : IdealTree K V :=
  ⟨⟨tree.bp.pool.disk.pages, tree.bp.pool.nextPage⟩, tree.rootPageId, []⟩

namespace Mirrors.Settled

omit [Index K] [Value V]

variable {tree : PoolTree K V} {ideal : IdealTree K V}

/-- Between two calls the disk has the pages of the ideal store. -/
theorem disk_eq (h : Settled tree ideal) : tree.bp.pool.disk.pages = ideal.bp.pages := by
  funext id
  cases hfind : tree.bp.pool.pageTable.find? id with
  | none => exact h.stores.exposes.absent hfind
  | some frame =>
      refine h.stores.exposes.clean hfind (Bool.eq_false_iff.mpr fun hdirty => ?_)
      exact h.stores.dirty_only hfind hdirty

theorem onDisk_eq (h : Settled tree ideal) : tree.onDisk = ideal := by
  obtain ⟨⟨pages, nextPage⟩, rootPageId, frameQueue⟩ := ideal
  cases h.idealQueue_eq
  cases h.root_eq
  cases h.stores.nextPage_eq
  cases h.disk_eq
  rfl

end Mirrors.Settled

/--
When an insertion at the end of such a run returns, no mapped frame is dirty, each
holds the bytes of its page on the disk, and the tree logged or searched through
the pool is the one on the disk.
-/
theorem insert_is_durable {pool : BufferPool (IdealDisk (Page K V)) (Page K V)}
    {maxFrames : FrameId} {disk : IdealDisk (Page K V)} {order : IterationOrder PageId FrameId}
    (hnew : BufferPool.new maxFrames disk order = .ok pool) {cap fuel : Nat}
    {calls : List (Call K V)} {results : List (Option V)} {tree tree' : PoolTree K V}
    (hrun : runCalls cap fuel calls (PoolTree.empty pool) = .ok results tree)
    {key : K} {value : V} {returned : Bool}
    (hinsert : insert cap fuel key value tree = .ok returned tree') :
    (∀ {id frame}, tree'.bp.pool.Maps id frame →
      (tree'.bp.pool.frames frame).isDirty = false ∧
      (tree'.bp.pool.frames frame).data = some (tree'.bp.pool.disk.pages id)) ∧
    (∀ {rounds dumps final}, dumpContents rounds tree' = .ok dumps final →
      ∃ final', dumpContents rounds tree'.onDisk = .ok dumps final') ∧
    ∀ {rounds key out found final}, find rounds key out tree' = .ok found final →
      ∃ final', find rounds key out tree'.onDisk = .ok found final' := by
  obtain ⟨_, ideal, _, _, hsettled⟩ :=
    Mirrors.runCalls cap fuel calls _ _ (Mirrors.settled_empty hnew) _ _ hrun
  obtain ⟨_, ideal', _, hsettled'⟩ := Mirrors.insert cap fuel key value _ _ hsettled _ _ hinsert
  have hdisk : tree'.onDisk = ideal' := Mirrors.Settled.onDisk_eq hsettled'
  refine ⟨fun {id frame} hmaps => ⟨?_, ?_⟩, ?_, ?_⟩
  · exact Bool.eq_false_iff.mpr fun hdirty => hsettled'.stores.dirty_only hmaps hdirty
  · rw [Mirrors.Settled.disk_eq hsettled']
    exact hsettled'.stores.exposes.mapped hmaps
  · intro rounds dumps final hdump
    obtain ⟨_, final', hideal, rfl, _⟩ := Mirrors.dumpContents rounds _ _ hsettled' _ _ hdump
    exact ⟨final', hdisk ▸ hideal⟩
  · intro rounds key out found final hfind
    obtain ⟨_, final', hideal, rfl, _⟩ := Mirrors.find rounds key out _ _ hsettled' _ _ hfind
    exact ⟨final', hdisk ▸ hideal⟩

/-- Four insertions, after which the root is a leaf that the next one splits. -/
def fourCalls : List (Call Int Int) := (increasing 4).map fun pair => .insert pair.1 pair.2

def fourInserted : PoolTree Int Int :=
  stateOf (runCalls 5 4 fourCalls (PoolTree.empty (blankPool 3)))

/-- The insertion of 4 splits the root. -/
def fifthInserted : PoolTree Int Int := stateOf (insert 5 4 4 40 fourInserted)

/--
After the insertion that splits the root the frames of the pool are clean, and
the disk alone delivers the value that it has stored.
-/
theorem fifth_insertion_is_durable :
    runCalls 5 4 fourCalls (PoolTree.empty (blankPool 3)) =
        .ok (List.replicate 4 none) fourInserted ∧
      insert 5 4 4 40 fourInserted = .ok true fifthInserted ∧
      (∀ {id frame}, fifthInserted.bp.pool.Maps id frame →
        (fifthInserted.bp.pool.frames frame).isDirty = false ∧
        (fifthInserted.bp.pool.frames frame).data =
          some (fifthInserted.bp.pool.disk.pages id)) ∧
      ∃ final, find 4 4 0 fifthInserted.onDisk = .ok 40 final := by
  have hfour : resultOf (runCalls 5 4 fourCalls (PoolTree.empty (blankPool 3))) =
      some (List.replicate 4 none) := by
    decide +kernel
  have hfifth : resultOf (insert 5 4 4 40 fourInserted) = some true := by
    decide +kernel
  have hfound : resultOf (find 4 4 0 fifthInserted) = some 40 := by
    decide +kernel
  have hrun : runCalls 5 4 fourCalls (PoolTree.empty (blankPool 3)) =
      .ok (List.replicate 4 none) fourInserted := eq_ok_of_resultOf hfour
  have hinsert : insert 5 4 4 40 fourInserted = .ok true fifthInserted :=
    eq_ok_of_resultOf hfifth
  obtain ⟨hclean, _, hdisk⟩ := insert_is_durable (blankPool_new 3) hrun hinsert
  exact ⟨hrun, hinsert, hclean, hdisk (eq_ok_of_resultOf hfound)⟩

end HiveDb.BPlusTree
