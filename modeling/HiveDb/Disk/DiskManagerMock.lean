import HiveDb.Disk.PageMap

/-!
# The mock of the disk manager

The tests of the pool and of the tree run on a stand-in that keeps the pages in a
vector.  A call on a page behind the end of the vector appends six pages, whatever
page it asks for, so the vector serves the page only if it is one of the next six.
-/

namespace HiveDb

open HiveDb.Lib

def zeroPage : PageBuffer := fun _ => 0

structure DiskManagerMock where
  mockFile : List PageBuffer := []

namespace DiskManagerMock

/-- The `resize` on a miss; the new pages are zeros. -/
def resized (mock : DiskManagerMock) (id : PageId) : DiskManagerMock :=
  if id.toNat ≥ mock.mockFile.length then
    { mock with mockFile := mock.mockFile ++ List.replicate 6 zeroPage }
  else mock

/-- `read_page`; the result is what `buffer` holds afterwards. -/
def readPage (id : PageId) (buffer : PageBuffer) : Prog DiskManagerMock PageBuffer :=
  if id < 0 then return buffer
  else do
    modify (·.resized id)
    match (← get).mockFile[id.toNat]? with
    | some page => return page
    | none => throw .undefined

def writePage (id : PageId) (buffer : PageBuffer) : Prog DiskManagerMock Unit :=
  if id < 0 then return ()
  else do
    modify (·.resized id)
    if id.toNat < (← get).mockFile.length then
      modify fun mock => { mock with mockFile := mock.mockFile.set id.toNat buffer }
    else throw .undefined

/-- Calls one after another; the result is what the reads leave in their buffers. -/
def perform : List DiskOp → Prog DiskManagerMock (List PageBuffer)
  | [] => return []
  | .writePage id buffer :: rest => do
      writePage id buffer
      perform rest
  | .readPage id buffer :: rest => do
      let page ← readPage id buffer
      return page :: (← perform rest)

end DiskManagerMock

def DiskOp.pageId : DiskOp → PageId
  | .writePage id _ => id
  | .readPage id _ => id

/-! ## The page map -/

/-- What the reads of a sequence of calls return when each page keeps what is written to it. -/
def answers (pages : PageId → PageBuffer) : List DiskOp → List PageBuffer
  | [] => []
  | .writePage id buffer :: rest => answers (Function.update pages id buffer) rest
  | .readPage id _ :: rest => pages id :: answers pages rest

/-- Every page is one of the first six, or at most one block of six behind an earlier one. -/
def InSequence (ids : List PageId) : Prop :=
  ∀ before id after, ids = before ++ id :: after →
    id / 6 = 0 ∨ ∃ earlier ∈ before, id / 6 ≤ earlier / 6 + 1

/-- Every page is in one of the blocks that have been used or in the one behind them. -/
def InBlocks (blocks : Nat) : List PageId → Prop
  | [] => True
  | id :: rest => id.toNat / 6 ≤ blocks ∧ InBlocks (max blocks (id.toNat / 6 + 1)) rest

instance decidableInBlocks : ∀ (blocks : Nat) (ids : List PageId), Decidable (InBlocks blocks ids)
  | _, [] => .isTrue trivial
  | blocks, id :: rest =>
      have := decidableInBlocks (max blocks (id.toNat / 6 + 1)) rest
      inferInstanceAs (Decidable (id.toNat / 6 ≤ blocks ∧ _))

/-- The ids before reach the first so many blocks. -/
def Reach (before : List PageId) (blocks : Nat) : Prop :=
  ∀ block : Int, 0 ≤ block →
    ((block = 0 ∨ ∃ earlier ∈ before, block ≤ earlier / 6 + 1) ↔ block ≤ blocks)

theorem Reach.nil : Reach [] 0 := by
  intro block hblock
  simp
  omega

theorem Reach.concat {before : List PageId} {blocks : Nat} (h : Reach before blocks)
    {id : PageId} (hid : 0 ≤ id) : Reach (before ++ [id]) (max blocks (id.toNat / 6 + 1)) := by
  intro block hblock
  have hbefore := h block hblock
  have hnonneg : (0 : Int) ≤ id := hid
  simp only [List.mem_append, List.mem_singleton, or_and_right, exists_or, exists_eq_left]
  rw [← or_assoc, hbefore]
  omega

theorem inBlocks_iff {before ids : List PageId} {blocks : Nat} (hreach : Reach before blocks)
    (hids : ∀ id ∈ ids, 0 ≤ id) :
    InBlocks blocks ids ↔ ∀ middle id after, ids = middle ++ id :: after →
      id / 6 = 0 ∨ ∃ earlier ∈ before ++ middle, id / 6 ≤ earlier / 6 + 1 := by
  induction ids generalizing before blocks with
  | nil => exact iff_of_true trivial (by simp)
  | cons first rest ih =>
      obtain ⟨hfirst, hrest⟩ := List.forall_mem_cons.mp hids
      have hhere : (first / 6 = 0 ∨ ∃ earlier ∈ before, first / 6 ≤ earlier / 6 + 1) ↔
          first.toNat / 6 ≤ blocks := by
        have hnonneg : (0 : Int) ≤ first := hfirst
        rw [hreach (first / 6) (by omega)]
        omega
      rw [InBlocks, ← hhere, ih (hreach.concat hfirst) hrest]
      constructor
      · rintro ⟨hhead, htail⟩ middle id after heq
        cases middle with
        | nil =>
            cases heq
            rw [List.append_nil]
            exact hhead
        | cons second middle =>
            cases heq
            have hlater := htail middle id after rfl
            rwa [List.append_assoc] at hlater
      · intro h
        refine ⟨?_, fun middle id after heq => ?_⟩
        · have hhead := h [] first rest rfl
          rwa [List.append_nil] at hhead
        · rw [List.append_assoc]
          exact h (first :: middle) id after (heq ▸ rfl)

theorem inSequence_iff {ids : List PageId} (hids : ∀ id ∈ ids, 0 ≤ id) :
    InSequence ids ↔ InBlocks 0 ids :=
  (inBlocks_iff Reach.nil hids).symm

namespace DiskManagerMock

/-! ## The vector against the page map -/

/-- The vector has so many blocks of six, and a page that is not in it has not been written. -/
structure Represents (mock : DiskManagerMock) (pages : PageId → PageBuffer) (blocks : Nat) :
    Prop where
  length_eq : mock.mockFile.length = 6 * blocks
  page_eq : ∀ {id : PageId}, 0 ≤ id → mock.mockFile[id.toNat]?.getD zeroPage = pages id

variable {mock : DiskManagerMock} {pages : PageId → PageBuffer} {blocks : Nat} {id : PageId}
  {buffer : PageBuffer}

theorem represents_new : Represents {} (fun _ => zeroPage) 0 := ⟨rfl, fun _ => rfl⟩

namespace Represents

theorem resized (h : mock.Represents pages blocks) (hblock : id.toNat / 6 ≤ blocks) :
    (mock.resized id).Represents pages (max blocks (id.toNat / 6 + 1)) := by
  have hlength := h.length_eq
  unfold DiskManagerMock.resized
  split
  next hmiss =>
    refine ⟨?_, fun {other} hother => ?_⟩
    · simp only [List.length_append, List.length_replicate]
      omega
    · rw [← h.page_eq hother]
      rcases Nat.lt_or_ge other.toNat mock.mockFile.length with hlt | hge
      · rw [List.getElem?_append_left hlt]
      · rw [List.getElem?_append_right hge, List.getElem?_replicate, List.getElem?_eq_none hge]
        split <;> rfl
  next hhit => exact ⟨by omega, h.page_eq⟩

/-- A page further behind is not in the vector after the resize either. -/
theorem past_resized (h : mock.Represents pages blocks) (hblock : ¬ id.toNat / 6 ≤ blocks) :
    (mock.resized id).mockFile.length ≤ id.toNat := by
  have hlength := h.length_eq
  unfold DiskManagerMock.resized
  split
  next =>
    simp only [List.length_append, List.length_replicate]
    omega
  next hhit => exact absurd (by omega) hhit

theorem inside (h : mock.Represents pages blocks) (hblock : id.toNat / 6 ≤ blocks) :
    id.toNat < (mock.resized id).mockFile.length := by
  rw [(h.resized hblock).length_eq]
  omega

theorem readPage (h : mock.Represents pages blocks) (hid : 0 ≤ id)
    (hblock : id.toNat / 6 ≤ blocks) (buffer : PageBuffer) :
    DiskManagerMock.readPage id buffer mock = .ok (pages id) (mock.resized id) := by
  have hpage : (mock.resized id).mockFile[id.toNat]? = some (pages id) := by
    rw [← (h.resized hblock).page_eq hid, List.getElem?_eq_getElem (h.inside hblock)]
    rfl
  rw [DiskManagerMock.readPage, if_neg (Int.not_lt.mpr hid),
    bind_of_ok (modify_apply _ _), bind_of_ok (get_apply _), hpage]
  rfl

theorem readPage_past (h : mock.Represents pages blocks) (hid : 0 ≤ id)
    (hblock : ¬ id.toNat / 6 ≤ blocks) (buffer : PageBuffer) :
    DiskManagerMock.readPage id buffer mock = .error .undefined (mock.resized id) := by
  rw [DiskManagerMock.readPage, if_neg (Int.not_lt.mpr hid),
    bind_of_ok (modify_apply _ _), bind_of_ok (get_apply _),
    List.getElem?_eq_none (h.past_resized hblock)]
  rfl

theorem writePage (h : mock.Represents pages blocks) (hid : 0 ≤ id)
    (hblock : id.toNat / 6 ≤ blocks) (buffer : PageBuffer) :
    ∃ mock', DiskManagerMock.writePage id buffer mock = .ok () mock' ∧
      mock'.Represents (Function.update pages id buffer) (max blocks (id.toNat / 6 + 1)) := by
  have hresized := h.resized hblock
  have hinside := h.inside hblock
  refine ⟨⟨(mock.resized id).mockFile.set id.toNat buffer⟩, ?_, ?_, fun {other} hother => ?_⟩
  · rw [DiskManagerMock.writePage, if_neg (Int.not_lt.mpr hid),
      bind_of_ok (modify_apply _ _), bind_of_ok (get_apply _), if_pos hinside]
    rfl
  · rw [List.length_set]
    exact hresized.length_eq
  · by_cases heq : other = id
    · subst heq
      rw [Function.update_self, List.getElem?_set_self hinside]
      rfl
    · have hne : id.toNat ≠ other.toNat := fun htoNat =>
        heq ((Int.toNat_of_nonneg hother).symm.trans
          ((congrArg Int.ofNat htoNat).symm.trans (Int.toNat_of_nonneg hid)))
      rw [Function.update_of_ne heq, List.getElem?_set_ne hne]
      exact hresized.page_eq hother

theorem writePage_past (h : mock.Represents pages blocks) (hid : 0 ≤ id)
    (hblock : ¬ id.toNat / 6 ≤ blocks) (buffer : PageBuffer) :
    DiskManagerMock.writePage id buffer mock = .error .undefined (mock.resized id) := by
  rw [DiskManagerMock.writePage, if_neg (Int.not_lt.mpr hid),
    bind_of_ok (modify_apply _ _), bind_of_ok (get_apply _),
    if_neg (Nat.not_lt.mpr (h.past_resized hblock))]
  rfl

/-- The calls return the answers of the map exactly when no page is further behind. -/
theorem perform {ops : List DiskOp} (h : mock.Represents pages blocks)
    (hids : ∀ op ∈ ops, 0 ≤ op.pageId) :
    (InBlocks blocks (ops.map DiskOp.pageId) →
      ∃ mock', DiskManagerMock.perform ops mock = .ok (answers pages ops) mock') ∧
    (¬ InBlocks blocks (ops.map DiskOp.pageId) →
      ∃ mock', DiskManagerMock.perform ops mock = .error .undefined mock') := by
  induction ops generalizing mock pages blocks with
  | nil => exact ⟨fun _ => ⟨mock, rfl⟩, fun hnot => absurd trivial hnot⟩
  | cons op rest ih =>
      obtain ⟨hid, hrest⟩ := List.forall_mem_cons.mp hids
      rw [List.map_cons, InBlocks]
      cases op with
      | writePage id buffer =>
          by_cases hblock : id.toNat / 6 ≤ blocks
          · obtain ⟨mid, hwrite, hmid⟩ := h.writePage hid hblock buffer
            have heval : DiskManagerMock.perform (.writePage id buffer :: rest) mock =
                DiskManagerMock.perform rest mid := bind_of_ok hwrite
            rw [heval, and_iff_right (show (DiskOp.writePage id buffer).pageId.toNat / 6 ≤ blocks
              from hblock)]
            exact ih hmid hrest
          · refine ⟨fun hblocks => absurd hblocks.1 hblock, fun _ => ?_⟩
            exact ⟨_, bind_of_error (h.writePage_past hid hblock buffer)⟩
      | readPage id buffer =>
          by_cases hblock : id.toNat / 6 ≤ blocks
          · have hread := h.readPage hid hblock buffer
            obtain ⟨hreturns, hfails⟩ := ih (h.resized hblock) hrest
            rw [and_iff_right (show (DiskOp.readPage id buffer).pageId.toNat / 6 ≤ blocks
              from hblock)]
            constructor
            · intro hblocks
              obtain ⟨mock', heval⟩ := hreturns hblocks
              exact ⟨mock', (bind_of_ok hread).trans (bind_of_ok heval)⟩
            · intro hblocks
              obtain ⟨mock', heval⟩ := hfails hblocks
              exact ⟨mock', (bind_of_ok hread).trans (bind_of_error heval)⟩
          · refine ⟨fun hblocks => absurd hblocks.1 hblock, fun _ => ?_⟩
            exact ⟨_, bind_of_error (h.readPage_past hid hblock buffer)⟩

end Represents

/-- The calls return what the page map answers. -/
def ServesAsMap (ops : List DiskOp) : Prop :=
  ∃ mock, perform ops {} = .ok (answers (fun _ => zeroPage) ops) mock

/--
The mock is a page map for exactly the sequences of calls that skip no block of
six pages; the others access the vector behind its end.
-/
theorem servesAsMap_iff {ops : List DiskOp} (hids : ∀ op ∈ ops, 0 ≤ op.pageId) :
    ServesAsMap ops ↔ InSequence (ops.map DiskOp.pageId) := by
  rw [inSequence_iff (by simpa using hids)]
  obtain ⟨hreturns, hfails⟩ := represents_new.perform hids
  refine ⟨fun ⟨mock, heval⟩ => ?_, hreturns⟩
  by_contra hnot
  obtain ⟨mock', herror⟩ := hfails hnot
  cases heval.symm.trans herror

/-- Two blocks used one after the other, and the first one again. -/
theorem twelve_pages_served :
    (∀ op ∈ [DiskOp.writePage 5 zeroPage, .readPage 8 zeroPage, .readPage 5 zeroPage],
      0 ≤ op.pageId) ∧
    ServesAsMap [.writePage 5 zeroPage, .readPage 8 zeroPage, .readPage 5 zeroPage] := by
  have hids : ∀ op ∈ [DiskOp.writePage 5 zeroPage, .readPage 8 zeroPage, .readPage 5 zeroPage],
      0 ≤ op.pageId := by
    simp [DiskOp.pageId]
  refine ⟨hids, (servesAsMap_iff hids).mpr ?_⟩
  exact (inSequence_iff (by decide)).mpr (by decide)

/-- A new mock has no seventh page. -/
theorem seventh_page_missing :
    failureOf (perform [.readPage 6 zeroPage] {}) = some .undefined ∧
      ¬ ServesAsMap [.readPage 6 zeroPage] := by
  have hfails : failureOf (perform [.readPage 6 zeroPage] {}) = some .undefined := by
    decide
  refine ⟨hfails, ?_⟩
  rintro ⟨mock, hreturns⟩
  rw [hreturns] at hfails
  cases hfails

end DiskManagerMock

end HiveDb
