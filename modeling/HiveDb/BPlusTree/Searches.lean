import HiveDb.BPlusTree.Splits

/-!
# The searches of a node

A leaf that was cut from a child is registered where the search of the way down
leads to it: `find_index_for_insert` and `find_index` choose the same child as
long as no separator equals the key.  The two searches of
`find_index_for_insert` itself differ on equal keys: the scan goes behind them,
the bisection stops before them; the keys of a leaf stay in order either way.
`find_index` of a leaf finds a key exactly where it is, that of an inner node counts
the separators up to the key, and they ask for live keys and for separators only.
-/

namespace HiveDb.BPlusTree

open HiveDb.Lib
open HiveDb.Lib.Slots

variable {K V : Type} [Index K]

/-! ## Registering a leaf -/

namespace InnerNode

section Routing

variable {page page' : Page K V} {key : K} {value : V} {j : Nat}

/-- The key lies strictly between the separators on both sides of child `j`. -/
structure Between (page : Page K V) (j : Nat) (key : K) : Prop where
  lt : j < page.currentSize
  above : ∀ i, i + 1 = j → page.keys i < key
  below : j + 1 < page.currentSize → key < page.keys j

omit [Index K] in
/-- The separators after a registration, as one array. -/
theorem Registered.keys_cases (hregistered : Registered page page' j key value) {i : Nat}
    (hi : i < page.currentSize) :
    (i < j ∧ page'.keys i = page.keys i) ∨ (i = j ∧ page'.keys i = key) ∨
      ∃ k, i = k + 1 ∧ j ≤ k ∧ page'.keys i = page.keys k := by
  rw [hregistered.keys_eq i hi]
  rcases Nat.lt_trichotomy i j with hlt | rfl | hgt
  · exact .inl ⟨hlt, insertSlot_of_lt _ _ hlt⟩
  · exact .inr (.inl ⟨rfl, insertSlot_self _ _⟩)
  · obtain ⟨k, rfl⟩ : ∃ k, i = k + 1 := ⟨i - 1, by omega⟩
    exact .inr (.inr ⟨k, rfl, by omega, insertSlot_succ_of_le _ _ (by omega)⟩)

namespace Between

theorem above_of_lt (h : Between page j key) (hsorted : SortedKeys page (page.currentSize - 1))
    {i : Nat} (hi : i < j) : page.keys i < key := by
  obtain ⟨k, rfl⟩ : ∃ k, j = k + 1 := ⟨j - 1, by omega⟩
  have hlt := h.lt
  exact lt_of_le_of_lt (hsorted i k (by omega) (by omega)) (h.above k rfl)

theorem below_of_le (h : Between page j key) (hsorted : SortedKeys page (page.currentSize - 1))
    {i : Nat} (hi : j ≤ i) (hlt : i + 1 < page.currentSize) : key < page.keys i :=
  lt_of_lt_of_le (h.below (by omega)) (hsorted j i hi (by omega))

/-- Between two separators there is one position, the child's own. -/
theorem position_eq (h : Between page j key) (hsorted : SortedKeys page (page.currentSize - 1))
    {w : Nat} (hposition : Node.IsPosition page (page.currentSize - 1) key w) : w = j := by
  have hle := hposition.le
  have hlt := h.lt
  rcases Nat.lt_trichotomy w j with hwj | heq | hjw
  · exact absurd (hposition.from_position w (Nat.le_refl _) (by omega))
      (not_le.mpr (h.above_of_lt hsorted hwj))
  · exact heq
  · exact absurd (hposition.before j hjw)
      (not_le.mpr (h.below_of_le hsorted (Nat.le_refl _) (by omega)))

theorem sorted_registered (h : Between page j key)
    (hsorted : SortedKeys page (page.currentSize - 1))
    (hregistered : Registered page page' j key value) :
    SortedKeys page' (page'.currentSize - 1) := by
  have hlt := h.lt
  rw [hregistered.currentSize_eq, Nat.add_sub_cancel]
  intro i i' hle hi'
  rw [hregistered.keys_eq i (by omega), hregistered.keys_eq i' hi']
  exact sorted_insertSlot _ _ (show j ≤ page.currentSize - 1 by omega) hsorted
    (fun k hk => (h.above_of_lt hsorted hk).le)
    (fun k hjk hk => (h.below_of_le hsorted hjk (by omega)).le) i i' hle (by omega)

/-- A search key below the new separator is routed as before. -/
theorem cut_of_lt (h : Between page j key) (hsorted : SortedKeys page (page.currentSize - 1))
    (hregistered : Registered page page' j key value) {q : K} (hq : q < key) {i : Nat}
    (hcut : Search.IsCut (fun i => page.keys i > q) (page.currentSize - 1) i) :
    i ≤ j ∧ Search.IsCut (fun i => page'.keys i > q) page.currentSize i := by
  have hlt := h.lt
  have hle := hcut.le
  have hij : i ≤ j := by
    by_contra hji
    exact hcut.before j (by omega)
      (lt_trans hq (h.below_of_le hsorted (Nat.le_refl _) (by omega)))
  refine ⟨hij, by omega, fun k hk => ?_, fun k hik hk => ?_⟩
  · rcases hregistered.keys_cases (show k < page.currentSize by omega) with
      ⟨_, heq⟩ | ⟨rfl, _⟩ | ⟨_, rfl, _, _⟩
    · rw [heq]
      exact hcut.before k hk
    · omega
    · omega
  · rcases hregistered.keys_cases hk with ⟨hkj, heq⟩ | ⟨_, heq⟩ | ⟨k', rfl, hjk', heq⟩
    · rw [heq]
      exact hcut.from_cut k hik (by omega)
    · rw [heq]
      exact hq
    · rw [heq]
      exact lt_trans hq (h.below_of_le hsorted hjk' (by omega))

/-- A search key from the new separator on is routed one child further than before. -/
theorem cut_of_le (h : Between page j key) (hsorted : SortedKeys page (page.currentSize - 1))
    (hregistered : Registered page page' j key value) {q : K} (hq : key ≤ q) {i : Nat}
    (hcut : Search.IsCut (fun i => page.keys i > q) (page.currentSize - 1) i) :
    j ≤ i ∧ Search.IsCut (fun i => page'.keys i > q) page.currentSize (i + 1) := by
  have hlt := h.lt
  have hle := hcut.le
  have hji : j ≤ i := by
    by_contra hij
    have hseparator := hcut.from_cut i (Nat.le_refl _) (by omega)
    exact absurd (lt_of_lt_of_le (h.above_of_lt hsorted (show i < j by omega)) hq)
      (not_lt.mpr hseparator.le)
  refine ⟨hji, by omega, fun k hk => ?_, fun k hik hk => ?_⟩
  · rcases hregistered.keys_cases (show k < page.currentSize by omega) with
      ⟨hkj, heq⟩ | ⟨_, heq⟩ | ⟨k', rfl, hjk', heq⟩
    · rw [heq]
      exact not_lt.mpr (le_trans (h.above_of_lt hsorted hkj).le hq)
    · rw [heq]
      exact not_lt.mpr hq
    · rw [heq]
      exact hcut.before k' (by omega)
  · rcases hregistered.keys_cases hk with ⟨hkj, _⟩ | ⟨_, _⟩ | ⟨k', rfl, hjk', heq⟩
    · omega
    · omega
    · rw [heq]
      exact hcut.from_cut k' (by omega) (by omega)

end Between

omit [Index K] in
theorem Registered.separators_eq (hregistered : Registered page page' j key value)
    (hlt : j < page.currentSize) :
    page'.separators = page.separators.take j ++ key :: page.separators.drop j := by
  have hle : j ≤ page.currentSize - 1 := by omega
  have hsize : page.currentSize = page.currentSize - 1 + 1 := by omega
  have hkeys : live page'.keys page.currentSize =
      live (insertSlot page.keys j key) (page.currentSize - 1 + 1) := by
    rw [← hsize]
    exact live_congr hregistered.keys_eq
  rw [Page.separators, hregistered.currentSize_eq, Nat.add_sub_cancel, hkeys,
    live_insertSlot_eq _ _ hle, Page.separators]

omit [Index K] in
theorem Registered.children_eq (hregistered : Registered page page' j key value)
    (hlt : j < page.currentSize) :
    page'.children = page.children.take (j + 1) ++ value :: page.children.drop (j + 1) := by
  have hvalues : live page'.values (page.currentSize + 1) =
      live (insertSlot page.values (j + 1) value) (page.currentSize + 1) :=
    live_congr fun i hi => hregistered.values_eq i (Nat.lt_succ_iff.mp hi)
  rw [Page.children, hregistered.currentSize_eq, hvalues, live_insertSlot_eq _ _ hlt,
    Page.children]

/--
Registering a leaf whose first key lies between the separators of child `j` makes it
child `j + 1`; a search key from that first key on and below the old separator leads to
it, every other one to the page it led to before.
-/
theorem registration_agrees (htwo : 2 ≤ page.currentSize)
    (hroom : page.currentSize < page.maxSize)
    (hkeys : StrictKeys page (page.currentSize - 1)) {newNode : Node K V}
    (hnew : 0 < newNode.maxSize) (hbetween : Between page j (newNode.buffer.keys 0)) (value : V) :
    ∃ page', trivialInsertLeafNode value newNode (Node.ofBuffer page) =
        .ok (Node.ofBuffer page') ∧
      page'.separators =
        page.separators.take j ++ newNode.buffer.keys 0 :: page.separators.drop j ∧
      page'.children = page.children.take (j + 1) ++ value :: page.children.drop (j + 1) ∧
      ∀ q, ∃ i i', findIndex (Node.ofBuffer page) q = .ok i ∧
        findIndex (Node.ofBuffer page') q = .ok i' ∧
        (i' = j + 1 ↔
          newNode.buffer.keys 0 ≤ q ∧ (j + 1 < page.currentSize → q < page.keys j)) ∧
        (i' ≠ j + 1 → page'.values i' = page.values i) := by
  have hsorted := hkeys.sorted
  obtain ⟨w, page', _, hrun, hposition, hregistered⟩ :=
    trivialInsertLeafNode_spec newNode value htwo hroom hsorted hnew
  obtain rfl := hbetween.position_eq hsorted hposition
  have hlt := hbetween.lt
  refine ⟨page', hrun, hregistered.separators_eq hlt, hregistered.children_eq hlt, fun q => ?_⟩
  obtain ⟨i, hi, hcut⟩ := findIndex_spec q htwo hroom.le hsorted
  have hsize := hregistered.currentSize_eq
  obtain ⟨i', hi', hcut'⟩ := findIndex_spec q (show 2 ≤ page'.currentSize by omega)
    (show page'.currentSize ≤ page'.maxSize by rw [hsize, hregistered.maxSize_eq]; exact hroom)
    (hbetween.sorted_registered hsorted hregistered)
  rw [hsize, Nat.add_sub_cancel] at hcut'
  have hle := hcut.le
  refine ⟨i, i', hi, hi', ?_⟩
  rcases lt_or_ge q (newNode.buffer.keys 0) with hq | hq
  · obtain ⟨hij, hbefore⟩ := hbetween.cut_of_lt hsorted hregistered hq hcut
    obtain rfl := hcut'.unique hbefore
    refine ⟨iff_of_false (by omega) fun hnew => absurd hnew.1 (not_le.mpr hq), fun _ => ?_⟩
    rw [hregistered.values_eq i' (by omega), insertSlot_of_lt _ _ (by omega)]
  · obtain ⟨hji, hafter⟩ := hbetween.cut_of_le hsorted hregistered hq hcut
    obtain rfl := hcut'.unique hafter
    refine ⟨⟨fun heq => ⟨hq, fun hinside => ?_⟩, fun hnew => ?_⟩, fun hne => ?_⟩
    · obtain rfl : i = w := by omega
      exact hcut.from_cut i (Nat.le_refl _) (by omega)
    · by_contra hne
      exact hcut.before w (by omega) (hnew.2 (by omega))
    · rw [hregistered.values_eq (i + 1) (by omega), insertSlot_succ_of_le _ _ (by omega)]

end Routing

/-- Four children with the separators 0, 10 and 20. -/
def tensPage : Page Int Int := { countedPage .innerNode 5 4 with keys := fun i => 10 * i }

/-- A leaf whose first key is 5. -/
def fivesPage : Page Int Int := { countedPage .leafNode 5 2 with keys := fun i => 5 + i }

/-- The leaf goes behind the child between 0 and 10, and 7 is then found there. -/
theorem five_registered :
    ∃ page', trivialInsertLeafNode 9 (Node.ofBuffer fivesPage) (Node.ofBuffer tensPage) =
        .ok (Node.ofBuffer page') ∧
      page'.separators = [0, 5, 10, 20] ∧ page'.children = [0, 1, 9, 2, 3] ∧
      findIndex (Node.ofBuffer page') 7 = .ok 2 := by
  have hkeys : StrictKeys tensPage (tensPage.currentSize - 1) := by
    intro i k hik _
    show (10 * (i : Int)) < 10 * k
    omega
  have hbetween : Between tensPage 1 ((Node.ofBuffer fivesPage).buffer.keys 0) :=
    ⟨by decide, fun i hi => by obtain rfl := Nat.succ.inj hi; decide, fun _ => by decide⟩
  obtain ⟨page', hrun, hseparators, hchildren, hroute⟩ := registration_agrees (by decide)
    (by decide) hkeys (show 0 < (Node.ofBuffer fivesPage).maxSize by decide) hbetween 9
  obtain ⟨_, i', _, hfind, hiff, _⟩ := hroute 7
  have hi' : i' = 2 := hiff.mpr ⟨by decide, fun _ => by decide⟩
  exact ⟨page', hrun, hseparators, hchildren, hi' ▸ hfind⟩

end InnerNode

/-! ## Scan and bisection -/

section Agreement

variable {page : Page K V} {key : K} {count : Nat}

/-- Keys that are larger and keys that are not smaller are the same unless the key is there. -/
theorem cuts_agree_iff {w w' : Nat} (hscan : Search.IsCut (fun i => page.keys i > key) count w)
    (hbisect : Search.IsCut (fun i => page.keys i ≥ key) count w') :
    w = w' ↔ ∀ i, i < count → page.keys i ≠ key := by
  rw [hscan.eq_iff hbisect]
  refine forall_congr' fun i => forall_congr' fun _ => ?_
  constructor
  · intro hiff heq
    exact absurd (hiff.mpr heq.ge) (not_lt.mpr heq.le)
  · intro hne
    exact ⟨le_of_lt, fun hge => lt_of_le_of_ne hge hne.symm⟩

/-- The search of a large node is the bisection. -/
theorem Node.positionAmong_of_large (hlarge : 5 ≤ page.currentSize)
    (hroom : page.currentSize < page.maxSize) (count : Int) :
    (Node.ofBuffer page).positionAmong count key =
      (Node.ofBuffer page).bisectPosition count key := by
  have hassert : assertThat (Node.ofBuffer page).canInsertTrivially = .ok () :=
    assertThat_of hroom
  rw [Node.positionAmong, hassert, ok_bind, Node.ofBuffer_currentSize,
    if_neg (Nat.not_lt.mpr hlarge)]

theorem Node.positionAmong_agrees_iff (hlarge : 5 ≤ page.currentSize)
    (hroom : page.currentSize < page.maxSize) (htwo : 2 ≤ count) (hcount : count ≤ page.currentSize)
    (hsorted : SortedKeys page count) :
    ∃ w w', (Node.ofBuffer page).scanPosition count key = .ok w ∧
      (Node.ofBuffer page).positionAmong count key = .ok w' ∧
      (w = w' ↔ ∀ i, i < count → page.keys i ≠ key) := by
  obtain ⟨w, hscan, hcut⟩ := Node.scanPosition_spec key hcount hroom.le hsorted
  obtain ⟨w', hbisect, hcut'⟩ := Node.bisectPosition_spec key htwo hcount hroom.le hsorted
  exact ⟨w, w', hscan, (Node.positionAmong_of_large hlarge hroom _).trans hbisect,
    cuts_agree_iff hcut hcut'⟩

/--
In nodes with at least five entries the bisection finds the position that the scan
would find exactly when the key is not among the keys compared.
-/
theorem searches_agree_iff (page : Page K V) (key : K) (hlarge : 5 ≤ page.currentSize)
    (hroom : page.currentSize < page.maxSize) :
    (SortedKeys page page.currentSize →
      ∃ w w', (Node.ofBuffer page).scanPosition page.currentSize key = .ok w ∧
        LeafNode.findIndexForInsert (Node.ofBuffer page) key = .ok w' ∧
        (w = w' ↔ ∀ i, i < page.currentSize → page.keys i ≠ key)) ∧
    (SortedKeys page (page.currentSize - 1) →
      ∃ w w', (Node.ofBuffer page).scanPosition ((page.currentSize : Int) - 1) key = .ok w ∧
        InnerNode.findIndexForInsert (Node.ofBuffer page) key = .ok w' ∧
        (w = w' ↔ ∀ i, i < page.currentSize - 1 → page.keys i ≠ key)) := by
  have hcount : (page.currentSize : Int) - 1 = ((page.currentSize - 1 : Nat) : Int) := by omega
  constructor
  · intro hsorted
    exact Node.positionAmong_agrees_iff hlarge hroom (by omega) (Nat.le_refl _) hsorted
  · intro hsorted
    rw [InnerNode.findIndexForInsert, Node.ofBuffer_currentSize, hcount]
    exact Node.positionAmong_agrees_iff hlarge hroom (by omega) (by omega) hsorted

end Agreement

/-- The key is behind all keys of the node. -/
theorem searches_agree_behind :
    (∃ w, (Node.ofBuffer (countedPage .leafNode 6 5)).scanPosition 5 9 = .ok w ∧
      LeafNode.findIndexForInsert (Node.ofBuffer (countedPage .leafNode 6 5)) 9 = .ok w) ∧
    ∃ w, (Node.ofBuffer (countedPage .innerNode 6 5)).scanPosition 4 9 = .ok w ∧
      InnerNode.findIndexForInsert (Node.ofBuffer (countedPage .innerNode 6 5)) 9 = .ok w := by
  constructor
  · obtain ⟨w, w', hscan, hsearch, hiff⟩ := (searches_agree_iff (countedPage .leafNode 6 5) 9
      (by decide) (by decide)).1 (countedPage_strict _ _ _ _).sorted
    have heq : w = w' := hiff.mpr (by decide)
    exact ⟨w, hscan, heq ▸ hsearch⟩
  · obtain ⟨w, w', hscan, hsearch, hiff⟩ := (searches_agree_iff (countedPage .innerNode 6 5) 9
      (by decide) (by decide)).2 (countedPage_strict _ _ _ _).sorted
    have heq : w = w' := hiff.mpr (by decide)
    exact ⟨w, hscan, heq ▸ hsearch⟩

/-- The key is one of the node's: the scan goes behind it, the bisection stops before it. -/
theorem searches_differ :
    (¬ ∀ (page : Page Int Int) (key : Int), 5 ≤ page.currentSize →
      page.currentSize < page.maxSize → SortedKeys page page.currentSize →
      (Node.ofBuffer page).scanPosition page.currentSize key =
        LeafNode.findIndexForInsert (Node.ofBuffer page) key) ∧
    ¬ ∀ (page : Page Int Int) (key : Int), 5 ≤ page.currentSize →
      page.currentSize < page.maxSize → SortedKeys page (page.currentSize - 1) →
      (Node.ofBuffer page).scanPosition ((page.currentSize : Int) - 1) key =
        InnerNode.findIndexForInsert (Node.ofBuffer page) key := by
  constructor
  · intro hall
    have hequal := hall (countedPage .leafNode 6 5) 2 (by decide) (by decide)
      (countedPage_strict _ _ _ _).sorted
    have hscan : (Node.ofBuffer (countedPage .leafNode 6 5)).scanPosition 5 2 = .ok 3 := rfl
    have hsearch : LeafNode.findIndexForInsert (Node.ofBuffer (countedPage .leafNode 6 5)) 2 =
      .ok 2 := rfl
    cases hscan.symm.trans (hequal.trans hsearch)
  · intro hall
    have hequal := hall (countedPage .innerNode 6 5) 2 (by decide) (by decide)
      (countedPage_strict _ _ _ _).sorted
    have hscan : (Node.ofBuffer (countedPage .innerNode 6 5)).scanPosition 4 2 = .ok 3 := rfl
    have hsearch : InnerNode.findIndexForInsert (Node.ofBuffer (countedPage .innerNode 6 5)) 2 =
      .ok 2 := rfl
    cases hscan.symm.trans (hequal.trans hsearch)

/-! ## Finding a key in a leaf -/

/--
In every leaf with increasing keys the search returns the slot of the key, or
nothing if no slot holds it.  It does so with every accessor that returns the
keys of the live slots, one that fails at all others included.
-/
theorem leaf_findIndex_exact {page : Page K V} (key : K) (hpos : 0 < page.currentSize)
    (hle : page.currentSize ≤ page.maxSize) (hkeys : StrictKeys page page.currentSize) :
    ∃ found, LeafNode.findIndex (Node.ofBuffer page) key = .ok found ∧
      (∀ i, found = some i ↔ i < page.currentSize ∧ page.keys i = key) ∧
      ∀ indexes : Int → Except Failure K,
        (∀ i : Nat, i < page.currentSize → indexes i = .ok (page.keys i)) →
        LeafNode.findIndexThrough page.currentSize indexes key = .ok found := by
  have hone : ∀ i j, i < page.currentSize → j < page.currentSize → page.keys i = key →
      page.keys j = key → i = j := by
    intro i j hi hj hkey hkey'
    rcases Nat.lt_trichotomy i j with hlt | heq | hgt
    · exact absurd (hkey.trans hkey'.symm) (hkeys i j hlt hj).ne
    · exact heq
    · exact absurd (hkey'.trans hkey.symm) (hkeys j i hgt hi).ne
  obtain ⟨found, hfound, hsome, hnone⟩ := LeafNode.findIndex_spec key hpos hle hkeys.sorted
  have hiff : ∀ i, found = some i ↔ i < page.currentSize ∧ page.keys i = key := by
    refine fun i => ⟨hsome i, ?_⟩
    rintro ⟨hi, hkey⟩
    cases found with
    | none => exact absurd hkey (hnone rfl i hi)
    | some j =>
        obtain ⟨hj, hkey'⟩ := hsome j rfl
        rw [hone i j hi hj hkey hkey']
  refine ⟨found, hfound, hiff, fun indexes hindexes => ?_⟩
  obtain ⟨m, hm, hconclusive, hrun⟩ :=
    LeafNode.findIndexThrough_spec key hpos hkeys.sorted hindexes
  rw [hrun]
  by_cases hkey : page.keys m = key
  · rw [if_pos hkey, (hiff m).mpr ⟨hm, hkey⟩]
  · rw [if_neg hkey]
    cases found with
    | none => rfl
    | some i =>
        obtain ⟨hi, hkey'⟩ := hsome i rfl
        exact absurd hkey' (hconclusive.resolve_left hkey i hi)

/-- Of five keys the third is asked for; slots that are not live are not there. -/
theorem third_of_five_found :
    ∃ found, LeafNode.findIndex (Node.ofBuffer (countedPage .leafNode 6 5)) 2 = .ok found ∧
      (∀ i, found = some i ↔ i < 5 ∧ (i : Int) = 2) ∧
      LeafNode.findIndexThrough 5
        (fun i => if 0 ≤ i ∧ i < 5 then .ok i else .error .undefined) 2 = .ok found := by
  obtain ⟨found, hfound, hiff, hthrough⟩ := @leaf_findIndex_exact Int Int _
    (countedPage .leafNode 6 5) 2 (by decide) (by decide) (countedPage_strict _ _ _ _)
  refine ⟨found, hfound, hiff, hthrough _ fun i hi => ?_⟩
  exact if_pos ⟨Int.natCast_nonneg i, Int.ofNat_lt.mpr hi⟩

/-! ## Finding a child of an inner node -/

/--
In every inner node with increasing separators the search returns the number of
separators that are at most the key, whatever its last key slot holds, so that the
key lies between the separators around the child.  It does so with every accessor
that returns the separators, one that fails at all other slots included.
-/
theorem inner_findIndex_exact {page : Page K V} (key : K) (htwo : 2 ≤ page.currentSize)
    (hslots : page.currentSize - 1 ≤ page.maxSize)
    (hkeys : StrictKeys page (page.currentSize - 1)) :
    ∃ i, InnerNode.findIndex (Node.ofBuffer page) key = .ok i ∧
      i = page.separators.countP (fun separator => separator ≤ key) ∧
      i < page.currentSize ∧
      (∀ l, l + 1 = i → page.keys l ≤ key) ∧
      (i + 1 < page.currentSize → key < page.keys i) ∧
      ∀ indexes : Int → Except Failure K,
        (∀ l : Nat, l + 1 < page.currentSize → indexes l = .ok (page.keys l)) →
        InnerNode.findIndexThrough page.currentSize indexes key = .ok i := by
  have hindexes : ∀ l : Nat, l < page.currentSize - 1 →
      (Node.ofBuffer page).indexes l = .ok (page.keys l) :=
    fun l hl => Node.indexes_of_lt (Nat.lt_of_lt_of_le hl hslots)
  obtain ⟨i, hi, hcut⟩ := InnerNode.findIndexThrough_spec key htwo hkeys.sorted hindexes
  have hle := hcut.le
  have hcount : page.separators.countP (fun separator => separator ≤ key) = i :=
    countP_live hle (fun l hl => decide_eq_true (not_lt.mp (hcut.before l hl)))
      (fun l hil hl => by simpa using hcut.from_cut l hil hl)
  refine ⟨i, hi, hcount.symm, by omega, fun l hl => ?_, fun hlast => ?_, fun indexes hread => ?_⟩
  · exact not_lt.mp (hcut.before l (by omega))
  · exact hcut.from_cut i (Nat.le_refl _) (by omega)
  · obtain ⟨j, hj, hcut'⟩ := InnerNode.findIndexThrough_spec key htwo hkeys.sorted
      (fun l hl => hread l (by omega))
    rw [hj, hcut'.unique hcut]

/-- The separators are 0, 10 and 20, and the last key slot still holds 5. -/
def staleTensPage : Page Int Int :=
  { InnerNode.tensPage with keys := setSlot InnerNode.tensPage.keys 3 5 }

/-- A key that is a separator leads to the child right of it. -/
theorem ten_routed_right :
    ∃ i, InnerNode.findIndex (Node.ofBuffer staleTensPage) 10 = .ok i ∧ i = 2 ∧
      InnerNode.findIndexThrough 4
        (fun l => if 0 ≤ l ∧ l < 3 then .ok (10 * l) else .error .undefined) 10 = .ok i := by
  have hkeys : StrictKeys staleTensPage (staleTensPage.currentSize - 1) := by
    intro i k hik (hk : k < 3)
    show setSlot InnerNode.tensPage.keys 3 5 i < setSlot InnerNode.tensPage.keys 3 5 k
    rw [setSlot_of_ne _ _ (by omega), setSlot_of_ne _ _ (by omega)]
    show (10 * (i : Int)) < 10 * k
    omega
  obtain ⟨i, hi, hcount, _, _, _, hthrough⟩ :=
    inner_findIndex_exact 10 (by decide) (by decide) hkeys
  refine ⟨i, hi, hcount.trans (by decide), hthrough _ fun l hl => ?_⟩
  have hl' : l < 3 := Nat.lt_of_succ_lt_succ hl
  rw [if_pos (by omega)]
  show _ = Except.ok (setSlot InnerNode.tensPage.keys 3 5 l)
  rw [setSlot_of_ne _ _ (by omega)]
  rfl

/-! ## Inserting into a leaf -/

/--
`trivial_insert` without a position into a leaf with room puts the pair between the
old ones, which keep their order, at a place where the keys stay in theirs.  The
size grows by one in the view and in the header of the page.
-/
theorem leaf_trivialInsert_ordered {page : Page K V} (key : K) (value : V)
    (hroom : page.currentSize < page.maxSize) (hsorted : SortedKeys page page.currentSize) :
    ∃ node', LeafNode.trivialInsert key value (Node.ofBuffer page) = .ok node' ∧
      (node'.type = page.type ∧ node'.buffer.type = page.type) ∧
      (node'.currentSize = page.currentSize + 1 ∧
        node'.buffer.currentSize = page.currentSize + 1) ∧
      SortedKeys node'.buffer node'.buffer.currentSize ∧
      ∃ before behind, page.pairs = before ++ behind ∧
        node'.buffer.pairs = before ++ (key, value) :: behind := by
  obtain ⟨w, page', hrun, hposition, hinserted⟩ :=
    LeafNode.trivialInsert_spec key value hroom hsorted
  have hsize := hinserted.currentSize_eq
  refine ⟨Node.ofBuffer page', hrun, ⟨hinserted.type_eq, hinserted.type_eq⟩, ⟨hsize, hsize⟩,
    IsLeaf.sorted_insert hsorted hposition hinserted, page.pairs.take w, page.pairs.drop w, ?_, ?_⟩
  · exact (List.take_append_drop w page.pairs).symm
  · exact IsLeaf.pairs_of_inserted hposition.le hinserted

/-- A sixth pair, with a key that is in the leaf already, goes beside the old one. -/
theorem two_inserted_again :
    ∃ node', LeafNode.trivialInsert 2 9 (Node.ofBuffer (countedPage .leafNode 6 5)) = .ok node' ∧
      node'.buffer.currentSize = 6 ∧ SortedKeys node'.buffer 6 ∧
      ∃ before behind, [(0, 0), (1, 1), (2, 2), (3, 3), (4, 4)] = before ++ behind ∧
        node'.buffer.pairs = before ++ (2, 9) :: behind := by
  obtain ⟨node', hrun, _, ⟨_, hsize⟩, hsorted, hpairs⟩ :=
    @leaf_trivialInsert_ordered Int Int _ (countedPage .leafNode 6 5) 2 9 (by decide)
      (countedPage_strict _ _ _ _).sorted
  rw [hsize] at hsorted
  exact ⟨node', hrun, hsize, hsorted, hpairs⟩

end HiveDb.BPlusTree
