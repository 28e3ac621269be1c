import HiveDb.BPlusTree.Tree

/-!
# The ideal page store

Every page is always at hand: requesting a page exposes its current bytes and
never fails, a frame pointer is the page's id, and flushing does nothing.
-/

namespace HiveDb.BPlusTree

structure IdealStore (K V : Type) where
  pages : PageId → Page K V
  nextPage : PageId

variable {K V : Type}

def IdealStore.write (store : IdealStore K V) (id : PageId) (page : Page K V) :
    IdealStore K V :=
  { store with pages := fun other => if other = id then page else store.pages other }

instance : PageStore (IdealStore K V) PageId K V where
  requestPage id _ := pure id
  allocateNewPage := do
    let store ← get
    set { store with nextPage := store.nextPage + 1 }
    return store.nextPage
  flushPage _ := pure true
  flushPages := pure true
  getData id := return (← get).pages id
  setData id page := modify fun store => store.write id page
  setDirty _ := pure ()
  decreasePinCount _ := pure ()
  sameFrame id other := id == other

abbrev IdealTree (K V : Type) := Tree (IdealStore K V) PageId

/-- `b_plus_tree` constructed with `INVALID_PAGE_ID` over a store of arbitrary bytes. -/
def IdealTree.empty (pages : PageId → Page K V) : IdealTree K V :=
  ⟨⟨pages, 0⟩, invalidPageId, []⟩

end HiveDb.BPlusTree
