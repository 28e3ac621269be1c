import Mathlib.Data.List.Nodup
import Mathlib.Data.List.Sort
import Mathlib.Tactic.Common

/-!
# Linked chains

Nodes that name their successor form a chain when following the successors from
a first node arrives at the end marker.  The module gives the frame rule, the
rule that splices a node in, and the fact that a list is determined by its
members and a strict order on them.
-/

namespace HiveDb.Lib

variable {α : Type} {next next' : α → α} {stop : α}

/-- Following `next` from a node visits the nodes of the list and ends at `stop`. -/
inductive Chain (next : α → α) (stop : α) : α → List α → Prop where
  | nil : Chain next stop stop []
  | cons {node : α} {rest : List α} (ne : node ≠ stop) (tail : Chain next stop (next node) rest) :
      Chain next stop node (node :: rest)

namespace Chain

theorem head_eq {first node : α} {rest : List α} (h : Chain next stop first (node :: rest)) :
    first = node := by
  cases h with
  | cons => rfl

theorem tail {first node : α} {rest : List α} (h : Chain next stop first (node :: rest)) :
    Chain next stop (next node) rest := by
  cases h with
  | cons _ tail => exact tail

/-- A chain depends on nothing but the successors of its nodes. -/
theorem congr {first : α} {nodes : List α} (h : Chain next stop first nodes)
    (hsame : ∀ node ∈ nodes, next' node = next node) : Chain next' stop first nodes := by
  induction h with
  | nil => exact .nil
  | @cons node rest ne tail ih =>
      refine .cons ne ?_
      rw [hsame node List.mem_cons_self]
      exact ih fun other hother => hsame other (List.mem_cons_of_mem _ hother)

/-- The successor of a node is the one behind it in the list. -/
theorem next_eq {first node : α} {before after : List α}
    (h : Chain next stop first (before ++ node :: after)) : next node = after.headD stop := by
  induction before generalizing first with
  | nil =>
      have htail := h.tail
      cases after with
      | nil =>
          cases htail with
          | nil => rfl
      | cons other after => exact htail.head_eq
  | cons other before ih => exact ih h.tail

/-- A node is spliced in behind another one by giving it the successor the other one had. -/
theorem splice {first node new : α} {before after : List α}
    (h : Chain next stop first (before ++ node :: after)) (hnew : new ≠ stop)
    (hlink : next' node = new) (hnewLink : next' new = next node)
    (hbefore : ∀ other ∈ before, next' other = next other)
    (hafter : ∀ other ∈ after, next' other = next other) :
    Chain next' stop first (before ++ node :: new :: after) := by
  induction before generalizing first with
  | nil =>
      cases h with
      | cons ne tail =>
          refine .cons ne ?_
          rw [hlink]
          refine .cons hnew ?_
          rw [hnewLink]
          exact tail.congr hafter
  | cons other before ih =>
      cases h with
      | cons ne tail =>
          refine .cons ne ?_
          rw [hbefore other List.mem_cons_self]
          exact ih tail fun node hnode => hbefore node (List.mem_cons_of_mem _ hnode)

/-- A spliced chain gives the new node the successor the node before it had. -/
theorem next_of_splice {first first' node new : α} {before after : List α}
    (h : Chain next stop first (before ++ node :: after))
    (h' : Chain next' stop first' (before ++ node :: new :: after)) :
    next' new = next node := by
  rw [h.next_eq]
  rw [List.append_cons] at h'
  exact h'.next_eq

end Chain

/-- A list without repetition in a strict order is determined by its members. -/
theorem eq_of_mem_iff_of_pairwise {r : α → α → Prop} {first second : List α}
    (hfirst : first.Nodup) (hsecond : second.Nodup) (hmem : ∀ x, x ∈ first ↔ x ∈ second)
    (hpairwise : first.Pairwise r) (hpairwise' : second.Pairwise r)
    (hasymm : ∀ x ∈ first, ∀ y ∈ first, r x y → ¬ r y x) : first = second := by
  refine ((List.perm_ext_iff_of_nodup hfirst hsecond).mpr hmem).eq_of_pairwise ?_ hpairwise
    hpairwise'
  intro x y hx hy hxy hyx
  exact absurd hyx (hasymm x hx y ((hmem y).mpr hy) hxy)

/-- A list in order takes in an element right behind another one. -/
theorem pairwise_insert_behind {r : α → α → Prop} {before after : List α} {node new : α}
    (h : (before ++ node :: after).Pairwise r) (hnew : r node new)
    (hbefore : ∀ other ∈ before, r other new) (hafter : ∀ other ∈ after, r new other) :
    (before ++ node :: new :: after).Pairwise r := by
  obtain ⟨hpairwise, hrest, hcross⟩ := List.pairwise_append.mp h
  obtain ⟨hnode, htail⟩ := List.pairwise_cons.mp hrest
  refine List.pairwise_append.mpr ⟨hpairwise, ?_, ?_⟩
  · refine List.pairwise_cons.mpr ⟨?_, List.pairwise_cons.mpr ⟨hafter, htail⟩⟩
    intro other hother
    rcases List.mem_cons.mp hother with rfl | hmem
    · exact hnew
    · exact hnode other hmem
  · intro lower hlower upper hupper
    rcases List.mem_cons.mp hupper with rfl | hmem
    · exact hcross lower hlower upper List.mem_cons_self
    rcases List.mem_cons.mp hmem with rfl | hmem
    · exact hbefore lower hlower
    · exact hcross lower hlower upper (List.mem_cons_of_mem _ hmem)

theorem perm_insert_behind (before after : List α) (node new : α) :
    (before ++ node :: new :: after).Perm (new :: (before ++ node :: after)) :=
  ((List.Perm.swap _ _ after).append_left before).trans List.perm_middle

end HiveDb.Lib
