import Mathlib.Data.List.TakeWhile
import TsAot.Lib.Worklist

/-!
# Depth-first search

The stack loop that looks for a goal: pop the first node that was not visited, stop at a goal,
push its successors otherwise. The number of visited nodes is bounded, so the search may give
up; it does not if the bound covers the nodes it can meet before a goal.
-/

namespace TsAot

namespace DepthFirst

open Worklist

variable {α : Type*} [DecidableEq α]

/-! ### The stack -/

section Stack

variable {stack visited rest : List α} {a b : α}
  (hdrop : (stack.dropWhile fun a => decide (a ∈ visited)) = a :: rest)

include hdrop

/-- Popping the first new node loses visited nodes only. -/
theorem mem_of_dropWhile (hb : b ∈ stack) : b ∈ a :: visited ∨ b ∈ rest := by
  rw [← List.takeWhile_append_dropWhile (p := fun a => decide (a ∈ visited)) (l := stack),
    hdrop] at hb
  rcases List.mem_append.mp hb with hb | hb
  · have hvisited := List.mem_takeWhile_imp hb
    exact .inl (List.mem_cons_of_mem _ (of_decide_eq_true hvisited))
  · rcases List.mem_cons.mp hb with rfl | hb
    · exact .inl List.mem_cons_self
    · exact .inr hb

theorem mem_stack_of_dropWhile : ∀ b ∈ a :: rest, b ∈ stack := fun _ hb =>
  (List.dropWhile_sublist _).subset (hdrop ▸ hb)

theorem notMem_of_dropWhile : a ∉ visited := by
  have hhead := List.head?_dropWhile_not (fun a => decide (a ∈ visited)) stack
  rw [hdrop] at hhead
  simpa using hhead

end Stack

/-! ### The search -/

/-- The search, with the number of nodes it may still visit. -/
def search (goal : α → Bool) (next : α → List α) : ℕ → List α → List α → Option α
  | 0, _, _ => none
  | bound + 1, stack, visited =>
    match stack.dropWhile fun a => decide (a ∈ visited) with
    | [] => none
    | a :: rest =>
      if goal a then some a else search goal next bound (next a ++ rest) (a :: visited)

variable {goal : α → Bool} {next : α → List α} {P : α → Prop}

/-- What holds of the stack and of the successors of every other node holds of the goal. -/
theorem search_mem (hnext : ∀ a, P a → goal a = false → ∀ b ∈ next a, P b) {bound : ℕ}
    {stack visited : List α} (hstack : ∀ a ∈ stack, P a) {c : α}
    (h : search goal next bound stack visited = some c) : P c ∧ goal c = true := by
  induction bound generalizing stack visited with
  | zero => cases h
  | succ bound ih =>
    rw [search] at h
    split at h
    · cases h
    · rename_i a rest hdrop
      have hrest : ∀ b ∈ a :: rest, P b := fun b hb =>
        hstack b ((List.dropWhile_sublist _).subset (hdrop ▸ hb))
      have ha := hrest a List.mem_cons_self
      split at h
      · rename_i hgoal
        exact Option.some.inj h ▸ ⟨ha, hgoal⟩
      · rename_i hgoal
        refine ih (fun b hb => ?_) h
        rcases List.mem_append.mp hb with hb | hb
        · exact hnext a ha (Bool.eq_false_of_not_eq_true hgoal) b hb
        · exact hrest b (List.mem_cons_of_mem _ hb)

/-- The search invariant: the visited nodes are told apart and are no goals, and the root and
their successors are visited or on the stack. -/
structure Frontier (goal : α → Bool) (next : α → List α) (P : α → Prop) (root : α)
    (stack visited : List α) : Prop where
  visited_nodup : visited.Nodup
  of_visited : ∀ a ∈ visited, P a ∧ goal a = false
  of_stack : ∀ a ∈ stack, P a
  root_mem : root ∈ visited ∨ root ∈ stack
  closed : ∀ a ∈ visited, ∀ b ∈ next a, b ∈ visited ∨ b ∈ stack

namespace Frontier

variable {root : α} {stack visited : List α}

omit [DecidableEq α] in
/-- When nothing is left to visit, no goal is reached. -/
theorem not_reached (h : Frontier goal next P root stack visited)
    (hdone : ∀ a, P a → a ∈ stack → a ∈ visited) {c : α} (hc : Reached next [root] c) :
    goal c = false := by
  have hmem : c ∈ visited := by
    refine hc.induction (fun r hr => ?_) fun a b _ ha hb => ?_
    · obtain rfl := List.mem_singleton.mp hr
      exact h.root_mem.elim id fun hr => hdone r (h.of_stack r hr) hr
    · exact (h.closed a ha b hb).elim id fun hb => hdone b (h.of_stack b hb) hb
  exact (h.of_visited c hmem).2

/-- One visit keeps the invariant. -/
theorem visit (h : Frontier goal next P root stack visited)
    (hnext : ∀ a, P a → goal a = false → ∀ b ∈ next a, P b) {a : α} {rest : List α}
    (hdrop : (stack.dropWhile fun a => decide (a ∈ visited)) = a :: rest)
    (hgoal : goal a = false) :
    Frontier goal next P root (next a ++ rest) (a :: visited) := by
  have hkeep : ∀ b ∈ stack, b ∈ a :: visited ∨ b ∈ next a ++ rest := fun b hb =>
    (mem_of_dropWhile hdrop hb).imp_right (List.mem_append_right _)
  have hrest := mem_stack_of_dropWhile hdrop
  have ha := h.of_stack a (hrest a List.mem_cons_self)
  have hnew := notMem_of_dropWhile hdrop
  refine ⟨List.nodup_cons.mpr ⟨hnew, h.visited_nodup⟩, ?_, ?_, ?_, ?_⟩
  · intro b hb
    rcases List.mem_cons.mp hb with rfl | hb
    · exact ⟨ha, hgoal⟩
    · exact h.of_visited b hb
  · intro b hb
    rcases List.mem_append.mp hb with hb | hb
    · exact hnext a ha hgoal b hb
    · exact h.of_stack b (hrest b (List.mem_cons_of_mem _ hb))
  · exact h.root_mem.elim (fun hr => .inl (List.mem_cons_of_mem _ hr)) (hkeep root)
  · intro b hb c hc
    rcases List.mem_cons.mp hb with rfl | hb
    · exact .inr (List.mem_append_left _ hc)
    · exact (h.closed b hb c hc).elim (fun hc => .inl (List.mem_cons_of_mem _ hc)) (hkeep c)

end Frontier

/-- **Depth-first search.** If a goal is reached from the root and the bound covers the nodes
met before a goal, the search finds a goal. -/
theorem exists_search {nodes : List α} (hnodes : ∀ a, P a → a ∈ nodes)
    (hnext : ∀ a, P a → goal a = false → ∀ b ∈ next a, P b) {root c : α} (hroot : P root)
    (hc : Reached next [root] c) (hgoal : goal c = true) {bound : ℕ}
    (hbound : nodes.length ≤ bound) :
    ∃ a, search goal next bound [root] [] = some a ∧ P a ∧ goal a = true := by
  suffices hsome : ∀ (stack visited : List α), Frontier goal next P root stack visited →
      nodes.length ≤ bound + visited.length →
      (search goal next bound stack visited).isSome by
    have hstart : Frontier goal next P root [root] [] :=
      ⟨List.nodup_nil, by simp, by simpa using hroot, by simp, by simp⟩
    obtain ⟨a, ha⟩ := Option.isSome_iff_exists.mp (hsome [root] [] hstart (by simpa using hbound))
    exact ⟨a, ha, search_mem hnext hstart.of_stack ha⟩
  clear hbound
  induction bound with
  | zero =>
    intro stack visited h hle
    have hall : ∀ a, P a → a ∈ visited := by
      intro a ha
      have hsub : visited.Subperm nodes :=
        h.visited_nodup.subperm fun a ha => hnodes a (h.of_visited a ha).1
      exact (hsub.perm_of_length_le (by simpa using hle)).symm.subset (hnodes a ha)
    have hfalse := h.not_reached (fun a ha _ => hall a ha) hc
    rw [hgoal] at hfalse
    cases hfalse
  | succ bound ih =>
    intro stack visited h hle
    rw [search]
    split
    · rename_i hdrop
      have hall := List.dropWhile_eq_nil_iff.mp hdrop
      have hfalse := h.not_reached (fun a _ ha => of_decide_eq_true (hall a ha)) hc
      rw [hgoal] at hfalse
      cases hfalse
    · rename_i a rest hdrop
      split
      · rfl
      · rename_i hno
        refine ih _ _ (h.visit hnext hdrop (Bool.eq_false_of_not_eq_true hno)) ?_
        rw [List.length_cons]
        omega

end DepthFirst

end TsAot
