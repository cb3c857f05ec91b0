import Mathlib.Data.Finset.Card
import Mathlib.Logic.Relation

/-!
# Searching for a cycle

A depth-first search that keeps the nodes it has met and the path it is on, and stops at the first
node that is on the path already. It marks the nodes of the path it stops on. Started afresh from
a node it says whether a cycle is reached from there, and every node it marks is one that reaches a
cycle.

The search is not structural: it ends because no node is entered twice, so it needs no more steps
than there are nodes.
-/

namespace TsAot

namespace CycleSearch

variable {α : Type*} [DecidableEq α]

/-- What the search carries along: the nodes met, those on the path, and those marked. -/
structure Walk (α : Type*) where
  visited : List α
  inStack : List α
  marked : List α

/-- The successors in turn, up to the first that the search stops at. -/
def anyNext (visit : α → Walk α → Option (Bool × Walk α)) :
    List α → Walk α → Option (Bool × Walk α)
  | [], w => some (false, w)
  | a :: rest, w =>
    match visit a w with
    | none => none
    | some (true, w) => some (true, w)
    | some (false, w) => anyNext visit rest w

/-- The search at a node; none where it takes too many steps. -/
def hasCycle (next : α → List α) : ℕ → α → Walk α → Option (Bool × Walk α)
  | 0, _, _ => none
  | fuel + 1, a, w =>
    if a ∈ w.inStack then some (true, w)
    else if a ∈ w.visited then some (false, w)
    else
      match anyNext (hasCycle next fuel) (next a)
        { w with visited := a :: w.visited, inStack := a :: w.inStack } with
      | none => none
      | some (true, w) => some (true, { w with marked := a :: w.marked })
      | some (false, w) => some (false, { w with inStack := w.inStack.erase a })

/-- One search from each root; what was met before is forgotten, what was marked is kept. -/
def markAll (next : α → List α) (fuel : ℕ) : List α → List α → Option (List α)
  | [], marked => some marked
  | root :: rest, marked =>
    match hasCycle next fuel root ⟨[], [], marked⟩ with
    | none => none
    | some (_, w) => markAll next fuel rest w.marked

/-! ### Cycles -/

variable {next : α → List α} {a b : α}

/-- There is an edge. -/
def Edge (next : α → List α) (a b : α) : Prop := b ∈ next a

/-- A cycle is reached. -/
def ReachesCycle (next : α → List α) (a : α) : Prop :=
  ∃ b, Relation.ReflTransGen (Edge next) a b ∧ Relation.TransGen (Edge next) b b

omit [DecidableEq α] in
theorem ReachesCycle.of_trans (h : Relation.TransGen (Edge next) a a) : ReachesCycle next a :=
  ⟨a, .refl, h⟩

omit [DecidableEq α] in
theorem ReachesCycle.head (hab : Relation.ReflTransGen (Edge next) a b) (h : ReachesCycle next b) :
    ReachesCycle next a := by
  obtain ⟨c, hbc, hc⟩ := h
  exact ⟨c, hab.trans hbc, hc⟩

omit [DecidableEq α] in
/-- A cycle that is reached is reached through a successor. -/
theorem reachesCycle_iff : ReachesCycle next a ↔ ∃ b ∈ next a, ReachesCycle next b := by
  constructor
  · rintro ⟨c, hac, hc⟩
    have hplus : Relation.TransGen (Edge next) a c := Relation.TransGen.trans_right hac hc
    obtain ⟨b, hab, hbc⟩ := Relation.TransGen.head'_iff.mp hplus
    exact ⟨b, hab, c, hbc, hc⟩
  · rintro ⟨b, hab, h⟩
    exact h.head (.single hab)

/-! ### What the search says -/

/-- Before the search enters a node: the path leads to it, and from the nodes met that are not on
the path no cycle is reached. -/
structure Enters (next : α → List α) (a : α) (w : Walk α) : Prop where
  path : ∀ s ∈ w.inStack, Relation.TransGen (Edge next) s a
  sub : ∀ s ∈ w.inStack, s ∈ w.visited
  done : ∀ x ∈ w.visited, x ∉ w.inStack → ¬ReachesCycle next x

/-- After a search without a cycle. -/
structure Clean (next : α → List α) (w w' : Walk α) : Prop where
  inStack : w'.inStack = w.inStack
  marked : w'.marked = w.marked
  grows : ∀ x ∈ w.visited, x ∈ w'.visited
  done : ∀ x ∈ w'.visited, x ∉ w'.inStack → ¬ReachesCycle next x

/-- After a search that has met a cycle. -/
structure Hit (next : α → List α) (w w' : Walk α) : Prop where
  grows : ∀ x ∈ w.marked, x ∈ w'.marked
  right : ∀ x ∈ w'.marked, x ∈ w.marked ∨ ReachesCycle next x

/-- What a search at `a` may give. -/
def Finds (next : α → List α) (a : α) (w : Walk α) : Bool × Walk α → Prop
  | (true, w') => ReachesCycle next a ∧ Hit next w w' ∧ (a ∉ w.inStack → a ∈ w'.marked)
  | (false, w') => ¬ReachesCycle next a ∧ Clean next w w'

/-- The nodes that the search can still enter. -/
def fresh (nodes : Finset α) (w : Walk α) : Finset α := nodes.filter (· ∉ w.visited)

theorem card_fresh_le {nodes : Finset α} {w w' : Walk α} (h : ∀ x ∈ w.visited, x ∈ w'.visited) :
    (fresh nodes w').card ≤ (fresh nodes w).card := by
  refine Finset.card_le_card fun x hx => ?_
  rw [fresh, Finset.mem_filter] at hx ⊢
  exact ⟨hx.1, fun hmem => hx.2 (h x hmem)⟩

/-- Entering a node leaves fewer. -/
theorem card_fresh_lt {nodes : Finset α} {w : Walk α} (ha : a ∈ nodes) (hnew : a ∉ w.visited)
    (stack : List α) :
    (fresh nodes { w with visited := a :: w.visited, inStack := stack }).card <
      (fresh nodes w).card := by
  refine Finset.card_lt_card (Finset.ssubset_iff_subset_ne.mpr ⟨fun x hx => ?_, fun heq => ?_⟩)
  · rw [fresh, Finset.mem_filter] at hx ⊢
    exact ⟨hx.1, fun hmem => hx.2 (List.mem_cons_of_mem _ hmem)⟩
  · have hmem : a ∈ fresh nodes w := Finset.mem_filter.mpr ⟨ha, hnew⟩
    rw [← heq, fresh, Finset.mem_filter] at hmem
    exact hmem.2 List.mem_cons_self

omit [DecidableEq α] in
/-- The loop over the successors, if the search is right at each of them. -/
theorem anyNext_spec {visit : α → Walk α → Option (Bool × Walk α)} {succs : List α} {w : Walk α}
    (hw : ∀ b ∈ succs, Enters next b w)
    (hvisit : ∀ b ∈ succs, ∀ w', Clean next w w' → Enters next b w' →
      ∃ r, visit b w' = some r ∧ Finds next b w' r) :
    ∃ r, anyNext visit succs w = some r ∧
      match r with
      | (true, w') => (∃ b ∈ succs, ReachesCycle next b) ∧ Hit next w w'
      | (false, w') => (∀ b ∈ succs, ¬ReachesCycle next b) ∧
          w'.inStack = w.inStack ∧ w'.marked = w.marked ∧ (∀ x ∈ w.visited, x ∈ w'.visited) ∧
          ((∀ x ∈ w.visited, x ∉ w.inStack → ¬ReachesCycle next x) →
            ∀ x ∈ w'.visited, x ∉ w'.inStack → ¬ReachesCycle next x) := by
  induction succs generalizing w with
  | nil => exact ⟨_, rfl, by simp, rfl, rfl, fun _ hx => hx, fun h => h⟩
  | cons b rest ih =>
    have hclean : Clean next w w :=
      ⟨rfl, rfl, fun _ hx => hx, (hw b List.mem_cons_self).done⟩
    obtain ⟨⟨found, w'⟩, hr, hfinds⟩ :=
      hvisit b List.mem_cons_self w hclean (hw b List.mem_cons_self)
    rw [anyNext, hr]
    cases found with
    | true =>
      obtain ⟨hcycle, hhit, -⟩ := hfinds
      exact ⟨_, rfl, ⟨b, List.mem_cons_self, hcycle⟩, hhit⟩
    | false =>
      obtain ⟨hnone, hstep⟩ := hfinds
      have henters : ∀ c ∈ rest, Enters next c w' := fun c hc => by
        have hc' := hw c (List.mem_cons_of_mem _ hc)
        refine ⟨fun s hs => hc'.path s (hstep.inStack ▸ hs), fun s hs => ?_, hstep.done⟩
        exact hstep.grows s (hc'.sub s (hstep.inStack ▸ hs))
      obtain ⟨⟨found', w''⟩, hr', hrest⟩ := ih henters fun c hc w₁ hw₁ hc₁ => by
        refine hvisit c (List.mem_cons_of_mem _ hc) w₁ ⟨?_, ?_, fun x hx => ?_, hw₁.done⟩ hc₁
        · rw [hw₁.inStack, hstep.inStack]
        · rw [hw₁.marked, hstep.marked]
        · exact hw₁.grows x (hstep.grows x hx)
      refine ⟨_, hr', ?_⟩
      cases found' with
      | true =>
        obtain ⟨⟨c, hc, hcycle⟩, hhit⟩ := hrest
        refine ⟨⟨c, List.mem_cons_of_mem _ hc, hcycle⟩, fun x hx => ?_, fun x hx => ?_⟩
        · exact hhit.grows x (hstep.marked ▸ hx)
        · exact hstep.marked ▸ hhit.right x hx
      | false =>
        obtain ⟨hall, hstack, hmarked, hgrows, hdone⟩ := hrest
        refine ⟨List.forall_mem_cons.mpr ⟨hnone, hall⟩, hstack.trans hstep.inStack,
          hmarked.trans hstep.marked, fun x hx => hgrows x (hstep.grows x hx), fun _ => ?_⟩
        exact hdone hstep.done

/-- **The search** ends, and says whether a cycle is reached. -/
theorem hasCycle_spec {nodes : Finset α} (hnext : ∀ x ∈ nodes, ∀ y ∈ next x, y ∈ nodes)
    {fuel : ℕ} {a : α} {w : Walk α} (ha : a ∈ nodes) (hw : Enters next a w)
    (hfuel : (fresh nodes w).card < fuel) :
    ∃ r, hasCycle next fuel a w = some r ∧ Finds next a w r := by
  induction fuel generalizing a w with
  | zero => exact absurd hfuel (Nat.not_lt_zero _)
  | succ fuel ih =>
    rw [hasCycle]
    split_ifs with hstack hvisited
    · -- the path leads back to the node
      have hcycle := ReachesCycle.of_trans (hw.path a hstack)
      exact ⟨_, rfl, hcycle, ⟨fun _ hx => hx, fun _ hx => .inl hx⟩, fun h => absurd hstack h⟩
    · exact ⟨_, rfl, hw.done a hvisited hstack, rfl, rfl, fun _ hx => hx, hw.done⟩
    · set w₁ : Walk α := { w with visited := a :: w.visited, inStack := a :: w.inStack }
      have hless : (fresh nodes w₁).card < (fresh nodes w).card := card_fresh_lt ha hvisited _
      have henters : ∀ b ∈ next a, Enters next b w₁ := fun b hb => by
        refine ⟨fun s hs => ?_, fun s hs => ?_, fun x hx hnot => ?_⟩
        · obtain rfl | hs := List.mem_cons.mp hs
          · exact .single hb
          · exact (hw.path s hs).tail hb
        · obtain rfl | hs := List.mem_cons.mp hs
          · exact List.mem_cons_self
          · exact List.mem_cons_of_mem _ (hw.sub s hs)
        · obtain rfl | hx := List.mem_cons.mp hx
          · exact absurd List.mem_cons_self hnot
          · exact hw.done x hx fun hmem => hnot (List.mem_cons_of_mem _ hmem)
      obtain ⟨⟨found, w'⟩, hr, hrest⟩ := @anyNext_spec _ next (hasCycle next fuel) _ _ henters
        fun b hb w' hclean hb' => by
          have hle := @card_fresh_le _ _ nodes _ _ hclean.grows
          exact ih (hnext a ha b hb) hb' (by omega)
      rw [hr]
      cases found with
      | true =>
        obtain ⟨hcycle, hhit⟩ := hrest
        have hcycle' : ReachesCycle next a := reachesCycle_iff.mpr hcycle
        refine ⟨_, rfl, hcycle', ⟨fun x hx => ?_, fun x hx => ?_⟩, fun _ => List.mem_cons_self⟩
        · exact List.mem_cons_of_mem _ (hhit.grows x hx)
        · obtain rfl | hx := List.mem_cons.mp hx
          · exact .inr hcycle'
          · exact hhit.right x hx
      | false =>
        obtain ⟨hnone, hstack', hmarked, hgrows, hdone⟩ := hrest
        have hnone' : ¬ReachesCycle next a := fun h => by
          obtain ⟨b, hb, hcycle⟩ := reachesCycle_iff.mp h
          exact hnone b hb hcycle
        have hback : w'.inStack.erase a = w.inStack := by
          rw [hstack', List.erase_cons_head]
        refine ⟨_, rfl, hnone', hback, hmarked, fun x hx => ?_, fun x hx hnot => ?_⟩
        · exact hgrows x (List.mem_cons_of_mem _ hx)
        · rw [hback] at hnot
          obtain rfl | hne := eq_or_ne x a
          · exact hnone'
          · refine hdone (fun y hy hy' => ?_) x hx ?_
            · obtain rfl | hy := List.mem_cons.mp hy
              · exact absurd List.mem_cons_self hy'
              · exact hw.done y hy fun hmem => hy' (List.mem_cons_of_mem _ hmem)
            · rw [hstack']
              exact fun hmem => (List.mem_cons.mp hmem).elim hne hnot

/-- A search from a root that starts afresh. -/
theorem hasCycle_root {nodes : Finset α} (hnext : ∀ x ∈ nodes, ∀ y ∈ next x, y ∈ nodes)
    {fuel : ℕ} (ha : a ∈ nodes) (hfuel : nodes.card < fuel) (marked : List α) :
    ∃ found w, hasCycle next fuel a ⟨[], [], marked⟩ = some (found, w) ∧
      (∀ x ∈ marked, x ∈ w.marked) ∧ (∀ x ∈ w.marked, x ∈ marked ∨ ReachesCycle next x) ∧
      (ReachesCycle next a → a ∈ w.marked) := by
  have henters : Enters next a ⟨[], [], marked⟩ := ⟨by simp, by simp, by simp⟩
  have hle : (fresh nodes (⟨[], [], marked⟩ : Walk α)).card ≤ nodes.card :=
    Finset.card_filter_le _ _
  obtain ⟨⟨found, w⟩, hr, hfinds⟩ := hasCycle_spec hnext ha henters (hle.trans_lt hfuel)
  refine ⟨found, w, hr, ?_⟩
  cases found with
  | true =>
    obtain ⟨-, hhit, hmem⟩ := hfinds
    exact ⟨hhit.grows, hhit.right, fun _ => hmem List.not_mem_nil⟩
  | false =>
    obtain ⟨hnone, hclean⟩ := hfinds
    rw [hclean.marked]
    exact ⟨fun _ hx => hx, fun _ hx => .inl hx, fun h => absurd h hnone⟩

/-- **The marks** of the searches from all roots: they end, every root that reaches a cycle is
marked, and only nodes that reach one are. -/
theorem markAll_spec {nodes : Finset α} (hnext : ∀ x ∈ nodes, ∀ y ∈ next x, y ∈ nodes)
    {fuel : ℕ} (hfuel : nodes.card < fuel) {roots : List α} (hroots : ∀ a ∈ roots, a ∈ nodes)
    (marked : List α) :
    ∃ marked', markAll next fuel roots marked = some marked' ∧
      (∀ x ∈ marked, x ∈ marked') ∧ (∀ x ∈ marked', x ∈ marked ∨ ReachesCycle next x) ∧
      ∀ a ∈ roots, ReachesCycle next a → a ∈ marked' := by
  induction roots generalizing marked with
  | nil => exact ⟨marked, rfl, fun _ hx => hx, fun _ hx => .inl hx, by simp⟩
  | cons a rest ih =>
    obtain ⟨found, w, hr, hgrows, hright, hmem⟩ :=
      hasCycle_root hnext (hroots a List.mem_cons_self) hfuel marked
    obtain ⟨marked', hr', hgrows', hright', hmem'⟩ :=
      ih (fun b hb => hroots b (List.mem_cons_of_mem _ hb)) w.marked
    rw [markAll, hr]
    refine ⟨marked', hr', fun x hx => hgrows' x (hgrows x hx), fun x hx => ?_, ?_⟩
    · exact (hright' x hx).elim (hright x) .inr
    · exact List.forall_mem_cons.mpr ⟨fun h => hgrows' a (hmem h), hmem'⟩

end CycleSearch

end TsAot
