import Mathlib.Data.Finset.Card
import Mathlib.Logic.Relation

/-!
# Worklist closure

The queue loop that marks everything reachable from a list of roots: pop a node, mark and
enqueue those of its successors that are not marked yet. Each node is enqueued once, so fuel
for the roots and for one pop of every node that can be met is enough, and what is marked in
the end is exactly what the successor relation reaches.
-/

namespace TsAot

namespace Worklist

variable {α : Type*}

/-- `a` is reached from one of the roots. -/
def Reached (next : α → List α) (roots : List α) (a : α) : Prop :=
  ∃ r ∈ roots, Relation.ReflTransGen (fun x y => y ∈ next x) r a

section Reached

variable {next : α → List α} {roots : List α}

theorem Reached.root {r : α} (h : r ∈ roots) : Reached next roots r := ⟨r, h, .refl⟩

theorem Reached.step {a b : α} (h : Reached next roots a) (hb : b ∈ next a) :
    Reached next roots b := by
  obtain ⟨r, hr, hpath⟩ := h
  exact ⟨r, hr, hpath.tail hb⟩

/-- Induction over what is reached. -/
theorem Reached.induction {P : α → Prop} (hroot : ∀ r ∈ roots, P r)
    (hstep : ∀ a b, Reached next roots a → P a → b ∈ next a → P b) {a : α}
    (h : Reached next roots a) : P a := by
  obtain ⟨r, hr, hpath⟩ := h
  induction hpath with
  | refl => exact hroot r hr
  | tail hab hb ih => exact hstep _ _ ⟨r, hr, hab⟩ ih hb

/-- More edges reach more. -/
theorem Reached.mono {next' : α → List α} (hsub : ∀ a, Reached next roots a → next a ⊆ next' a)
    {a : α} (h : Reached next roots a) : Reached next' roots a :=
  h.induction (fun _ hr => .root hr) fun _ _ ha ih hb => ih.step (hsub _ ha hb)

end Reached

variable [DecidableEq α]

/-- Mark and enqueue `a` unless it is marked. The state is the queue and the marks. -/
def visit (st : List α × List α) (a : α) : List α × List α :=
  if a ∈ st.2 then st else (st.1 ++ [a], a :: st.2)

/-- The queue loop, one unit of fuel for each pop. -/
def loop (next : α → List α) : ℕ → List α × List α → List α
  | 0, st => st.2
  | _ + 1, ([], marked) => marked
  | fuel + 1, (a :: queue, marked) => loop next fuel ((next a).foldl visit (queue, marked))

/-- Everything marked from `roots`. -/
def closure (next : α → List α) (fuel : ℕ) (roots : List α) : List α :=
  loop next fuel (roots, roots)

/-! ### One round -/

theorem mem_foldl_visit {l : List α} {st : List α × List α} {x : α} :
    x ∈ (l.foldl visit st).2 ↔ x ∈ st.2 ∨ x ∈ l := by
  induction l generalizing st with
  | nil => simp
  | cons a l ih =>
    rw [List.foldl_cons, ih, visit]
    split <;> simp only [List.mem_cons] <;> grind

/-- A round keeps the queue and enqueues what it marks. -/
theorem mem_queue_foldl_visit {l : List α} {st : List α × List α} {x : α} :
    x ∈ (l.foldl visit st).1 ↔ x ∈ st.1 ∨ (x ∈ l ∧ x ∉ st.2) := by
  induction l generalizing st with
  | nil => simp
  | cons a l ih =>
    rw [List.foldl_cons, ih, visit]
    split <;> simp only [List.mem_cons, List.mem_append] <;> grind

/-- A round trades unmarked nodes for queue entries. -/
theorem length_foldl_visit {l : List α} {st : List α × List α} {U : Finset α}
    (hl : ∀ a ∈ l, a ∈ U) :
    (l.foldl visit st).1.length + (U \ (l.foldl visit st).2.toFinset).card ≤
      st.1.length + (U \ st.2.toFinset).card := by
  induction l generalizing st with
  | nil => exact le_rfl
  | cons a l ih =>
    rw [List.foldl_cons]
    refine (ih fun b hb => hl b (List.mem_cons_of_mem _ hb)).trans ?_
    rw [visit]
    split
    · exact le_rfl
    · rename_i hmem
      have hcard : (U \ (a :: st.2).toFinset).card < (U \ st.2.toFinset).card := by
        refine Finset.card_lt_card ⟨fun x hx => ?_, fun hsub => ?_⟩
        · simp only [Finset.mem_sdiff, List.mem_toFinset, List.mem_cons, not_or] at hx ⊢
          exact ⟨hx.1, hx.2.2⟩
        · have ha := hsub (Finset.mem_sdiff.mpr ⟨hl a List.mem_cons_self, by simpa using hmem⟩)
          simp at ha
      simp only [List.length_append, List.length_singleton]
      omega

/-! ### The loop -/

section Loop

variable {next : α → List α} {roots : List α}

/-- The loop invariant: the queue is marked, marks are reached, and the successors of a node
that left the queue are marked. -/
structure Sound (next : α → List α) (roots : List α) (st : List α × List α) : Prop where
  marked : ∀ r ∈ roots, r ∈ st.2
  queue : ∀ a ∈ st.1, a ∈ st.2
  reached : ∀ a ∈ st.2, Reached next roots a
  closed : ∀ a ∈ st.2, a ∉ st.1 → ∀ b ∈ next a, b ∈ st.2

omit [DecidableEq α] in
theorem Sound.init : Sound next roots (roots, roots) where
  marked _ h := h
  queue _ h := h
  reached _ h := .root h
  closed _ h hn := absurd h hn

theorem Sound.round {a : α} {queue marked : List α}
    (h : Sound next roots (a :: queue, marked)) :
    Sound next roots ((next a).foldl visit (queue, marked)) where
  marked r hr := mem_foldl_visit.mpr (.inl (h.marked r hr))
  queue b hb := by
    rcases mem_queue_foldl_visit.mp hb with hb | ⟨hb, _⟩
    · exact mem_foldl_visit.mpr (.inl (h.queue b (List.mem_cons_of_mem _ hb)))
    · exact mem_foldl_visit.mpr (.inr hb)
  reached b hb := by
    rcases mem_foldl_visit.mp hb with hb | hb
    · exact h.reached b hb
    · exact (h.reached a (h.queue a List.mem_cons_self)).step hb
  closed b hb hout c hc := by
    rw [mem_queue_foldl_visit, not_or, not_and] at hout
    rcases mem_foldl_visit.mp hb with hmarked | hnew
    · by_cases hba : b = a
      · exact mem_foldl_visit.mpr (.inr (hba ▸ hc))
      · have hqueue : b ∉ a :: queue := by simpa [hba] using hout.1
        exact mem_foldl_visit.mpr (.inl (h.closed b hmarked hqueue c hc))
    · have hold : b ∈ marked := not_not.mp (hout.2 hnew)
      by_cases hba : b = a
      · exact mem_foldl_visit.mpr (.inr (hba ▸ hc))
      · have hqueue : b ∉ a :: queue := by simpa [hba] using hout.1
        exact mem_foldl_visit.mpr (.inl (h.closed b hold hqueue c hc))

omit [DecidableEq α] in
/-- With an empty queue the marks are what is reached. -/
theorem Sound.mem_iff {marked : List α} (h : Sound next roots ([], marked)) {x : α} :
    x ∈ marked ↔ Reached next roots x := by
  refine ⟨h.reached x, fun hx => ?_⟩
  exact hx.induction h.marked fun a b _ ha hb => h.closed a ha List.not_mem_nil b hb

theorem mem_loop {U : Finset α} (hU : ∀ a, Reached next roots a → a ∈ U) {fuel : ℕ}
    {st : List α × List α} (h : Sound next roots st)
    (hfuel : st.1.length + (U \ st.2.toFinset).card ≤ fuel) {x : α} :
    x ∈ loop next fuel st ↔ Reached next roots x := by
  induction fuel generalizing st with
  | zero =>
    obtain ⟨queue, marked⟩ := st
    have hqueue : queue = [] := List.length_eq_zero_iff.mp (by simp only at hfuel; omega)
    subst hqueue
    exact h.mem_iff
  | succ fuel ih =>
    obtain ⟨_ | ⟨a, queue⟩, marked⟩ := st
    · exact h.mem_iff
    · refine ih h.round ?_
      have ha := h.reached a (h.queue a List.mem_cons_self)
      have hround := @length_foldl_visit _ _ _ (queue, marked) U fun b hb => hU b (ha.step hb)
      simp only [List.length_cons] at hfuel hround
      omega

/-- **Closure.** With fuel for the roots and for every node of a finite universe, the marks
are exactly the reached nodes. -/
theorem mem_closure {nodes : List α} (hU : ∀ a, Reached next roots a → a ∈ nodes)
    {fuel : ℕ} (hfuel : roots.length + nodes.length ≤ fuel) {x : α} :
    x ∈ closure next fuel roots ↔ Reached next roots x := by
  refine mem_loop (fun a ha => List.mem_toFinset.mpr (hU a ha)) Sound.init ?_
  have hcard : (nodes.toFinset \ roots.toFinset).card ≤ nodes.toFinset.card :=
    Finset.card_le_card Finset.sdiff_subset
  have hlength := List.toFinset_card_le nodes
  simp only
  omega

end Loop

/-! ### The same closure with a stack -/

section Stack

variable {next : α → List α} {roots : List α}

/-- Mark and push `a` unless it is marked. -/
def push (st : List α × List α) (a : α) : List α × List α :=
  if a ∈ st.2 then st else (a :: st.1, a :: st.2)

/-- The stack loop, one unit of fuel for each pop. -/
def stackLoop (next : α → List α) : ℕ → List α × List α → List α
  | 0, st => st.2
  | _ + 1, ([], marked) => marked
  | fuel + 1, (a :: stack, marked) => stackLoop next fuel ((next a).foldl push (stack, marked))

/-- Everything marked from `roots`, pushed one after the other. -/
def stackClosure (next : α → List α) (fuel : ℕ) (roots : List α) : List α :=
  stackLoop next fuel (roots.foldl push ([], []))

/-- A stack holds what the queue holds, in another order. -/
theorem foldl_push_perm (l : List α) {stack queue : List α} (marked : List α)
    (h : stack.Perm queue) :
    (l.foldl push (stack, marked)).1.Perm (l.foldl visit (queue, marked)).1 ∧
      (l.foldl push (stack, marked)).2 = (l.foldl visit (queue, marked)).2 := by
  induction l generalizing stack queue marked with
  | nil => exact ⟨h, rfl⟩
  | cons a l ih =>
    rw [List.foldl_cons, List.foldl_cons, push, visit]
    dsimp only
    split
    · exact ih _ h
    · exact ih _ ((h.cons a).trans (List.perm_append_singleton a queue).symm)

omit [DecidableEq α] in
theorem Sound.perm {stack queue marked : List α} (h : Sound next roots (queue, marked))
    (hperm : stack.Perm queue) : Sound next roots (stack, marked) where
  marked := h.marked
  queue a ha := h.queue a (hperm.mem_iff.mp ha)
  reached := h.reached
  closed a ha hout := h.closed a ha fun hin => hout (hperm.mem_iff.mpr hin)

theorem mem_stackLoop {U : Finset α} (hU : ∀ a, Reached next roots a → a ∈ U) {fuel : ℕ}
    {st : List α × List α} (h : Sound next roots st)
    (hfuel : st.1.length + (U \ st.2.toFinset).card ≤ fuel) {x : α} :
    x ∈ stackLoop next fuel st ↔ Reached next roots x := by
  induction fuel generalizing st with
  | zero =>
    obtain ⟨stack, marked⟩ := st
    have hstack : stack = [] := List.length_eq_zero_iff.mp (by simp only at hfuel; omega)
    subst hstack
    exact h.mem_iff
  | succ fuel ih =>
    obtain ⟨_ | ⟨a, stack⟩, marked⟩ := st
    · exact h.mem_iff
    · obtain ⟨hperm, hmarked⟩ :=
        foldl_push_perm (next a) marked (List.Perm.refl stack)
      have hround := h.round.perm hperm
      rw [← hmarked] at hround
      refine ih hround ?_
      have ha := h.reached a (h.queue a List.mem_cons_self)
      have hlength := @length_foldl_visit _ _ _ (stack, marked) U fun b hb => hU b (ha.step hb)
      rw [hmarked, hperm.length_eq]
      simp only [List.length_cons] at hfuel hlength
      omega

/-- **Closure with a stack.** -/
theorem mem_stackClosure (nodes : List α) (hU : ∀ a, Reached next roots a → a ∈ nodes)
    {fuel : ℕ} (hfuel : nodes.length ≤ fuel) {x : α} :
    x ∈ stackClosure next fuel roots ↔ Reached next roots x := by
  obtain ⟨hperm, hmarked⟩ :=
    foldl_push_perm roots ([] : List α) (List.Perm.refl [])
  have hmem : ∀ a, a ∈ (roots.foldl visit (([] : List α), [])).2 ↔ a ∈ roots := fun a => by
    rw [mem_foldl_visit, or_iff_right List.not_mem_nil]
  have hqueue : ∀ a, a ∈ (roots.foldl visit (([] : List α), [])).1 ↔ a ∈ roots := fun a => by
    rw [mem_queue_foldl_visit, or_iff_right List.not_mem_nil, and_iff_left List.not_mem_nil]
  have hsound : Sound next roots (roots.foldl visit ([], [])) :=
    ⟨fun r hr => (hmem r).mpr hr, fun a ha => (hmem a).mpr ((hqueue a).mp ha),
      fun a ha => .root ((hmem a).mp ha),
      fun a ha hout => absurd ((hqueue a).mpr ((hmem a).mp ha)) hout⟩
  have hsound' := hsound.perm hperm
  rw [← hmarked] at hsound'
  refine mem_stackLoop (fun a ha => List.mem_toFinset.mpr (hU a ha)) hsound' ?_
  have hlength := @length_foldl_visit _ _ roots (([] : List α), []) nodes.toFinset
    fun r hr => List.mem_toFinset.mpr (hU r (.root hr))
  have hcard := List.toFinset_card_le nodes
  rw [hmarked, hperm.length_eq]
  simp only [List.length_nil, List.toFinset_nil, Finset.sdiff_empty] at hlength
  omega

end Stack

end Worklist

end TsAot
