import Mathlib.Data.List.Rotate
import Mathlib.Data.List.Sort
import Mathlib.Order.Basic

/-!
# Sorting by a key, stably or not

A stable sort orders a list by its keys and leaves the entries of one key in their order; there is
only one (`IsStableSort.eq`). The sort by exchanges compares each place with all the places behind
it and exchanges what is out of order. It orders the list (`pairwise_sort`), and carries entries over
others of the same key: an entry with a smaller key takes the first of the entries of a key before
it to their end (`filter_sort`). They are back in their order if the number of these turns is a
multiple of the number of the entries that are turned (`isStableSort_sort`).
-/

namespace TsAot

namespace StableSort

variable {α κ : Type*} [LinearOrder κ] (key : α → κ)

/-- A permutation that is ordered by the key and keeps the order within each key. -/
structure IsStableSort (l l' : List α) : Prop where
  perm : l'.Perm l
  sorted : l'.Pairwise fun a b => key a ≤ key b
  stable : ∀ k, l'.filter (key · = k) = l.filter (key · = k)

variable {key}

/-- A sorted list is determined by the entries of each key. -/
theorem eq_of_filter_eq {l l' : List α} (hl : l.Pairwise fun a b => key a ≤ key b)
    (hl' : l'.Pairwise fun a b => key a ≤ key b)
    (h : ∀ k, l.filter (key · = k) = l'.filter (key · = k)) : l = l' := by
  induction l generalizing l' with
  | nil =>
    refine (List.eq_nil_iff_forall_not_mem.mpr fun a ha => ?_).symm
    have hmem : a ∈ l'.filter (key · = key a) := List.mem_filter.mpr ⟨ha, by simp⟩
    rw [← h] at hmem
    cases hmem
  | cons a t ih =>
    obtain ⟨hat, ht⟩ := List.pairwise_cons.mp hl
    have ha : a ∈ l' := by
      have hmem : a ∈ (a :: t).filter (key · = key a) := by simp
      rw [h] at hmem
      exact List.mem_of_mem_filter hmem
    obtain ⟨b, u, rfl⟩ := List.exists_cons_of_ne_nil (List.ne_nil_of_mem ha)
    obtain ⟨hbu, hu⟩ := List.pairwise_cons.mp hl'
    have hb : b ∈ a :: t := by
      have hmem : b ∈ (b :: u).filter (key · = key b) := by simp
      rw [← h] at hmem
      exact List.mem_of_mem_filter hmem
    -- each of the two heads has a smallest key
    have hba : key b ≤ key a := by
      rcases List.mem_cons.mp ha with rfl | ha
      · exact le_rfl
      · exact hbu a ha
    have hab : key a ≤ key b := by
      rcases List.mem_cons.mp hb with rfl | hb
      · exact le_rfl
      · exact hat b hb
    have hkey : key a = key b := le_antisymm hab hba
    have hhead := h (key b)
    rw [List.filter_cons_of_pos (by simpa using hkey), List.filter_cons_of_pos (by simp)] at hhead
    obtain rfl : a = b := (List.cons_eq_cons.mp hhead).1
    refine congrArg (a :: ·) (ih ht hu fun k => ?_)
    have hk := h k
    rw [List.filter_cons, List.filter_cons] at hk
    split_ifs at hk
    · exact (List.cons_eq_cons.mp hk).2
    · exact hk

/-- **There is one stable sort.** -/
theorem IsStableSort.eq {l m m' : List α} (h : IsStableSort key l m) (h' : IsStableSort key l m') :
    m = m' :=
  eq_of_filter_eq h.sorted h'.sorted fun k => (h.stable k).trans (h'.stable k).symm

variable (key)

/-- The merge sort of the library is stable. -/
theorem isStableSort_mergeSort (l : List α) :
    IsStableSort key l (l.mergeSort fun a b => key a ≤ key b) := by
  have htrans : ∀ a b c : α, decide (key a ≤ key b) = true → decide (key b ≤ key c) = true →
      decide (key a ≤ key c) = true := by
    simp only [decide_eq_true_eq]
    exact fun a b c => le_trans
  have htotal : ∀ a b : α, (decide (key a ≤ key b) || decide (key b ≤ key a)) = true := by
    intro a b
    simpa using le_total (key a) (key b)
  have hperm := List.mergeSort_perm l fun a b => decide (key a ≤ key b)
  refine ⟨hperm, ?_, fun k => ?_⟩
  · simpa only [decide_eq_true_eq] using List.pairwise_mergeSort htrans htotal l
  · -- the entries of a key are a sorted part of the list
    have hpart : (l.filter (key · = k)).Pairwise fun a b => decide (key a ≤ key b) = true := by
      rw [List.pairwise_filter]
      exact List.pairwise_of_forall fun a b => by simp +contextual
    have hsub := List.sublist_mergeSort htrans htotal hpart List.filter_sublist
    have hsub' := hsub.filter (key · = k)
    rw [List.filter_filter] at hsub'
    simp only [Bool.and_self] at hsub'
    exact (hsub'.eq_of_length (hperm.filter _).length_eq.symm).symm

/-! ### Sorting by another key -/

section AnotherKey

variable {key} {κ' β : Type*} [LinearOrder κ'] {key' : α → κ'} {ident : α → β} {l m m' : List α}

/-- Two lists of the same entries agree up to identity if one is ordered strictly between different
entries, and the other is ordered. -/
theorem map_eq_of_pairwise (hperm : m'.Perm m)
    (hm : m.Pairwise fun a b => ident a ≠ ident b → key' a < key' b)
    (hm' : m'.Pairwise fun a b => key' a ≤ key' b) : m'.map ident = m.map ident := by
  induction m generalizing m' with
  | nil => rw [hperm.eq_nil]
  | cons a t ih =>
    obtain ⟨p, q, rfl⟩ := List.append_of_mem (hperm.symm.subset List.mem_cons_self)
    obtain ⟨hat, ht⟩ := List.pairwise_cons.mp hm
    have hrest : (p ++ q).Perm t := (List.perm_middle.symm.trans hperm).cons_inv
    obtain ⟨hp, haq, hpaq⟩ := List.pairwise_append.mp hm'
    have hpq : (p ++ q).Pairwise fun a b => key' a ≤ key' b :=
      List.pairwise_append.mpr ⟨hp, (List.pairwise_cons.mp haq).2, fun c hc d hd =>
        hpaq c hc d (List.mem_cons_of_mem _ hd)⟩
    -- what comes before the first entry is the same
    have hsame : ∀ c ∈ p, ident c = ident a := by
      intro c hc
      by_contra hne
      have hlt := hat c (hrest.subset (List.mem_append_left _ hc)) (Ne.symm hne)
      exact absurd (hpaq c hc a List.mem_cons_self) hlt.not_ge
    have hfront : p.map ident = List.replicate p.length (ident a) := by
      rw [List.eq_replicate_iff]
      refine ⟨List.length_map _, fun x hx => ?_⟩
      obtain ⟨c, hc, rfl⟩ := List.mem_map.mp hx
      exact hsame c hc
    have hih := ih hrest ht hpq
    rw [List.map_append] at hih
    rw [List.map_append, List.map_cons, List.map_cons, ← hih, hfront, ← List.cons_append,
      ← List.replicate_succ, List.replicate_succ', List.append_assoc]
    rfl

/-- Two entries of a list are in it in one order or the other. -/
theorem pair_sublist_or {a b : α} (ha : a ∈ l) (hb : b ∈ l) (hne : a ≠ b) :
    [a, b].Sublist l ∨ [b, a].Sublist l := by
  obtain ⟨p, q, rfl⟩ := List.append_of_mem ha
  rcases List.mem_append.mp hb with hb | hb
  · right
    exact (List.singleton_sublist.mpr hb).append (List.singleton_sublist.mpr List.mem_cons_self)
  · left
    refine List.Sublist.trans ?_ (List.sublist_append_right p _)
    exact (List.singleton_sublist.mpr ((List.mem_cons.mp hb).resolve_left hne.symm)).cons_cons a

/-- In a sorted list the smaller of two entries comes first. -/
theorem pair_sublist_of_lt (hm : m.Pairwise fun a b => key a ≤ key b) {a b : α} (ha : a ∈ m)
    (hb : b ∈ m) (hlt : key a < key b) : [a, b].Sublist m := by
  rcases pair_sublist_or ha hb fun h => absurd hlt (h ▸ lt_irrefl _) with h | h
  · exact h
  · exact absurd (List.pairwise_iff_forall_sublist.mp hm h) hlt.not_ge

/-- Entries of one key are in one order before and after a stable sort. -/
theorem IsStableSort.pair_sublist_iff (h : IsStableSort key l m) {a b : α} (heq : key a = key b) :
    [a, b].Sublist m ↔ [a, b].Sublist l := by
  have hfilter : ∀ {u v : List α}, u.filter (key · = key b) = v.filter (key · = key b) →
      [a, b].Sublist u → [a, b].Sublist v := by
    intro u v huv hsub
    have hpart := hsub.filter (key · = key b)
    rw [huv] at hpart
    simp only [heq, decide_true, List.filter_cons_of_pos, List.filter_nil] at hpart
    exact hpart.trans List.filter_sublist
  exact ⟨hfilter (h.stable _), hfilter (h.stable _).symm⟩

/-- What holds between the entries of a stable sort holds between those of the list, in the order
of their keys. -/
theorem IsStableSort.pairwise_iff (h : IsStableSort key l m) {R : α → α → Prop} :
    m.Pairwise R ↔ l.Pairwise fun a b => if key a ≤ key b then R a b else R b a := by
  rw [List.pairwise_iff_forall_sublist, List.pairwise_iff_forall_sublist]
  constructor
  · intro hm a b hab
    have ha := h.perm.symm.subset (hab.subset List.mem_cons_self)
    have hb := h.perm.symm.subset (hab.subset (List.mem_cons_of_mem _ List.mem_cons_self))
    split_ifs with hle
    · rcases eq_or_lt_of_le hle with heq | hlt
      · exact hm ((h.pair_sublist_iff heq).mpr hab)
      · exact hm (pair_sublist_of_lt h.sorted ha hb hlt)
    · exact hm (pair_sublist_of_lt h.sorted hb ha (not_le.mp hle))
  · intro hl a b hab
    have ha := h.perm.subset (hab.subset List.mem_cons_self)
    have hb := h.perm.subset (hab.subset (List.mem_cons_of_mem _ List.mem_cons_self))
    rcases eq_or_lt_of_le (List.pairwise_iff_forall_sublist.mp h.sorted hab) with heq | hlt
    · have hpair := hl ((h.pair_sublist_iff heq).mp hab)
      rwa [if_pos heq.le] at hpair
    · rcases pair_sublist_or ha hb fun h => absurd hlt (h ▸ lt_irrefl _) with hsub | hsub
      · have hpair := hl hsub
        rwa [if_pos hlt.le] at hpair
      · have hpair := hl hsub
        rwa [if_neg hlt.not_ge] at hpair

/-- **Sorting by another key**, which the identity of an entry determines: every way to do it gives
the stable sort exactly when the other key puts different entries strictly in the order in which the
stable sort leaves them. -/
theorem sorts_iff (hident : ∀ a b, ident a = ident b → key' a = key' b)
    (h : IsStableSort key l m) :
    (∀ m' : List α, m'.Perm l → (m'.Pairwise fun a b => key' a ≤ key' b) →
        m'.map ident = m.map ident) ↔
      l.Pairwise fun a b => ident a ≠ ident b →
        if key a ≤ key b then key' a < key' b else key' b < key' a := by
  have hiff : (l.Pairwise fun a b => ident a ≠ ident b →
        if key a ≤ key b then key' a < key' b else key' b < key' a) ↔
      m.Pairwise fun a b => ident a ≠ ident b → key' a < key' b := by
    rw [h.pairwise_iff]
    refine List.Pairwise.iff fun a b => ?_
    split_ifs
    · rfl
    · rw [ne_comm]
  rw [hiff]
  refine ⟨fun hall => ?_, fun hm m' hperm hm' => map_eq_of_pairwise (hperm.trans h.perm.symm) hm hm'⟩
  have hsort := isStableSort_mergeSort key' l
  have hsorted : m.Pairwise fun a b => key' a ≤ key' b := by
    have hmap := hall _ hsort.perm hsort.sorted
    have hup : ((l.mergeSort fun a b => key' a ≤ key' b).map ident).Pairwise fun x y =>
        ∀ a b, ident a = x → ident b = y → key' a ≤ key' b := by
      refine List.pairwise_map.mpr (hsort.sorted.imp fun hab c d hc hd => ?_)
      rwa [hident c _ hc, hident d _ hd]
    rw [hmap] at hup
    exact (List.pairwise_map.mp hup).imp fun hab => hab _ _ rfl rfl
  refine List.pairwise_iff_forall_sublist.mpr fun {x y} hxy hne => ?_
  refine lt_of_le_of_ne (List.pairwise_iff_forall_sublist.mp hsorted hxy) fun heq => hne ?_
  -- entries of one key can be exchanged
  obtain ⟨r, C, rfl, hx, hy⟩ := List.cons_sublist_iff.mp hxy
  obtain ⟨A, B, rfl⟩ := List.append_of_mem hx
  obtain ⟨D, E, rfl⟩ := List.append_of_mem (List.singleton_sublist.mp hy)
  have hswap := hall (A ++ y :: (B ++ D ++ x :: E)) ?_ ?_
  · simp only [List.map_append, List.map_cons, List.append_assoc, List.cons_append,
      List.append_cancel_left_eq, List.cons.injEq] at hswap
    exact hswap.1.symm
  · refine List.Perm.trans ?_ h.perm
    simp only [List.append_assoc, List.cons_append]
    refine List.Perm.append_left A ?_
    have hback : (y :: (B ++ (D ++ x :: E))).Perm (y :: x :: (B ++ (D ++ E))) := by
      rw [← List.append_assoc, ← List.append_assoc]
      exact List.perm_middle.cons y
    have hfront : (x :: y :: (B ++ (D ++ E))).Perm (x :: (B ++ (D ++ y :: E))) := by
      rw [← List.append_assoc, ← List.append_assoc]
      exact List.perm_middle.symm.cons x
    exact hback.trans ((List.Perm.swap x y _).trans hfront)
  · have hkeys : (A ++ y :: (B ++ D ++ x :: E)).map key' = (A ++ x :: B ++ (D ++ y :: E)).map key' := by
      simp only [List.map_append, List.map_cons, List.append_assoc, List.cons_append, heq]
    have hup : ((A ++ x :: B ++ (D ++ y :: E)).map key').Pairwise (· ≤ ·) :=
      List.pairwise_map.mpr hsorted
    rw [← hkeys] at hup
    exact List.pairwise_map.mp hup

end AnotherKey

/-! ### Sorting by exchanges -/

/-- The inner loop: the entry at the front is exchanged with every smaller one behind. -/
def exchange (e : α) : List α → α × List α
  | [] => (e, [])
  | e' :: es =>
    if key e' < key e then ((exchange e' es).1, e :: (exchange e' es).2)
    else ((exchange e es).1, e' :: (exchange e es).2)

variable {key}

theorem exchange_perm (e : α) (es : List α) :
    ((exchange key e es).1 :: (exchange key e es).2).Perm (e :: es) := by
  induction es generalizing e with
  | nil => rfl
  | cons e' es ih =>
    rw [exchange]
    split_ifs
    · exact (List.Perm.swap e _ _).trans ((ih e').cons e)
    · exact (List.Perm.swap e' _ _).trans (((ih e).cons e').trans (List.Perm.swap e e' es))

theorem length_exchange (e : α) (es : List α) : (exchange key e es).2.length = es.length := by
  have hlength : ((exchange key e es).1 :: (exchange key e es).2).length = (e :: es).length :=
    (exchange_perm e es).length_eq
  rwa [List.length_cons, List.length_cons, Nat.add_right_cancel_iff] at hlength

/-- The entry that comes to the front has a smallest key. -/
theorem exchange_le (e : α) (es : List α) : key (exchange key e es).1 ≤ key e ∧
    ∀ x ∈ es, key (exchange key e es).1 ≤ key x := by
  induction es generalizing e with
  | nil => exact ⟨le_rfl, nofun⟩
  | cons e' es ih =>
    rw [exchange]
    split_ifs with hlt
    · obtain ⟨hfirst, hall⟩ := ih e'
      exact ⟨hfirst.trans hlt.le, List.forall_mem_cons.mpr ⟨hfirst, hall⟩⟩
    · obtain ⟨hfirst, hall⟩ := ih e
      exact ⟨hfirst, List.forall_mem_cons.mpr ⟨hfirst.trans (not_lt.mp hlt), hall⟩⟩

variable (key)

/-- The outer loop. -/
def sort : List α → List α
  | [] => []
  | e :: es => (exchange key e es).1 :: sort (exchange key e es).2
  termination_by es => es.length
  decreasing_by simp [length_exchange]

variable {key}

theorem sort_perm (l : List α) : (sort key l).Perm l := by
  induction l using sort.induct key with
  | case1 => rw [sort]
  | case2 e es ih =>
    rw [sort]
    exact (ih.cons _).trans (exchange_perm e es)

theorem pairwise_sort (l : List α) : (sort key l).Pairwise fun a b => key a ≤ key b := by
  induction l using sort.induct key with
  | case1 => rw [sort]; exact List.Pairwise.nil
  | case2 e es ih =>
    rw [sort]
    refine List.pairwise_cons.mpr ⟨fun x hx => ?_, ih⟩
    obtain ⟨hfirst, hall⟩ : key (exchange key e es).1 ≤ key e ∧
        ∀ x ∈ es, key (exchange key e es).1 ≤ key x := exchange_le e es
    have hmem : x ∈ (exchange key e es).1 :: (exchange key e es).2 :=
      List.mem_cons_of_mem _ ((sort_perm _).mem_iff.mp hx)
    rcases List.mem_cons.mp ((exchange_perm e es).mem_iff.mp hmem) with rfl | hx
    · exact hfirst
    · exact hall x hx

/-- The exchanges depend on the order of the keys alone. -/
theorem exchange_congr {κ' : Type*} [LinearOrder κ'] {key' : α → κ'} {e : α} {es : List α}
    (h : ∀ a ∈ e :: es, ∀ b ∈ e :: es, key a < key b ↔ key' a < key' b) :
    exchange key e es = exchange key' e es := by
  induction es generalizing e with
  | nil => rfl
  | cons e' es ih =>
    have hfirst : exchange key e es = exchange key' e es := ih fun a ha b hb =>
      h a (by grind) b (by grind)
    have hsecond : exchange key e' es = exchange key' e' es := ih fun a ha b hb =>
      h a (List.mem_cons_of_mem e ha) b (List.mem_cons_of_mem e hb)
    have hlt : key e' < key e ↔ key' e' < key' e := h e' (by simp) e (by simp)
    rw [exchange, exchange, hfirst, hsecond]
    simp only [hlt]

theorem sort_congr {κ' : Type*} [LinearOrder κ'] {key' : α → κ'} {l : List α}
    (h : ∀ a ∈ l, ∀ b ∈ l, key a < key b ↔ key' a < key' b) : sort key l = sort key' l := by
  induction l using sort.induct key with
  | case1 => rw [sort, sort]
  | case2 e es ih =>
    have hmem : ∀ a ∈ (exchange key e es).2, a ∈ e :: es := fun a ha =>
      (exchange_perm e es).mem_iff.mp (List.mem_cons_of_mem _ ha)
    rw [sort, sort, ih fun a ha b hb => h a (hmem a ha) b (hmem b hb), exchange_congr h]

/-! ### Turns -/

variable (key)

/-- The entries of a key after one more entry: it is the last of them, or, when its key is smaller,
the first of them becomes the last. -/
def turn (k : κ) (g : List α) (e : α) : List α :=
  if key e = k then g ++ [e] else if key e < k then g.rotate 1 else g

/-- The entry at the front is with those of its key. -/
def carry (k : κ) (e : α) (g : List α) : List α := if key e = k then e :: g else g

variable {key}

theorem turn_of_eq {k : κ} {e : α} (h : key e = k) (g : List α) : turn key k g e = g ++ [e] :=
  if_pos h

theorem turn_of_lt {k : κ} {e : α} (h : key e < k) (g : List α) : turn key k g e = g.rotate 1 := by
  rw [turn, if_neg h.ne, if_pos h]

theorem turn_of_gt {k : κ} {e : α} (h : k < key e) (g : List α) : turn key k g e = g := by
  rw [turn, if_neg h.ne', if_neg h.not_gt]

theorem carry_of_ne {k : κ} {e : α} (h : key e ≠ k) (g : List α) : carry key k e g = g := if_neg h

/-- An exchange of the entry at the front. -/
theorem turn_carry_of_lt {k : κ} {e e' : α} {g : List α} (hlt : key e' < key e)
    (hg : k < key e → g = []) :
    turn key k (carry key k e g) e' = carry key k e' (turn key k g e) := by
  rcases lt_trichotomy (key e') k with h' | h' | h'
  · rw [turn_of_lt h', carry_of_ne h'.ne]
    rcases lt_trichotomy (key e) k with h | h | h
    · rw [carry_of_ne h.ne, turn_of_lt h]
    · rw [carry, if_pos h, turn_of_eq h, List.rotate_cons_succ, List.rotate_zero]
    · rw [carry_of_ne h.ne', turn_of_gt h, hg h, List.rotate_nil]
  · have h : k < key e := h' ▸ hlt
    rw [carry_of_ne h.ne', turn_of_gt h, hg h, turn_of_eq h', carry, if_pos h', List.nil_append]
  · have h : k < key e := h'.trans hlt
    rw [carry_of_ne h.ne', turn_of_gt h, turn_of_gt h', carry_of_ne h'.ne']

/-- No exchange of the entry at the front. -/
theorem turn_carry_of_le {k : κ} {e e' : α} {g : List α} (hle : key e ≤ key e') :
    turn key k (carry key k e g) e' = carry key k e (turn key k g e') := by
  by_cases h : key e = k
  · rw [carry, carry, if_pos h, if_pos h]
    rcases (h ▸ hle).eq_or_lt with h' | h'
    · rw [turn_of_eq h'.symm, turn_of_eq h'.symm, List.cons_append]
    · rw [turn_of_gt h', turn_of_gt h']
  · rw [carry_of_ne h, carry_of_ne h]

/-- A pass brings to the front an entry of its key that was the first of them, or takes the turns of
what comes to the front before its place. -/
theorem foldl_turn_exchange {k : κ} (e : α) (es g : List α) (hg : k < key e → g = []) :
    es.foldl (turn key k) (carry key k e g) =
      carry key k (exchange key e es).1 ((exchange key e es).2.foldl (turn key k) g) := by
  induction es generalizing e g with
  | nil => rfl
  | cons e' es ih =>
    rw [exchange, List.foldl_cons]
    split_ifs with hlt
    · rw [List.foldl_cons, turn_carry_of_lt hlt hg]
      refine ih e' _ fun h => ?_
      have h' : k < key e := h.trans hlt
      rw [turn_of_gt h', hg h']
    · rw [List.foldl_cons, turn_carry_of_le (not_lt.mp hlt)]
      refine ih e _ fun h => ?_
      rw [turn_of_gt (h.trans_le (not_lt.mp hlt)), hg h]

/-- **The order within a key** after the sort. -/
theorem filter_sort (k : κ) (l : List α) :
    (sort key l).filter (key · = k) = l.foldl (turn key k) [] := by
  induction l using sort.induct key with
  | case1 => rw [sort]; rfl
  | case2 e es ih =>
    have hfirst : turn key k [] e = carry key k e [] := by
      rcases lt_trichotomy (key e) k with h | h | h
      · rw [turn_of_lt h, carry_of_ne h.ne, List.rotate_nil]
      · rw [turn_of_eq h, carry, if_pos h, List.nil_append]
      · rw [turn_of_gt h, carry_of_ne h.ne']
    rw [sort, List.foldl_cons, hfirst, foldl_turn_exchange e es [] fun _ => rfl, ← ih, carry,
      List.filter_cons]
    simp only [decide_eq_true_eq]

variable (key)

/-- The number of entries with a smaller key that `c` entries of the key are before, of which
`seen` are not in the list. -/
def turnsAt (k : κ) (c : ℕ) : ℕ → List α → ℕ
  | _, [] => 0
  | seen, e :: l =>
    if key e = k then turnsAt k c (seen + 1) l
    else if key e < k ∧ seen = c then turnsAt k c seen l + 1
    else turnsAt k c seen l

variable {key}

theorem turnsAt_of_lt {k : κ} {c seen : ℕ} (h : c < seen) (l : List α) :
    turnsAt key k c seen l = 0 := by
  induction l generalizing seen with
  | nil => rfl
  | cons e l ih =>
    rw [turnsAt, if_neg (show ¬(key e < k ∧ seen = c) from fun h' => h.ne' h'.2)]
    split_ifs
    · exact ih (h.trans (Nat.lt_succ_self seen))
    · exact ih h

/-- A list is turned back by as many turns as it has entries. -/
theorem rotate_of_dvd {g : List α} {r : ℕ} (h : 2 ≤ g.length → g.length ∣ r) : g.rotate r = g := by
  rcases g with - | ⟨a, - | ⟨b, g⟩⟩
  · exact List.rotate_nil r
  · exact List.rotate_singleton a r
  · obtain ⟨n, rfl⟩ := h (by simp)
    exact List.rotate_length_mul _ n

/-- The turns so far are undone when the next entry of the key comes. -/
theorem foldl_turn_eq {k : κ} (l g : List α) (r : ℕ)
    (h : ∀ c, 2 ≤ c → c = g.length → c ∣ r + turnsAt key k c g.length l)
    (h' : ∀ c, 2 ≤ c → g.length < c → c ∣ turnsAt key k c g.length l) :
    l.foldl (turn key k) (g.rotate r) = g ++ l.filter (key · = k) := by
  induction l generalizing g r with
  | nil =>
    rw [List.foldl_nil, List.filter_nil, List.append_nil]
    exact rotate_of_dvd fun hlength => h g.length hlength rfl
  | cons e l ih =>
    rw [List.foldl_cons]
    rcases lt_trichotomy (key e) k with hk | hk | hk
    · have hcount : ∀ c, turnsAt key k c g.length (e :: l) =
          if g.length = c then turnsAt key k c g.length l + 1 else turnsAt key k c g.length l := by
        intro c
        rw [turnsAt, if_neg hk.ne]
        simp only [hk, true_and]
      rw [turn_of_lt hk, List.rotate_rotate, List.filter_cons_of_neg (by simpa using hk.ne)]
      refine ih g (r + 1) (fun c hc hlength => ?_) fun c hc hlength => ?_
      · have hdvd := h c hc hlength
        rw [hcount, if_pos hlength.symm] at hdvd
        rwa [Nat.add_assoc, Nat.add_comm 1]
      · have hdvd := h' c hc hlength
        rwa [hcount, if_neg hlength.ne] at hdvd
    · have hcount : ∀ c, turnsAt key k c g.length (e :: l) =
          turnsAt key k c (g ++ [e]).length l := fun c => by
        rw [turnsAt, if_pos hk, List.length_append, List.length_singleton]
      have hlength : (g ++ [e]).length = g.length + 1 := by simp
      -- no entry with a smaller key is left that this many entries are before
      have hback : g.rotate r = g := rotate_of_dvd fun hlength' => by
        have hdvd := h g.length hlength' rfl
        rwa [hcount, turnsAt_of_lt (by omega), Nat.add_zero] at hdvd
      rw [turn_of_eq hk, hback, List.filter_cons_of_pos (by simpa using hk)]
      have hrest := ih (g ++ [e]) 0 (fun c hc hc' => ?_) fun c hc hc' => ?_
      · rw [List.rotate_zero] at hrest
        rw [hrest, List.append_assoc, List.singleton_append]
      · rw [Nat.zero_add, ← hcount]
        exact h' c hc (by omega)
      · rw [← hcount]
        exact h' c hc (by omega)
    · have hcount : ∀ c, turnsAt key k c g.length (e :: l) = turnsAt key k c g.length l := by
        intro c
        rw [turnsAt, if_neg hk.ne', if_neg fun h => hk.not_gt h.1]
      rw [turn_of_gt hk, List.filter_cons_of_neg (by simpa using hk.ne')]
      exact ih g r (fun c hc hlength => hcount c ▸ h c hc hlength)
        fun c hc hlength => hcount c ▸ h' c hc hlength

/-- **The sort by exchanges is stable** if the entries of each key are turned back. -/
theorem isStableSort_sort {l : List α} (h : ∀ k, ∀ c ≥ 2, c ∣ turnsAt key k c 0 l) :
    IsStableSort key l (sort key l) := by
  refine ⟨sort_perm l, pairwise_sort l, fun k => ?_⟩
  rw [filter_sort]
  exact foldl_turn_eq l [] 0 (fun c hc h0 => absurd (h0 ▸ hc) (by simp))
    fun c hc _ => h k c hc

end StableSort

end TsAot
