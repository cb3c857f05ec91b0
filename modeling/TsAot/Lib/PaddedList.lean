import Mathlib.Data.List.GetD

/-!
# Lists with zeros behind them

A list is read as the sequence that is zero from its end on. Two lists that agree so differ only in
the number of zeros at the end (`PadEq`, `append_zeros_eq_iff`).

Some items of a list are lost, and the others close the gaps. What is left agrees with the whole
list if and only if every item from the first lost one on is zero (`padEq_kept_iff`): an item that
moves up takes the place of one that is equal to it, down to the end of the list, where the zeros
are.
-/

namespace TsAot.PaddedList

section Zeros

variable {α β : Type*} [Zero α] [Zero β]

/-- The lists agree, with zeros behind the end of each. -/
def PadEq (X Y : List α) : Prop := ∀ i, X.getD i 0 = Y.getD i 0

variable {X Y Z : List α} {x y : α}

theorem PadEq.refl (X : List α) : PadEq X X := fun _ => rfl

theorem PadEq.symm (h : PadEq X Y) : PadEq Y X := fun i => (h i).symm

theorem PadEq.trans (h : PadEq X Y) (h' : PadEq Y Z) : PadEq X Z := fun i => (h i).trans (h' i)

@[simp] theorem padEq_cons : PadEq (x :: X) (y :: Y) ↔ x = y ∧ PadEq X Y := by
  refine ⟨fun h => ⟨h 0, fun i => h (i + 1)⟩, fun h i => ?_⟩
  cases i with
  | zero => exact h.1
  | succ i => exact h.2 i

@[simp] theorem padEq_nil_left : PadEq [] Y ↔ ∀ y ∈ Y, y = 0 := by
  induction Y with
  | nil => exact iff_of_true (PadEq.refl []) nofun
  | cons y Y ih =>
    rw [List.forall_mem_cons, ← ih]
    refine ⟨fun h => ⟨(h 0).symm, fun i => h (i + 1)⟩, fun h i => ?_⟩
    cases i with
    | zero => exact h.1.symm
    | succ i => exact h.2 i

@[simp] theorem padEq_nil_right : PadEq X [] ↔ ∀ x ∈ X, x = 0 :=
  ⟨fun h => (padEq_nil_left).mp h.symm, fun h => (padEq_nil_left.mpr h).symm⟩

/-- Zeros on both sides. -/
theorem padEq_of_zeros (hX : ∀ x ∈ X, x = 0) (hY : ∀ y ∈ Y, y = 0) : PadEq X Y :=
  (padEq_nil_right.mpr hX).trans (padEq_nil_left.mpr hY)

theorem padEq_append_left (Z : List α) : PadEq (Z ++ X) (Z ++ Y) ↔ PadEq X Y := by
  induction Z with
  | nil => rfl
  | cons z Z ih => rw [List.cons_append, List.cons_append, padEq_cons, ih, and_iff_right rfl]

/-- Zeros at the end make no difference. -/
theorem padEq_append_zeros (hY : ∀ y ∈ Y, y = 0) : PadEq (X ++ Y) X := by
  have h := (padEq_append_left X).mpr (padEq_nil_right.mpr hY)
  rwa [List.append_nil] at h

/-- A list that was filled up with zeros. -/
theorem append_zeros_eq_iff {n : ℕ} (h : X.length ≤ n) :
    X ++ List.replicate (n - X.length) 0 = Y ↔ n = Y.length ∧ PadEq X Y := by
  induction X generalizing n Y with
  | nil =>
    rw [padEq_nil_left, List.nil_append, List.length_nil, Nat.sub_zero, eq_comm,
      List.eq_replicate_iff, eq_comm]
  | cons x X ih =>
    obtain ⟨m, rfl⟩ : ∃ m, n = m + 1 := ⟨n - 1, by rw [List.length_cons] at h; omega⟩
    rw [List.length_cons, Nat.add_le_add_iff_right] at h
    rw [List.length_cons, Nat.add_sub_add_right, List.cons_append]
    cases Y with
    | nil => exact iff_of_false (List.cons_ne_nil _ _) fun hn => by simp at hn
    | cons y Y =>
      rw [List.cons.injEq, ih h, padEq_cons, List.length_cons, Nat.add_right_cancel_iff,
        and_left_comm]

/-- Reading each item as a list of digits, all of them zero only for zero. -/
theorem padEq_flatMap {f : α → List β} {k : ℕ} (hlen : ∀ x, (f x).length = k)
    (hinj : Function.Injective f) (hzero : ∀ b ∈ f 0, b = 0) :
    PadEq (X.flatMap f) (Y.flatMap f) ↔ PadEq X Y := by
  have hzeros {x : α} (h : ∀ b ∈ f x, b = 0) : x = 0 := by
    refine hinj ?_
    rw [List.eq_replicate_iff.mpr ⟨hlen x, h⟩, List.eq_replicate_iff.mpr ⟨hlen 0, hzero⟩]
  have hnil (Y : List α) : PadEq [] (Y.flatMap f) ↔ PadEq [] Y := by
    rw [padEq_nil_left, padEq_nil_left, List.forall_mem_flatMap]
    exact forall₂_congr fun y _ => ⟨hzeros, fun h => h ▸ hzero⟩
  induction X generalizing Y with
  | nil => exact hnil Y
  | cons x X ih =>
    cases Y with
    | nil => exact ⟨fun h => ((hnil _).mp h.symm).symm, fun h => ((hnil _).mpr h.symm).symm⟩
    | cons y Y =>
      rw [padEq_cons, List.flatMap_cons, List.flatMap_cons]
      refine ⟨fun h => ?_, fun ⟨hxy, h⟩ => hxy ▸ (padEq_append_left _).mpr (ih.mpr h)⟩
      have hxy : f x = f y := by
        refine List.ext_getElem ((hlen x).trans (hlen y).symm) fun i hx hy => ?_
        have hi := h i
        rwa [List.getD_append _ _ _ _ hx, List.getD_append _ _ _ _ hy,
          List.getD_eq_getElem _ _ hx, List.getD_eq_getElem _ _ hy] at hi
      rw [hxy] at h
      exact ⟨hinj hxy, ih.mp ((padEq_append_left _).mp h)⟩

end Zeros

/-! ### Lost items -/

variable {α : Type*}

/-- The items of a list, and whether each is kept. -/
abbrev Marked (α : Type*) := List (Bool × α)

/-- The items that are kept. -/
def kept (M : Marked α) : List α := (M.filter (·.1)).map (·.2)

/-- All items. -/
def items (M : Marked α) : List α := M.map (·.2)

theorem kept_sublist (M : Marked α) : (kept M).Sublist (items M) := List.filter_sublist.map _

theorem kept_append (M N : Marked α) : kept (M ++ N) = kept M ++ kept N := by
  rw [kept, List.filter_append, List.map_append, kept, kept]

theorem items_append (M N : Marked α) : items (M ++ N) = items M ++ items N := List.map_append

/-- Items that share a fate. -/
def marked (isKept : Bool) (X : List α) : Marked α := X.map (isKept, ·)

@[simp] theorem items_marked (isKept : Bool) (X : List α) : items (marked isKept X) = X := by
  rw [items, marked, List.map_map]
  exact List.map_id X

@[simp] theorem kept_marked_true (X : List α) : kept (marked true X) = X := by
  rw [kept, marked, List.filter_eq_self.mpr, List.map_map]
  · exact List.map_id X
  · exact List.forall_mem_map.mpr fun _ _ => rfl

@[simp] theorem kept_marked_false (X : List α) : kept (marked false X) = [] := by
  simp [kept, marked]

variable [Zero α] {X Y : List α}

/-- Every item from the first lost one on is zero. -/
def ZeroAfterLoss : Marked α → Prop
  | [] => True
  | (true, _) :: M => ZeroAfterLoss M
  | (false, v) :: M => v = 0 ∧ ∀ x ∈ items M, x = 0

instance ZeroAfterLoss.decidable [DecidableEq α] (M : Marked α) : Decidable (ZeroAfterLoss M) :=
  match M with
  | [] => .isTrue trivial
  | (true, _) :: M => decidable M
  | (false, v) :: M => inferInstanceAs (Decidable (v = 0 ∧ ∀ x ∈ items M, x = 0))

/-- A list that lost its first item or others, and agrees with the whole. -/
theorem zero_of_sublist_tail (hsub : X.Sublist Y.tail) (h : PadEq X Y) : ∀ y ∈ Y, y = 0 := by
  induction Y generalizing X with
  | nil => exact nofun
  | cons y Y ih =>
    cases X with
    | nil => exact (padEq_nil_left).mp h
    | cons x X =>
      obtain ⟨rfl, hrest⟩ := (padEq_cons).mp h
      have hzero := ih hsub.tail hrest
      exact List.forall_mem_cons.mpr ⟨hzero x (hsub.subset List.mem_cons_self), hzero⟩

/-- **Losses that do not show.** -/
theorem padEq_kept_iff (M : Marked α) : PadEq (kept M) (items M) ↔ ZeroAfterLoss M := by
  induction M with
  | nil => exact iff_of_true (PadEq.refl []) trivial
  | cons m M ih =>
    obtain ⟨isKept, v⟩ := m
    cases isKept with
    | true => exact (padEq_cons).trans ((and_iff_right rfl).trans ih)
    | false =>
      have hsub := kept_sublist M
      refine ⟨fun h => List.forall_mem_cons.mp (zero_of_sublist_tail (Y := v :: items M) hsub h),
        fun h => padEq_of_zeros (fun x hx => h.2 x (hsub.subset hx)) ?_⟩
      exact List.forall_mem_cons.mpr h

end TsAot.PaddedList
