import Mathlib.Data.List.Basic
import Mathlib.Tactic.Common

/-!
# Digits with separators

Runs of digits with single separators between them, over any kind of digits. `munch` is the longest
run that a text begins with (`DigitRun.prefix_munch`); a run that something else follows is it
(`DigitRun.munch_append`).
-/

namespace TsAot

namespace SeparatedDigits

variable {α : Type*} [DecidableEq α]

/-- Digits, at least one, and between two of them at most one separator. -/
inductive DigitRun (isDigit : α → Bool) (sep : α) : List α → Prop
  | one {d : α} (hd : isDigit d = true) : DigitRun isDigit sep [d]
  | digit {d : α} {w : List α} (hd : isDigit d = true) (hw : DigitRun isDigit sep w) :
      DigitRun isDigit sep (d :: w)
  | separated {d : α} {w : List α} (hd : isDigit d = true) (hw : DigitRun isDigit sep w) :
      DigitRun isDigit sep (d :: sep :: w)

/-- What goes on with a run behind a digit. -/
def munchTail (isDigit : α → Bool) (sep : α) : List α → List α
  | [] => []
  | [d] => if isDigit d then [d] else []
  | d :: e :: s =>
    if isDigit d then d :: munchTail isDigit sep (e :: s)
    else if d = sep ∧ isDigit e then d :: e :: munchTail isDigit sep s
    else []

/-- The longest run at the front. -/
def munch (isDigit : α → Bool) (sep : α) : List α → List α
  | [] => []
  | d :: s => if isDigit d then d :: munchTail isDigit sep s else []

variable {isDigit : α → Bool} {sep d : α} {s u w : List α}

theorem munchTail_digit (hd : isDigit d = true) :
    munchTail isDigit sep (d :: s) = d :: munchTail isDigit sep s := by
  rcases s with - | ⟨e, s⟩
  · simp only [munchTail, hd, if_true]
  · rw [munchTail, if_pos hd]

theorem munchTail_prefix (s : List α) : munchTail isDigit sep s <+: s := by
  induction s using munchTail.induct isDigit sep with
  | case1 => exact List.prefix_rfl
  | case2 d hd => simp [munchTail, hd]
  | case3 d hd =>
    rw [munchTail, if_neg hd]
    exact List.nil_prefix
  | case4 d e s hd ih =>
    rw [munchTail, if_pos hd]
    exact List.cons_prefix_cons.mpr ⟨rfl, ih⟩
  | case5 d e s hd hsep ih =>
    rw [munchTail, if_neg hd, if_pos hsep]
    exact List.cons_prefix_cons.mpr ⟨rfl, List.cons_prefix_cons.mpr ⟨rfl, ih⟩⟩
  | case6 d e s hd hsep =>
    rw [munchTail, if_neg hd, if_neg hsep]
    exact List.nil_prefix

theorem munch_isPrefix (s : List α) : munch isDigit sep s <+: s := by
  rcases s with - | ⟨d, s⟩
  · exact List.prefix_rfl
  · rw [munch]
    split_ifs
    · exact List.cons_prefix_cons.mpr ⟨rfl, munchTail_prefix s⟩
    · exact List.nil_prefix

/-- The front and what is behind it. -/
theorem munch_append_drop (s : List α) :
    munch isDigit sep s ++ s.drop (munch isDigit sep s).length = s :=
  List.prefix_iff_eq_append.mp (munch_isPrefix s)

theorem munch_ne_nil (hd : isDigit d = true) : munch isDigit sep (d :: s) ≠ [] := by
  rw [munch, if_pos hd]
  exact List.cons_ne_nil _ _

theorem munch_of_not_digit (hd : ¬isDigit d = true) : munch isDigit sep (d :: s) = [] := by
  rw [munch, if_neg hd]

/-- A digit and what goes on with it are a run. -/
theorem digits_cons_munchTail (hd : isDigit d = true) (s : List α) :
    DigitRun isDigit sep (d :: munchTail isDigit sep s) := by
  induction s using munchTail.induct isDigit sep generalizing d with
  | case1 => exact .one hd
  | case2 e he =>
    rw [munchTail, if_pos he]
    exact .digit hd (.one he)
  | case3 e he =>
    rw [munchTail, if_neg he]
    exact .one hd
  | case4 e f s he ih =>
    rw [munchTail, if_pos he]
    exact .digit hd (ih he)
  | case5 e f s he hsep ih =>
    obtain ⟨rfl, hf⟩ := hsep
    rw [munchTail, if_neg he, if_pos ⟨rfl, hf⟩]
    exact .separated hd (ih hf)
  | case6 e f s he hsep =>
    rw [munchTail, if_neg he, if_neg hsep]
    exact .one hd

theorem digits_munch (h : munch isDigit sep s ≠ []) : DigitRun isDigit sep (munch isDigit sep s) := by
  rcases s with - | ⟨d, s⟩
  · exact absurd rfl h
  · by_cases hd : isDigit d = true
    · rw [munch, if_pos hd]
      exact digits_cons_munchTail hd s
    · exact absurd (munch_of_not_digit hd) h

namespace DigitRun

omit [DecidableEq α] in
theorem exists_cons (hw : DigitRun isDigit sep w) :
    ∃ d v, w = d :: v ∧ isDigit d = true := by
  cases hw with
  | one hd => exact ⟨_, _, rfl, hd⟩
  | digit hd _ => exact ⟨_, _, rfl, hd⟩
  | separated hd _ => exact ⟨_, _, rfl, hd⟩

omit [DecidableEq α] in
theorem ne_nil (hw : DigitRun isDigit sep w) : w ≠ [] := by
  obtain ⟨d, v, rfl, -⟩ := hw.exists_cons
  exact List.cons_ne_nil _ _

omit [DecidableEq α] in
/-- Every character is a digit or a separator. -/
theorem forall_mem (hw : DigitRun isDigit sep w) : ∀ c ∈ w, isDigit c = true ∨ c = sep := by
  induction hw with
  | one hd => exact List.forall_mem_singleton.mpr (.inl hd)
  | digit hd _ ih => exact List.forall_mem_cons.mpr ⟨.inl hd, ih⟩
  | separated hd _ ih =>
    exact List.forall_mem_cons.mpr ⟨.inl hd, List.forall_mem_cons.mpr ⟨.inr rfl, ih⟩⟩

/-- The run at the front goes on as far as any. -/
theorem prefix_munch (hsep : ¬isDigit sep = true) (hw : DigitRun isDigit sep w) (u : List α) :
    w <+: munch isDigit sep (w ++ u) := by
  -- behind the first digit, what is left of the run is taken
  suffices htail : ∀ d v, w = d :: v → v <+: munchTail isDigit sep (v ++ u) by
    obtain ⟨d, v, rfl, hd⟩ := hw.exists_cons
    rw [List.cons_append, munch, if_pos hd]
    exact List.cons_prefix_cons.mpr ⟨rfl, htail d v rfl⟩
  induction hw with
  | one hd =>
    rintro _ _ ⟨⟩
    exact List.nil_prefix
  | digit hd hw ih =>
    rintro _ v ⟨⟩
    obtain ⟨e, v, rfl, he⟩ := hw.exists_cons
    rw [List.cons_append, munchTail_digit he]
    exact List.cons_prefix_cons.mpr ⟨rfl, ih e v rfl⟩
  | separated hd hw ih =>
    rintro _ v ⟨⟩
    obtain ⟨e, v, rfl, he⟩ := hw.exists_cons
    rw [List.cons_append, List.cons_append, munchTail, if_neg hsep, if_pos ⟨rfl, he⟩]
    exact List.cons_prefix_cons.mpr ⟨rfl, List.cons_prefix_cons.mpr ⟨rfl, ih e v rfl⟩⟩

/-- **A run** that neither a digit nor a separator follows is the one at the front. -/
theorem munch_append (hsep : ¬isDigit sep = true) (hw : DigitRun isDigit sep w)
    (hu : ∀ c ∈ u.head?, ¬isDigit c = true ∧ c ≠ sep) : munch isDigit sep (w ++ u) = w := by
  obtain ⟨v, hv⟩ := hw.prefix_munch hsep u
  obtain ⟨x, hx⟩ : munch isDigit sep (w ++ u) <+: w ++ u := munch_isPrefix (w ++ u)
  rw [← hv, List.append_assoc, List.append_cancel_left_eq] at hx
  rcases v with - | ⟨c, v⟩
  · rw [← hv, List.append_nil]
  · have hmem : c ∈ munch isDigit sep (w ++ u) := by
      rw [← hv]
      simp
    have hne : munch isDigit sep (w ++ u) ≠ [] := List.ne_nil_of_mem hmem
    have hc := hu c (by rw [← hx]; rfl)
    exact ((digits_munch hne).forall_mem c hmem).elim (fun h => absurd h hc.1)
      fun h => absurd h hc.2

end DigitRun

end SeparatedDigits

end TsAot
