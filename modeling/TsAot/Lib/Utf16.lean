import TsAot.Lib.Utf8

/-!
# UTF-16

Code points as 16-bit units and back. `points` reads any list of units; a surrogate without its
other half becomes U+FFFD, one unit for one, so that `units (points s)` has the length of `s`
(`length_units_points`) and is `s` exactly when no surrogate is unpaired
(`units_points_iff`).
-/

namespace TsAot.Utf16

open Utf8 (IsScalar replacement)

/-- The units of a code point. -/
def unitsOf (p : ℕ) : List UInt16 :=
  if p < 0x10000 then [.ofNat p]
  else [.ofNat (0xD800 + (p - 0x10000) / 0x400), .ofNat (0xDC00 + (p - 0x10000) % 0x400)]

/-- The units of a list of code points. -/
def units (ps : List ℕ) : List UInt16 := ps.flatMap unitsOf

/-- A leading surrogate. -/
def IsLead (u : UInt16) : Prop := 0xD800 ≤ u.toNat ∧ u.toNat < 0xDC00

/-- A trailing surrogate. -/
def IsTrail (u : UInt16) : Prop := 0xDC00 ≤ u.toNat ∧ u.toNat < 0xE000

instance (u : UInt16) : Decidable (IsLead u) := inferInstanceAs (Decidable (_ ∧ _))

instance (u : UInt16) : Decidable (IsTrail u) := inferInstanceAs (Decidable (_ ∧ _))

/-- The code point of a pair. -/
def pairPoint (u v : UInt16) : ℕ := 0x10000 + (u.toNat - 0xD800) * 0x400 + (v.toNat - 0xDC00)

/-- The code points of a list of units. -/
def points : List UInt16 → List ℕ
  | [] => []
  | [u] => [if IsLead u ∨ IsTrail u then replacement else u.toNat]
  | u :: v :: s =>
    if IsLead u ∧ IsTrail v then pairPoint u v :: points s
    else (if IsLead u ∨ IsTrail u then replacement else u.toNat) :: points (v :: s)

/-- Every surrogate is one half of a pair. -/
def Paired : List UInt16 → Prop
  | [] => True
  | [u] => ¬(IsLead u ∨ IsTrail u)
  | u :: v :: s => if IsLead u ∧ IsTrail v then Paired s
    else ¬(IsLead u ∨ IsTrail u) ∧ Paired (v :: s)

variable {u v : UInt16} {s t : List UInt16} {ps : List ℕ}

theorem units_append (ps qs : List ℕ) : units (ps ++ qs) = units ps ++ units qs :=
  List.flatMap_append

theorem unitsOf_single (u : UInt16) : unitsOf u.toNat = [u] := by
  rw [unitsOf, if_pos u.toNat_lt, UInt16.ofNat_toNat]

/-- A pair is read back. -/
theorem unitsOf_pairPoint (hu : IsLead u) (hv : IsTrail v) : unitsOf (pairPoint u v) = [u, v] := by
  simp only [IsLead, IsTrail] at hu hv
  have hlead : 0xD800 + (pairPoint u v - 0x10000) / 0x400 = u.toNat := by
    unfold pairPoint
    omega
  have htrail : 0xDC00 + (pairPoint u v - 0x10000) % 0x400 = v.toNat := by
    unfold pairPoint
    omega
  have hlarge : ¬pairPoint u v < 0x10000 := by
    unfold pairPoint
    omega
  rw [unitsOf, if_neg hlarge, hlead, htrail, UInt16.ofNat_toNat, UInt16.ofNat_toNat]

theorem isScalar_pairPoint (hu : IsLead u) (hv : IsTrail v) : IsScalar (pairPoint u v) := by
  simp only [IsLead, IsTrail] at hu hv
  unfold IsScalar pairPoint
  omega

/-- One unit that is no half of a pair. -/
theorem single_spec (u : UInt16) :
    IsScalar (if IsLead u ∨ IsTrail u then replacement else u.toNat) ∧
      (units [if IsLead u ∨ IsTrail u then replacement else u.toNat]).length = 1 ∧
      (units [if IsLead u ∨ IsTrail u then replacement else u.toNat] = [u] ↔
        ¬(IsLead u ∨ IsTrail u)) := by
  split_ifs with h
  · refine ⟨Utf8.isScalar_replacement, rfl, iff_of_false (fun heq => ?_) (not_not.mpr h)⟩
    have heq : (0xFFFD : UInt16) = u := List.singleton_inj.mp heq
    subst heq
    revert h
    decide
  · have hunits : units [u.toNat] = [u] := by
      rw [units, List.flatMap_singleton, unitsOf_single]
    refine ⟨?_, congrArg List.length hunits, iff_of_true hunits h⟩
    have hlt := u.toNat_lt
    simp only [IsLead, IsTrail] at h
    simp only [IsScalar]
    omega

/-- Whatever is read are scalar values. -/
theorem isScalar_points {p : ℕ} (hp : p ∈ points s) : IsScalar p := by
  induction s using points.induct with
  | case1 => exact absurd hp List.not_mem_nil
  | case2 u =>
    obtain rfl := List.mem_singleton.mp hp
    exact (single_spec u).1
  | case3 u v s hpair ih =>
    rw [points, if_pos hpair] at hp
    rcases List.mem_cons.mp hp with hp | hp
    · exact hp ▸ isScalar_pairPoint hpair.1 hpair.2
    · exact ih hp
  | case4 u v s hpair ih =>
    rw [points, if_neg hpair] at hp
    obtain rfl | hp := List.mem_cons.mp hp
    · exact (single_spec u).1
    · exact ih hp

/-- Reading keeps the number of units. -/
theorem length_units_points (s : List UInt16) : (units (points s)).length = s.length := by
  induction s using points.induct with
  | case1 => rfl
  | case2 u => exact (single_spec u).2.1
  | case3 u v s hpair ih =>
    rw [points, if_pos hpair, ← List.singleton_append, units_append, List.length_append, ih, units,
      List.flatMap_singleton, unitsOf_pairPoint hpair.1 hpair.2]
    exact Nat.add_comm ..
  | case4 u v s hpair ih =>
    rw [points, if_neg hpair, ← List.singleton_append, units_append, List.length_append,
      (single_spec u).2.1, ih]
    exact Nat.add_comm ..

/-- **Reading changes nothing** exactly when no surrogate is unpaired. -/
theorem units_points_iff (s : List UInt16) : units (points s) = s ↔ Paired s := by
  induction s using points.induct with
  | case1 => exact iff_of_true rfl trivial
  | case2 u => exact (single_spec u).2.2
  | case3 u v s hpair ih =>
    rw [points, if_pos hpair, Paired, if_pos hpair, ← ih, units, List.flatMap_cons,
      unitsOf_pairPoint hpair.1 hpair.2]
    exact (List.append_right_inj [u, v])
  | case4 u v s hpair ih =>
    have hlength := (single_spec u).2.1
    rw [points, if_neg hpair, Paired, if_neg hpair, ← ih, ← (single_spec u).2.2,
      ← List.singleton_append, units_append]
    conv_lhs => rhs; rw [← List.singleton_append]
    exact List.append_eq_append_iff_of_size_eq_left hlength

theorem toNat_ofNat {n : ℕ} (h : n < 0x10000) : (UInt16.ofNat n).toNat = n :=
  UInt16.toNat_ofNat_of_lt' h

/-- U+0000 is the zero unit. -/
theorem zero_mem_units (hps : ∀ p ∈ ps, IsScalar p) : 0 ∈ units ps ↔ 0 ∈ ps := by
  have hone (p : ℕ) (hp : IsScalar p) : 0 ∈ unitsOf p ↔ p = 0 := by
    simp only [IsScalar] at hp
    rw [unitsOf]
    split_ifs with hsmall
    · rw [List.mem_singleton, ← UInt16.toNat_inj, toNat_ofNat hsmall, eq_comm]
      rfl
    · refine iff_of_false (fun hmem => ?_) (by omega)
      rcases List.mem_cons.mp hmem with hzero | hmem
      · rw [← UInt16.toNat_inj, toNat_ofNat (by omega), UInt16.toNat_zero] at hzero
        omega
      · rw [List.mem_singleton, ← UInt16.toNat_inj, toNat_ofNat (by omega), UInt16.toNat_zero] at hmem
        omega
  rw [units, List.mem_flatMap]
  constructor
  · rintro ⟨p, hp, hmem⟩
    exact (hone p (hps p hp)).mp hmem ▸ hp
  · exact fun hzero => ⟨0, hzero, (hone 0 (hps 0 hzero)).mpr rfl⟩

/-- A code point that was written is read back. -/
theorem points_unitsOf_append {p : ℕ} (hp : IsScalar p) (s : List UInt16) :
    points (unitsOf p ++ s) = p :: points s := by
  simp only [IsScalar] at hp
  rw [unitsOf]
  split_ifs with hsmall
  · have hu : (UInt16.ofNat p).toNat = p := toNat_ofNat hsmall
    have hsingle : ¬(IsLead (.ofNat p) ∨ IsTrail (.ofNat p)) := by
      simp only [IsLead, IsTrail, hu]
      omega
    rcases s with _ | ⟨v, s⟩
    · show [if _ then _ else _] = [p]
      rw [if_neg hsingle, hu]
    · rw [List.singleton_append, points, if_neg fun h => hsingle (.inl h.1), if_neg hsingle, hu]
  · have hu : (UInt16.ofNat (0xD800 + (p - 0x10000) / 0x400)).toNat =
        0xD800 + (p - 0x10000) / 0x400 := toNat_ofNat (by omega)
    have hv : (UInt16.ofNat (0xDC00 + (p - 0x10000) % 0x400)).toNat =
        0xDC00 + (p - 0x10000) % 0x400 := toNat_ofNat (by omega)
    have hpair : IsLead (.ofNat (0xD800 + (p - 0x10000) / 0x400)) ∧
        IsTrail (.ofNat (0xDC00 + (p - 0x10000) % 0x400)) := by
      simp only [IsLead, IsTrail, hu, hv]
      omega
    have hpoint : pairPoint (.ofNat (0xD800 + (p - 0x10000) / 0x400))
        (.ofNat (0xDC00 + (p - 0x10000) % 0x400)) = p := by
      unfold pairPoint
      rw [hu, hv]
      omega
    rw [List.cons_append, List.singleton_append, points, if_pos hpair, hpoint]

/-- Code points that were written are read back. -/
theorem points_units_append (hps : ∀ p ∈ ps, IsScalar p) (s : List UInt16) :
    points (units ps ++ s) = ps ++ points s := by
  induction ps with
  | nil => rfl
  | cons p ps ih =>
    obtain ⟨hp, hps⟩ := List.forall_mem_cons.mp hps
    rw [units, List.flatMap_cons, List.append_assoc, points_unitsOf_append hp, List.cons_append]
    exact congrArg (p :: ·) (ih hps)

/-- Behind whole pairs the reading starts anew. -/
theorem points_append (hs : Paired s) (t : List UInt16) :
    points (s ++ t) = points s ++ points t := by
  have hscalar : ∀ p ∈ points s, IsScalar p := fun p hp => isScalar_points hp
  conv_lhs => rw [← (units_points_iff s).mpr hs]
  exact points_units_append hscalar t

/-- A unit that is no half of a pair. -/
theorem paired_cons (h : ¬(IsLead u ∨ IsTrail u)) : Paired (u :: s) ↔ Paired s := by
  rcases s with - | ⟨v, s⟩
  · exact iff_of_true h trivial
  · rw [Paired, if_neg fun hpair => h (.inl hpair.1), and_iff_right h]

theorem paired_of_forall (h : ∀ u ∈ s, ¬(IsLead u ∨ IsTrail u)) : Paired s := by
  induction s with
  | nil => trivial
  | cons u s ih =>
    obtain ⟨hu, hs⟩ := List.forall_mem_cons.mp h
    exact (paired_cons hu).mpr (ih hs)

theorem Paired.append (hs : Paired s) (ht : Paired t) : Paired (s ++ t) := by
  rw [← units_points_iff, points_append hs, units_append, (units_points_iff s).mpr hs,
    (units_points_iff t).mpr ht]

/-- There are at least as many bytes as units. -/
theorem length_le_encode (s : List UInt16) : s.length ≤ (Utf8.encode (points s)).length := by
  rw [← length_units_points]
  generalize points s = ps
  induction ps with
  | nil => exact Nat.le_refl 0
  | cons p ps ih =>
    have hone : (unitsOf p).length ≤ (Utf8.encodePoint p).length := by
      rw [unitsOf, Utf8.encodePoint]
      split_ifs <;> simp
      omega
    rw [units, Utf8.encode, List.flatMap_cons, List.flatMap_cons, List.length_append,
      List.length_append]
    exact Nat.add_le_add hone ih

theorem points_units (hps : ∀ p ∈ ps, IsScalar p) : points (units ps) = ps := by
  have h := points_units_append hps []
  rwa [List.append_nil, show points [] = [] from rfl, List.append_nil] at h

/-- A property of ASCII holds of the code points when it holds of the units. -/
theorem forall_mem_points {P : ℕ → Prop} (hP : ∀ n, P n → n < 128) (s : List UInt16) :
    (∀ p ∈ points s, P p) ↔ ∀ u ∈ s, P u.toNat := by
  -- a surrogate, alone or in a pair, is not ASCII, and neither is what it is read as
  have hone (u : UInt16) : P (if IsLead u ∨ IsTrail u then replacement else u.toNat) ↔
      P u.toNat := by
    split_ifs with h
    · refine iff_of_false (fun hr => absurd (hP _ hr) (by decide)) fun hu => ?_
      have hlt := hP _ hu
      simp only [IsLead, IsTrail] at h
      omega
    · rfl
  induction s using points.induct with
  | case1 => simp [points]
  | case2 u => rw [points, List.forall_mem_singleton, List.forall_mem_singleton, hone]
  | case3 u v s hpair ih =>
    rw [points, if_pos hpair]
    refine iff_of_false (fun hall => ?_) fun hall => ?_
    · have hfirst : P (pairPoint u v) := (List.forall_mem_cons.mp hall).1
      have hlt : pairPoint u v < 128 := hP _ hfirst
      unfold pairPoint at hlt
      omega
    · have hlt := hP _ (hall u List.mem_cons_self)
      have hlead := hpair.1
      rw [IsLead] at hlead
      omega
  | case4 u v s hpair ih =>
    rw [points, if_neg hpair, List.forall_mem_cons, List.forall_mem_cons, hone]
    exact and_congr_right fun _ => ih

/-- What is read off ASCII characters alone can be read off the units. -/
theorem filterMap_points {β : Type*} {f : ℕ → Option β} (hf : ∀ n, 128 ≤ n → f n = none)
    (s : List UInt16) : (points s).filterMap f = s.filterMap fun u => f u.toNat := by
  have hlead {u : UInt16} (h : IsLead u ∨ IsTrail u) : f u.toNat = none :=
    hf _ (by simp only [IsLead, IsTrail] at h; omega)
  have hskip {u : UInt16} (h : IsLead u ∨ IsTrail u) (s : List UInt16) :
      (u :: s).filterMap (fun u => f u.toNat) = s.filterMap fun u => f u.toNat :=
    List.filterMap_cons_none (hlead h)
  have hone (u : UInt16) : f (if IsLead u ∨ IsTrail u then replacement else u.toNat) =
      f u.toNat := by
    split_ifs with h
    · rw [hf replacement (by decide), hlead h]
    · rfl
  induction s using points.induct with
  | case1 => rfl
  | case2 u => rw [points, List.filterMap_cons, List.filterMap_cons, hone]; rfl
  | case3 u v s hpair ih =>
    rw [points, if_pos hpair, List.filterMap_cons_none (hf _ (by unfold pairPoint; omega)), ih,
      hskip (.inl hpair.1), hskip (.inr hpair.2)]
  | case4 u v s hpair ih =>
    rw [points, if_neg hpair, List.filterMap_cons, List.filterMap_cons, hone, ih]

end TsAot.Utf16
