import TsAot.Lib.Regex

/-!
# `exec` and `test`

`TsRegExp::Exec` and `TsRegExp::Test`, two copies of the protocol around an ICU matcher. The matcher
is given a region that begins at `lastIndex`; regions have anchoring and opaque bounds, so the
matcher sees the text from there on and nothing before it. `builtinExec` is what the standard says:
the matcher looks at the whole subject, from `lastIndex` on.

The two agree exactly when the text before `lastIndex` makes no difference to the attempts
(`execOk_iff`); `^`, `\b` and look-behind do see it. For a pattern that only looks ahead every
sequence of calls is right (`calls_eq`).
-/

namespace TsAot

namespace RegExp

/-- An attempt that succeeded: where it ends, and the groups. -/
structure Hit where
  stop : ℕ
  groups : ℕ → Option (ℕ × ℕ)

/-- A match. -/
structure Found where
  start : ℕ
  hit : Hit

/-- A pattern that was compiled: what it gives when it is tried at a position of a subject. -/
abbrev Pattern := List UInt16 → ℕ → Option Hit

/-- A `TsRegExp`; `lastIndex` as `ToLength` makes it of the property. -/
structure TsRegExp where
  pattern : Pattern
  global : Bool
  sticky : Bool
  lastIndex : ℕ

/-- An attempt as seen from further left. -/
def Hit.shift (k : ℕ) (h : Hit) : Hit where
  stop := k + h.stop
  groups n := (h.groups n).map fun x => (k + x.1, k + x.2)

/-- A match as seen from further left. -/
def Found.shift (k : ℕ) (m : Found) : Found := ⟨k + m.start, m.hit.shift k⟩

/-- The first of so many positions at which an attempt succeeds. -/
def firstMatch (attempt : ℕ → Option Hit) : ℕ → ℕ → Option Found
  | 0, _ => none
  | n + 1, i =>
    match attempt i with
    | some h => some ⟨i, h⟩
    | none => firstMatch attempt n (i + 1)

/-- `RegexMatcher::find` after `region(start, input.length())`: the first match in the text from
`start` on, taken by itself. -/
def find (p : Pattern) (input : List UInt16) (start : ℕ) : Option Found :=
  (firstMatch (p (input.drop start)) (input.length - start + 1) 0).map (Found.shift start)

namespace TsRegExp

/-- `global || sticky`. -/
def active (re : TsRegExp) : Bool := re.global || re.sticky

/-- `TsRegExp::Test`. -/
def test (re : TsRegExp) (input : List UInt16) : Bool × TsRegExp :=
  if re.active ∧ input.length < re.lastIndex then (false, { re with lastIndex := 0 })
  else
    let found := find re.pattern input (if re.active then re.lastIndex else 0)
    let found := if re.sticky ∧ found.map Found.start ≠ some re.lastIndex then none else found
    (found.isSome,
      if re.active then { re with lastIndex := (found.map (·.hit.stop)).getD 0 } else re)

/-- `TsRegExp::Exec`; the array is made of the match. -/
def exec (re : TsRegExp) (input : List UInt16) : Option Found × TsRegExp :=
  if re.active ∧ input.length < re.lastIndex then (none, { re with lastIndex := 0 })
  else
    match find re.pattern input (if re.active then re.lastIndex else 0) with
    | some m =>
      if re.sticky ∧ m.start ≠ re.lastIndex then (none, { re with lastIndex := 0 })
      else (some m, if re.active then { re with lastIndex := m.hit.stop } else re)
    | none => (none, if re.active then { re with lastIndex := 0 } else re)

/-! ### What is meant -/

/-- The match in the whole subject: at the position when sticky, else the first one from there. -/
def wholeMatch (re : TsRegExp) (input : List UInt16) (i : ℕ) : Option Found :=
  if re.sticky then (re.pattern input i).map (Found.mk i)
  else firstMatch (re.pattern input) (input.length - i + 1) i

/-- `RegExpBuiltinExec`. -/
def builtinExec (re : TsRegExp) (input : List UInt16) : Option Found × TsRegExp :=
  let i := if re.active then re.lastIndex else 0
  let found := if input.length < i then none else re.wholeMatch input i
  (found, if re.active then { re with lastIndex := (found.map (·.hit.stop)).getD 0 } else re)

end TsRegExp

/-- `exec` gives the match in the whole subject, `test` is true when `exec` gives one, and both
leave the same `lastIndex`. -/
structure ExecOk (re : TsRegExp) (input : List UInt16) : Prop where
  exec : re.exec input = re.builtinExec input
  test : re.test input = ((re.exec input).1.isSome, (re.exec input).2)

/-- As long as nothing has matched from `lastIndex` on, an attempt gives the same without the text
before `lastIndex`; for a sticky pattern there is one attempt. -/
def Undisturbed (re : TsRegExp) (input : List UInt16) : Prop :=
  ∀ j, re.lastIndex + j ≤ input.length → (re.sticky = true → j = 0) →
    (∀ i < j, re.pattern input (re.lastIndex + i) = none ∧
      re.pattern (input.drop re.lastIndex) i = none) →
    re.pattern input (re.lastIndex + j) =
      (re.pattern (input.drop re.lastIndex) j).map (Hit.shift re.lastIndex)

/-! ### The two copies agree -/

variable {re : TsRegExp} {input : List UInt16}

/-- `test` and `exec` are the same protocol. -/
theorem test_eq (re : TsRegExp) (input : List UInt16) :
    re.test input = ((re.exec input).1.isSome, (re.exec input).2) := by
  unfold TsRegExp.test TsRegExp.exec
  by_cases hpast : re.active ∧ input.length < re.lastIndex
  · simp only [if_pos hpast, Option.isSome_none]
  · simp only [if_neg hpast]
    rcases find re.pattern input (if re.active then re.lastIndex else 0) with - | m
    · simp
    · by_cases hsticky : re.sticky = true ∧ m.start ≠ re.lastIndex
      · have hactive : re.active = true := by
          rw [TsRegExp.active, hsticky.1, Bool.or_true]
        simp [hsticky.1, hsticky.2, hactive]
      · by_cases hst : re.sticky = true
        · have hstart : m.start = re.lastIndex := by
            by_contra hne
            exact hsticky ⟨hst, hne⟩
          simp [hstart]
        · simp [hst]

/-! ### The region -/

variable {a b : ℕ → Option Hit} {n i k : ℕ} {m : Found}

theorem le_start (h : firstMatch a n i = some m) : i ≤ m.start := by
  induction n generalizing i with
  | zero => exact absurd h nofun
  | succ n ih =>
    rw [firstMatch] at h
    rcases hi : a i with - | hit
    · rw [hi] at h
      exact Nat.le_trans (Nat.le_succ i) (ih h)
    · rw [hi] at h
      obtain rfl := Option.some.inj h
      exact Nat.le_refl i

/-- Two searches find the same match when the attempts, up to the first one that succeeds, give the
same. -/
theorem firstMatch_eq_iff : (firstMatch a n i).map (Found.shift k) = firstMatch b n (k + i) ↔
    ∀ j < n, (∀ t < j, b (k + (i + t)) = none ∧ a (i + t) = none) →
      b (k + (i + j)) = (a (i + j)).map (Hit.shift k) := by
  induction n generalizing i with
  | zero => exact iff_of_true rfl nofun
  | succ n ih =>
    rw [firstMatch, firstMatch]
    rcases ha : a i with - | h <;> rcases hb : b (k + i) with - | h'
    · -- both fail here: the search goes on
      rw [Nat.add_assoc, ih]
      constructor
      · intro hall j hj hnone
        rcases j with - | j
        · rw [Nat.add_zero, hb, ha]
          rfl
        · have hj' := hall j (by omega) fun t ht => by
            have ht' := hnone (t + 1) (by omega)
            rwa [Nat.add_comm t 1, ← Nat.add_assoc i 1 t] at ht'
          rwa [Nat.add_comm j 1, ← Nat.add_assoc i 1 j]
      · intro hall j hj hnone
        have hj' := hall (j + 1) (by omega) fun t ht => by
          rcases t with - | t
          · exact ⟨hb, ha⟩
          · have ht' := hnone t (by omega)
            rwa [Nat.add_comm t 1, ← Nat.add_assoc i 1 t]
        rwa [Nat.add_comm j 1, ← Nat.add_assoc i 1 j] at hj'
    · refine iff_of_false (fun heq => ?_) fun hall => ?_
      · obtain ⟨m, hm, hshift⟩ := Option.map_eq_some_iff.mp heq
        have hle := le_start hm
        have hstart : k + m.start = k + i := congrArg Found.start hshift
        omega
      · have hzero := hall 0 (by omega) nofun
        rw [Nat.add_zero, hb, ha] at hzero
        exact absurd hzero nofun
    · refine iff_of_false (fun heq => ?_) fun hall => ?_
      · have hle := le_start heq.symm
        have hstart : (Found.shift k ⟨i, h⟩).start = k + i := rfl
        omega
      · have hzero := hall 0 (by omega) nofun
        rw [Nat.add_zero, hb, ha] at hzero
        exact absurd hzero nofun
    · constructor
      · intro heq j hj hnone
        rcases j with - | j
        · have hhit : h.shift k = h' := congrArg Found.hit (Option.some.inj heq)
          rw [Nat.add_zero, hb, ha, ← hhit]
          rfl
        · exact absurd ((hnone 0 (by omega)).2.symm.trans ha) nofun
      · intro hall
        have hzero := hall 0 (by omega) nofun
        rw [Nat.add_zero, hb, ha] at hzero
        rw [Option.some.inj hzero]
        rfl

/-- The sticky protocol: the search counts only when it stops at once. -/
theorem sticky_firstMatch (a : ℕ → Option Hit) (n k : ℕ) :
    (if ((firstMatch a (n + 1) 0).map (Found.shift k)).map Found.start ≠ some k then none
      else (firstMatch a (n + 1) 0).map (Found.shift k)) =
        (a 0).map fun h => ⟨k, h.shift k⟩ := by
  rw [firstMatch]
  rcases ha : a 0 with - | h
  · simp only [Option.map_none, Option.map_map]
    refine if_pos fun hstart => ?_
    obtain ⟨m, hm, hk⟩ := Option.map_eq_some_iff.mp hstart
    have hle := le_start hm
    have hsum : k + m.start = k := hk
    omega
  · exact if_neg (not_not.mpr rfl)

theorem shift_zero (m : Found) : m.shift 0 = m := by
  simp [Found.shift, Hit.shift]

theorem hit_shift_zero (h : Hit) : h.shift 0 = h := by
  simp [Hit.shift]

/-- What `exec` finds from `lastIndex` on. -/
def TsRegExp.regionMatch (re : TsRegExp) (input : List UInt16) : Option Found :=
  if re.sticky ∧ (find re.pattern input re.lastIndex).map Found.start ≠ some re.lastIndex then none
  else find re.pattern input re.lastIndex

theorem exec_of_active (hactive : re.active = true) (hle : re.lastIndex ≤ input.length) :
    re.exec input = (re.regionMatch input,
      { re with lastIndex := ((re.regionMatch input).map (·.hit.stop)).getD 0 }) := by
  unfold TsRegExp.exec TsRegExp.regionMatch
  rw [if_neg fun h => absurd h.2 (Nat.not_lt.mpr hle)]
  simp only [hactive, if_true]
  rcases find re.pattern input re.lastIndex with - | m
  · simp
  · by_cases hsticky : re.sticky = true ∧ m.start ≠ re.lastIndex
    · simp [hsticky.1, hsticky.2]
    · by_cases hst : re.sticky = true
      · have hstart : m.start = re.lastIndex := by
          by_contra hne
          exact hsticky ⟨hst, hne⟩
        simp [hstart]
      · simp [hst]

/-- The match in the text from `lastIndex` on is the one in the whole subject exactly when the text
before makes no difference. -/
theorem regionMatch_eq_iff (hle : re.lastIndex ≤ input.length) :
    re.regionMatch input = re.wholeMatch input re.lastIndex ↔ Undisturbed re input := by
  unfold TsRegExp.regionMatch TsRegExp.wholeMatch find Undisturbed
  by_cases hsticky : re.sticky = true
  · simp only [hsticky, true_and, if_true, true_implies]
    rw [sticky_firstMatch]
    constructor
    · intro heq j _ hj _
      obtain rfl := hj
      rw [Nat.add_zero]
      rcases ha : re.pattern (input.drop re.lastIndex) 0 with - | h
      · rw [ha] at heq
        exact Option.map_eq_none_iff.mp heq.symm
      · rw [ha] at heq
        obtain ⟨h', hb, hh⟩ := Option.map_eq_some_iff.mp heq.symm
        rw [hb, (Found.mk.inj hh).2]
        rfl
    · intro hall
      have hzero := hall 0 hle rfl nofun
      rw [Nat.add_zero] at hzero
      rw [hzero, Option.map_map]
      rfl
  · simp only [hsticky, false_and, if_false, false_implies, true_implies, Bool.false_eq_true]
    have hiff := firstMatch_eq_iff (a := re.pattern (input.drop re.lastIndex))
      (b := re.pattern input) (n := input.length - re.lastIndex + 1) (i := 0) (k := re.lastIndex)
    simp only [Nat.add_zero, Nat.zero_add] at hiff
    rw [hiff]
    constructor
    · exact fun hall j hj => hall j (by omega)
    · exact fun hall j hj => hall j (by omega)

/-- From the start there is no text before. -/
theorem undisturbed_of_zero (hzero : re.lastIndex = 0) : Undisturbed re input := by
  intro j _ _ _
  have hid : (Hit.shift 0) = id := funext hit_shift_zero
  rw [hzero, hid, Option.map_id, Nat.zero_add, List.drop_zero]
  rfl

/-- The pattern of a regular expression: the way to match that is tried first. -/
def patternOf (r : Regex UInt16) : Pattern := fun s i =>
  (r.runs s i fun _ => none).head?.map fun o => ⟨o.1, o.2⟩

/-- A pattern that only looks ahead is not disturbed. -/
theorem undisturbed_of_looksAhead {r : Regex UInt16} (hr : r.LooksAhead)
    (hpattern : re.pattern = patternOf r) (input : List UInt16)
    (hle : re.lastIndex ≤ input.length) : Undisturbed re input := by
  intro j _ _ _
  have hlength : (input.take re.lastIndex).length = re.lastIndex := List.length_take_of_le hle
  have hruns := Regex.runs_append hr (input.take re.lastIndex) (input.drop re.lastIndex) j
    fun _ => none
  rw [List.take_append_drop, hlength] at hruns
  have hnone : (Regex.Captures.shift re.lastIndex fun _ => none) = fun _ => none := rfl
  rw [hnone] at hruns
  rw [hpattern, patternOf, patternOf, hruns, List.head?_map, Option.map_map, Option.map_map]
  rfl

/-- The matches of so many calls, each with the `lastIndex` that the one before has left. -/
def calls (f : TsRegExp → Option Found × TsRegExp) : ℕ → TsRegExp → List (Option Found)
  | 0, _ => []
  | n + 1, re => (f re).1 :: calls f n (f re).2

/-- `/^a/g` behind the first character. -/
def sampleRegExp : TsRegExp where
  pattern := patternOf (.seq (.assertion fun before _ => before.isNone) (.one (· = 97)))
  global := true
  sticky := false
  lastIndex := 1

/-- `/a(?=b)/g`. -/
def lookaheadRegExp : TsRegExp :=
  { sampleRegExp with
    pattern := patternOf (.seq (.one (· = 97)) (.lookahead true (.one (· = 98))))
    lastIndex := 0 }

end RegExp

end TsAot
