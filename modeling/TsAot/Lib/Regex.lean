import Mathlib

/-!
# Backtracking matchers

Regular expressions with groups, backreferences and assertions over any alphabet, and the ways in
which one can match at a position, in the order in which a backtracking matcher tries them. The
subject is a list; positions are offsets in it.

`runs_append` is the law of expressions that only look ahead: what stands before the position a
match begins at does not matter to it.
-/

namespace TsAot

/-- A regular expression. An assertion sees the characters before and after the position. -/
inductive Regex (α : Type)
  | empty
  | one (p : α → Bool)
  | seq (a b : Regex α)
  | alt (a b : Regex α)
  | star (greedy : Bool) (a : Regex α)
  | group (n : ℕ) (a : Regex α)
  | backref (n : ℕ)
  | assertion (p : Option α → Option α → Bool)
  | lookahead (positive : Bool) (a : Regex α)
  | lookbehind (positive : Bool) (a : Regex α)

namespace Regex

/-- What the groups have captured. -/
abbrev Captures := ℕ → Option (ℕ × ℕ)

/-- Where a match can end, with its captures. -/
abbrev Outcome := ℕ × Captures

/-- The captures as seen from further left. -/
def Captures.shift (k : ℕ) (c : Captures) : Captures := fun n => (c n).map fun x => (k + x.1, k + x.2)

/-- The outcome as seen from further left. -/
def shift (k : ℕ) (o : Outcome) : Outcome := (k + o.1, o.2.shift k)

/-- Repetition: rounds that consume something, as many as there is fuel for. -/
def rounds (greedy : Bool) (step : ℕ → Captures → List Outcome) :
    ℕ → ℕ → Captures → List Outcome
  | 0, i, c => [(i, c)]
  | fuel + 1, i, c =>
    let more := (step i c).flatMap fun o => if o.1 = i then [] else rounds greedy step fuel o.1 o.2
    if greedy then more ++ [(i, c)] else (i, c) :: more

variable {α : Type} [DecidableEq α]

/-- The ways to match at a position, the one tried first in front. -/
def runs (s : List α) : Regex α → ℕ → Captures → List Outcome
  | empty, i, c => [(i, c)]
  | one p, i, c =>
    match s[i]? with
    | some x => if p x then [(i + 1, c)] else []
    | none => []
  | seq a b, i, c => (runs s a i c).flatMap fun o => runs s b o.1 o.2
  | alt a b, i, c => runs s a i c ++ runs s b i c
  | star greedy a, i, c => rounds greedy (runs s a) (s.length - i) i c
  | group n a, i, c => (runs s a i c).map fun o => (o.1, Function.update o.2 n (some (i, o.1)))
  | backref n, i, c =>
    match c n with
    | some x =>
      if (s.drop x.1).take (x.2 - x.1) <+: s.drop i then [(i + (x.2 - x.1), c)] else []
    | none => []
  | assertion p, i, c =>
    if p (if i = 0 then none else s[i - 1]?) s[i]? then [(i, c)] else []
  | lookahead positive a, i, c =>
    match (runs s a i c).head? with
    | some o => if positive then [(i, o.2)] else []
    | none => if positive then [] else [(i, c)]
  | lookbehind positive a, i, c =>
    match (List.range (i + 1)).reverse.findSome? fun j => (runs s a j c).find? (·.1 = i) with
    | some o => if positive then [(i, o.2)] else []
    | none => if positive then [] else [(i, c)]

/-- No assertion depends on what stands before the position, and there is no look-behind. -/
def LooksAhead : Regex α → Prop
  | empty => True
  | one _ => True
  | seq a b => LooksAhead a ∧ LooksAhead b
  | alt a b => LooksAhead a ∧ LooksAhead b
  | star _ a => LooksAhead a
  | group _ a => LooksAhead a
  | backref _ => True
  | assertion p => ∀ x y next, p x next = p y next
  | lookahead _ a => LooksAhead a
  | lookbehind _ _ => False

/-! ### What stands before does not matter -/

theorem rounds_shift {greedy : Bool} {step step' : ℕ → Captures → List Outcome} {k : ℕ}
    (hstep : ∀ i c, step' (k + i) (c.shift k) = (step i c).map (shift k)) (fuel i : ℕ)
    (c : Captures) : rounds greedy step' fuel (k + i) (c.shift k) =
      (rounds greedy step fuel i c).map (shift k) := by
  induction fuel generalizing i c with
  | zero => rfl
  | succ fuel ih =>
    have hmore : (step' (k + i) (c.shift k)).flatMap (fun o =>
        if o.1 = k + i then [] else rounds greedy step' fuel o.1 o.2) =
          ((step i c).flatMap fun o =>
            if o.1 = i then [] else rounds greedy step fuel o.1 o.2).map (shift k) := by
      rw [hstep, List.flatMap_map, List.map_flatMap]
      refine List.flatMap_congr fun o _ => ?_
      simp only [shift, Nat.add_left_cancel_iff]
      split_ifs
      · rfl
      · exact ih o.1 o.2
    simp only [rounds, hmore]
    split_ifs
    · rw [List.map_append]
      rfl
    · rfl

theorem shift_update (k n i : ℕ) (o : Outcome) :
    Captures.shift k (Function.update o.2 n (some (i, o.1))) =
      Function.update (o.2.shift k) n (some (k + i, k + o.1)) := by
  funext m
  by_cases hm : m = n
  · subst hm
    simp [Captures.shift]
  · simp [Captures.shift, hm]

/-- **Expressions that only look ahead** match behind any text as they do without it. -/
theorem runs_append {r : Regex α} (hr : r.LooksAhead) (pre s : List α) (i : ℕ) (c : Captures) :
    runs (pre ++ s) r (pre.length + i) (c.shift pre.length) =
      (runs s r i c).map (shift pre.length) := by
  have hget (j : ℕ) : (pre ++ s)[pre.length + j]? = s[j]? := by
    rw [List.getElem?_append_right (Nat.le_add_right _ _), Nat.add_sub_cancel_left]
  have hdrop (j : ℕ) : (pre ++ s).drop (pre.length + j) = s.drop j := List.drop_length_add_append j
  induction r generalizing i c with
  | empty => rfl
  | one p =>
    simp only [runs, hget]
    rcases s[i]? with - | x
    · rfl
    · simp only
      split_ifs <;> rfl
  | seq a b iha ihb =>
    simp only [runs, iha hr.1, List.flatMap_map, List.map_flatMap]
    exact List.flatMap_congr fun o _ => ihb hr.2 o.1 o.2
  | alt a b iha ihb => simp only [runs, iha hr.1, ihb hr.2, List.map_append]
  | star greedy a iha =>
    have hfuel : (pre ++ s).length - (pre.length + i) = s.length - i := by
      rw [List.length_append]
      omega
    simp only [runs, hfuel]
    exact rounds_shift (fun i c => iha hr i c) _ i c
  | group n a iha =>
    simp only [runs, iha hr, List.map_map]
    refine List.map_congr_left fun o _ => ?_
    simp only [Function.comp_apply, shift, shift_update]
  | backref n =>
    simp only [runs, Captures.shift]
    rcases c n with - | x
    · rfl
    · simp only [Option.map_some, hdrop, Nat.add_sub_add_left]
      split_ifs
      · rw [Nat.add_assoc]
        rfl
      · rfl
  | assertion p =>
    simp only [runs, hget]
    rw [hr _ (if i = 0 then none else s[i - 1]?)]
    split_ifs <;> rfl
  | lookahead positive a iha =>
    simp only [runs, iha hr, List.head?_map]
    rcases (runs s a i c).head? with - | o
    · simp only [Option.map_none]
      split_ifs <;> rfl
    · simp only [Option.map_some]
      split_ifs <;> rfl
  | lookbehind positive a => exact hr.elim

/-! ### Matching a whole subject -/

/-- The first way to match from a position on that ends with the subject. -/
def ending (s : List α) (r : Regex α) (i : ℕ) (c : Captures) : Option Captures :=
  (runs s r i c).findSome? fun o => if o.1 = s.length then some o.2 else none

/-- A match of the whole subject. -/
def fullMatch (s : List α) (r : Regex α) : Option Captures := ending s r 0 fun _ => none

/-- What a group has captured; a group that took no part, nothing. -/
def Captures.text (c : Captures) (s : List α) (n : ℕ) : List α :=
  match c n with
  | some x => (s.drop x.1).take (x.2 - x.1)
  | none => []

/-- As many characters of a class as there are. -/
def span (p : α → Bool) : Regex α := star true (one p)

/-- The same, and at least one. -/
def span1 (p : α → Bool) : Regex α := seq (one p) (span p)

/-- Once or not at all. -/
def opt (a : Regex α) : Regex α := alt a empty

variable {s : List α} {a b d : Regex α} {p : α → Bool} {i : ℕ} {c : Captures}

theorem runs_empty : runs s empty i c = [(i, c)] := rfl

theorem runs_one : runs s (one p) i c =
    match s[i]? with
    | some x => if p x then [(i + 1, c)] else []
    | none => [] := rfl

theorem runs_seq :
    runs s (seq a b) i c = (runs s a i c).flatMap fun o => runs s b o.1 o.2 := rfl

theorem runs_alt : runs s (alt a b) i c = runs s a i c ++ runs s b i c := rfl

theorem runs_star {greedy : Bool} :
    runs s (star greedy a) i c = rounds greedy (runs s a) (s.length - i) i c := rfl

theorem runs_group {n : ℕ} : runs s (group n a) i c =
    (runs s a i c).map fun o => (o.1, Function.update o.2 n (some (i, o.1))) := rfl

theorem runs_assertion {q : Option α → Option α → Bool} : runs s (assertion q) i c =
    if q (if i = 0 then none else s[i - 1]?) s[i]? then [(i, c)] else [] := rfl

theorem rounds_zero {greedy : Bool} {step : ℕ → Captures → List Outcome} :
    rounds greedy step 0 i c = [(i, c)] := rfl

theorem rounds_succ {greedy : Bool} {step : ℕ → Captures → List Outcome} (fuel : ℕ) :
    rounds greedy step (fuel + 1) i c =
      if greedy then
        ((step i c).flatMap fun o =>
          if o.1 = i then [] else rounds greedy step fuel o.1 o.2) ++ [(i, c)]
      else (i, c) :: (step i c).flatMap fun o =>
        if o.1 = i then [] else rounds greedy step fuel o.1 o.2 := rfl

theorem findSome?_flatMap {β γ δ : Type} (f : γ → Option δ) (g : β → List γ) (l : List β) :
    (l.flatMap g).findSome? f = l.findSome? fun x => (g x).findSome? f := by
  induction l with
  | nil => rfl
  | cons x l ih =>
    rw [List.flatMap_cons, List.findSome?_append, ih, List.findSome?_cons]
    rcases (g x).findSome? f with - | y <;> rfl

theorem ending_seq : ending s (seq a b) i c =
    (runs s a i c).findSome? fun o => ending s b o.1 o.2 := findSome?_flatMap _ _ _

/-- Nothing is left to match. -/
theorem ending_empty : ending s empty s.length c = some c := by simp [ending, runs_empty]

theorem ending_seq_empty : ending s (seq empty b) i c = ending s b i c := by
  simp [ending_seq, runs_empty]

theorem ending_seq_assoc :
    ending s (seq (seq a b) d) i c = ending s (seq a (seq b d)) i c := by
  simp only [ending_seq, runs_seq, findSome?_flatMap]

/-- An optional part is taken when the rest can be matched behind it. -/
theorem ending_opt : ending s (seq (opt a) b) i c =
    (ending s (seq a b) i c).or (ending s b i c) := by
  simp [ending_seq, opt, runs_alt, runs_empty, List.findSome?_append]

omit [DecidableEq α] in
theorem getElem?_of_drop {x : α} {rest : List α} (hs : s.drop i = x :: rest) :
    s[i]? = some x ∧ s.drop (i + 1) = rest := by
  rw [← List.head?_drop, hs, ← List.tail_drop, hs]
  exact ⟨rfl, rfl⟩

theorem ending_one {x : α} {rest : List α} (hs : s.drop i = x :: rest) (hx : p x) :
    ending s (seq (one p) b) i c = ending s b (i + 1) c := by
  simp [ending_seq, runs_one, (getElem?_of_drop hs).1, hx]

theorem ending_one_of_not (hx : ∀ x ∈ s[i]?, ¬p x) : ending s (seq (one p) b) i c = none := by
  rw [ending_seq, runs_one]
  rcases hi : s[i]? with - | x
  · rfl
  · simp only [if_neg (hx x hi)]
    rfl

/-- The ways in which a greedy loop over a class can end: after all characters that are there,
and then with one fewer each time. -/
theorem runs_span {x rest : List α} (hs : s.drop i = x ++ rest) (hx : ∀ y ∈ x, p y)
    (hrest : ∀ y ∈ rest.head?, ¬p y) :
    runs s (span p) i c = (List.range (x.length + 1)).reverse.map fun k => (i + k, c) := by
  have hlength : x.length ≤ s.length - i := by
    have := congrArg List.length hs
    simp only [List.length_drop, List.length_append] at this
    omega
  rw [span, runs_star]
  generalize s.length - i = fuel at hlength
  induction x generalizing i fuel with
  | nil =>
    have hstop : runs s (one p) i c = [] := by
      rw [runs_one]
      rcases hi : s[i]? with - | y
      · rfl
      · rw [← List.head?_drop, hs] at hi
        exact if_neg (hrest y hi)
    rcases fuel with - | fuel
    · rfl
    · simp [rounds_succ, hstop]
  | cons y x ih =>
    obtain ⟨fuel, rfl⟩ : ∃ f, fuel = f + 1 := ⟨fuel - 1, by rw [List.length_cons] at hlength; omega⟩
    obtain ⟨hget, hdrop⟩ := getElem?_of_drop hs
    obtain ⟨hy, hx⟩ := List.forall_mem_cons.mp hx
    have hone : runs s (one p) i c = [(i + 1, c)] := by simp [runs_one, hget, hy]
    have hmore := ih hdrop hx fuel (Nat.le_of_succ_le_succ hlength)
    rw [rounds_succ, hone]
    simp only [List.flatMap_singleton, if_neg (Nat.succ_ne_self i), if_true, hmore,
      List.length_cons]
    rw [List.range_succ_eq_map (n := x.length + 1)]
    simp [List.range_succ_eq_map, Function.comp_def, Nat.add_comm, Nat.add_left_comm]

/-- A captured part: where the matcher first tries to end it the rest can be matched. -/
theorem ending_group {n j : ℕ} {c' : Captures} (hhead : (runs s a i c).head? = some (j, c))
    (hb : ending s b j (Function.update c n (some (i, j))) = some c') :
    ending s (seq (group n a) b) i c = some c' := by
  obtain ⟨os, hos⟩ := List.head?_eq_some_iff.mp hhead
  rw [ending_seq, runs_group, hos, List.map_cons, List.findSome?_cons, hb]

/-- The first end that is tried is behind all characters of the class. -/
theorem head?_runs_span {x rest : List α} (hs : s.drop i = x ++ rest) (hx : ∀ y ∈ x, p y)
    (hrest : ∀ y ∈ rest.head?, ¬p y) : (runs s (span p) i c).head? = some (i + x.length, c) := by
  rw [runs_span hs hx hrest, List.range_succ, List.reverse_append]
  rfl

theorem head?_runs_span1 {x rest : List α} (hne : x ≠ []) (hs : s.drop i = x ++ rest)
    (hx : ∀ y ∈ x, p y) (hrest : ∀ y ∈ rest.head?, ¬p y) :
    (runs s (span1 p) i c).head? = some (i + x.length, c) := by
  obtain ⟨y, x, rfl⟩ := List.exists_cons_of_ne_nil hne
  obtain ⟨hget, hdrop⟩ := getElem?_of_drop hs
  obtain ⟨hy, hx⟩ := List.forall_mem_cons.mp hx
  have hone : runs s (one p) i c = [(i + 1, c)] := by simp [runs_one, hget, hy]
  rw [span1, runs_seq, hone, List.flatMap_singleton, head?_runs_span hdrop hx hrest, List.length_cons,
    Nat.add_assoc, Nat.add_comm 1]

/-! ### Rules for what a match captures -/

/-- On the part `rest` of the subject the expression matches up to the end, and the groups go from
the texts `t` to the texts `t'`. -/
def Yields (s : List α) (r : Regex α) (rest : List α) (t t' : ℕ → List α) : Prop :=
  ∀ i c, s.drop i = rest → i ≤ s.length → c.text s = t →
    ∃ c', ending s r i c = some c' ∧ c'.text s = t'

/-- On the part `rest` of the subject the expression does not match up to the end. -/
def Fails (s : List α) (r : Regex α) (rest : List α) : Prop :=
  ∀ i c, s.drop i = rest → ending s r i c = none

variable {rest : List α} {t t' : ℕ → List α}

theorem Yields.empty : Yields s empty [] t t := by
  intro i c hs hi hc
  have hend : i = s.length := Nat.le_antisymm hi (List.drop_eq_nil_iff.mp hs)
  subst hend
  exact ⟨c, ending_empty, hc⟩

theorem Yields.seq_empty (h : Yields s (seq a Regex.empty) rest t t') : Yields s a rest t t' := by
  intro i c hs hi hc
  obtain ⟨c', hend, htext⟩ := h i c hs hi hc
  refine ⟨c', ?_, htext⟩
  rw [← hend, ending_seq, ending]
  simp only [ending, runs_empty, List.findSome?_cons, List.findSome?_nil]
  congr 1
  funext o
  split_ifs <;> rfl

theorem Yields.assoc (h : Yields s (seq a (seq b d)) rest t t') :
    Yields s (seq (seq a b) d) rest t t' := by
  simpa only [Yields, ending_seq_assoc] using h

theorem Yields.one {x : α} (hx : p x) (h : Yields s b rest t t') :
    Yields s (seq (one p) b) (x :: rest) t t' := by
  intro i c hs hi hc
  rw [ending_one hs hx]
  refine h (i + 1) c (getElem?_of_drop hs).2 ?_ hc
  have := congrArg List.length hs
  rw [List.length_drop, List.length_cons] at this
  omega

theorem Yields.group {n : ℕ} {x : List α}
    (hhead : ∀ i c, s.drop i = x ++ rest → (runs s a i c).head? = some (i + x.length, c))
    (h : Yields s b rest (Function.update t n x) t') :
    Yields s (seq (group n a) b) (x ++ rest) t t' := by
  intro i c hs hi hc
  have hlength := congrArg List.length hs
  rw [List.length_drop, List.length_append] at hlength
  have hdrop : s.drop (i + x.length) = rest := by
    rw [← List.drop_drop, hs, List.drop_left]
  obtain ⟨c', hend, htext⟩ := h (i + x.length) (Function.update c n (some (i, i + x.length)))
    hdrop (by omega) (by
      funext m
      by_cases hm : m = n
      · subst hm
        simp [Captures.text, hs]
      · rw [Function.update_of_ne hm, ← hc]
        simp [Captures.text, hm])
  exact ⟨c', ending_group (hhead i c hs) hend, htext⟩

theorem Yields.group_span {n : ℕ} {x : List α} (hx : ∀ y ∈ x, p y)
    (hrest : ∀ y ∈ rest.head?, ¬p y) (h : Yields s b rest (Function.update t n x) t') :
    Yields s (seq (Regex.group n (span p)) b) (x ++ rest) t t' :=
  .group (fun _ _ hs => head?_runs_span hs hx hrest) h

theorem Yields.group_span1 {n : ℕ} {x : List α} (hne : x ≠ []) (hx : ∀ y ∈ x, p y)
    (hrest : ∀ y ∈ rest.head?, ¬p y) (h : Yields s b rest (Function.update t n x) t') :
    Yields s (seq (Regex.group n (span1 p)) b) (x ++ rest) t t' :=
  .group (fun _ _ hs => head?_runs_span1 hne hs hx hrest) h

/-- At the start of the subject an assertion sees nothing before it. -/
theorem fullMatch_assertion {q : Option α → Option α → Bool} (hq : ∀ next, q none next) :
    fullMatch s (seq (assertion q) b) = fullMatch s b := by
  simp [fullMatch, ending_seq, runs_assertion, hq]

/-- What the groups have captured of the whole subject. -/
theorem Yields.fullMatch (h : Yields s a s (fun _ => []) t') :
    (Regex.fullMatch s a).map (·.text s) = some t' := by
  obtain ⟨c', hend, htext⟩ := h 0 (fun _ => none) rfl (Nat.zero_le _) rfl
  rw [Regex.fullMatch, hend, Option.map_some, htext]

theorem Yields.opt (h : Yields s (seq a b) rest t t') :
    Yields s (seq (opt a) b) rest t t' := by
  intro i c hs hi hc
  obtain ⟨c', hend, htext⟩ := h i c hs hi hc
  exact ⟨c', by rw [ending_opt, hend, Option.some_or], htext⟩

theorem Yields.skip (hfails : Fails s (seq a b) rest) (h : Yields s b rest t t') :
    Yields s (seq (Regex.opt a) b) rest t t' := by
  intro i c hs hi hc
  rw [ending_opt, hfails i c hs, Option.none_or]
  exact h i c hs hi hc

theorem Fails.assoc (h : Fails s (seq a (seq b d)) rest) : Fails s (seq (seq a b) d) rest := by
  simpa only [Fails, ending_seq_assoc] using h

theorem Fails.one (h : ∀ x ∈ rest.head?, ¬p x) : Fails s (seq (one p) b) rest := by
  intro i c hs
  refine ending_one_of_not ?_
  rw [← List.head?_drop, hs]
  exact h

theorem Fails.behind {x : α} (h : Fails s b rest) : Fails s (seq (Regex.one p) b) (x :: rest) := by
  intro i c hs
  obtain ⟨hget, hdrop⟩ := getElem?_of_drop hs
  rw [ending_seq, runs_one, hget]
  simp only
  split_ifs
  · simpa using h (i + 1) c hdrop
  · rfl

theorem Fails.group_span1 {n : ℕ} (h : ∀ x ∈ rest.head?, ¬p x) :
    Fails s (seq (Regex.group n (span1 p)) b) rest := by
  intro i c hs
  have hone : runs s (Regex.one p) i c = [] := by
    rw [runs_one, ← List.head?_drop, hs]
    rcases hx : rest.head? with - | x
    · rfl
    · exact if_neg (h x hx)
  rw [ending_seq, runs_group, span1, runs_seq, hone]
  rfl

theorem exists_of_mem_runs_seq {o : Outcome} (h : o ∈ runs s (seq a b) i c) :
    ∃ o' ∈ runs s a i c, o ∈ runs s b o'.1 o'.2 := List.mem_flatMap.mp h

/-- A match that ends with the subject is one of the ways to match. -/
theorem exists_of_ending {c' : Captures} (h : ending s a i c = some c') :
    ∃ o ∈ runs s a i c, o.1 = s.length := by
  obtain ⟨o, ho, hend⟩ := List.exists_of_findSome?_eq_some h
  split_ifs at hend with hlength
  exact ⟨o, ho, hlength⟩

/-! ### Expressions over a class -/

/-- Every character the expression matches is in a class. -/
def Over (p : α → Prop) : Regex α → Prop
  | empty => True
  | one q => ∀ x, q x → p x
  | seq a b => Over p a ∧ Over p b
  | alt a b => Over p a ∧ Over p b
  | star _ a => Over p a
  | group _ a => Over p a
  | _ => False

/-- The characters between two positions are in a class. -/
def Passes (p : α → Prop) (s : List α) (i j : ℕ) : Prop :=
  i ≤ j ∧ ∀ k, i ≤ k → k < j → ∃ x, s[k]? = some x ∧ p x

omit [DecidableEq α] in
theorem Passes.refl (q : α → Prop) (i : ℕ) : Passes q s i i :=
  ⟨Nat.le_refl i, fun _ hik hki => absurd hik (Nat.not_le.mpr hki)⟩

omit [DecidableEq α] in
theorem Passes.trans {q : α → Prop} {j k : ℕ} (hij : Passes q s i j) (hjk : Passes q s j k) :
    Passes q s i k := by
  refine ⟨Nat.le_trans hij.1 hjk.1, fun m him hmk => ?_⟩
  rcases Nat.lt_or_ge m j with hmj | hjm
  · exact hij.2 m him hmj
  · exact hjk.2 m hjm hmk

/-- **An expression over a class** passes no other character. -/
theorem passes_of_mem_runs {q : α → Prop} {r : Regex α} (hr : r.Over q) {o : Outcome}
    (ho : o ∈ runs s r i c) : Passes q s i o.1 := by
  induction r generalizing i c o with
  | empty =>
    rw [runs_empty, List.mem_singleton] at ho
    rw [ho]
    exact .refl q i
  | one p =>
    rw [runs_one] at ho
    rcases hi : s[i]? with - | x
    · simp [hi] at ho
    · simp only [hi] at ho
      split_ifs at ho with hx
      · rw [List.mem_singleton.mp ho]
        refine ⟨Nat.le_succ i, fun k hik hki => ⟨x, ?_, hr x hx⟩⟩
        rw [← hi, Nat.le_antisymm (Nat.le_of_lt_succ hki) hik]
      · exact absurd ho List.not_mem_nil
  | seq a b iha ihb =>
    obtain ⟨o', ho', ho⟩ := List.mem_flatMap.mp ho
    exact (iha hr.1 ho').trans (ihb hr.2 ho)
  | alt a b iha ihb =>
    rcases List.mem_append.mp ho with ho | ho
    · exact iha hr.1 ho
    · exact ihb hr.2 ho
  | star greedy a iha =>
    rw [runs_star] at ho
    generalize s.length - i = fuel at ho
    induction fuel generalizing i c with
    | zero =>
      rw [rounds_zero, List.mem_singleton] at ho
      rw [ho]
      exact .refl q i
    | succ fuel ih =>
      have hmore : o = (i, c) ∨ o ∈ (runs s a i c).flatMap fun o' =>
          if o'.1 = i then [] else rounds greedy (runs s a) fuel o'.1 o'.2 := by
        rw [rounds_succ] at ho
        split_ifs at ho with hgreedy
        · rcases List.mem_append.mp ho with ho | ho
          · exact .inr ho
          · exact .inl (List.mem_singleton.mp ho)
        · exact List.mem_cons.mp ho
      rcases hmore with rfl | hmore
      · exact .refl q i
      · obtain ⟨o', ho', hround⟩ := List.mem_flatMap.mp hmore
        split_ifs at hround
        · exact absurd hround List.not_mem_nil
        · exact (iha hr ho').trans (ih hround)
  | group n a iha =>
    obtain ⟨o', ho', rfl⟩ := List.mem_map.mp ho
    have hpass := iha hr ho'
    exact hpass
  | backref n => exact hr.elim
  | assertion p => exact hr.elim
  | lookahead positive a => exact hr.elim
  | lookbehind positive a => exact hr.elim

/-- A mark behind an expression over a class is not found where other characters come first. -/
theorem Fails.mark {q : α → Prop} {m : α → Bool} {x tail : List α} (ha : a.Over q)
    (hx : ∀ y ∈ x, ¬m y) (htail : ∀ y ∈ tail.head?, ¬q y ∧ ¬m y) :
    Fails s (seq a (seq (Regex.one m) b)) (x ++ tail) := by
  intro i c hs
  rw [ending_seq, List.findSome?_eq_none_iff]
  intro o ho
  refine ending_one_of_not fun y hy hmark => ?_
  obtain ⟨hle, hpass⟩ := passes_of_mem_runs ha ho
  have hget (k : ℕ) : s[i + k]? = (x ++ tail)[k]? := by
    rw [← hs, List.getElem?_drop]
  rcases Nat.lt_or_ge (o.1 - i) x.length with hlt | hge
  · have hat := hget (o.1 - i)
    rw [Nat.add_sub_cancel' hle, List.getElem?_append_left hlt] at hat
    exact hx y (List.mem_of_getElem? (hat.symm.trans hy)) hmark
  · -- the first character behind `x` is passed or is the mark
    have hat := hget x.length
    rw [List.getElem?_append_right (Nat.le_refl _), Nat.sub_self, ← List.head?_eq_getElem?] at hat
    rcases Nat.lt_or_ge (i + x.length) o.1 with hlt | hge'
    · obtain ⟨z, hz, hqz⟩ := hpass _ (Nat.le_add_right _ _) hlt
      exact (htail z (hat.symm.trans hz)).1 hqz
    · have heq : i + x.length = o.1 := by omega
      rw [heq] at hat
      exact (htail y (hat.symm.trans hy)).2 hmark

end Regex

end TsAot
