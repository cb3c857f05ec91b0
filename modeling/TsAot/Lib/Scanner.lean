import Mathlib.Data.List.TakeDrop
import Mathlib.Order.Basic

/-!
# Scanning bytes

A cursor stands somewhere in a list of bytes and knows its offset, its line and its column, all of
which move with it. A line ends with LF, with CR, or with both; the two together are passed in one
step.

* `Cursor.At source c`: the cursor is in the source, between two steps, and its line and column are
  those of the offset (`place`);
* `Reaches c d`: the cursor `d` is the cursor `c` after some steps, so `d` is in the source if `c`
  is;
* `whileNotAtEnd body`: a loop that ends with the input at the latest, and its invariant rule.
-/

namespace TsAot.Scanner

def lineFeed : UInt8 := 10
def carriageReturn : UInt8 := 13

/-- The input that is left, and where it begins. -/
structure Cursor where
  rest : List UInt8
  pos : ℕ
  line : ℕ
  column : ℕ
  deriving DecidableEq

namespace Cursor

variable (c : Cursor)

def isAtEnd : Bool := c.rest.isEmpty

/-- The next byte, zero at the end. -/
def peek : UInt8 := c.rest.headD 0

/-- The byte `offset` bytes ahead. -/
def peekAt (offset : ℕ) : UInt8 := c.rest.getD offset 0

/-- One step: a byte, or a CR and the LF after it. -/
def advance : Cursor :=
  match c.rest with
  | [] => c
  | b :: rest =>
    if b = lineFeed then ⟨rest, c.pos + 1, c.line + 1, 1⟩
    else if b = carriageReturn then
      match rest with
      | b' :: rest' =>
        if b' = lineFeed then ⟨rest', c.pos + 2, c.line + 1, 1⟩
        else ⟨rest, c.pos + 1, c.line + 1, 1⟩
      | [] => ⟨rest, c.pos + 1, c.line + 1, 1⟩
    else ⟨rest, c.pos + 1, c.line, c.column + 1⟩

/-- Some steps. -/
def advanceBy (c : Cursor) : ℕ → Cursor
  | 0 => c
  | n + 1 => c.advance.advanceBy n

end Cursor

/-! ### Lines and columns -/

/-- The line and the column after one more byte; the flag says that the byte before was a CR. -/
def move (p : ℕ × ℕ × Bool) (b : UInt8) : ℕ × ℕ × Bool :=
  if b = lineFeed then (if p.2.2 then p.1 else p.1 + 1, 1, false)
  else if b = carriageReturn then (p.1 + 1, 1, true)
  else (p.1, p.2.1 + 1, false)

/-- The line and the column behind some bytes, both from `1`. -/
def place (before : List UInt8) : ℕ × ℕ :=
  let p := before.foldl move (1, 1, false)
  (p.1, p.2.1)

/-- The cursor is in the source, and not between a CR and its LF. -/
def Cursor.At (source : List UInt8) (c : Cursor) : Prop :=
  ∃ before cr, source = before ++ c.rest ∧ c.pos = before.length ∧
    before.foldl move (1, 1, false) = (c.line, c.column, cr) ∧
    (cr = true → c.rest.head? ≠ some lineFeed)

variable {source : List UInt8} {c d e : Cursor}

theorem Cursor.at_start (source : List UInt8) : Cursor.At source ⟨source, 0, 1, 1⟩ :=
  ⟨[], false, rfl, rfl, rfl, by simp⟩

theorem Cursor.At.advance (h : c.At source) : c.advance.At source := by
  obtain ⟨before, cr, hsource, hpos, hplace, hcr⟩ := h
  rcases c with ⟨rest, pos, line, column⟩
  dsimp only at hsource hpos hplace hcr
  subst hpos
  rcases rest with - | ⟨b, rest⟩
  · exact ⟨before, cr, hsource, rfl, hplace, hcr⟩
  have hsource' : source = before ++ [b] ++ rest := by simpa using hsource
  have hstep : (before ++ [b]).foldl move (1, 1, false) = move (line, column, cr) b := by
    rw [List.foldl_append, hplace]
    rfl
  by_cases hlf : b = lineFeed
  · -- the LF of a CR LF is never met alone
    have hnotcr : cr = false := by
      rcases cr with - | -
      · rfl
      · exact absurd (by rw [hlf]; rfl) (hcr rfl)
    refine ⟨before ++ [b], false, ?_, ?_, ?_, nofun⟩
    · simpa [Cursor.advance, hlf] using hsource
    · simp [Cursor.advance, hlf]
    · rw [hstep]
      simp [Cursor.advance, move, hlf, hnotcr]
  by_cases hcrb : b = carriageReturn
  · have hne : carriageReturn ≠ lineFeed := by decide
    rcases rest with - | ⟨b', rest⟩
    · refine ⟨before ++ [b], true, ?_, ?_, ?_, ?_⟩
      · simpa [Cursor.advance, hcrb, hne] using hsource
      · simp [Cursor.advance, hcrb, hne]
      · rw [hstep]
        simp [Cursor.advance, move, hcrb, hne]
      · simp [Cursor.advance, hcrb, hne]
    by_cases hlf' : b' = lineFeed
    · refine ⟨before ++ [b, b'], false, ?_, ?_, ?_, nofun⟩
      · simpa [Cursor.advance, hcrb, hne, hlf'] using hsource
      · simp [Cursor.advance, hcrb, hne, hlf']
      · rw [List.foldl_append, hplace]
        simp [Cursor.advance, move, hcrb, hne, hlf']
    · refine ⟨before ++ [b], true, ?_, ?_, ?_, ?_⟩
      · simpa [Cursor.advance, hcrb, hne, hlf'] using hsource
      · simp [Cursor.advance, hcrb, hne, hlf']
      · rw [hstep]
        simp [Cursor.advance, move, hcrb, hne, hlf']
      · simp [Cursor.advance, hcrb, hne, hlf']
  · refine ⟨before ++ [b], false, ?_, ?_, ?_, nofun⟩
    · simpa [Cursor.advance, hlf, hcrb] using hsource
    · simp [Cursor.advance, hlf, hcrb]
    · rw [hstep]
      simp [Cursor.advance, move, hlf, hcrb]

theorem Cursor.At.place_eq (h : c.At source) :
    place (source.take c.pos) = (c.line, c.column) := by
  obtain ⟨before, cr, hsource, hpos, hplace, -⟩ := h
  rw [hsource, hpos, List.take_left, place, hplace]

theorem Cursor.At.drop_eq (h : c.At source) : source.drop c.pos = c.rest := by
  obtain ⟨before, cr, hsource, hpos, -, -⟩ := h
  rw [hsource, hpos, List.drop_left]

theorem Cursor.At.length_eq (h : c.At source) : source.length = c.pos + c.rest.length := by
  obtain ⟨before, cr, hsource, hpos, -, -⟩ := h
  rw [hsource, List.length_append, hpos]

/-! ### Steps -/

/-- Some steps lead from one cursor to the other. -/
def Reaches (c d : Cursor) : Prop := ∃ n, d = c.advanceBy n

theorem Reaches.refl (c : Cursor) : Reaches c c := ⟨0, rfl⟩

theorem advanceBy_add (c : Cursor) (m n : ℕ) :
    c.advanceBy (m + n) = (c.advanceBy m).advanceBy n := by
  induction m generalizing c with
  | zero => rw [Nat.zero_add]; rfl
  | succ m ih => rw [Nat.succ_add, Cursor.advanceBy, Cursor.advanceBy, ih]

theorem Reaches.trans (h : Reaches c d) (h' : Reaches d e) : Reaches c e := by
  obtain ⟨m, rfl⟩ := h
  obtain ⟨n, rfl⟩ := h'
  exact ⟨m + n, (advanceBy_add c m n).symm⟩

theorem reaches_advanceBy (c : Cursor) (n : ℕ) : Reaches c (c.advanceBy n) := ⟨n, rfl⟩

theorem reaches_advance (c : Cursor) : Reaches c c.advance := ⟨1, rfl⟩

theorem Cursor.At.reaches (h : c.At source) (hreaches : Reaches c d) : d.At source := by
  obtain ⟨n, rfl⟩ := hreaches
  induction n generalizing c with
  | zero => exact h
  | succ n ih => exact ih h.advance

/-- A step off the end passes one or two bytes. -/
theorem exists_advance (h : c.isAtEnd = false) :
    ∃ bytes, bytes ≠ [] ∧ c.rest = bytes ++ c.advance.rest ∧
      c.advance.pos = c.pos + bytes.length := by
  rcases c with ⟨rest, pos, line, column⟩
  rcases rest with - | ⟨b, rest⟩
  · cases h
  simp only [Cursor.advance]
  split_ifs with hlf hcr
  · exact ⟨[b], by simp, rfl, rfl⟩
  · rcases rest with - | ⟨b', rest⟩
    · exact ⟨[b], by simp, rfl, rfl⟩
    · dsimp only
      split_ifs
      · exact ⟨[b, b'], by simp, rfl, rfl⟩
      · exact ⟨[b], by simp, rfl, rfl⟩
  · exact ⟨[b], by simp, rfl, rfl⟩

theorem advance_of_isAtEnd (h : c.isAtEnd = true) : c.advance = c := by
  rcases c with ⟨rest, pos, line, column⟩
  rcases rest with - | ⟨b, rest⟩
  · rfl
  · cases h

theorem Reaches.exists_bytes (h : Reaches c d) :
    ∃ bytes, c.rest = bytes ++ d.rest ∧ d.pos = c.pos + bytes.length := by
  obtain ⟨n, rfl⟩ := h
  induction n generalizing c with
  | zero => exact ⟨[], rfl, rfl⟩
  | succ n ih =>
    obtain ⟨bytes, hrest, hpos⟩ := ih (c := c.advance)
    rw [Cursor.advanceBy]
    rcases hend : c.isAtEnd with - | -
    · obtain ⟨first, -, hfirst, hfirstpos⟩ := exists_advance hend
      refine ⟨first ++ bytes, ?_, ?_⟩
      · rw [hfirst, hrest, List.append_assoc]
      · rw [hpos, hfirstpos, List.length_append, Nat.add_assoc]
    · rw [advance_of_isAtEnd hend] at hrest hpos ⊢
      exact ⟨bytes, hrest, hpos⟩

theorem Reaches.pos_le (h : Reaches c d) : c.pos ≤ d.pos := by
  obtain ⟨bytes, -, hpos⟩ := h.exists_bytes
  omega

/-- The further a cursor is, the less is left. -/
theorem Reaches.length_eq (h : Reaches c d) : c.pos + c.rest.length = d.pos + d.rest.length := by
  obtain ⟨bytes, hrest, hpos⟩ := h.exists_bytes
  rw [hrest, hpos, List.length_append]
  omega

theorem pos_lt_advance (h : c.isAtEnd = false) : c.pos < c.advance.pos := by
  obtain ⟨bytes, hne, -, hpos⟩ := exists_advance h
  have := List.length_pos_iff.mpr hne
  omega

/-- A first step, and then others. -/
theorem pos_lt_of_advance (h : c.isAtEnd = false) (h' : Reaches c.advance d) : c.pos < d.pos :=
  Nat.lt_of_lt_of_le (pos_lt_advance h) h'.pos_le

/-- The bytes between two cursors. -/
def bytesTo (c d : Cursor) : List UInt8 := c.rest.take (d.pos - c.pos)

theorem Reaches.bytesTo_append (h : Reaches c d) : c.rest = bytesTo c d ++ d.rest := by
  obtain ⟨bytes, hrest, hpos⟩ := h.exists_bytes
  rw [bytesTo, hrest, hpos, Nat.add_sub_cancel_left, List.take_left]

theorem Reaches.length_bytesTo (h : Reaches c d) : (bytesTo c d).length = d.pos - c.pos := by
  obtain ⟨bytes, hrest, hpos⟩ := h.exists_bytes
  rw [bytesTo, hrest, hpos, Nat.add_sub_cancel_left, List.take_left]

theorem bytesTo_trans (h : Reaches c d) (h' : Reaches d e) :
    bytesTo c e = bytesTo c d ++ bytesTo d e := by
  have hrest := h'.bytesTo_append
  have hall := (h.trans h').bytesTo_append
  rw [h.bytesTo_append, hrest, ← List.append_assoc] at hall
  exact (List.append_cancel_right hall).symm

theorem bytesTo_self (c : Cursor) : bytesTo c c = [] := by
  rw [bytesTo, Nat.sub_self, List.take_zero]

/-- No step, or a first one and then others. -/
theorem Reaches.eq_or_advance (h : Reaches c d) : d = c ∨ Reaches c.advance d := by
  obtain ⟨n, rfl⟩ := h
  cases n with
  | zero => exact Or.inl rfl
  | succ n => exact Or.inr ⟨n, rfl⟩

theorem reaches_advance_advanceBy {n : ℕ} (hn : 0 < n) : Reaches c.advance (c.advanceBy n) := by
  obtain ⟨k, rfl⟩ := Nat.exists_eq_succ_of_ne_zero (by omega : n ≠ 0)
  exact ⟨k, rfl⟩

/-- Bytes that end no line are passed one by one. -/
theorem rest_advanceBy {bytes rest : List UInt8} (hrest : c.rest = bytes ++ rest)
    (hplain : ∀ b ∈ bytes, b ≠ lineFeed ∧ b ≠ carriageReturn) :
    (c.advanceBy bytes.length).rest = rest ∧
      (c.advanceBy bytes.length).pos = c.pos + bytes.length := by
  induction bytes generalizing c with
  | nil => exact ⟨hrest, rfl⟩
  | cons b bytes ih =>
    obtain ⟨hlf, hcr⟩ := hplain b List.mem_cons_self
    have hadvance : c.advance = ⟨bytes ++ rest, c.pos + 1, c.line, c.column + 1⟩ := by
      simp [Cursor.advance, hrest, hlf, hcr]
    have hstep := ih (c := c.advance) (by rw [hadvance])
      fun b hb => hplain b (List.mem_cons_of_mem _ hb)
    rw [List.length_cons, Cursor.advanceBy]
    refine ⟨hstep.1, hstep.2.trans ?_⟩
    rw [hadvance]
    dsimp only
    omega

theorem bytesTo_advanceBy {bytes rest : List UInt8} (hrest : c.rest = bytes ++ rest)
    (hplain : ∀ b ∈ bytes, b ≠ lineFeed ∧ b ≠ carriageReturn) :
    bytesTo c (c.advanceBy bytes.length) = bytes := by
  rw [bytesTo, (rest_advanceBy hrest hplain).2, Nat.add_sub_cancel_left, hrest, List.take_left]

/-! ### Loops -/

/-- What a loop body does: go on, break, or throw. -/
inductive Step (σ : Type)
  | next (c : Cursor) (s : σ)
  | stop (c : Cursor) (s : σ)
  | fail (message : String)

variable {σ : Type} {body : Cursor → σ → Step σ} {s s' : σ}

/-- At most `n` turns of a loop. -/
def turns (body : Cursor → σ → Step σ) : ℕ → Cursor → σ → Except String (Cursor × σ)
  | 0, c, s => .ok (c, s)
  | n + 1, c, s =>
    if c.isAtEnd then .ok (c, s)
    else match body c s with
      | .next c' s' => turns body n c' s'
      | .stop c' s' => .ok (c', s')
      | .fail message => .error message

theorem turns_zero (body : Cursor → σ → Step σ) (c : Cursor) (s : σ) :
    turns body 0 c s = .ok (c, s) := rfl

theorem turns_succ (body : Cursor → σ → Step σ) (n : ℕ) (c : Cursor) (s : σ) :
    turns body (n + 1) c s = if c.isAtEnd then .ok (c, s)
      else match body c s with
        | .next c' s' => turns body n c' s'
        | .stop c' s' => .ok (c', s')
        | .fail message => .error message := rfl

/-- `while (!isAtEnd()) body`, of a body that goes on from a later place. -/
def whileNotAtEnd (body : Cursor → σ → Step σ) (c : Cursor) (s : σ) :
    Except String (Cursor × σ) :=
  turns body c.rest.length c s

/-- The cursor is moved forward, and really so if the loop goes on. -/
def Step.Forward (c : Cursor) : Step σ → Prop
  | .next d _ => Reaches c.advance d
  | .stop d _ => Reaches c d
  | .fail _ => True

/-- The body moves the cursor forward. -/
def Moves (body : Cursor → σ → Step σ) : Prop :=
  ∀ c s, c.isAtEnd = false → (body c s).Forward c

theorem Moves.next (hmoves : Moves body) (hnot : c.isAtEnd = false) (h : body c s = .next d s') :
    Reaches c.advance d := by
  have hforward := hmoves c s hnot
  rwa [h] at hforward

theorem Moves.stop (hmoves : Moves body) (hnot : c.isAtEnd = false) (h : body c s = .stop d s') :
    Reaches c d := by
  have hforward := hmoves c s hnot
  rwa [h] at hforward

/-- **The invariant rule.** What holds before the loop and is kept by its turns gives what holds
after it, at a break or at the end of the input. -/
theorem Moves.rule (hmoves : Moves body) {I Q : Cursor → σ → Prop}
    (hnext : ∀ {c s c' s'}, I c s → c.isAtEnd = false → body c s = .next c' s' → I c' s')
    (hstop : ∀ {c s c' s'}, I c s → c.isAtEnd = false → body c s = .stop c' s' → Q c' s')
    (hend : ∀ {c s}, I c s → c.isAtEnd = true → Q c s)
    (h : I c s) (hloop : whileNotAtEnd body c s = .ok (d, s')) : Q d s' := by
  suffices hturns : ∀ n c s, c.rest.length ≤ n → I c s → turns body n c s = .ok (d, s') → Q d s' from
    hturns _ c s (Nat.le_refl _) h hloop
  clear h hloop
  intro n
  induction n with
  | zero =>
    intro c s hlength h hturns
    have hempty : c.rest = [] := List.length_eq_zero_iff.mp (Nat.le_zero.mp hlength)
    cases hturns
    exact hend h (by rw [Cursor.isAtEnd, hempty]; rfl)
  | succ n ih =>
    intro c s hlength h hturns
    rw [turns_succ] at hturns
    split at hturns
    · rename_i hatEnd
      cases hturns
      exact hend h hatEnd
    · rename_i hnot
      have hnot' : c.isAtEnd = false := by simpa using hnot
      split at hturns
      · rename_i c' s'' hbody
        have hreaches := hmoves.next hnot' hbody
        have hlt := pos_lt_of_advance hnot' hreaches
        have hlen := ((reaches_advance c).trans hreaches).length_eq
        exact ih c' s'' (by omega) (hnext h hnot' hbody) hturns
      · rename_i c' s'' hbody
        cases hturns
        exact hstop h hnot' hbody
      · cases hturns

/-- The turns that are allowed do not matter when there are enough. -/
theorem Moves.turns_eq (hmoves : Moves body) {n : ℕ} (hn : c.rest.length ≤ n) :
    turns body n c s = whileNotAtEnd body c s := by
  suffices hsame : ∀ m n c s, c.rest.length ≤ m → c.rest.length ≤ n →
      turns body m c s = turns body n c s from hsame _ _ _ _ hn (Nat.le_refl _)
  clear hn
  intro m
  induction m with
  | zero =>
    intro n c s hm _
    have hend : c.isAtEnd = true := by
      rw [Cursor.isAtEnd, List.length_eq_zero_iff.mp (Nat.le_zero.mp hm)]
      rfl
    cases n with
    | zero => rfl
    | succ n => rw [turns_zero, turns_succ, if_pos hend]
  | succ m ih =>
    intro n c s hm hn
    rcases hend : c.isAtEnd with - | -
    · cases n with
      | zero =>
        have hlen : c.rest = [] := List.length_eq_zero_iff.mp (Nat.le_zero.mp hn)
        rw [Cursor.isAtEnd, hlen] at hend
        cases hend
      | succ n =>
        rw [turns_succ, turns_succ, hend]
        rcases hbody : body c s with ⟨c', s'⟩ | ⟨c', s'⟩ | message
        · have hreaches := hmoves.next hend hbody
          have hlt := pos_lt_of_advance hend hreaches
          have hlen := ((reaches_advance c).trans hreaches).length_eq
          exact ih n c' s' (by omega) (by omega)
        · rfl
        · rfl
    · cases n with
      | zero => rw [turns_succ, turns_zero, if_pos hend]
      | succ n => rw [turns_succ, turns_succ, if_pos hend, if_pos hend]

theorem whileNotAtEnd_end (h : c.isAtEnd = true) : whileNotAtEnd body c s = .ok (c, s) := by
  rw [whileNotAtEnd]
  cases c.rest.length with
  | zero => rfl
  | succ n => rw [turns_succ, if_pos h]

theorem length_pos_of_not_atEnd (h : c.isAtEnd = false) :
    ∃ n, c.rest.length = n + 1 := by
  rcases c with ⟨rest, pos, line, column⟩
  rcases rest with - | ⟨b, rest⟩
  · cases h
  · exact ⟨rest.length, rfl⟩

/-- A loop that goes on. -/
theorem Moves.whileNotAtEnd_next (hmoves : Moves body) (hnot : c.isAtEnd = false)
    (h : body c s = .next d s') : whileNotAtEnd body c s = whileNotAtEnd body d s' := by
  obtain ⟨n, hn⟩ := length_pos_of_not_atEnd hnot
  have hreaches := hmoves.next hnot h
  have hlt := pos_lt_of_advance hnot hreaches
  have hlen := ((reaches_advance c).trans hreaches).length_eq
  rw [whileNotAtEnd, hn, turns_succ, hnot, if_neg Bool.false_ne_true, h]
  exact hmoves.turns_eq (by omega)

/-- A loop that breaks. -/
theorem whileNotAtEnd_stop (hnot : c.isAtEnd = false) (h : body c s = .stop d s') :
    whileNotAtEnd body c s = .ok (d, s') := by
  obtain ⟨n, hn⟩ := length_pos_of_not_atEnd hnot
  rw [whileNotAtEnd, hn, turns_succ, hnot, if_neg Bool.false_ne_true, h]

/-- A loop moves the cursor forward. -/
theorem Moves.reaches_turns (hmoves : Moves body) {n : ℕ} (h : turns body n c s = .ok (d, s')) :
    Reaches c d := by
  induction n generalizing c s with
  | zero =>
    cases h
    exact Reaches.refl _
  | succ n ih =>
    rw [turns_succ] at h
    split at h
    · cases h
      exact Reaches.refl _
    · rename_i hnot
      have hnot' : c.isAtEnd = false := by simpa using hnot
      split at h
      · rename_i c' s'' hbody
        exact (reaches_advance c).trans ((hmoves.next hnot' hbody).trans (ih h))
      · rename_i c' s'' hbody
        cases h
        exact hmoves.stop hnot' hbody
      · cases h

theorem Moves.reaches (hmoves : Moves body) (h : whileNotAtEnd body c s = .ok (d, s')) :
    Reaches c d :=
  hmoves.reaches_turns h

/-- A loop that does not break at once makes a step. -/
theorem Moves.reaches_of_next (hmoves : Moves body) (hnot : c.isAtEnd = false)
    (hfirst : ∀ c' s', body c s ≠ .stop c' s') (h : whileNotAtEnd body c s = .ok (d, s')) :
    Reaches c.advance d := by
  obtain ⟨b, rest, hrest⟩ : ∃ b rest, c.rest = b :: rest := by
    rcases hr : c.rest with - | ⟨b, rest⟩
    · rw [Cursor.isAtEnd, hr] at hnot
      cases hnot
    · exact ⟨b, rest, rfl⟩
  rw [whileNotAtEnd, hrest, List.length_cons, turns_succ, if_neg (by simp [hnot])] at h
  split at h
  · rename_i c' s'' hbody
    exact (hmoves.next hnot hbody).trans (hmoves.reaches_turns h)
  · rename_i c' s'' hbody
    exact absurd hbody (hfirst _ _)
  · cases h

/-! ### Sequences -/

/-- A sequence gives a result when both of its parts do. -/
theorem bind_eq_ok {ε α β : Type} {x : Except ε α} {f : α → Except ε β} {b : β} :
    (x >>= f) = .ok b ↔ ∃ a, x = .ok a ∧ f a = .ok b := by
  cases x with
  | error e => exact ⟨nofun, fun ⟨_, h, _⟩ => nomatch h⟩
  | ok a => exact ⟨fun h => ⟨a, rfl, h⟩, fun ⟨_, h, h'⟩ => by cases h; exact h'⟩

end TsAot.Scanner
