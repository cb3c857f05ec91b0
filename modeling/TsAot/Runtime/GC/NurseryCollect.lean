import TsAot.Runtime.GC.NurseryLayout
import Mathlib.Data.List.Nodup

/-!
# What a minor collection leaves in the nursery

The phases before the last one change only bits of prefixes and words of objects, so all of
them walk the same objects; which of these end up pinned is `Survives`: an address on the
stack points into the object, or the tracing marks it and its copy finds no room. The last
phase zeroes the rest and cuts it into fragments.
-/

namespace TsAot

namespace GC

variable {r : NurseryRegion} {objects : List NurseryObject}

/-- The word of the stack points into the body of the object. -/
def PointsInto (r : NurseryRegion) (w : Word) (o : NurseryObject) : Bool :=
  4096 ≤ w.toNat && w.toNat ≤ 0x00007FFFFFFFFFFF && r.base + o.data ≤ w.toNat &&
    w.toNat < r.base + o.stop

/-- The objects a minor collection leaves where they are. -/
def Survives (r : NurseryRegion) (inputs : Nursery.MinorInputs) (o : NurseryObject) : Bool :=
  inputs.stack.any (PointsInto r · o) || (inputs.live o.offset && !inputs.promotes o.offset)

theorem pointsInto_iff {w : Word} {o : NurseryObject} : PointsInto r w o = true ↔
    4096 ≤ w.toNat ∧ w.toNat ≤ 0x00007FFFFFFFFFFF ∧ r.base + o.data ≤ w.toNat ∧
      w.toNat < r.base + o.stop := by
  simp only [PointsInto, Bool.and_eq_true, decide_eq_true_eq, and_assoc]

/-! ### The bits of the prefixes -/

/-- Between two phases: the objects are laid out, all of them below the high-water mark, with
these pin and mark bits. -/
structure Phase (r : NurseryRegion) (objects : List NurseryObject) (pin mark : NurseryObject → Bool)
    (n : Nursery) : Prop where
  layout : Layout r.size n.words objects
  highWater_le : n.highWater ≤ r.size
  highWater_aligned : n.highWater % 8 = 0
  below : ∀ o ∈ objects, o.stop ≤ n.highWater
  pinned : ∀ o ∈ objects, nurseryIsPinned (n.words o.offset) = pin o
  marked : ∀ o ∈ objects, nurseryIsMarked (n.words o.offset) = mark o
  count : n.pinnedCount = 0 ↔ ∀ o ∈ objects, pin o = false

namespace Phase

variable {pin mark : NurseryObject → Bool} {n : Nursery}

theorem congr (h : Phase r objects pin mark n) {pin' mark' : NurseryObject → Bool}
    (hpin : ∀ o ∈ objects, pin' o = pin o) (hmark : ∀ o ∈ objects, mark' o = mark o) :
    Phase r objects pin' mark' n where
  layout := h.layout
  highWater_le := h.highWater_le
  highWater_aligned := h.highWater_aligned
  below := h.below
  pinned := fun o ho => (h.pinned o ho).trans (hpin o ho).symm
  marked := fun o ho => (h.marked o ho).trans (hmark o ho).symm
  count := h.count.trans (forall₂_congr fun o ho => by rw [hpin o ho])

/-- All phases walk the same objects. -/
theorem mem_objects (h : Phase r objects pin mark n) {o : NurseryObject} :
    o ∈ n.objects ↔ o ∈ objects := by
  rw [Nursery.objects, h.layout.mem_walk h.highWater_le]
  refine and_iff_left_of_imp fun ho => ?_
  have hbelow := h.below o ho
  have hstop := o.stop_eq
  omega

/-- Setting the pin bit of one object. -/
theorem pin_one (h : Phase r objects pin mark n) {o : NurseryObject} (ho : o ∈ objects) :
    Phase r objects (fun o' => pin o' || decide (o' = o)) mark { n with
      words := Function.update n.words o.offset (n.words o.offset ||| nurseryPinBit)
      pinnedCount := n.pinnedCount + 1 } := by
  have hother : ∀ o' ∈ objects, o' ≠ o → o'.offset ≠ o.offset := fun o' ho' hne heq =>
    hne (h.layout.eq_of_offset_eq ho' ho heq)
  refine ⟨h.layout.congr (fun o' ho' => ?_) fun x hx => ?_, h.highWater_le,
    h.highWater_aligned, h.below,
    fun o' ho' => ?_, fun o' ho' => ?_, ?_⟩
  · dsimp only
    by_cases heq : o' = o
    · rw [heq, Function.update_self, nurseryGetSize_pin]
    · rw [Function.update_of_ne (hother o' ho' heq)]
  · refine Function.update_of_ne ?_ _ _
    have hstop := o.stop_eq
    have := hx o ho
    omega
  · dsimp only
    by_cases heq : o' = o
    · rw [heq, Function.update_self, nurseryIsPinned_pin, decide_eq_true rfl, Bool.or_true]
    · rw [Function.update_of_ne (hother o' ho' heq), h.pinned o' ho', decide_eq_false heq,
        Bool.or_false]
  · dsimp only
    by_cases heq : o' = o
    · rw [heq, Function.update_self, nurseryIsMarked_pin, h.marked o ho]
    · rw [Function.update_of_ne (hother o' ho' heq), h.marked o' ho']
  · refine iff_of_false (Nat.succ_ne_zero _) fun hnone => ?_
    simpa using hnone o ho

end Phase

/-- A pass over the objects that rewrites the prefix of each. -/
theorem foldl_prefix {step : NurseryWords → NurseryObject → NurseryWords}
    {F : NurseryObject → Word → Word}
    (hstep : ∀ words o x, step words o x = if x = o.offset then F o (words x) else words x)
    (l : List NurseryObject) (hl : l.Pairwise fun o o' => o.stop ≤ o'.offset) :
    ∀ words, (∀ o ∈ l, l.foldl step words o.offset = F o (words o.offset)) ∧
      ∀ x, (∀ o ∈ l, x ≠ o.offset) → l.foldl step words x = words x := by
  induction l with
  | nil => exact fun words => ⟨fun o ho => absurd ho List.not_mem_nil, fun x _ => rfl⟩
  | cons p l ih =>
    intro words
    obtain ⟨hp, hl⟩ := List.pairwise_cons.mp hl
    obtain ⟨hmem, hrest⟩ := ih hl (step words p)
    have hne : ∀ o ∈ l, p.offset ≠ o.offset := fun o ho => by
      have := hp o ho
      have := p.stop_eq
      omega
    rw [List.foldl_cons]
    refine ⟨fun o ho => ?_, fun x hx => ?_⟩
    · obtain rfl | ho := List.mem_cons.mp ho
      · rw [hrest _ hne, hstep, if_pos rfl]
      · rw [hmem o ho, hstep, if_neg (hne o ho).symm]
    · rw [hrest x fun o ho => hx o (List.mem_cons_of_mem _ ho), hstep,
        if_neg (hx p List.mem_cons_self)]

/-! ### Phases 0 to 2b -/

section

variable {pin mark : NurseryObject → Bool} {n : Nursery}

theorem Phase.pinIfNursery (h : Phase r objects pin mark n) (w : Word) :
    Phase r objects (fun o => pin o || PointsInto r w o) mark (Nursery.pinIfNursery r n w) := by
  have hnone : (∀ o ∈ objects, PointsInto r w o = false) →
      Phase r objects (fun o => pin o || PointsInto r w o) mark n := fun hfalse =>
    h.congr (fun o ho => by rw [hfalse o ho, Bool.or_false]) fun _ _ => rfl
  rw [Nursery.pinIfNursery]
  split_ifs with hrange
  · refine hnone fun o _ => Bool.eq_false_iff.mpr fun hpoints => ?_
    have := pointsInto_iff.mp hpoints
    omega
  rcases hbase : n.findBase r w.toNat with _ | o
  · refine hnone fun o ho => Bool.eq_false_iff.mpr fun hpoints => ?_
    obtain ⟨-, -, hle, hlt⟩ := pointsInto_iff.mp hpoints
    have hinside := h.layout.inside o ho
    have hdata := o.data_eq
    have hcontains : r.contains w.toNat := by
      rw [NurseryRegion.contains, Bool.and_eq_true, decide_eq_true_eq, decide_eq_true_eq]
      omega
    rw [Nursery.findBase, if_pos hcontains] at hbase
    have := List.find?_eq_none.mp hbase o (h.mem_objects.mpr ho)
    simp only [Bool.and_eq_true, decide_eq_true_eq] at this
    exact this ⟨hle, hlt⟩
  · rw [Nursery.findBase] at hbase
    split_ifs at hbase with hcontains
    have ho := h.mem_objects.mp (List.mem_of_find?_eq_some hbase)
    have hfound := List.find?_some hbase
    simp only [Bool.and_eq_true, decide_eq_true_eq] at hfound
    -- the word points into this object and into no other
    have hpoints : ∀ o' ∈ objects, PointsInto r w o' = decide (o' = o) := by
      intro o' ho'
      rw [Bool.eq_iff_iff, pointsInto_iff, decide_eq_true_eq]
      constructor
      · rintro ⟨-, -, hle, hlt⟩
        have hdata := o.data_eq
        have hdata' := o'.data_eq
        exact h.layout.eq_of_overlap ho' ho (by omega) (by omega)
      · rintro rfl
        exact ⟨by omega, by omega, hfound⟩
    dsimp only
    split_ifs with hpinned
    · rw [h.pinned o ho] at hpinned
      refine h.congr (fun o' ho' => ?_) fun _ _ => rfl
      by_cases heq : o' = o
      · rw [heq, hpinned, Bool.true_or]
      · rw [hpoints o' ho', decide_eq_false heq, Bool.or_false]
    · exact (h.pin_one ho).congr (fun o' ho' => by rw [hpoints o' ho']) fun _ _ => rfl

theorem Phase.pinStackRoots (h : Phase r objects (fun _ => false) mark { n with pinnedCount := 0 })
    (stack : List Word) :
    Phase r objects (fun o => stack.any (PointsInto r · o)) mark
      (Nursery.pinStackRoots r stack n) := by
  have hfold : ∀ (stack : List Word) (n : Nursery) (pin : NurseryObject → Bool),
      Phase r objects pin mark n →
        Phase r objects (fun o => pin o || stack.any (PointsInto r · o)) mark
          (stack.foldl (Nursery.pinIfNursery r) n) := by
    intro stack
    induction stack with
    | nil => exact fun n pin h => h.congr (fun o _ => by simp) fun _ _ => rfl
    | cons w stack ih =>
      intro n pin h
      exact (ih _ _ (h.pinIfNursery w)).congr
        (fun o _ => by simp [Bool.or_assoc]) fun _ _ => rfl
  exact (hfold stack _ _ h).congr (fun o _ => (Bool.false_or _).symm) fun _ _ => rfl

theorem Phase.markLive (h : Phase r objects pin (fun _ => false) n) (live : ℕ → Bool) :
    Phase r objects pin (fun o => pin o || live o.offset) (Nursery.markLive live n) := by
  have hstep : ∀ (words : NurseryWords) (o : NurseryObject) (x : ℕ),
      Nursery.markStep live words o x = if x = o.offset then
        (if nurseryIsPinned (words x) || live o.offset then words x ||| nurseryMarkBit
          else words x)
      else words x := by
    intro words o x
    rw [Nursery.markStep]
    by_cases hx : x = o.offset
    · rw [if_pos hx, hx]
      split_ifs <;> simp
    · rw [if_neg hx]
      split_ifs
      · rw [Function.update_of_ne hx]
      · rfl
  obtain ⟨hmem, hrest⟩ := foldl_prefix
    (F := fun o raw => if nurseryIsPinned raw || live o.offset then raw ||| nurseryMarkBit else raw)
    hstep n.objects (walk_sorted _ _) n.words
  have hhead : ∀ o ∈ objects, (Nursery.markLive live n).words o.offset =
      if pin o || live o.offset then n.words o.offset ||| nurseryMarkBit
      else n.words o.offset := fun o ho => by
    rw [← h.pinned o ho]
    exact hmem o (h.mem_objects.mpr ho)
  refine ⟨h.layout.congr (fun o ho => ?_) fun x hx => ?_, h.highWater_le,
    h.highWater_aligned, h.below, fun o ho => ?_,
    fun o ho => ?_, h.count⟩
  · rw [hhead o ho]
    split_ifs <;> simp
  · refine hrest x fun o ho => ?_
    have := hx o (h.mem_objects.mp ho)
    have hstop := o.stop_eq
    omega
  · rw [hhead o ho, ← h.pinned o ho]
    split_ifs <;> simp
  · rw [hhead o ho]
    split_ifs with hb
    · rw [nurseryIsMarked_mark, hb]
    · rw [h.marked o ho, Bool.eq_false_iff.mpr hb]

theorem Phase.promoteStep (h : Phase r objects pin mark n) (promotes : ℕ → Bool)
    {p : NurseryObject} (hp : p ∈ objects) :
    Phase r objects (fun o => pin o || (decide (o = p) && mark o && !promotes o.offset)) mark
      (Nursery.promoteStep promotes n p) := by
  have hsame : (pin p = true ∨ mark p = false ∨ promotes p.offset = true) →
      Phase r objects (fun o => pin o || (decide (o = p) && mark o && !promotes o.offset))
        mark n := by
    refine fun hp => h.congr (fun o _ => ?_) fun _ _ => rfl
    by_cases heq : o = p
    · obtain hpin | hmark | hpromotes := hp
      · rw [heq, hpin, Bool.true_or]
      · rw [heq, hmark, Bool.and_false, Bool.false_and, Bool.or_false]
      · rw [heq, hpromotes, Bool.not_true, Bool.and_false, Bool.or_false]
    · rw [decide_eq_false heq, Bool.false_and, Bool.false_and, Bool.or_false]
  rw [Nursery.promoteStep, h.pinned p hp, h.marked p hp]
  split_ifs with hpin hmark hpromotes
  · exact hsame (.inl hpin)
  · exact hsame (.inr (.inl (by simpa using hmark)))
  · exact hsame (.inr (.inr hpromotes))
  · refine (h.pin_one hp).congr (fun o _ => ?_) fun _ _ => rfl
    by_cases heq : o = p
    · have hmark' : mark p = true := by simpa using hmark
      rw [heq, decide_eq_true rfl, Bool.eq_false_iff.mpr hpromotes, hmark']
      rfl
    · rw [decide_eq_false heq, Bool.false_and, Bool.false_and]

theorem Phase.promoteOrPin (h : Phase r objects pin mark n) (promotes : ℕ → Bool) :
    Phase r objects (fun o => pin o || (mark o && !promotes o.offset)) mark
      (Nursery.promoteOrPin promotes n) := by
  have hfold : ∀ (l : List NurseryObject) (n : Nursery) (pin : NurseryObject → Bool),
      (∀ o ∈ l, o ∈ objects) → Phase r objects pin mark n →
        Phase r objects (fun o => pin o || (decide (o ∈ l) && mark o && !promotes o.offset)) mark
          (l.foldl (Nursery.promoteStep promotes) n) := by
    intro l
    induction l with
    | nil => exact fun n pin _ h => h.congr (fun o _ => by simp) fun _ _ => rfl
    | cons p l ih =>
      intro n pin hl h
      have hstep := h.promoteStep promotes (hl p List.mem_cons_self)
      refine (ih _ _ (fun o ho => hl o (List.mem_cons_of_mem _ ho)) hstep).congr (fun o _ => ?_)
        fun _ _ => rfl
      by_cases heq : o = p
      · subst heq
        by_cases hmem : o ∈ l <;> simp [hmem]
      · simp [heq]
  refine (hfold n.objects n pin (fun o ho => h.mem_objects.mp ho) h).congr (fun o ho => ?_)
    fun _ _ => rfl
  rw [decide_eq_true (h.mem_objects.mpr ho), Bool.true_and]

theorem Phase.fixPinned (h : Phase r objects pin mark n) (forward : ℕ → ℕ) :
    Phase r objects pin mark (Nursery.fixPinned r forward n) := by
  have hfold : ∀ (l : List NurseryObject) (words : NurseryWords), (∀ o ∈ l, o ∈ objects) →
      ∀ x, (∀ o ∈ objects, x < o.data ∨ o.stop ≤ x) →
        l.foldl (Nursery.fixStep r forward) words x = words x := by
    intro l
    induction l with
    | nil => exact fun words _ x _ => rfl
    | cons p l ih =>
      intro words hl x hx
      rw [List.foldl_cons, ih _ (fun o ho => hl o (List.mem_cons_of_mem _ ho)) x hx,
        Nursery.fixStep]
      split_ifs
      · refine if_neg ?_
        have := hx p (hl p List.mem_cons_self)
        omega
      · rfl
  rw [Nursery.fixPinned]
  split_ifs with hcount
  · -- neither a prefix nor a gap lies in the body of an object
    have hhead : ∀ o ∈ objects,
        n.objects.foldl (Nursery.fixStep r forward) n.words o.offset = n.words o.offset := by
      refine fun o ho => hfold _ _ (fun o ho => h.mem_objects.mp ho) _ fun o' ho' => ?_
      have hdata := o'.data_eq
      have hstop := o.stop_eq
      by_cases hne : o = o'
      · rw [hne]
        omega
      · obtain hle | hle := h.layout.apart.forall ho ho' hne <;> omega
    have hgap : ∀ x, Gap objects x →
        n.objects.foldl (Nursery.fixStep r forward) n.words x = n.words x := by
      refine fun x hx => hfold _ _ (fun o ho => h.mem_objects.mp ho) _ fun o ho => ?_
      have hdata := o.data_eq
      have := hx o ho
      omega
    exact ⟨h.layout.congr (fun o ho => congrArg nurseryGetSize (hhead o ho)) hgap, h.highWater_le,
    h.highWater_aligned, h.below,
      fun o ho => (congrArg nurseryIsPinned (hhead o ho)).trans (h.pinned o ho),
      fun o ho => (congrArg nurseryIsMarked (hhead o ho)).trans (h.marked o ho), h.count⟩
  · exact h

end

/-! ### Phase 6 -/

theorem rebuildStep_of_pinned {words : NurseryWords} {fragStart : ℕ}
    {fragments : List NurseryFragment} {o : NurseryObject}
    (h : nurseryIsPinned (words o.offset) = true) :
    Nursery.rebuildStep (words, fragStart, fragments) o =
      (Function.update (zeroRange words fragStart (o.offset - fragStart)) o.offset
        (words o.offset &&& ~~~nurseryMetaMask), o.stop,
        Nursery.emitFragment fragStart (o.offset - fragStart) fragments) := by
  have hkeep : zeroRange words fragStart (o.offset - fragStart) o.offset = words o.offset :=
    if_neg (by omega)
  rw [Nursery.rebuildStep, if_pos h]
  by_cases hlt : o.offset > fragStart
  · rw [if_pos hlt]
    dsimp only
    rw [hkeep]
  · have hzero : o.offset - fragStart = 0 := by omega
    have hwords : zeroRange words fragStart 0 = words :=
      funext fun x => if_neg (by omega)
    rw [if_neg hlt, hzero, hwords]
    rfl

/-- What the loop of Phase 6 has done with the objects `l`, from `start` to `fragStart`: the
pinned ones stay with a clean prefix, the rest is 0, and the new fragments lie between them. -/
structure Rebuilt (pin : NurseryObject → Bool) (l : List NurseryObject) (words : NurseryWords)
    (start : ℕ) (words' : NurseryWords) (fragStart : ℕ) (new : List NurseryFragment) : Prop where
  start_le : start ≤ fragStart
  stop_le : ∀ o ∈ l, pin o = true → o.stop ≤ fragStart
  fragStart_eq : fragStart = start ∨ ∃ o ∈ l, pin o = true ∧ fragStart = o.stop
  outside : ∀ x, x < start ∨ fragStart ≤ x → words' x = words x
  zero : ∀ x, start ≤ x → x < fragStart →
    (∀ o ∈ l, pin o = true → x < o.offset ∨ o.stop ≤ x) → words' x = 0
  prefixes : ∀ o ∈ l, pin o = true → words' o.offset = words o.offset &&& ~~~nurseryMetaMask
  bodies : ∀ o ∈ l, pin o = true → ∀ x, o.offset < x → x < o.stop → words' x = words x
  apart : new.Pairwise NurseryFragment.Apart
  between : ∀ f ∈ new, start ≤ f.offset ∧ f.offset + f.size ≤ fragStart
  aligned : ∀ f ∈ new, f.offset % 8 = 0 ∧ f.size % 8 = 0
  clearOf : ∀ f ∈ new, ∀ o ∈ l, pin o = true → f.ClearOf o

theorem mem_emitFragment (start size : ℕ) (fragments : List NurseryFragment) :
    ∃ new, Nursery.emitFragment start size fragments = fragments ++ new ∧
      ∀ f ∈ new, f = ⟨start, size⟩ ∧ new = [⟨start, size⟩] := by
  rw [Nursery.emitFragment]
  split_ifs
  · exact ⟨[⟨start, size⟩], rfl, fun f hf => ⟨List.mem_singleton.mp hf, rfl⟩⟩
  · exact ⟨[], (List.append_nil _).symm, fun f hf => absurd hf List.not_mem_nil⟩

theorem rebuilt_foldl (pin : NurseryObject → Bool) (l : List NurseryObject) :
    ∀ (words : NurseryWords) (start : ℕ) (fragments : List NurseryFragment), start % 8 = 0 →
      (l.Pairwise fun o o' => o.stop ≤ o'.offset) →
      (∀ o ∈ l, start ≤ o.offset ∧ o.WellSized ∧ nurseryIsPinned (words o.offset) = pin o) →
      ∃ words' fragStart new,
        l.foldl Nursery.rebuildStep (words, start, fragments) =
          (words', fragStart, fragments ++ new) ∧
        Rebuilt pin l words start words' fragStart new := by
  induction l with
  | nil =>
    refine fun words start fragments _ _ _ => ⟨words, start, [], by rw [List.append_nil]; rfl, ?_⟩
    exact ⟨le_rfl, by simp, .inl rfl, fun _ _ => rfl, fun x h h' => by omega, by simp, by simp,
      .nil, by simp, by simp, by simp⟩
  | cons p l ih =>
    intro words start fragments haligned hsorted hl
    obtain ⟨hp, hsorted⟩ := List.pairwise_cons.mp hsorted
    obtain ⟨hstart, hsized, hpin⟩ := hl p List.mem_cons_self
    have hstop := p.stop_eq
    rw [List.foldl_cons]
    rcases hpinned : pin p with _ | _
    · have hstep : Nursery.rebuildStep (words, start, fragments) p = (words, start, fragments) := by
        rw [Nursery.rebuildStep, hpin, hpinned]
        rfl
      obtain ⟨words', fragStart, new, heq, h⟩ := ih words start fragments haligned hsorted
        fun o ho => hl o (List.mem_cons_of_mem _ ho)
      -- an object that is not pinned leaves no trace
      have hmem : ∀ {P : NurseryObject → Prop}, (∀ o ∈ l, pin o = true → P o) →
          ∀ o ∈ p :: l, pin o = true → P o := fun hP o ho hpino => by
        obtain rfl | ho := List.mem_cons.mp ho
        · exact absurd (hpinned.symm.trans hpino) Bool.false_ne_true
        · exact hP o ho hpino
      refine ⟨words', fragStart, new, by rw [hstep, heq], h.start_le, hmem h.stop_le, ?_,
        h.outside, fun x hx hx' hno => ?_, hmem h.prefixes, hmem h.bodies, h.apart, h.between,
        h.aligned, fun f hf => hmem (h.clearOf f hf)⟩
      · exact h.fragStart_eq.imp_right fun ⟨o, ho, heq⟩ => ⟨o, List.mem_cons_of_mem _ ho, heq⟩
      · exact h.zero x hx hx' fun o ho => hno o (List.mem_cons_of_mem _ ho)
    · rw [rebuildStep_of_pinned (hpin.trans hpinned)]
      set words₁ := Function.update (zeroRange words start (p.offset - start)) p.offset
        (words p.offset &&& ~~~nurseryMetaMask) with hwords₁
      have hafter : ∀ x, p.offset < x ∨ x < start → words₁ x = words x := fun x hx => by
        rw [hwords₁, Function.update_of_ne (by omega), zeroRange, if_neg (by omega)]
      obtain ⟨gap, hgap, hgap_eq⟩ :=
        mem_emitFragment start (p.offset - start) fragments
      have haligned' : p.stop % 8 = 0 := by
        have := hsized.offset_aligned
        have := hsized.size_aligned
        omega
      obtain ⟨words', fragStart, new, heq, h⟩ := ih words₁ p.stop
        (Nursery.emitFragment start (p.offset - start) fragments) haligned' hsorted fun o ho => by
          obtain ⟨-, hsized', hpin'⟩ := hl o (List.mem_cons_of_mem _ ho)
          have := hp o ho
          exact ⟨this, hsized', by rw [hafter _ (.inl (by omega)), hpin']⟩
      have hle := h.start_le
      refine ⟨words', fragStart, gap ++ new, ?_, by omega, ?_, ?_, fun x hx => ?_,
        fun x hx hx' hno => ?_, ?_, ?_, ?_, ?_, ?_, ?_⟩
      · rw [heq, hgap, List.append_assoc]
      · rintro o ho hpino
        obtain rfl | ho := List.mem_cons.mp ho
        · exact hle
        · exact h.stop_le o ho hpino
      · obtain heq | ⟨o, ho, heq⟩ := h.fragStart_eq
        · exact .inr ⟨p, List.mem_cons_self, hpinned, heq⟩
        · exact .inr ⟨o, List.mem_cons_of_mem _ ho, heq⟩
      · rw [h.outside x (by omega), hafter x (by omega)]
      · by_cases hlt : x < p.stop
        · have hlt' : x < p.offset := (hno p List.mem_cons_self hpinned).resolve_right (by omega)
          rw [h.outside x (.inl hlt), hwords₁, Function.update_of_ne (by omega), zeroRange,
            if_pos (by omega)]
        · exact h.zero x (by omega) hx' fun o ho => hno o (List.mem_cons_of_mem _ ho)
      · rintro o ho hpino
        obtain rfl | ho := List.mem_cons.mp ho
        · rw [h.outside _ (.inl (by omega)), hwords₁, Function.update_self]
        · rw [h.prefixes o ho hpino, hafter _ (.inl (by have := hp o ho; omega))]
      · rintro o ho hpino x hx hx'
        obtain rfl | ho := List.mem_cons.mp ho
        · rw [h.outside x (.inl hx'), hafter x (.inl hx)]
        · rw [h.bodies o ho hpino x hx hx', hafter x (.inl (by have := hp o ho; omega))]
      · refine List.pairwise_append.mpr ⟨?_, h.apart, fun f hf g hg => .inl ?_⟩
        · rcases gap with _ | ⟨f, gap⟩
          · exact .nil
          · rw [(hgap_eq f List.mem_cons_self).2]
            exact List.pairwise_singleton _ _
        · rw [(hgap_eq f hf).1]
          have := (h.between g hg).1
          dsimp only
          omega
      · intro f hf
        obtain hf | hf := List.mem_append.mp hf
        · rw [(hgap_eq f hf).1]
          dsimp only
          omega
        · have := h.between f hf
          omega
      · intro f hf
        obtain hf | hf := List.mem_append.mp hf
        · have := hsized.offset_aligned
          rw [(hgap_eq f hf).1]
          dsimp only
          omega
        · exact h.aligned f hf
      · rintro f hf o ho hpino
        obtain hf | hf := List.mem_append.mp hf
        · rw [(hgap_eq f hf).1]
          refine .inr ?_
          obtain rfl | ho := List.mem_cons.mp ho
          · dsimp only
            omega
          · have := hp o ho
            dsimp only
            omega
        · obtain rfl | ho := List.mem_cons.mp ho
          · exact .inl (h.between f hf).1
          · exact h.clearOf f hf o ho hpino

/-- The objects are gone from a place beyond the last survivor. -/
theorem Phase.zero_of_highWater_le {pin mark : NurseryObject → Bool} {n : Nursery}
    (h : Phase r objects pin mark n) {x : ℕ} (hx : n.highWater ≤ x) (hlt : x < r.size)
    (haligned : x % 8 = 0) : n.words x = 0 :=
  h.layout.gaps x hlt haligned fun o ho => .inr (le_trans (h.below o ho) hx)

theorem NurseryRegion.size_aligned (r : NurseryRegion) : r.size % 8 = 0 := by
  rw [NurseryRegion.size]
  omega

/-- The words after Phase 6 hold the pinned objects, with clean prefixes, and nothing else. -/
theorem Phase.layout_rebuilt {pin mark : NurseryObject → Bool} {n : Nursery}
    (h : Phase r objects pin mark n) {words' : NurseryWords} {fragStart : ℕ}
    {new : List NurseryFragment}
    (hr : Rebuilt pin n.objects n.words 0 words' fragStart new) :
    Layout r.size (zeroRange words' fragStart (n.highWater - fragStart)) (objects.filter pin) ∧
      ∀ o ∈ objects.filter pin,
        zeroRange words' fragStart (n.highWater - fragStart) o.offset =
          n.words o.offset &&& ~~~nurseryMetaMask := by
  have hhead : ∀ o ∈ objects.filter pin,
      zeroRange words' fragStart (n.highWater - fragStart) o.offset =
        n.words o.offset &&& ~~~nurseryMetaMask := by
    intro o ho
    obtain ⟨ho, hpin⟩ := List.mem_filter.mp ho
    have hmem := h.mem_objects.mpr ho
    have hstop := hr.stop_le o hmem hpin
    have := o.stop_eq
    rw [zeroRange, if_neg (by omega), hr.prefixes o hmem hpin]
  refine ⟨⟨fun o ho => h.layout.wellSized o (List.mem_filter.mp ho).1,
    fun o ho => h.layout.inside o (List.mem_filter.mp ho).1, h.layout.apart.filter _,
    fun o ho => ?_, fun x hx haligned hgap => ?_⟩, hhead⟩
  · rw [hhead o ho, nurseryGetSize_clear, h.layout.prefixes o (List.mem_filter.mp ho).1]
  · by_cases hlt : x < fragStart
    · rw [zeroRange, if_neg (by omega)]
      refine hr.zero x (Nat.zero_le _) hlt fun o ho hpin => ?_
      exact hgap o (List.mem_filter.mpr ⟨h.mem_objects.mp ho, hpin⟩)
    · by_cases hlt' : x < n.highWater
      · exact if_pos (by omega)
      · rw [zeroRange, if_neg (by omega), hr.outside x (.inr (not_lt.mp hlt)),
          h.zero_of_highWater_le (not_lt.mp hlt') hx haligned]

/-- **Phase 6.** The pinned objects stay, everything else is free and 0. -/
theorem Phase.rebuildFragments {pin mark : NurseryObject → Bool} {n : Nursery}
    (h : Phase r objects pin mark n) :
    let n' := Nursery.rebuildFragments r n
    Arena r n'.words n'.highWater
      (⟨n'.cursor, n'.cursorLimit - n'.cursor⟩ :: n'.fragments.drop (n'.currentFragment + 1))
      (objects.filter pin) ∧
    n'.cursor ≤ n'.cursorLimit ∧ n'.cursor ≤ n'.highWater ∧
      ∀ o ∈ objects.filter pin, o.stop ≤ n'.highWater := by
  intro n'
  have hsize := r.size_aligned
  have hhw := h.highWater_aligned
  by_cases hcount : n.pinnedCount = 0
  · have hnone := h.count.mp hcount
    have hfilter : objects.filter pin = [] :=
      List.filter_eq_nil_iff.mpr fun o ho => Bool.eq_false_iff.mp (hnone o ho)
    have hn' : n' = { n with
        words := zeroRange n.words 0 n.highWater
        cursor := 0
        cursorLimit := r.size
        highWater := 0
        fragments := []
        currentFragment := 0 } := if_pos hcount
    rw [hn', hfilter]
    refine ⟨⟨⟨by simp, by simp, .nil, by simp, fun x hx haligned _ => ?_⟩, by simp,
      ⟨by simp, by simpa using hsize, by simp, by simp⟩, Nat.zero_le _, rfl, by simp⟩,
      Nat.zero_le _, le_rfl, by simp⟩
    by_cases hlt : x < n.highWater
    · exact if_pos (by omega)
    · exact (if_neg (by omega)).trans (h.zero_of_highWater_le (not_lt.mp hlt) hx haligned)
  · obtain ⟨words', fragStart, new, heq, hr⟩ := rebuilt_foldl pin n.objects n.words 0 [] rfl
      (walk_sorted _ _) fun o ho =>
        ⟨Nat.zero_le _, h.layout.wellSized o (h.mem_objects.mp ho), h.pinned o (h.mem_objects.mp ho)⟩
    rw [List.nil_append] at heq
    have hle : fragStart ≤ n.highWater := by
      obtain heq | ⟨o, ho, -, heq⟩ := hr.fragStart_eq
      · omega
      · exact heq.le.trans (h.below o (h.mem_objects.mp ho))
    have haligned : fragStart % 8 = 0 := by
      obtain heq | ⟨o, ho, -, heq⟩ := hr.fragStart_eq
      · rw [heq]
      · have hsized := h.layout.wellSized o (h.mem_objects.mp ho)
        have := hsized.offset_aligned
        have := hsized.size_aligned
        have := o.stop_eq
        omega
    obtain ⟨gap, hgap, hgap_eq⟩ := mem_emitFragment fragStart
      (n.highWater - fragStart) new
    obtain ⟨hlayout, hhead⟩ := h.layout_rebuilt hr
    -- the last gap and the space beyond the high-water mark
    set rest := if n.highWater < r.size then [⟨n.highWater, r.size - n.highWater⟩]
      else ([] : List NurseryFragment) with hrest
    have hmem_rest : ∀ f ∈ rest, f = ⟨n.highWater, r.size - n.highWater⟩ ∧ rest = [f] := by
      rw [hrest]
      split_ifs
      · exact fun f hf => ⟨List.mem_singleton.mp hf, by rw [List.mem_singleton.mp hf]⟩
      · exact fun f hf => absurd hf List.not_mem_nil
    have hstep : (if fragStart < n.highWater then
        (zeroRange words' fragStart (n.highWater - fragStart),
          Nursery.emitFragment fragStart (n.highWater - fragStart) new) else (words', new)) =
        (zeroRange words' fragStart (n.highWater - fragStart), new ++ gap) := by
      split_ifs with hlt
      · rw [hgap]
      · have hzero : n.highWater - fragStart = 0 := by omega
        have hwords : zeroRange words' fragStart 0 = words' := funext fun x => if_neg (by omega)
        rw [hzero] at hgap ⊢
        rw [hwords, ← hgap]
        rfl
    have hn' : n'.words = zeroRange words' fragStart (n.highWater - fragStart) ∧
        n'.highWater = n.highWater ∧ n'.fragments = new ++ gap ++ rest ∧
        n'.currentFragment = 0 ∧ (n'.cursor, n'.cursorLimit) =
          (new ++ gap ++ rest).head?.elim (r.size, r.size)
            fun frag => (frag.offset, frag.offset + frag.size) := by
      have hfragments : (if n.highWater < r.size then
          new ++ gap ++ [⟨n.highWater, r.size - n.highWater⟩] else new ++ gap) =
          new ++ gap ++ rest := by
        rw [hrest]
        split_ifs
        · rfl
        · rw [List.append_nil]
      rw [show n' = Nursery.rebuildFragments r n from rfl, Nursery.rebuildFragments,
        if_neg hcount, heq]
      dsimp only
      rw [hstep]
      dsimp only
      rw [hfragments]
      exact ⟨rfl, rfl, rfl, rfl, by cases new ++ gap ++ rest <;> rfl⟩
    obtain ⟨hwords, hhighWater, hfragments, hcurrent, hcursor⟩ := hn'
    have hgap_mem : ∀ f ∈ gap, f.offset = fragStart ∧ f.offset + f.size = n.highWater := by
      intro f hf
      rw [(hgap_eq f hf).1]
      exact ⟨rfl, by dsimp only; omega⟩
    have hrest_mem : ∀ f ∈ rest, f.offset = n.highWater ∧ f.offset + f.size = r.size := by
      intro f hf
      rw [(hmem_rest f hf).1]
      have := h.highWater_le
      exact ⟨rfl, by dsimp only; omega⟩
    have hfront : ∀ f ∈ new ++ gap, f.offset + f.size ≤ n.highWater := by
      intro f hf
      obtain hf | hf := List.mem_append.mp hf
      · exact le_trans (hr.between f hf).2 hle
      · exact (hgap_mem f hf).2.le
    have hspace : FreeSpace r.size (objects.filter pin) (new ++ gap ++ rest) := by
      refine ⟨fun f hf => ?_, fun f hf => ?_, ?_, fun f hf o ho => ?_⟩
      · obtain hf | hf := List.mem_append.mp hf
        · exact le_trans (hfront f hf) h.highWater_le
        · exact (hrest_mem f hf).2.le
      · obtain hf | hf := List.mem_append.mp hf
        · obtain hf | hf := List.mem_append.mp hf
          · exact hr.aligned f hf
          · have := hgap_mem f hf
            omega
        · have := hrest_mem f hf
          omega
      · refine List.pairwise_append.mpr ⟨List.pairwise_append.mpr ⟨hr.apart, ?_, ?_⟩, ?_, ?_⟩
        · rcases gap with _ | ⟨f, gap⟩
          · exact .nil
          · rw [(hgap_eq f List.mem_cons_self).2]
            exact List.pairwise_singleton _ _
        · exact fun f hf g hg => .inl ((hr.between f hf).2.trans (hgap_mem g hg).1.ge)
        · rcases hrest' : rest with _ | ⟨f, rest'⟩
          · exact .nil
          · have hf : f ∈ rest := hrest' ▸ List.mem_cons_self
            rw [← hrest', (hmem_rest f hf).2]
            exact List.pairwise_singleton _ _
        · exact fun f hf g hg => .inl ((hfront f hf).trans (hrest_mem g hg).1.ge)
      · obtain ⟨ho, hpin⟩ := List.mem_filter.mp ho
        have hmem := h.mem_objects.mpr ho
        obtain hf | hf := List.mem_append.mp hf
        · obtain hf | hf := List.mem_append.mp hf
          · exact hr.clearOf f hf o hmem hpin
          · exact .inl ((hr.stop_le o hmem hpin).trans (hgap_mem f hf).1.ge)
        · exact .inl ((h.below o ho).trans (hrest_mem f hf).1.ge)
    have huncut : ∀ f ∈ new ++ gap ++ rest,
        f.offset + f.size ≤ n.highWater ∨ n.highWater ≤ f.offset := by
      intro f hf
      obtain hf | hf := List.mem_append.mp hf
      · exact .inl (hfront f hf)
      · exact .inr (hrest_mem f hf).1.ge
    have hfree : Arena r n'.words n'.highWater (new ++ gap ++ rest) (objects.filter pin) := by
      rw [hwords, hhighWater]
      refine ⟨hlayout, fun o ho => ?_, hspace, h.highWater_le, h.highWater_aligned, huncut⟩
      rw [hhead o ho]
      exact ⟨nurseryIsPinned_clear _, nurseryIsMarked_clear _⟩
    have hstart : ∀ f ∈ new ++ gap ++ rest, f.offset ≤ n'.highWater := by
      intro f hf
      rw [hhighWater]
      obtain hf | hf := List.mem_append.mp hf
      · exact le_trans (Nat.le_add_right _ _) (hfront f hf)
      · exact (hrest_mem f hf).1.le
    have hbelow : ∀ o ∈ objects.filter pin, o.stop ≤ n'.highWater := fun o ho =>
      hhighWater ▸ h.below o (List.mem_filter.mp ho).1
    rw [hcurrent, hfragments]
    rcases hall : new ++ gap ++ rest with _ | ⟨frag, frags⟩
    · rw [hall] at hcursor
      obtain ⟨hcursor, hlimit⟩ := Prod.mk.inj hcursor
      rw [hcursor, hlimit, Nat.sub_self]
      rw [hall] at hfree
      refine ⟨⟨hfree.layout, hfree.clean, ⟨?_, ?_, ?_, ?_⟩, hfree.highWater_le,
        hfree.highWater_aligned, ?_⟩, le_rfl, ?_, hbelow⟩
      · simp
      · simpa using hsize
      · simp
      · rintro f hf o ho
        rw [List.drop_nil, List.mem_singleton] at hf
        rw [hf]
        exact .inl (h.layout.inside o (List.mem_filter.mp ho).1)
      · simpa using .inr hfree.highWater_le
      · have hrest_nil : rest = [] := (List.append_eq_nil_iff.mp hall).2
        rw [hrest] at hrest_nil
        split_ifs at hrest_nil with hlt
        rw [hhighWater]
        exact not_lt.mp hlt
    · rw [hall] at hcursor
      obtain ⟨hcursor, hlimit⟩ := Prod.mk.inj hcursor
      rw [hcursor, hlimit, Nat.add_sub_cancel_left, ← hall]
      refine ⟨?_, Nat.le_add_right _ _, hstart frag (hall ▸ List.mem_cons_self), hbelow⟩
      rw [hall] at hfree ⊢
      exact hfree

/-! ### The whole collection -/

/-- **A minor collection** of a used nursery whose prefixes are clean and whose high-water
mark has caught up with its objects: the survivors stay, and the rest is free. -/
theorem minorCollect_arena {n : Nursery} {free : List NurseryFragment}
    (h : Arena r n.words n.highWater free objects) (hbelow : ∀ o ∈ objects, o.stop ≤ n.highWater)
    (hused : n.highWater ≠ 0) (inputs : Nursery.MinorInputs) :
    let n' := Nursery.minorCollect r inputs n
    Arena r n'.words n'.highWater
      (⟨n'.cursor, n'.cursorLimit - n'.cursor⟩ :: n'.fragments.drop (n'.currentFragment + 1))
      (objects.filter (Survives r inputs)) ∧
    n'.cursor ≤ n'.cursorLimit ∧ n'.cursor ≤ n'.highWater ∧
    (∀ o ∈ objects.filter (Survives r inputs), o.stop ≤ n'.highWater) ∧
    n'.exportedCursor = r.base + n'.cursor ∧ n'.exportedLimit = r.base + n'.cursorLimit := by
  intro n'
  have hn' : n' = _ := if_neg hused
  have hstart : Phase r objects (fun _ => false) (fun _ => false) { n with pinnedCount := 0 } :=
    ⟨h.layout, h.highWater_le, h.highWater_aligned, hbelow, fun o ho => (h.clean o ho).1,
      fun o ho => (h.clean o ho).2, iff_of_true rfl fun _ _ => rfl⟩
  have hphase := (((hstart.pinStackRoots inputs.stack).markLive inputs.live).promoteOrPin
    inputs.promotes).fixPinned inputs.forward
  have hsurvives : ∀ o ∈ objects, Survives r inputs o = (inputs.stack.any (PointsInto r · o) ||
      ((inputs.stack.any (PointsInto r · o) || inputs.live o.offset) &&
        !inputs.promotes o.offset)) := by
    intro o _
    rw [Survives]
    cases inputs.stack.any (PointsInto r · o) <;> simp
  obtain ⟨harena, hle, hle', hbelow'⟩ := (hphase.congr hsurvives fun _ _ => rfl).rebuildFragments
  rw [hn']
  exact ⟨harena, hle, hle', hbelow', rfl, rfl⟩

end GC

end TsAot
