import TsAot.Runtime.NativeArray.Layout

/-!
# Headers

What the memory says of an array (`Arr.Header`), and what `arena_scrub_headers` does: it walks over
arrays that lie end to end, ends the header of each, and touches no other word (`Scrubbed`). The
loop of a release does so for every block above the one of the frame (`popTo_spec`).
-/

namespace TsAot

namespace NativeArray

/-- The bytes of an array of this length, without wrapping. -/
def exactSize (length kind : ℕ) : ℕ := headerSize + (length * elemSize kind + 7) / 8 * 8

/-- An array whose size is the one it should have. -/
structure Arr.Ok (a : Arr) : Prop where
  kind_lt : a.kind < 2 ^ 32
  length_lt : a.length < 2 ^ 63
  size_eq : a.size = exactSize a.length a.kind
  size_lt : a.size < 2 ^ 64

/-- The header of the array is in the memory. -/
structure Arr.Header (mem : Mem) (a : Arr) : Prop where
  head : mem a.handle = headWord magicLive a.kind
  length : lengthOf mem a.handle = a.length

/-- Where nothing wraps the code computes the exact size. -/
theorem add_payloadSize {length kind : ℕ} (h : exactSize length kind < 2 ^ 64) :
    headerSize + payloadSize length kind = exactSize length kind := by
  unfold exactSize headerSize at *
  unfold payloadSize align8 sizeT
  generalize length * elemSize kind = n at *
  omega

theorem sizeT_eq_exactSize {length kind : ℕ} (h : exactSize length kind < 2 ^ 64) :
    sizeT (headerSize + payloadSize length kind) = exactSize length kind := by
  rw [add_payloadSize h]
  exact Nat.mod_eq_of_lt h

variable {a : Arr} {as bs : List Arr} {mem mem' : Mem}

theorem Arr.Ok.le_size (h : a.Ok) : headerSize ≤ a.size := by
  rw [h.size_eq]
  exact Nat.le_add_right _ _

theorem Arr.Header.magicOf (h : a.Header mem) : magicOf mem a.handle = magicLive := by
  unfold NativeArray.magicOf
  rw [h.head, headWord, magicLive]
  omega

theorem Arr.Header.kindOf (h : a.Header mem) (hok : a.Ok) : kindOf mem a.handle = a.kind := by
  have hlt := hok.kind_lt
  unfold NativeArray.kindOf
  rw [h.head, headWord, magicLive]
  omega

/-- The size that is read off the header. -/
theorem Arr.Header.size (h : a.Header mem) (hok : a.Ok) :
    sizeT (headerSize + payloadSize (lengthOf mem a.handle) (NativeArray.kindOf mem a.handle)) =
      a.size := by
  have hlt := hok.size_lt
  rw [h.length, h.kindOf hok, hok.size_eq]
  rw [hok.size_eq] at hlt
  exact sizeT_eq_exactSize hlt

/-- The header stays where its two words do. -/
theorem Arr.Header.congr (h : a.Header mem) (hhead : mem' a.handle = mem a.handle)
    (hlength : mem' (a.handle + 8) = mem (a.handle + 8)) : a.Header mem' :=
  ⟨hhead.trans h.head, hlength.trans h.length⟩

/-! ### The end of a header -/

theorem endHeader_length (magic : ℕ) (mem : Mem) (p : ℕ) : endHeader magic mem p (p + 8) = 0 :=
  Function.update_self ..

theorem endHeader_of_ne {p x : ℕ} (magic : ℕ) (mem : Mem) (hx : x ≠ p) (hx8 : x ≠ p + 8) :
    endHeader magic mem p x = mem x := by
  rw [endHeader, Function.update_of_ne hx8, Function.update_of_ne hx]

theorem magicOf_endHeader {magic : ℕ} (hmagic : magic < 2 ^ 32) (mem : Mem) (p : ℕ) :
    magicOf (endHeader magic mem p) p = magic := by
  rw [magicOf, endHeader, Function.update_of_ne (by omega), Function.update_self, headWord]
  omega

/-- The headers of the arrays are ended, all other words are as they were. -/
structure Scrubbed (as : List Arr) (mem mem' : Mem) : Prop where
  length : ∀ a ∈ as, lengthOf mem' a.handle = 0
  magic : ∀ a ∈ as, magicOf mem' a.handle ≠ magicLive
  same : ∀ x, (∀ a ∈ as, x ≠ a.handle ∧ x ≠ a.handle + 8) → mem' x = mem x

theorem Scrubbed.nil (mem : Mem) : Scrubbed [] mem mem := ⟨nofun, nofun, fun _ _ => rfl⟩

/-- A word of an array is no header word of one that is apart. -/
theorem Arr.Apart.ne {b : Arr} (h : a.Apart b) (hb : headerSize ≤ b.size) {x : ℕ}
    (hlow : a.handle ≤ x) (hhigh : x < a.handle + a.size) : x ≠ b.handle ∧ x ≠ b.handle + 8 := by
  unfold Arr.Apart NativeArray.Apart at h
  unfold headerSize at hb
  omega

/-- First some arrays, then others. -/
theorem Scrubbed.trans {mem'' : Mem} (h : Scrubbed as mem mem') (h' : Scrubbed bs mem' mem'')
    (hapart : ∀ a ∈ as, ∀ b ∈ bs, a.Apart b) (has : ∀ a ∈ as, headerSize ≤ a.size)
    (hbs : ∀ b ∈ bs, headerSize ≤ b.size) : Scrubbed (as ++ bs) mem mem'' := by
  have hkept {a : Arr} (ha : a ∈ as) : mem'' a.handle = mem' a.handle ∧
      mem'' (a.handle + 8) = mem' (a.handle + 8) := by
    have hsize := has a ha
    unfold headerSize at hsize
    exact ⟨h'.same _ fun b hb => (hapart a ha b hb).ne (hbs b hb) (Nat.le_refl _) (by omega),
      h'.same _ fun b hb => (hapart a ha b hb).ne (hbs b hb) (by omega) (by omega)⟩
  refine ⟨fun a ha => ?_, fun a ha => ?_, fun x hx => ?_⟩
  · rcases List.mem_append.mp ha with ha | ha
    · exact (hkept ha).2.trans (h.length a ha)
    · exact h'.length a ha
  · rcases List.mem_append.mp ha with ha | ha
    · have hmagic := h.magic a ha
      unfold magicOf at hmagic ⊢
      rwa [(hkept ha).1]
    · exact h'.magic a ha
  · rw [h'.same x fun b hb => hx b (List.mem_append_right _ hb),
      h.same x fun a ha => hx a (List.mem_append_left _ ha)]

theorem scrubbed_one (mem : Mem) (a : Arr) : Scrubbed [a] mem (endHeader 0 mem a.handle) := by
  refine ⟨fun b hb => ?_, fun b hb => ?_, fun x hx => ?_⟩
  · rw [List.mem_singleton.mp hb]
    exact endHeader_length 0 mem a.handle
  · rw [List.mem_singleton.mp hb, magicOf_endHeader (by decide)]
    decide
  · have hne := hx a List.mem_cons_self
    exact endHeader_of_ne 0 mem hne.1 hne.2

/-! ### The walk -/

/-- Headers stay when arrays apart from them are scrubbed. -/
theorem Scrubbed.header (h : Scrubbed as mem mem') {b : Arr} (hb : b.Header mem)
    (hsize : headerSize ≤ b.size) (hapart : ∀ a ∈ as, b.Apart a)
    (has : ∀ a ∈ as, headerSize ≤ a.size) : b.Header mem' := by
  unfold headerSize at hsize
  exact hb.congr
    (h.same _ fun a ha => (hapart a ha).ne (has a ha) (Nat.le_refl _) (by omega))
    (h.same _ fun a ha => (hapart a ha).ne (has a ha) (by omega) (by omega))

theorem Laid.length_le {data off stop : ℕ} (h : Laid data off as stop) (hok : ∀ a ∈ as, a.Ok) :
    off + headerSize * as.length ≤ stop := by
  induction as generalizing off with
  | nil => exact Nat.le_of_eq h
  | cons a as ih =>
    have hsize := (hok a List.mem_cons_self).le_size
    have hrest := ih h.2 fun b hb => hok b (List.mem_cons_of_mem _ hb)
    rw [List.length_cons, Nat.mul_succ]
    omega

/-- **The walk finds every header.** -/
theorem scrubFrom_laid {data off stop fuel : ℕ} (h : Laid data off as stop)
    (hok : ∀ a ∈ as, a.Ok) (hheader : ∀ a ∈ as, a.Header mem) (hstop : stop < 2 ^ 64)
    (hfuel : as.length < fuel) : Scrubbed as mem (scrubFrom data stop fuel off mem) := by
  induction as generalizing off mem fuel with
  | nil =>
    obtain ⟨fuel, rfl⟩ := Nat.exists_eq_succ_of_ne_zero (Nat.ne_zero_of_lt hfuel)
    have hoff : off = stop := h
    rw [scrubFrom, if_neg (by unfold headerSize; omega)]
    exact Scrubbed.nil mem
  | cons a as ih =>
    obtain ⟨fuel, rfl⟩ := Nat.exists_eq_succ_of_ne_zero (Nat.ne_zero_of_lt hfuel)
    have haok := hok a List.mem_cons_self
    have hahead := hheader a List.mem_cons_self
    have hsize := haok.le_size
    have hle := h.2.le
    have hrest := List.pairwise_cons.mp h.pairwise
    have hasok : ∀ b ∈ as, b.Ok := fun b hb => hok b (List.mem_cons_of_mem _ hb)
    have hone := scrubbed_one mem a
    -- the next round begins at the next array, whose header is still there
    have hheaders : ∀ b ∈ as, b.Header (endHeader 0 mem a.handle) := fun b hb =>
      hone.header (hheader b (List.mem_cons_of_mem _ hb)) (hasok b hb).le_size
        (fun c hc => List.mem_singleton.mp hc ▸ (hrest.1 b hb).symm)
        (fun c hc => List.mem_singleton.mp hc ▸ hsize)
    have hnext := ih h.2 hasok hheaders (Nat.lt_of_succ_lt_succ hfuel)
    rw [scrubFrom, if_pos (by omega), ← h.1]
    simp only [hahead.magicOf, ne_eq, not_true_eq_false, false_and, if_false, hahead.size haok]
    have hoff : sizeT (off + a.size) = off + a.size := Nat.mod_eq_of_lt (by omega)
    rw [hoff]
    exact hone.trans hnext (fun c hc b hb => List.mem_singleton.mp hc ▸ hrest.1 b hb)
      (fun c hc => List.mem_singleton.mp hc ▸ hsize) fun b hb => (hasok b hb).le_size

theorem scrubHeaders_laid {b : ArenaBlock} {start stop : ℕ} (h : Laid b.data start as stop)
    (hok : ∀ a ∈ as, a.Ok) (hheader : ∀ a ∈ as, a.Header mem) (hstop : stop < 2 ^ 64) :
    Scrubbed as mem (scrubHeaders b start stop mem) := by
  have hlength := h.length_le hok
  unfold headerSize at hlength
  exact scrubFrom_laid h hok hheader hstop (by omega)

/-! ### Releasing -/

theorem Scrubbed.of_mem_iff (h : Scrubbed as mem mem') (hiff : ∀ a, a ∈ bs ↔ a ∈ as) :
    Scrubbed bs mem mem' :=
  ⟨fun a ha => h.length a ((hiff a).mp ha), fun a ha => h.magic a ((hiff a).mp ha),
    fun x hx => h.same x fun a ha => hx a ((hiff a).mpr ha)⟩

/-- **The loop of a release** recycles and scrubs the blocks above the one of the frame. -/
theorem popTo_spec (block : Option ℕ) {newer : List Layer} (tail : List ArenaBlock)
    (hnewer : ∀ l ∈ newer, some l.block.addr ≠ block)
    (htail : ∀ b ∈ tail.head?, some b.addr = block) (hlayer : ∀ l ∈ newer, l.Ok)
    (hused : ∀ l ∈ newer, l.block.used < 2 ^ 64) (hok : ∀ a ∈ arraysOf newer, a.Ok)
    (hheader : ∀ a ∈ arraysOf newer, a.Header mem) (hapart : (arraysOf newer).Pairwise Arr.Apart)
    (free : List ArenaBlock) :
    ∃ mem', popTo block (newer.map Layer.block ++ tail) free mem =
      (tail, (newer.map Layer.block).reverse ++ free, mem') ∧
        Scrubbed (arraysOf newer) mem mem' := by
  induction newer generalizing free mem with
  | nil =>
    refine ⟨mem, ?_, Scrubbed.nil mem⟩
    rcases tail with - | ⟨b, tail⟩
    · rfl
    · rw [List.map_nil, List.nil_append, popTo, if_pos (htail b rfl)]
      rfl
  | cons l newer ih =>
    rw [arraysOf] at hok hheader hapart
    obtain ⟨hrest, -, hcross⟩ := List.pairwise_append.mp hapart
    have hlok : ∀ a ∈ l.arrays, a.Ok := fun a ha => hok a (List.mem_append_right _ ha)
    have hnok : ∀ a ∈ arraysOf newer, a.Ok := fun a ha => hok a (List.mem_append_left _ ha)
    have hlscrub := scrubHeaders_laid (hlayer l List.mem_cons_self).laid hlok
      (fun a ha => hheader a (List.mem_append_right _ ha)) (hused l List.mem_cons_self)
    obtain ⟨mem', hpop, hscrub⟩ := ih (fun k hk => hnewer k (List.mem_cons_of_mem _ hk))
      (fun k hk => hlayer k (List.mem_cons_of_mem _ hk))
      (fun k hk => hused k (List.mem_cons_of_mem _ hk)) hnok
      (fun a ha => hlscrub.header (hheader a (List.mem_append_left _ ha)) (hnok a ha).le_size
        (hcross a ha) fun b hb => (hlok b hb).le_size) hrest (l.block :: free)
    refine ⟨mem', ?_, ?_⟩
    · rw [List.map_cons, List.cons_append, popTo, if_neg (hnewer l List.mem_cons_self), hpop,
        List.reverse_cons, List.append_assoc]
      rfl
    · refine (hlscrub.trans hscrub (fun a ha b hb => (hcross b hb a ha).symm)
        (fun a ha => (hlok a ha).le_size) fun a ha => (hnok a ha).le_size).of_mem_iff fun a => ?_
      rw [arraysOf, List.mem_append, List.mem_append, or_comm]

end NativeArray

end TsAot
