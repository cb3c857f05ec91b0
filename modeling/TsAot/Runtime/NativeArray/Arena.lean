import TsAot.Runtime.NativeArray.Scrub

/-!
# Taking and releasing chunks

What the allocators do to the layout. A chunk for a new array comes from `malloc`, from the
quarantine or from the top block of the arena; in each case the array can be added to the layout
(`takeChunk_spec`), provided that no size wraps (`Fits`). A release goes back to the layers of the
mark and scrubs the arrays above them (`releaseTo_spec`).
-/

namespace TsAot

namespace NativeArray

/-- What `malloc` answers: aligned memory that is not in use. -/
def Answers (regions : List (ℕ × ℕ)) (answer : ℕ → Option ℕ) : Prop :=
  ∀ n p, answer n = some p → p ≠ 0 ∧ p % 16 = 0 ∧ p + n ≤ 2 ^ 64 ∧
    ∀ r ∈ regions, Apart p n r.1 r.2

/-- The sizes that a new array needs can be computed: its own, and for a Temp array that of a block
for it and the place where it would end in the top block. -/
def Fits (s : State) (length kind : ℕ) : Prop :=
  exactSize length kind < 2 ^ 64 ∧
    (kind % 256 ≠ 1 → blockHeader + exactSize length kind < 2 ^ 64 ∧
      ∀ b ∈ s.top.head?, b.used + exactSize length kind < 2 ^ 64)

variable {s s' : State} {layers : List Layer} {persistent : List Arr} {answer : ℕ → Option ℕ}
  {n p : ℕ}

/-! ### Owners -/

/-- Every owner has a region. -/
theorem Layout.owner_region (h : Layout s layers persistent) {x : ℕ}
    (hx : x ∈ owners s persistent) : ∃ r ∈ s.regions, r.1 = x := by
  simp only [owners, List.mem_append, List.mem_map] at hx
  obtain ((⟨b, hb, rfl⟩ | ⟨b, hb, rfl⟩) | ⟨a, ha, rfl⟩) | ⟨e, he, rfl⟩ := hx
  · exact ⟨_, h.block_region b (List.mem_append_left _ hb), rfl⟩
  · exact ⟨_, h.block_region b (List.mem_append_right _ hb), rfl⟩
  · obtain ⟨size, hr, -⟩ := h.persistent_region a ha
    exact ⟨_, hr, rfl⟩
  · obtain ⟨size, hr, -⟩ := h.quarantine_region e he
    exact ⟨_, hr, rfl⟩

/-- `malloc` adds a region that nothing owns. -/
theorem Layout.malloc (h : Layout s layers persistent) (hanswer : Answers s.regions answer)
    (hn : 0 < n) (hp : s.malloc answer n = some (p, s')) :
    Layout s' layers persistent ∧ s' = { s with regions := (p, n) :: s.regions } ∧
      p ∉ owners s persistent := by
  obtain ⟨q, hq, heq⟩ := Option.map_eq_some_iff.mp hp
  obtain ⟨rfl, rfl⟩ := Prod.mk.inj heq
  obtain ⟨hne, -, hle, hfresh⟩ := hanswer n q hq
  refine ⟨⟨h.top_eq, h.layer_ok, fun b hb => List.mem_cons_of_mem _ (h.block_region b hb), ?_, ?_,
    h.owners_nodup, List.pairwise_cons.mpr ⟨hfresh, h.regions_apart⟩,
    List.forall_mem_cons.mpr ⟨hn, h.regions_pos⟩, List.forall_mem_cons.mpr ⟨hle, h.regions_le⟩,
    List.forall_mem_cons.mpr ⟨hne, h.regions_ne⟩⟩, rfl, fun hmem => ?_⟩
  · intro a ha
    obtain ⟨size, hr, hsize⟩ := h.persistent_region a ha
    exact ⟨size, List.mem_cons_of_mem _ hr, hsize⟩
  · intro e he
    obtain ⟨size, hr, hsize⟩ := h.quarantine_region e he
    exact ⟨size, List.mem_cons_of_mem _ hr, hsize⟩
  · -- two regions at one address would not be apart
    obtain ⟨r, hr, rfl⟩ := h.owner_region hmem
    have hapart := hfresh r hr
    have hpos := h.regions_pos r hr
    unfold Apart at hapart
    omega

/-- A Persistent array in a region that nothing owns. -/
theorem Layout.addPersistent (h : Layout s layers persistent) {a : Arr}
    (howner : a.handle ∉ owners s persistent) {size : ℕ} (hr : (a.handle, size) ∈ s.regions)
    (hsize : a.size ≤ size) : Layout s layers (persistent ++ [a]) := by
  refine { h with persistent_region := ?_, owners_nodup := ?_ }
  · intro b hb
    rcases List.mem_append.mp hb with hb | hb
    · exact h.persistent_region b hb
    · rw [List.mem_singleton.mp hb]
      exact ⟨size, hr, hsize⟩
  · have hperm : (owners s (persistent ++ [a])).Perm (a.handle :: owners s persistent) := by
      simp only [owners, List.map_append, List.map_cons, List.map_nil]
      rw [← List.append_assoc, List.append_assoc _ [a.handle]]
      exact List.perm_middle
    exact hperm.nodup_iff.mpr (List.nodup_cons.mpr ⟨howner, h.owners_nodup⟩)

/-- An empty block on top, in a region that nothing owns. -/
theorem Layout.pushBlock (h : Layout s layers persistent) {b : ArenaBlock}
    (howner : b.addr ∉ owners s persistent) (hr : (b.addr, blockHeader + b.cap) ∈ s.regions)
    (hused : b.used = 0) :
    Layout { s with top := b :: s.top } (⟨b, []⟩ :: layers) persistent := by
  refine { h with
    top_eq := congrArg (b :: ·) h.top_eq
    layer_ok := List.forall_mem_cons.mpr ⟨⟨hused.symm, hused ▸ Nat.zero_le _⟩, h.layer_ok⟩
    block_region := List.forall_mem_cons.mpr ⟨hr, h.block_region⟩
    owners_nodup := List.nodup_cons.mpr ⟨howner, h.owners_nodup⟩ }

/-- An array cut from the top block. -/
theorem Layout.cut {l : Layer} (h : Layout s (l :: layers) persistent) {a : Arr}
    (hhandle : a.handle = l.block.data + l.block.used) (hcap : l.block.used + a.size ≤ l.block.cap) :
    Layout { s with top := { l.block with used := l.block.used + a.size } :: s.top.tail }
      (⟨{ l.block with used := l.block.used + a.size }, l.arrays ++ [a]⟩ :: layers) persistent := by
  have htop := h.top_eq
  rw [List.map_cons] at htop
  have hok := h.layer_ok l List.mem_cons_self
  refine { h with
    top_eq := ?_
    layer_ok := List.forall_mem_cons.mpr
      ⟨⟨?_, hcap⟩, fun k hk => h.layer_ok k (List.mem_cons_of_mem _ hk)⟩
    block_region := ?_
    owners_nodup := ?_ }
  · simp [htop]
  · exact laid_append.mpr ⟨_, hok.laid, hhandle, rfl⟩
  · have hall := h.block_region
    rw [htop] at hall ⊢
    refine List.forall_mem_cons.mpr ⟨hall l.block List.mem_cons_self, fun b hb => ?_⟩
    exact hall b (List.mem_cons_of_mem _ hb)
  · have hall := h.owners_nodup
    rw [owners, htop] at hall
    rw [owners]
    simpa [htop] using hall

/-! ### Chunks that are used again -/

theorem takeFree_spec {need : ℕ} {free free' : List ArenaBlock} {b : ArenaBlock}
    (h : State.takeFree need free = some (b, free')) :
    ∃ c, free.Perm (c :: free') ∧ b = { c with used := 0 } ∧ need ≤ c.cap := by
  induction free generalizing free' with
  | nil => exact absurd h nofun
  | cons c free ih =>
    rw [State.takeFree] at h
    split_ifs at h with hcap
    · obtain ⟨rfl, rfl⟩ := Prod.mk.inj (Option.some.inj h)
      exact ⟨c, List.Perm.refl _, rfl, hcap⟩
    · obtain ⟨⟨d, rest⟩, hrest, heq⟩ := Option.map_eq_some_iff.mp h
      obtain ⟨rfl, rfl⟩ := Prod.mk.inj heq
      obtain ⟨e, hperm, hb, hneed⟩ := ih hrest
      exact ⟨e, (hperm.cons c).trans (List.Perm.swap e c rest), hb, hneed⟩

/-- A recycled block no longer owns its region. -/
theorem Layout.takeFree (h : Layout s layers persistent) {need : ℕ} {free : List ArenaBlock}
    {b : ArenaBlock} (hfree : State.takeFree need s.free = some (b, free)) :
    Layout { s with free } layers persistent ∧ b.addr ∉ owners { s with free } persistent ∧
      (b.addr, blockHeader + b.cap) ∈ s.regions ∧ b.used = 0 ∧ need ≤ b.cap := by
  obtain ⟨c, hperm, rfl, hneed⟩ := takeFree_spec hfree
  have hmem : ∀ {d}, d ∈ c :: free → d ∈ s.free := fun hd => hperm.mem_iff.mpr hd
  have howners : (owners s persistent).Perm (c.addr :: owners { s with free } persistent) := by
    have hfreePerm : (s.free.map ArenaBlock.addr).Perm (c.addr :: free.map ArenaBlock.addr) :=
      hperm.map _
    simp only [owners]
    refine ((hfreePerm.append_left _).append_right _).append_right _ |>.trans ?_
    simp only [List.append_assoc, List.cons_append]
    exact List.perm_middle
  obtain ⟨hnot, hnodup⟩ := List.nodup_cons.mp (howners.nodup_iff.mp h.owners_nodup)
  refine ⟨{ h with block_region := fun d hd => ?_, owners_nodup := hnodup }, hnot, ?_, rfl, hneed⟩
  · rcases List.mem_append.mp hd with hd | hd
    · exact h.block_region d (List.mem_append_left _ hd)
    · exact h.block_region d (List.mem_append_right _ (hmem (List.mem_cons_of_mem _ hd)))
  · exact h.block_region c (List.mem_append_right _ (hmem List.mem_cons_self))

/-- Moving the last entry to the place of the one taken leaves the others. -/
theorem perm_set_dropLast {α : Type} {q : List α} {k : ℕ} {e : α} (he : q[k]? = some e) :
    q.Perm (e :: (q.set k (q.getLast?.getD e)).dropLast) := by
  have hk : k < q.length := (List.getElem?_eq_some_iff.mp he).1
  obtain ⟨xs, l, rfl⟩ : ∃ xs l, q = xs ++ [l] :=
    ⟨_, _, (List.dropLast_concat_getLast (List.ne_nil_of_length_pos (Nat.zero_lt_of_lt hk))).symm⟩
  rw [List.getLast?_append, List.getLast?_singleton, Option.some_or, Option.getD_some]
  rcases Nat.lt_or_ge k xs.length with hlt | hge
  · rw [List.getElem?_append_left hlt] at he
    have hget : xs[k] = e := (List.getElem?_eq_some_iff.mp he).2
    subst hget
    rw [List.set_append_left k l hlt, List.dropLast_concat]
    have herase := (List.getElem_cons_eraseIdx_perm hlt).symm
    have hset := (List.set_perm_cons_eraseIdx hlt l).symm
    exact (List.perm_append_singleton l xs).trans <|
      (herase.cons l).trans <| (List.Perm.swap _ _ _).trans (hset.cons _)
  · have hk' : k = xs.length := by
      rw [List.length_append, List.length_singleton] at hk
      omega
    subst hk'
    have hl : l = e := by simpa using he
    subst hl
    rw [List.set_append_right _ _ (Nat.le_refl _), Nat.sub_self, List.set_cons_zero,
      List.dropLast_concat]
    exact List.perm_append_singleton l xs

/-- A chunk taken from the quarantine no longer owns its region. -/
theorem Layout.quarantineTake (h : Layout s layers persistent)
    (hp : s.quarantineTake n = some (p, s')) :
    Layout s' layers persistent ∧ p ∉ owners s' persistent ∧
      (∃ size, (p, size) ∈ s'.regions ∧ n ≤ size) ∧ s'.mem = s.mem ∧ s'.frames = s.frames := by
  obtain ⟨k, hk, hp⟩ := Option.bind_eq_some_iff.mp hp
  obtain ⟨e, he, heq⟩ := Option.map_eq_some_iff.mp hp
  obtain ⟨rfl, rfl⟩ := Prod.mk.inj heq
  have hneed : n ≤ e.cap := by
    obtain ⟨hlt, hcap, -⟩ := List.findIdx?_eq_some_iff_getElem.mp hk
    obtain ⟨_, hget⟩ := List.getElem?_eq_some_iff.mp he
    rw [← hget]
    exact of_decide_eq_true hcap
  have hperm := perm_set_dropLast he
  generalize (s.quarantine.set k (s.quarantine.getLast?.getD e)).dropLast = rest at hperm ⊢
  have howners : (owners s persistent).Perm
      (e.chunk :: owners { s with quarantine := rest } persistent) := by
    have hchunks : (s.quarantine.map QuarantineEntry.chunk).Perm
        (e.chunk :: rest.map QuarantineEntry.chunk) := hperm.map _
    simp only [owners]
    exact (hchunks.append_left _).trans List.perm_middle
  obtain ⟨hnot, hnodup⟩ := List.nodup_cons.mp (howners.nodup_iff.mp h.owners_nodup)
  obtain ⟨size, hr, hsize⟩ := h.quarantine_region e (hperm.mem_iff.mpr List.mem_cons_self)
  refine ⟨{ h with quarantine_region := fun f hf => ?_, owners_nodup := hnodup }, hnot,
    ⟨size, hr, le_trans hneed hsize⟩, rfl, rfl⟩
  exact h.quarantine_region f (hperm.mem_iff.mpr (List.mem_cons_of_mem _ hf))

/-! ### A chunk for a new array -/

/-- A block on top that is big enough. -/
theorem Layout.push_spec (h : Layout s layers persistent) (hanswer : Answers s.regions answer)
    (hn : blockHeader + n < 2 ^ 64) (hs : s.pushBlock answer n = some s') :
    ∃ b, Layout s' (⟨b, []⟩ :: layers) persistent ∧ b.used = 0 ∧ n ≤ b.cap ∧ s'.mem = s.mem ∧
      s'.frames = s.frames := by
  obtain ⟨⟨b, t⟩, hb, rfl⟩ := Option.map_eq_some_iff.mp hs
  rw [State.arenaTakeBlock] at hb
  rcases hfree : State.takeFree n s.free with - | ⟨c, free⟩
  · rw [hfree] at hb
    obtain ⟨⟨q, u⟩, hmalloc, heq⟩ := Option.map_eq_some_iff.mp hb
    obtain ⟨rfl, rfl⟩ := Prod.mk.inj heq
    have hsize : sizeT (blockHeader + if arenaBlock < n then n else arenaBlock) =
        blockHeader + if arenaBlock < n then n else arenaBlock := by
      refine Nat.mod_eq_of_lt ?_
      split_ifs
      · exact hn
      · decide
    rw [hsize] at hmalloc
    obtain ⟨hlayout, rfl, hnot⟩ := h.malloc hanswer (Nat.lt_of_lt_of_le (by decide)
      (Nat.le_add_right blockHeader _)) hmalloc
    refine ⟨_, hlayout.pushBlock hnot List.mem_cons_self rfl, rfl, ?_, rfl, rfl⟩
    show n ≤ if arenaBlock < n then n else arenaBlock
    split_ifs <;> omega
  · rw [hfree] at hb
    obtain ⟨rfl, rfl⟩ := Prod.mk.inj (Option.some.inj hb)
    obtain ⟨hlayout, hnot, hr, hused, hneed⟩ := h.takeFree hfree
    exact ⟨_, hlayout.pushBlock hnot hr hused, hused, hneed, rfl, rfl⟩

/-- A layer on top in which there is room; the arrays are the same. -/
theorem Layout.room_spec (h : Layout s layers persistent) (hanswer : Answers s.regions answer)
    (hn : blockHeader + n < 2 ^ 64) (htop : ∀ b ∈ s.top.head?, b.used + n < 2 ^ 64)
    (hs : s.arenaRoom answer n = some s') :
    ∃ l ls, Layout s' (l :: ls) persistent ∧ Older layers (l :: ls) ∧
      arraysOf (l :: ls) = arraysOf layers ∧ l.block.used + n ≤ l.block.cap ∧ s'.mem = s.mem ∧
        s'.frames = s.frames := by
  have hpush (hs : s.pushBlock answer n = some s') :
      ∃ l ls, Layout s' (l :: ls) persistent ∧ Older layers (l :: ls) ∧
        arraysOf (l :: ls) = arraysOf layers ∧ l.block.used + n ≤ l.block.cap ∧ s'.mem = s.mem ∧
          s'.frames = s.frames := by
    obtain ⟨b, hlayout, hused, hcap, hmem, hframes⟩ := h.push_spec hanswer hn hs
    exact ⟨_, _, hlayout, older_push _ _, List.append_nil _, by simpa [hused] using hcap, hmem,
      hframes⟩
  have heq := h.top_eq
  rw [State.arenaRoom] at hs
  rcases layers with - | ⟨l, ls⟩
  · rw [heq] at hs
    exact hpush hs
  · rw [List.map_cons] at heq
    rw [heq] at hs htop
    have hwrap : sizeT (l.block.used + n) = l.block.used + n :=
      Nat.mod_eq_of_lt (htop l.block rfl)
    simp only [hwrap] at hs
    split_ifs at hs with hfull
    · exact hpush hs
    · obtain rfl := Option.some.inj hs
      exact ⟨l, ls, h, Older.refl _, rfl, Nat.not_lt.mp hfull, rfl, rfl⟩

theorem exactSize_mod (length kind : ℕ) : exactSize length kind % 8 = 0 := by
  unfold exactSize headerSize
  omega

/-- **A chunk for a new array**: the array can be added to the layout. -/
theorem Layout.takeChunk_spec (h : Layout s layers persistent) (hanswer : Answers s.regions answer)
    {length kind : ℕ} (hfits : Fits s length kind)
    (hs : s.takeChunk answer kind (exactSize length kind) = some (p, s')) :
    ∃ layers', Older layers layers' ∧ s'.mem = s.mem ∧ s'.frames = s.frames ∧
      if kind % 256 = 1 then
        layers' = layers ∧ Layout s' layers (persistent ++ [⟨p, length, kind, exactSize length kind⟩])
      else
        arraysOf layers' = arraysOf layers ++ [⟨p, length, kind, exactSize length kind⟩] ∧
          Layout s' layers' persistent := by
  have hpos : 0 < exactSize length kind :=
    Nat.lt_of_lt_of_le (by decide) (Nat.le_add_right headerSize _)
  rw [State.takeChunk] at hs
  split_ifs at hs with hkind
  · simp only [if_pos hkind]
    rcases hq : s.quarantineTake (exactSize length kind) with - | ⟨q, t⟩
    · rw [hq] at hs
      obtain ⟨hlayout, rfl, hnot⟩ := h.malloc hanswer hpos hs
      exact ⟨layers, Older.refl _, rfl, rfl, rfl,
        hlayout.addPersistent hnot List.mem_cons_self (Nat.le_refl _)⟩
    · rw [hq] at hs
      obtain ⟨rfl, rfl⟩ := Prod.mk.inj (Option.some.inj hs)
      obtain ⟨hlayout, hnot, ⟨size, hr, hsize⟩, hmem, hframes⟩ := h.quarantineTake hq
      exact ⟨layers, Older.refl _, hmem, hframes, rfl, hlayout.addPersistent hnot hr hsize⟩
  · simp only [if_neg hkind]
    obtain ⟨hblock, hused⟩ := hfits.2 hkind
    have hmod := exactSize_mod length kind
    have halign : align8 (exactSize length kind) = exactSize length kind := by
      unfold blockHeader at hblock
      unfold align8 sizeT
      omega
    rw [State.arenaAlloc, halign] at hs
    obtain ⟨t, hroom, hbump⟩ := Option.bind_eq_some_iff.mp hs
    obtain ⟨l, ls, hlayout, holder, harrays, hcap, hmem, hframes⟩ :=
      h.room_spec hanswer hblock hused hroom
    have htop := hlayout.top_eq
    rw [List.map_cons] at htop
    have hle := hlayout.regions_le _ (hlayout.block_region l.block (by rw [htop]; simp))
    have hwrap : sizeT (l.block.used + exactSize length kind) =
        l.block.used + exactSize length kind := by
      unfold blockHeader at hle
      exact Nat.mod_eq_of_lt (by simp only at hle; omega)
    rw [State.bump, htop] at hbump
    simp only [hwrap] at hbump
    obtain ⟨rfl, rfl⟩ := Prod.mk.inj (Option.some.inj hbump)
    have hcut := hlayout.cut
      (a := ⟨l.block.data + l.block.used, length, kind, exactSize length kind⟩) rfl hcap
    rw [htop] at hcut
    have hcutOlder := older_cut (b := { l.block with used := l.block.used + exactSize length kind })
      l ls [⟨l.block.data + l.block.used, length, kind, exactSize length kind⟩] rfl rfl
    refine ⟨_, holder.trans hcutOlder, hmem, hframes, ?_, hcut⟩
    rw [← harrays, arraysOf, arraysOf, List.append_assoc]

/-! ### Releasing -/

/-- What is used of a block is a size. -/
theorem Layout.used_lt (h : Layout s layers persistent) {l : Layer} (hl : l ∈ layers) :
    l.block.used < 2 ^ 64 := by
  have hblock : l.block ∈ s.top ++ s.free := by
    rw [h.top_eq]
    exact List.mem_append_left _ (List.mem_map_of_mem hl)
  have hregion := h.regions_le _ (h.block_region _ hblock)
  have hused := (h.layer_ok l hl).used_le
  unfold blockHeader at hregion
  simp only at hregion
  omega

/-- The layout depends on the blocks that own a region, wherever they are. -/
theorem Layout.recycle (h : Layout s layers persistent) {ks newer : List Layer} {mem : Mem}
    (hks : ∀ k ∈ ks, k.Ok) (haddr : (layers.map fun l => (l.block.addr, l.block.cap)).Perm
      (newer.map (fun l => (l.block.addr, l.block.cap)) ++
        ks.map fun l => (l.block.addr, l.block.cap))) :
    Layout { s with
      top := ks.map Layer.block
      free := (newer.map Layer.block).reverse ++ s.free
      mem } ks persistent := by
  have hregion : ∀ x ∈ layers.map fun l => (l.block.addr, l.block.cap),
      (x.1, blockHeader + x.2) ∈ s.regions := by
    intro x hx
    obtain ⟨l, hl, rfl⟩ := List.mem_map.mp hx
    refine h.block_region l.block ?_
    rw [h.top_eq]
    exact List.mem_append_left _ (List.mem_map_of_mem hl)
  refine { h with top_eq := rfl, layer_ok := hks, block_region := ?_, owners_nodup := ?_ }
  · intro b hb
    simp only [List.mem_append, List.mem_reverse] at hb
    rcases hb with hb | hb | hb
    · obtain ⟨k, hk, rfl⟩ := List.mem_map.mp hb
      exact hregion (k.block.addr, k.block.cap) (haddr.mem_iff.mpr
        (List.mem_append_right _ (List.mem_map_of_mem (f := fun l : Layer =>
          (l.block.addr, l.block.cap)) hk)))
    · obtain ⟨k, hk, rfl⟩ := List.mem_map.mp hb
      exact hregion (k.block.addr, k.block.cap) (haddr.mem_iff.mpr
        (List.mem_append_left _ (List.mem_map_of_mem (f := fun l : Layer =>
          (l.block.addr, l.block.cap)) hk)))
    · exact h.block_region b (List.mem_append_right _ hb)
  · have hall := h.owners_nodup
    have haddrs := haddr.map Prod.fst
    rw [List.map_append, List.map_map, List.map_map, List.map_map] at haddrs
    rw [owners, h.top_eq, List.map_map] at hall
    have hblocks : ((ks.map Layer.block).map ArenaBlock.addr ++
        ((newer.map Layer.block).reverse ++ s.free).map ArenaBlock.addr).Perm
          (layers.map (ArenaBlock.addr ∘ Layer.block) ++ s.free.map ArenaBlock.addr) := by
      rw [List.map_append, ← List.append_assoc, List.map_reverse, List.map_map, List.map_map]
      refine List.Perm.append_right _ (List.Perm.trans ?_ haddrs.symm)
      exact ((List.reverse_perm _).append_left _).trans List.perm_append_comm
    exact ((hblocks.append_right _).append_right _).nodup_iff.mpr hall

/-- **A release** goes back to the layers of the mark and scrubs the arrays above them. -/
theorem Layout.releaseTo_spec (h : Layout s layers persistent) {ks : List Layer}
    (hks : ∀ k ∈ ks, k.Ok) (holder : Older ks layers) (hok : ∀ a ∈ arraysOf layers, a.Ok)
    (hheader : ∀ a ∈ arraysOf layers, a.Header s.mem) :
    Layout (s.releaseTo (State.frame (ks.map Layer.block))) ks persistent ∧
      (s.releaseTo (State.frame (ks.map Layer.block))).frames = s.frames ∧
      ∃ dropped, arraysOf layers = arraysOf ks ++ dropped ∧
        Scrubbed dropped s.mem (s.releaseTo (State.frame (ks.map Layer.block))).mem := by
  have hpairwise := h.temps_pairwise
  rcases ks with - | ⟨k, ks⟩
  · -- the arena was empty: every block goes
    obtain ⟨mem, hpop, hscrub⟩ := popTo_spec none [] (fun _ _ => nofun) nofun
      h.layer_ok (fun l hl => h.used_lt hl) hok hheader hpairwise s.free
    rw [List.append_nil, ← h.top_eq] at hpop
    have hrelease : s.releaseTo (State.frame []) =
        { s with top := [], free := (layers.map Layer.block).reverse ++ s.free, mem } := by
      unfold State.releaseTo
      rw [show (State.frame []).block = none from rfl, hpop, h.top_eq]
    rw [List.map_nil, hrelease]
    exact ⟨h.recycle hks (by rw [List.map_nil, List.append_nil]), rfl, _, rfl, hscrub⟩
  · obtain ⟨newer, b, more, rfl, haddr, hcap⟩ := holder
    have harrays : arraysOf (newer ++ ⟨b, k.arrays ++ more⟩ :: ks) =
        arraysOf (k :: ks) ++ (more ++ arraysOf newer) := by
      simp only [arraysOf_append, arraysOf, List.append_assoc]
    rw [harrays] at hok hheader hpairwise ⊢
    obtain ⟨-, hdropped, -⟩ := List.pairwise_append.mp hpairwise
    obtain ⟨-, hnewer, hcross⟩ := List.pairwise_append.mp hdropped
    have hmem : ∀ {a}, a ∈ more ++ arraysOf newer → a ∈ arraysOf (k :: ks) ++ (more ++
        arraysOf newer) := fun ha => List.mem_append_right _ ha
    have hnok : ∀ a ∈ arraysOf newer, a.Ok := fun a ha => hok a (hmem (List.mem_append_right _ ha))
    have hmok : ∀ a ∈ more, a.Ok := fun a ha => hok a (hmem (List.mem_append_left _ ha))
    have hblock : (⟨b, k.arrays ++ more⟩ : Layer) ∈ newer ++ ⟨b, k.arrays ++ more⟩ :: ks :=
      List.mem_append_right _ List.mem_cons_self
    have hmem' : ∀ {l}, l ∈ newer → l ∈ newer ++ ⟨b, k.arrays ++ more⟩ :: ks := fun hl =>
      List.mem_append_left _ hl
    -- the block of the frame is the first one with its address
    have hfirst : ∀ l ∈ newer, some l.block.addr ≠ some k.block.addr := by
      have hall := h.owners_nodup
      rw [owners, h.top_eq, List.map_map] at hall
      have htops := ((List.nodup_append.mp (List.nodup_append.mp
        (List.nodup_append.mp hall).1).1).1)
      rw [List.map_append, List.nodup_append] at htops
      intro l hl heq
      refine htops.2.2 _ (List.mem_map_of_mem hl) _ List.mem_cons_self ?_
      exact (Option.some.inj heq).trans haddr.symm
    obtain ⟨mem, hpop, hscrub⟩ := popTo_spec _ (b :: ks.map Layer.block) hfirst
      (fun c hc => by rw [← Option.some.inj hc, haddr]) (fun l hl => h.layer_ok l (hmem' hl))
      (fun l hl => h.used_lt (hmem' hl)) hnok
      (fun a ha => hheader a (hmem (List.mem_append_right _ ha))) hnewer s.free
    -- what the mark does not remember of the block begins where its arrays end
    have hlaid : Laid b.data k.block.used more b.used := by
      have hwhole := (h.layer_ok _ hblock).laid
      obtain ⟨mid, hold, hmore⟩ := laid_append.mp hwhole
      have hk := (hks k List.mem_cons_self).laid
      rw [ArenaBlock.data, ← haddr] at hk
      rwa [hk.unique hold]
    have hmore := scrubHeaders_laid hlaid hmok (fun a ha => hscrub.header
      (hheader a (hmem (List.mem_append_left _ ha))) (hmok a ha).le_size (hcross a ha)
      fun c hc => (hnok c hc).le_size) (h.used_lt hblock)
    have hboth := hscrub.trans hmore (fun a ha c hc => (hcross c hc a ha).symm)
      (fun a ha => (hnok a ha).le_size) fun a ha => (hmok a ha).le_size
    have hsame : ({ b with used := k.block.used } : ArenaBlock) = k.block := by
      rw [haddr, hcap]
    have hrelease : s.releaseTo (State.frame ((k :: ks).map Layer.block)) =
        { s with
          top := (k :: ks).map Layer.block
          free := (newer.map Layer.block).reverse ++ s.free
          mem := scrubHeaders b k.block.used b.used mem } := by
      have hframe : State.frame ((k :: ks).map Layer.block) = ⟨some k.block.addr, k.block.used⟩ :=
        rfl
      have htop := h.top_eq
      rw [List.map_append] at htop
      unfold State.releaseTo
      rw [hframe, htop]
      simp only [List.map_cons] at hpop ⊢
      rw [hpop]
      simp only [hsame]
    rw [hrelease]
    refine ⟨h.recycle hks ?_, rfl, _, rfl, hboth.of_mem_iff fun a => ?_⟩
    · rw [List.map_append, List.map_cons, List.map_cons, haddr, hcap]
    · rw [List.mem_append, List.mem_append, or_comm]

end NativeArray

end TsAot
