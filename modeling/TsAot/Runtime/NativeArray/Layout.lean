import TsAot.Runtime.NativeArray.Model
import Mathlib.Data.List.Perm.Basic
import Mathlib.Data.List.Pairwise

/-!
# The layout of native arrays

The arena as a stack of layers: a block and the arrays cut from it, in order, end to end
(`Laid`). A mark remembers a stack of layers, and the one that is there later is older arrays with
newer ones on top (`Older`). Every array lies in a region that `malloc` handed out, and no two
things that own a region own the same one (`Layout`), so the arrays are apart
(`Layout.pairwise_apart`).
-/

namespace TsAot

namespace NativeArray

/-- An array: its handle, what it was made with, and the bytes it was given. -/
structure Arr where
  handle : ℕ
  length : ℕ
  kind : ℕ
  size : ℕ

/-- Two ranges have no byte in common. -/
def Apart (p n q m : ℕ) : Prop := p + n ≤ q ∨ q + m ≤ p

theorem Apart.symm {p n q m : ℕ} (h : Apart p n q m) : Apart q m p n := Or.symm h

theorem Apart.mono {p n q m p' n' q' m' : ℕ} (h : Apart p n q m) (hp : p ≤ p')
    (hpn : p' + n' ≤ p + n) (hq : q ≤ q') (hqm : q' + m' ≤ q + m) : Apart p' n' q' m' := by
  unfold Apart at *
  omega

/-- The arrays have no byte in common. -/
def Arr.Apart (a b : Arr) : Prop := NativeArray.Apart a.handle a.size b.handle b.size

instance : Std.Symm Arr.Apart := ⟨fun _ _ h => NativeArray.Apart.symm h⟩

/-! ### Arrays end to end -/

/-- The arrays lie end to end from one offset to another. -/
def Laid (data : ℕ) : ℕ → List Arr → ℕ → Prop
  | off, [], stop => off = stop
  | off, a :: as, stop => a.handle = data + off ∧ Laid data (off + a.size) as stop

variable {data off stop : ℕ} {a : Arr} {as bs : List Arr}

theorem laid_append : Laid data off (as ++ bs) stop ↔
    ∃ mid, Laid data off as mid ∧ Laid data mid bs stop := by
  induction as generalizing off with
  | nil => simp [Laid]
  | cons a as ih =>
    simp only [List.cons_append, Laid, ih]
    constructor
    · rintro ⟨ha, mid, has, hbs⟩
      exact ⟨mid, ⟨ha, has⟩, hbs⟩
    · rintro ⟨mid, ⟨ha, has⟩, hbs⟩
      exact ⟨ha, mid, has, hbs⟩

theorem Laid.le (h : Laid data off as stop) : off ≤ stop := by
  induction as generalizing off with
  | nil => exact Nat.le_of_eq h
  | cons a as ih => exact Nat.le_trans (Nat.le_add_right off a.size) (ih h.2)

/-- Where the arrays end depends on them alone. -/
theorem Laid.unique {stop' : ℕ} (h : Laid data off as stop) (h' : Laid data off as stop') :
    stop = stop' := by
  induction as generalizing off with
  | nil => exact Eq.trans (Eq.symm h) h'
  | cons a as ih => exact ih h.2 h'.2

/-- Each array lies between the two offsets. -/
theorem Laid.bounds (h : Laid data off as stop) (ha : a ∈ as) :
    data + off ≤ a.handle ∧ a.handle + a.size ≤ data + stop := by
  induction as generalizing off with
  | nil => exact absurd ha List.not_mem_nil
  | cons b as ih =>
    have hle := h.2.le
    have hb := h.1
    obtain rfl | ha := List.mem_cons.mp ha
    · omega
    · have hbounds := ih h.2 ha
      omega

theorem Laid.pairwise (h : Laid data off as stop) : as.Pairwise Arr.Apart := by
  induction as generalizing off with
  | nil => exact List.Pairwise.nil
  | cons b as ih =>
    refine List.pairwise_cons.mpr ⟨fun a ha => .inl ?_, ih h.2⟩
    have hbounds := h.2.bounds ha
    have hb := h.1
    omega

/-! ### Layers -/

/-- A block of the arena and the arrays cut from it, the first one first. -/
structure Layer where
  block : ArenaBlock
  arrays : List Arr

/-- The arrays fill what is used of the block. -/
structure Layer.Ok (l : Layer) : Prop where
  laid : Laid l.block.data 0 l.arrays l.block.used
  used_le : l.block.used ≤ l.block.cap

/-- The arrays of the layers, the first one first; the top layer is the first in the list. -/
def arraysOf : List Layer → List Arr
  | [] => []
  | l :: ls => arraysOf ls ++ l.arrays

theorem arraysOf_append (ks ls : List Layer) :
    arraysOf (ks ++ ls) = arraysOf ls ++ arraysOf ks := by
  induction ks with
  | nil => exact (List.append_nil _).symm
  | cons k ks ih => rw [List.cons_append, arraysOf, ih, List.append_assoc, arraysOf]

theorem mem_arraysOf {ls : List Layer} : a ∈ arraysOf ls ↔ ∃ l ∈ ls, a ∈ l.arrays := by
  induction ls with
  | nil => simp [arraysOf]
  | cons l ls ih =>
    rw [arraysOf, List.mem_append, ih]
    simp [or_comm]

/-- The layers `ls` are those of `ks` with newer arrays on top. -/
def Older : List Layer → List Layer → Prop
  | [], _ => True
  | k :: ks, ls => ∃ newer b more, ls = newer ++ ⟨b, k.arrays ++ more⟩ :: ks ∧
      b.addr = k.block.addr ∧ b.cap = k.block.cap

theorem Older.refl (ls : List Layer) : Older ls ls := by
  rcases ls with - | ⟨⟨b, as⟩, ls⟩
  · trivial
  · exact ⟨[], b, [], by rw [List.append_nil]; rfl, rfl, rfl⟩

theorem Older.trans {js ks ls : List Layer} (hjk : Older js ks) (hkl : Older ks ls) :
    Older js ls := by
  rcases js with - | ⟨j, js⟩
  · trivial
  obtain ⟨newer, b, more, rfl, haddr, hcap⟩ := hjk
  rcases newer with - | ⟨n, newer⟩
  · obtain ⟨newer', b', more', rfl, haddr', hcap'⟩ := hkl
    exact ⟨newer', b', more ++ more', by rw [List.append_assoc], haddr'.trans haddr,
      hcap'.trans hcap⟩
  · obtain ⟨newer', b', more', rfl, haddr', hcap'⟩ := hkl
    refine ⟨newer' ++ ⟨b', n.arrays ++ more'⟩ :: newer, b, more, ?_, haddr, hcap⟩
    rw [List.append_assoc]
    rfl

/-- One more array in the top layer. -/
theorem older_cut (l : Layer) (ls : List Layer) {b : ArenaBlock} (more : List Arr)
    (haddr : b.addr = l.block.addr) (hcap : b.cap = l.block.cap) :
    Older (l :: ls) (⟨b, l.arrays ++ more⟩ :: ls) :=
  ⟨[], b, more, rfl, haddr, hcap⟩

/-- One more layer. -/
theorem older_push (l : Layer) (ls : List Layer) : Older ls (l :: ls) := by
  rcases ls with - | ⟨⟨b, as⟩, ls⟩
  · trivial
  · exact ⟨[l], b, [], by rw [List.append_nil]; rfl, rfl, rfl⟩

/-! ### Regions -/

/-- The addresses of what lives in regions of its own. -/
def owners (s : State) (persistent : List Arr) : List ℕ :=
  s.top.map ArenaBlock.addr ++ s.free.map ArenaBlock.addr ++ persistent.map Arr.handle ++
    s.quarantine.map QuarantineEntry.chunk

/-- The arena, the Persistent arrays and the quarantine in the regions. -/
structure Layout (s : State) (layers : List Layer) (persistent : List Arr) : Prop where
  top_eq : s.top = layers.map Layer.block
  layer_ok : ∀ l ∈ layers, l.Ok
  block_region : ∀ b ∈ s.top ++ s.free, (b.addr, blockHeader + b.cap) ∈ s.regions
  persistent_region : ∀ a ∈ persistent, ∃ size, (a.handle, size) ∈ s.regions ∧ a.size ≤ size
  quarantine_region : ∀ e ∈ s.quarantine, ∃ size, (e.chunk, size) ∈ s.regions ∧ e.cap ≤ size
  owners_nodup : (owners s persistent).Nodup
  regions_apart : s.regions.Pairwise fun r r' => Apart r.1 r.2 r'.1 r'.2
  regions_pos : ∀ r ∈ s.regions, 0 < r.2
  regions_le : ∀ r ∈ s.regions, r.1 + r.2 ≤ 2 ^ 64
  regions_ne : ∀ r ∈ s.regions, r.1 ≠ 0

section Layout

variable {s : State} {layers : List Layer} {persistent : List Arr}

/-- Regions that begin at different addresses are apart. -/
theorem Layout.apart_of_ne (h : Layout s layers persistent) {r r' : ℕ × ℕ} (hr : r ∈ s.regions)
    (hr' : r' ∈ s.regions) (hne : r.1 ≠ r'.1) : Apart r.1 r.2 r'.1 r'.2 := by
  have : Std.Symm fun r r' : ℕ × ℕ => Apart r.1 r.2 r'.1 r'.2 := ⟨fun _ _ h => h.symm⟩
  exact h.regions_apart.forall hr hr' fun heq => hne (heq ▸ rfl)

/-- The region a Temp array lies in, with its block. -/
theorem Layout.temp_region (h : Layout s layers persistent) {l : Layer} (hl : l ∈ layers)
    (ha : a ∈ l.arrays) : (l.block.addr, blockHeader + l.block.cap) ∈ s.regions ∧
      l.block.addr ≤ a.handle ∧ a.handle + a.size ≤ l.block.addr + (blockHeader + l.block.cap) := by
  have hok := h.layer_ok l hl
  have hbounds := hok.laid.bounds ha
  have hused := hok.used_le
  have hblock : l.block ∈ s.top ++ s.free := by
    rw [h.top_eq]
    exact List.mem_append_left _ (List.mem_map_of_mem hl)
  unfold ArenaBlock.data at hbounds
  exact ⟨h.block_region _ hblock, by omega, by omega⟩

/-- An array lies in a region that one of the owners owns. -/
theorem Layout.exists_region (h : Layout s layers persistent)
    (ha : a ∈ persistent ++ arraysOf layers) : ∃ r ∈ s.regions,
      r.1 ∈ s.top.map ArenaBlock.addr ++ persistent.map Arr.handle ∧ r.1 ≤ a.handle ∧
        a.handle + a.size ≤ r.1 + r.2 := by
  rcases List.mem_append.mp ha with hp | ht
  · obtain ⟨size, hregion, hsize⟩ := h.persistent_region a hp
    exact ⟨_, hregion, List.mem_append_right _ (List.mem_map_of_mem hp), Nat.le_refl _, by omega⟩
  · obtain ⟨l, hl, hal⟩ := mem_arraysOf.mp ht
    obtain ⟨hregion, hlow, hhigh⟩ := h.temp_region hl hal
    refine ⟨_, hregion, List.mem_append_left _ ?_, hlow, hhigh⟩
    rw [h.top_eq, List.map_map]
    exact List.mem_map_of_mem (f := ArenaBlock.addr ∘ Layer.block) hl

/-- Temp arrays are apart. -/
theorem Layout.temps_pairwise (h : Layout s layers persistent) :
    (arraysOf layers).Pairwise Arr.Apart := by
  have hnodup : (layers.map fun l => l.block.addr).Nodup := by
    have hall := h.owners_nodup
    rw [owners, h.top_eq, List.map_map] at hall
    exact (((List.nodup_append.mp hall).1 |> List.nodup_append.mp).1 |> List.nodup_append.mp).1
  have hregion {l : Layer} (hl : l ∈ layers) {a : Arr} (ha : a ∈ l.arrays) :=
    h.temp_region hl ha
  have hok := h.layer_ok
  have hne {r r' : ℕ × ℕ} (hr : r ∈ s.regions) (hr' : r' ∈ s.regions) (hne : r.1 ≠ r'.1) :
      Apart r.1 r.2 r'.1 r'.2 := h.apart_of_ne hr hr' hne
  clear h
  induction layers with
  | nil => exact List.Pairwise.nil
  | cons l ls ih =>
    rw [List.map_cons, List.nodup_cons] at hnodup
    rw [arraysOf, List.pairwise_append]
    refine ⟨ih hnodup.2 (fun hl _ ha => hregion (List.mem_cons_of_mem _ hl) ha)
      fun l' hl' => hok l' (List.mem_cons_of_mem _ hl'), (hok l List.mem_cons_self).laid.pairwise,
      fun a ha b hb => ?_⟩
    obtain ⟨l', hl', ha⟩ := mem_arraysOf.mp ha
    obtain ⟨hra, hlowa, hhigha⟩ := hregion (List.mem_cons_of_mem _ hl') ha
    obtain ⟨hrb, hlowb, hhighb⟩ := hregion List.mem_cons_self hb
    have haddr : l'.block.addr ≠ l.block.addr := fun heq =>
      hnodup.1 (heq ▸ List.mem_map_of_mem (f := fun l : Layer => l.block.addr) hl')
    exact (hne hra hrb haddr).mono hlowa hhigha hlowb hhighb

/-- **All arrays are apart.** -/
theorem Layout.pairwise_apart (h : Layout s layers persistent) :
    (persistent ++ arraysOf layers).Pairwise Arr.Apart := by
  have hall := h.owners_nodup
  rw [owners] at hall
  obtain ⟨hrest, -, -⟩ := List.nodup_append.mp hall
  obtain ⟨hblocks, hhandles, hcross⟩ := List.nodup_append.mp hrest
  refine List.pairwise_append.mpr ⟨?_, h.temps_pairwise, fun a ha b hb => ?_⟩
  · have hpair : persistent.Pairwise fun a b => a.handle ≠ b.handle := List.pairwise_map.mp hhandles
    refine hpair.imp_of_mem fun {a b} ha hb hne => ?_
    obtain ⟨m, hra, hma⟩ := h.persistent_region a ha
    obtain ⟨n, hrb, hnb⟩ := h.persistent_region b hb
    exact (h.apart_of_ne hra hrb hne).mono (Nat.le_refl _) (by omega) (Nat.le_refl _) (by omega)
  · obtain ⟨m, hra, hma⟩ := h.persistent_region a ha
    obtain ⟨l, hl, hb⟩ := mem_arraysOf.mp hb
    obtain ⟨hrb, hlow, hhigh⟩ := h.temp_region hl hb
    have hblock : l.block.addr ∈ s.top.map ArenaBlock.addr := by
      rw [h.top_eq, List.map_map]
      exact List.mem_map_of_mem (f := ArenaBlock.addr ∘ Layer.block) hl
    have hne : a.handle ≠ l.block.addr := fun heq =>
      hcross _ (List.mem_append_left _ hblock) _ (List.mem_map_of_mem ha) heq.symm
    exact (h.apart_of_ne hra hrb hne).mono (Nat.le_refl _) (by omega) hlow hhigh

end Layout

end NativeArray

end TsAot
