import TsAot.Runtime.NativeArray.Runs

/-!
# Native arrays are kept apart

The invariant of a run (`Inv`): the layout, the headers of the live arrays, the ended headers of the
dead handles, and a stack of layers behind every mark. Each call keeps it, so it holds in every
world that is reached, and with it what is meant (`sound_of_reached`).
-/

namespace TsAot

namespace NativeArray

/-- What a run keeps, with the layers of the arena and those behind each mark. -/
structure Inv (w : World) (layers : List Layer) (snaps : List (List Layer)) : Prop where
  layout : Layout w.state layers w.persistent
  temps_eq : w.temps = arraysOf layers
  ok : ∀ a ∈ w.live, a.Ok
  header : ∀ a ∈ w.live, a.Header w.state.mem
  persistent_kind : ∀ a ∈ w.persistent, a.kind % 256 = 1
  temp_kind : ∀ a ∈ w.temps, a.kind % 256 ≠ 1
  dead : ∀ d ∈ w.dead, lengthOf w.state.mem d = 0 ∧ magicOf w.state.mem d ≠ magicLive
  dead_apart : ∀ d ∈ w.dead, ∀ a ∈ w.live, Apart d headerSize a.handle a.size
  frames_eq : w.state.frames = snaps.map fun ks => State.frame (ks.map Layer.block)
  marks_eq : w.marks = snaps.map fun ks => ⟨arraysOf ks, ks.map Layer.block⟩
  snap_ok : ∀ ks ∈ snaps, ∀ k ∈ ks, k.Ok
  chain : (snaps ++ [layers]).Pairwise Older

variable {w w' : World} {layers : List Layer} {snaps : List (List Layer)}

theorem inv_start (mem : Mem) : Inv (World.start mem) [] [] where
  layout := by constructor <;> simp [World.start, owners]
  temps_eq := rfl
  ok := nofun
  header := nofun
  persistent_kind := nofun
  temp_kind := nofun
  dead := nofun
  dead_apart := nofun
  frames_eq := rfl
  marks_eq := rfl
  snap_ok := nofun
  chain := List.pairwise_singleton _ _

theorem Inv.pairwise (h : Inv w layers snaps) : w.live.Pairwise Arr.Apart := by
  have hall := h.layout.pairwise_apart
  rwa [← h.temps_eq] at hall

/-- The layout does not depend on the words. -/
theorem Layout.withMem {s : State} {persistent : List Arr} (h : Layout s layers persistent)
    (mem : Mem) (frames : List ArenaFrame) : Layout { s with mem, frames } layers persistent :=
  { h with }

/-! ### What the invariant gives -/

theorem Inv.signed_length (h : Inv w layers snaps) {a : Arr} (ha : a ∈ w.live) :
    signed (lengthOf w.state.mem a.handle) = a.length := by
  rw [(h.header a ha).length, signed, if_pos (h.ok a ha).length_lt]

theorem Arr.Ok.reach_le {a : Arr} (h : a.Ok) : headerSize + a.length * elemSize a.kind ≤ a.size := by
  rw [h.size_eq, exactSize]
  omega

/-- What a program can reach is in the chunk. -/
theorem Inv.reach_le (h : Inv w layers snaps) {a : Arr} (ha : a ∈ w.live) :
    reach w.state.mem a.handle ≤ a.size := by
  rw [reach, h.signed_length ha, Int.toNat_natCast, (h.header a ha).kindOf (h.ok a ha)]
  exact (h.ok a ha).reach_le

/-- The layers behind a mark, with its frame. -/
theorem Inv.exists_snap (h : Inv w layers snaps) {i : ℕ} {m : Mark} (hm : w.marks[i]? = some m) :
    ∃ ks, snaps[i]? = some ks ∧ m = ⟨arraysOf ks, ks.map Layer.block⟩ ∧
      w.state.frames[i]? = some (State.frame (ks.map Layer.block)) ∧ Older ks layers ∧
        ∀ k ∈ ks, k.Ok := by
  rw [h.marks_eq, List.getElem?_map] at hm
  obtain ⟨ks, hks, rfl⟩ := Option.map_eq_some_iff.mp hm
  have hmem : ks ∈ snaps := List.mem_of_getElem? hks
  refine ⟨ks, hks, rfl, ?_, ?_, h.snap_ok ks hmem⟩
  · rw [h.frames_eq, List.getElem?_map, hks]
    rfl
  · exact (List.pairwise_append.mp h.chain).2.2 ks hmem layers List.mem_cons_self

/-- What a release does to the layout and to the words. -/
theorem Inv.release_spec (h : Inv w layers snaps) {token : ℕ} (htoken : token ≠ 0) {ks : List Layer}
    (hframe : w.state.frames[token - 1]? = some (State.frame (ks.map Layer.block)))
    (holder : Older ks layers) (hks : ∀ k ∈ ks, k.Ok) :
    Layout (w.state.release token) ks w.persistent ∧
      (w.state.release token).frames = w.state.frames.take (token - 1) ∧
      ∃ dropped, w.temps = arraysOf ks ++ dropped ∧
        Scrubbed dropped w.state.mem (w.state.release token).mem := by
  have hlive : ∀ a ∈ arraysOf layers, a ∈ w.live := fun a ha =>
    List.mem_append_right _ (h.temps_eq ▸ ha)
  rw [State.release, if_neg htoken, hframe, h.temps_eq]
  exact (h.layout.withMem w.state.mem (w.state.frames.take (token - 1))).releaseTo_spec hks holder
    (fun a ha => h.ok a (hlive a ha)) fun a ha => h.header a (hlive a ha)

/-- **The invariant is what is meant.** -/
theorem Inv.sound (h : Inv w layers snaps) : Sound w where
  apart := h.pairwise.imp_of_mem fun {a b} ha hb hab => by
    have hra := h.reach_le ha
    have hrb := h.reach_le hb
    exact NativeArray.Apart.mono hab (Nat.le_refl _) (by omega) (Nat.le_refl _) (by omega)
  inside a ha i hi := by
    have hlt : (i : ℤ) < a.length := h.signed_length ha ▸ hi.2
    have hreach := (h.ok a ha).reach_le
    rw [(h.header a ha).kindOf (h.ok a ha)]
    have hmul : (i + 1) * elemSize a.kind ≤ a.length * elemSize a.kind :=
      Nat.mul_le_mul_right _ (Int.ofNat_lt.mp hlt)
    omega
  chunk a ha := by
    rw [World.live, h.temps_eq] at ha
    obtain ⟨r, hr, -, hlow, hhigh⟩ := h.layout.exists_region ha
    exact ⟨r, hr, hlow, hhigh⟩
  length a ha := (h.header a ha).length
  dead d hd := (h.dead d hd).1
  release token m htoken hm := by
    obtain ⟨ks, -, rfl, hframe, holder, hks⟩ := h.exists_snap hm
    obtain ⟨hlayout, -, dropped, htemps, hscrub⟩ := h.release_spec htoken hframe holder hks
    have hpairwise := h.pairwise
    rw [World.live, htemps, ← List.append_assoc] at hpairwise
    refine ⟨hlayout.top_eq, fun a ha => ⟨?_, fun x hlow hhigh => hscrub.same x fun b hb => ?_⟩⟩
    · rw [World.live, htemps, ← List.append_assoc]
      exact List.mem_append_left _ ha
    · refine ((List.pairwise_append.mp hpairwise).2.2 a ha b hb).ne ?_ hlow hhigh
      refine (h.ok b ?_).le_size
      rw [World.live, htemps]
      exact List.mem_append_right _ (List.mem_append_right _ hb)

/-! ### The calls -/

theorem Inv.mark (h : Inv w layers snaps) :
    Inv { w with state := w.state.mark, marks := w.marks ++ [⟨w.temps, w.state.top⟩] } layers
      (snaps ++ [layers]) where
  layout := h.layout.withMem _ _
  temps_eq := h.temps_eq
  ok := h.ok
  header := h.header
  persistent_kind := h.persistent_kind
  temp_kind := h.temp_kind
  dead := h.dead
  dead_apart := h.dead_apart
  frames_eq := by
    rw [List.map_append, ← h.frames_eq, List.map_singleton, ← h.layout.top_eq]
    rfl
  marks_eq := by
    rw [List.map_append, ← h.marks_eq, List.map_singleton, ← h.layout.top_eq, ← h.temps_eq]
  snap_ok := by
    simp only [List.forall_mem_append, List.forall_mem_singleton]
    exact ⟨h.snap_ok, h.layout.layer_ok⟩
  chain := by
    refine List.pairwise_append.mpr ⟨h.chain, List.pairwise_singleton _ _, ?_⟩
    simp only [List.forall_mem_append, List.forall_mem_singleton]
    exact ⟨fun ks hks => (List.pairwise_append.mp h.chain).2.2 ks hks layers List.mem_cons_self,
      Older.refl layers⟩

theorem Inv.released (h : Inv w layers snaps) {token : ℕ} {m : Mark} (htoken : token ≠ 0)
    (hm : w.marks[token - 1]? = some m) :
    ∃ ks, Inv (w.released token m) ks (snaps.take (token - 1)) := by
  obtain ⟨ks, hsnap, rfl, hframe, holder, hks⟩ := h.exists_snap hm
  obtain ⟨hlayout, hframes, dropped, htemps, hscrub⟩ := h.release_spec htoken hframe holder hks
  have hpairwise := h.pairwise
  rw [World.live, htemps, ← List.append_assoc] at hpairwise
  obtain ⟨-, -, hcross⟩ := List.pairwise_append.mp hpairwise
  have hkept : ∀ a ∈ w.persistent ++ arraysOf ks, a ∈ w.live := by
    intro a ha
    rw [World.live, htemps, ← List.append_assoc]
    exact List.mem_append_left _ ha
  have hgone : ∀ a ∈ dropped, a ∈ w.live := by
    intro a ha
    rw [World.live, htemps]
    exact List.mem_append_right _ (List.mem_append_right _ ha)
  have hsize : ∀ a ∈ dropped, headerSize ≤ a.size := fun a ha => (h.ok a (hgone a ha)).le_size
  have hdrop : w.temps.drop (arraysOf ks).length = dropped := by
    rw [htemps, List.drop_left]
  refine ⟨ks, ⟨hlayout, rfl, fun a ha => h.ok a (hkept a ha), fun a ha => ?_, h.persistent_kind,
    fun a ha => h.temp_kind a (htemps ▸ List.mem_append_left _ ha), ?_, ?_, ?_, ?_,
    fun js hjs => h.snap_ok js (List.take_subset _ _ hjs), ?_⟩⟩
  · exact hscrub.header (h.header a (hkept a ha)) (h.ok a (hkept a ha)).le_size
      (fun b hb => hcross a ha b hb) hsize
  · -- the handles of the arrays that are gone, and the older ones
    show ∀ d ∈ (w.temps.drop (arraysOf ks).length).map Arr.handle ++ w.dead, _
    rw [hdrop]
    intro d hd
    rcases List.mem_append.mp hd with hd | hd
    · obtain ⟨a, ha, rfl⟩ := List.mem_map.mp hd
      exact ⟨hscrub.length a ha, hscrub.magic a ha⟩
    · have hout (a : Arr) (ha : a ∈ dropped) : Apart d headerSize a.handle a.size :=
        h.dead_apart d hd a (hgone a ha)
      have hhead : (w.state.release token).mem d = w.state.mem d := hscrub.same d fun a ha => by
        have hapart := hout a ha
        have hle := hsize a ha
        unfold Apart headerSize at *
        omega
      have hlength : (w.state.release token).mem (d + 8) = w.state.mem (d + 8) :=
        hscrub.same (d + 8) fun a ha => by
          have hapart := hout a ha
          have hle := hsize a ha
          unfold Apart headerSize at *
          omega
      obtain ⟨hzero, hmagic⟩ := h.dead d hd
      refine ⟨hlength.trans hzero, ?_⟩
      unfold magicOf at hmagic ⊢
      exact hhead.symm ▸ hmagic
  · show ∀ d ∈ (w.temps.drop (arraysOf ks).length).map Arr.handle ++ w.dead, _
    rw [hdrop]
    intro d hd a ha
    rcases List.mem_append.mp hd with hd | hd
    · obtain ⟨b, hb, rfl⟩ := List.mem_map.mp hd
      exact (hcross a ha b hb).symm.mono (Nat.le_refl _) (Nat.add_le_add_left (hsize b hb) _)
        (Nat.le_refl _) (Nat.le_refl _)
    · exact h.dead_apart d hd a (hkept a ha)
  · show (w.state.release token).frames = _
    rw [hframes, h.frames_eq, List.map_take]
  · show w.marks.take (token - 1) = _
    rw [h.marks_eq, List.map_take]
  · -- the marks that are left and the layers of this one are marks of before
    have htake : (snaps.take (token - 1) ++ [ks]).Sublist (snaps ++ [layers]) := by
      have hone : snaps.take (token - 1) ++ [ks] = snaps.take (token - 1 + 1) := by
        rw [List.take_add_one, hsnap]
        rfl
      rw [hone]
      exact (List.take_sublist _ _).trans (List.sublist_append_left _ _)
    exact h.chain.sublist htake

/-- A word of an array is changed, not one of its header: headers, dead and live, stay. -/
theorem Inv.withWord (h : Inv w layers snaps) {a : Arr} (ha : a ∈ w.live) {x : ℕ}
    (hlow : a.handle + headerSize ≤ x) (hhigh : x < a.handle + a.size) (word : ℕ) :
    Inv { w with state := { w.state with mem := Function.update w.state.mem x word } } layers
      snaps := by
  have hsize := (h.ok a ha).le_size
  unfold headerSize at hlow hsize
  refine { h with
    layout := h.layout.withMem _ _
    header := fun b hb => ?_
    dead := fun d hd => ?_ }
  · have hne : b.handle ≠ x ∧ b.handle + 8 ≠ x := by
      by_cases hab : a = b
      · subst hab
        omega
      · have hne := (h.pairwise.forall ha hb hab).ne (h.ok b hb).le_size
          (Nat.le_trans (Nat.le_add_right _ 16) hlow) hhigh
        exact ⟨hne.1.symm, hne.2.symm⟩
    exact (h.header b hb).congr (Function.update_of_ne hne.1 ..) (Function.update_of_ne hne.2 ..)
  · have hapart := h.dead_apart d hd a ha
    unfold Apart headerSize at hapart
    obtain ⟨hzero, hmagic⟩ := h.dead d hd
    have hhead : Function.update w.state.mem x word d = w.state.mem d :=
      Function.update_of_ne (by omega) ..
    refine ⟨(Function.update_of_ne (by omega) ..).trans hzero, ?_⟩
    unfold magicOf at hmagic ⊢
    simp only [hhead]
    exact hmagic

theorem Inv.store (h : Inv w layers snaps) {a : Arr} (ha : a ∈ w.live) (k word : ℕ) :
    Inv { w with state := { w.state with mem := storeWord a.handle k word w.state.mem } } layers
      snaps := by
  unfold storeWord
  split_ifs with hin
  · refine h.withWord ha (Nat.le_add_right _ _) ?_ word
    have hlt := hin.2
    rw [h.signed_length ha, (h.header a ha).kindOf (h.ok a ha)] at hlt
    have hreach := (h.ok a ha).reach_le
    have hnat : 8 * k < a.length * elemSize a.kind := by exact_mod_cast hlt
    omega
  · exact h

/-! ### Dispose -/

/-- A handle of a live array is no address of another one. -/
theorem Inv.eq_of_handle (h : Inv w layers snaps) {a b : Arr} (ha : a ∈ w.live) (hb : b ∈ w.live)
    (hhandle : a.handle = b.handle) : a = b := by
  by_contra hne
  have hapart : NativeArray.Apart a.handle a.size b.handle b.size := h.pairwise.forall ha hb hne
  have hasize := (h.ok a ha).le_size
  have hbsize := (h.ok b hb).le_size
  unfold Apart headerSize at *
  omega

theorem Inv.handle_ne_zero (h : Inv w layers snaps) {a : Arr} (ha : a ∈ w.live) :
    a.handle ≠ 0 := by
  rw [World.live, h.temps_eq] at ha
  obtain ⟨r, hr, -, hlow, -⟩ := h.layout.exists_region ha
  have hne := h.layout.regions_ne r hr
  omega

/-- No Persistent array has the handle: nothing ends. -/
theorem World.disposed_of_forall {handle : ℕ} {s : State}
    (hnone : ∀ a ∈ w.persistent, a.handle ≠ handle) :
    w.disposed handle s = { w with state := s } := by
  have hfind : w.persistent.find? (·.handle = handle) = none :=
    List.find?_eq_none.mpr fun a ha => by simpa using hnone a ha
  rw [World.disposed, hfind]

/-- A Persistent array no longer owns its region; the quarantine may. -/
theorem Layout.dispose {s : State} {persistent : List Arr} (h : Layout s layers persistent)
    {a : Arr} (ha : a ∈ persistent) (checks : Bool) (mem : Mem) :
    Layout { s with
      mem
      quarantine := if checks then s.quarantine else s.quarantine ++ [⟨a.handle, a.size⟩] } layers
      (persistent.filter (·.handle ≠ a.handle)) := by
  have hall := h.owners_nodup
  have hperm : (persistent.map Arr.handle).Perm
      (a.handle :: (persistent.filter (·.handle ≠ a.handle)).map Arr.handle) := by
    have hnodup : (persistent.map Arr.handle).Nodup := by
      rw [owners] at hall
      exact (List.nodup_append.mp (List.nodup_append.mp hall).1).2.1
    have hfilter : (persistent.filter (·.handle ≠ a.handle)).map Arr.handle =
        (persistent.map Arr.handle).erase a.handle := by
      rw [hnodup.erase_eq_filter, List.filter_map]
      refine congrArg (List.map Arr.handle) (List.filter_congr fun c _ => ?_)
      simp [bne, beq_eq_decide]
    rw [hfilter]
    exact List.perm_cons_erase (List.mem_map_of_mem ha)
  have howners : (owners s persistent).Perm
      (a.handle :: owners s (persistent.filter (·.handle ≠ a.handle))) := by
    simp only [owners]
    refine ((hperm.append_left _).append_right _).trans ?_
    rw [List.append_assoc, List.append_assoc _ _ (s.quarantine.map QuarantineEntry.chunk)]
    exact List.perm_middle
  have hcons := howners.nodup_iff.mp hall
  refine { h with
    persistent_region := fun c hc => h.persistent_region c (List.mem_filter.mp hc).1
    quarantine_region := ?_
    owners_nodup := ?_ }
  · intro e he
    cases checks
    · rcases List.mem_append.mp he with he | he
      · exact h.quarantine_region e he
      · rw [List.mem_singleton.mp he]
        exact h.persistent_region a ha
    · exact h.quarantine_region e he
  · cases checks
    · refine (List.Perm.nodup_iff ?_).mpr hcons
      simp only [owners, Bool.false_eq_true, if_false, List.map_append, List.map_singleton]
      rw [← List.append_assoc]
      exact List.perm_append_singleton _ _
    · exact (List.nodup_cons.mp hcons).2

/-- Disposing of a Persistent array. -/
theorem Inv.disposed (h : Inv w layers snaps) {checks : Bool} {a : Arr} (ha : a ∈ w.persistent) :
    Inv (w.disposed a.handle { w.state with
      mem := endHeader magicDisposed w.state.mem a.handle
      quarantine := if checks then w.state.quarantine
        else w.state.quarantine ++ [⟨a.handle, a.size⟩] }) layers snaps := by
  have halive : a ∈ w.live := List.mem_append_left _ ha
  have hsome : ∃ b, w.persistent.find? (·.handle = a.handle) = some b :=
    Option.isSome_iff_exists.mp (List.find?_isSome.mpr ⟨a, ha, decide_eq_true rfl⟩)
  obtain ⟨b, hb⟩ := hsome
  have hlive : ∀ c ∈ w.persistent.filter (·.handle ≠ a.handle) ++ w.temps, c ∈ w.live ∧ c ≠ a := by
    intro c hc
    rcases List.mem_append.mp hc with hc | hc
    · obtain ⟨hc, hne⟩ := List.mem_filter.mp hc
      exact ⟨List.mem_append_left _ hc, fun heq => of_decide_eq_true hne (heq ▸ rfl)⟩
    · refine ⟨List.mem_append_right _ hc, fun heq => h.temp_kind c hc ?_⟩
      exact heq ▸ h.persistent_kind a ha
  have hapart {c : Arr} (hc : c ∈ w.persistent.filter (·.handle ≠ a.handle) ++ w.temps) :
      a.Apart c := h.pairwise.forall halive (hlive c hc).1 (hlive c hc).2.symm
  have hsize := (h.ok a halive).le_size
  have hother {x : ℕ} (hx : x ≠ a.handle) (hx8 : x ≠ a.handle + 8) :
      endHeader magicDisposed w.state.mem a.handle x = w.state.mem x :=
    endHeader_of_ne _ _ hx hx8
  have hlayout := h.layout.dispose ha checks (endHeader magicDisposed w.state.mem a.handle)
  have hdead : ∀ d ∈ w.dead, endHeader magicDisposed w.state.mem a.handle d = w.state.mem d ∧
      endHeader magicDisposed w.state.mem a.handle (d + 8) = w.state.mem (d + 8) := by
    intro d hd
    have hapart := h.dead_apart d hd a halive
    unfold Apart headerSize at *
    exact ⟨hother (by omega) (by omega), hother (by omega) (by omega)⟩
  rw [World.disposed, hb]
  refine ⟨hlayout, h.temps_eq, fun c hc => h.ok c (hlive c hc).1, fun c hc => ?_,
    fun c hc => h.persistent_kind c (List.mem_filter.mp hc).1, h.temp_kind, ?_, ?_, h.frames_eq,
    h.marks_eq, h.snap_ok, h.chain⟩
  · have hne := (hapart hc).symm
    have hcsize := (h.ok c (hlive c hc).1).le_size
    have hc0 := Arr.Apart.ne hne hsize (Nat.le_refl c.handle) (by unfold headerSize at hcsize; omega)
    have hc8 := Arr.Apart.ne hne hsize (Nat.le_add_right c.handle 8)
      (by unfold headerSize at hcsize; omega)
    exact (h.header c (hlive c hc).1).congr (hother hc0.1 hc0.2) (hother hc8.1 hc8.2)
  · show ∀ d ∈ a.handle :: w.dead,
      lengthOf (endHeader magicDisposed w.state.mem a.handle) d = 0 ∧
        magicOf (endHeader magicDisposed w.state.mem a.handle) d ≠ magicLive
    refine List.forall_mem_cons.mpr ⟨⟨endHeader_length _ _ _, ?_⟩, fun d hd => ?_⟩
    · rw [magicOf_endHeader (by decide)]
      decide
    · obtain ⟨hzero, hmagic⟩ := h.dead d hd
      obtain ⟨hhead, hlength⟩ := hdead d hd
      refine ⟨hlength.trans hzero, ?_⟩
      rwa [magicOf, hhead]
  · refine List.forall_mem_cons.mpr ⟨fun c hc => ?_, fun d hd c hc =>
      h.dead_apart d hd c (hlive c hc).1⟩
    exact NativeArray.Apart.mono (hapart hc) (Nat.le_refl _) (Nat.add_le_add_left hsize _)
      (Nat.le_refl _) (Nat.le_refl _)

/-! ### New arrays -/

variable {a : Arr} {mem : Mem}

/-- The words outside the array stay. -/
theorem initArray_of_out {length kind payload x : ℕ} {p : ℕ}
    (hx : x < p ∨ p + (headerSize + payload) ≤ x) : initArray mem p length kind payload x = mem x := by
  unfold headerSize at hx
  unfold initArray headerSize
  rw [if_neg (by omega), if_neg (by omega), if_neg (by omega)]

theorem header_initArray (mem : Mem) (a : Arr) (payload : ℕ) :
    a.Header (initArray mem a.handle a.length a.kind payload) := by
  constructor
  · exact if_pos rfl
  · unfold lengthOf initArray
    rw [if_neg (by omega), if_pos rfl]

/-- The layout with a new array, and the array apart from the others. -/
theorem Inv.exists_layers (h : Inv w layers snaps) {answer : ℕ → Option ℕ}
    (hanswer : Answers w.state.regions answer) (hfits : Fits w.state a.length a.kind)
    (hsize : a.size = exactSize a.length a.kind) {s : State}
    (hs : w.state.takeChunk answer a.kind (exactSize a.length a.kind) = some (a.handle, s)) :
    ∃ layers', Layout s layers' (w.add a s).persistent ∧ (w.add a s).temps = arraysOf layers' ∧
      Older layers layers' ∧ s.mem = w.state.mem ∧ s.frames = w.state.frames ∧
        ∀ c ∈ w.live, a.Apart c := by
  obtain ⟨layers', holder, hmem, hframes, hcase⟩ := h.layout.takeChunk_spec hanswer hfits hs
  have hself : (⟨a.handle, a.length, a.kind, exactSize a.length a.kind⟩ : Arr) = a := by
    rw [← hsize]
  rw [hself] at hcase
  refine ⟨layers', ?_⟩
  rw [World.add]
  by_cases hkind : a.kind % 256 = 1
  · simp only [if_pos hkind] at hcase ⊢
    obtain ⟨rfl, hlayout⟩ := hcase
    refine ⟨hlayout, h.temps_eq, holder, hmem, hframes, ?_⟩
    have hpairwise := hlayout.pairwise_apart
    rw [List.append_assoc, ← h.temps_eq] at hpairwise
    obtain ⟨-, hrest, hcross⟩ := List.pairwise_append.mp hpairwise
    intro c hc
    rcases List.mem_append.mp hc with hc | hc
    · exact (hcross c hc a List.mem_cons_self).symm
    · exact (List.pairwise_cons.mp hrest).1 c hc
  · simp only [if_neg hkind] at hcase ⊢
    obtain ⟨harrays, hlayout⟩ := hcase
    refine ⟨hlayout, by rw [harrays, h.temps_eq], holder, hmem, hframes, ?_⟩
    have hpairwise := hlayout.pairwise_apart
    rw [harrays, ← List.append_assoc, ← h.temps_eq] at hpairwise
    exact fun c hc => ((List.pairwise_append.mp hpairwise).2.2 c hc a List.mem_cons_self).symm

theorem World.mem_live_add {c : Arr} {s : State} :
    c ∈ (w.add a s).live ↔ c ∈ w.live ∨ c = a := by
  rw [World.live, World.live, World.add]
  split_ifs <;> simp only [List.mem_append, List.mem_singleton]
  · tauto
  · tauto

/-- **A new array** keeps the invariant. -/
theorem Inv.add (h : Inv w layers snaps) {answer : ℕ → Option ℕ}
    (hanswer : Answers w.state.regions answer) (hfits : Fits w.state a.length a.kind) (hok : a.Ok)
    {s : State}
    (hs : w.state.takeChunk answer a.kind (exactSize a.length a.kind) = some (a.handle, s)) :
    ∃ layers', Inv (w.add a { s with
      mem := initArray s.mem a.handle a.length a.kind (payloadSize a.length a.kind) }) layers'
        snaps := by
  obtain ⟨layers', hlayout, htemps, holder, hmem, hframes, hapart⟩ :=
    h.exists_layers hanswer hfits hok.size_eq hs
  have hpayload : headerSize + payloadSize a.length a.kind = a.size :=
    (add_payloadSize hfits.1).trans hok.size_eq.symm
  have hout {x : ℕ} (hx : x < a.handle ∨ a.handle + a.size ≤ x) :
      initArray s.mem a.handle a.length a.kind (payloadSize a.length a.kind) x = w.state.mem x := by
    rw [initArray_of_out (by rwa [hpayload]), hmem]
  have hdead {d : ℕ} (hd : d + headerSize ≤ a.handle ∨ a.handle + a.size ≤ d) :
      initArray s.mem a.handle a.length a.kind (payloadSize a.length a.kind) d = w.state.mem d ∧
        initArray s.mem a.handle a.length a.kind (payloadSize a.length a.kind) (d + 8) =
          w.state.mem (d + 8) := by
    unfold headerSize at hd
    exact ⟨hout (by omega), hout (by omega)⟩
  have hmem_dead {d : ℕ} (hd : d ∈ (w.add a s).dead) :
      d ∈ w.dead ∧ (d + headerSize ≤ a.handle ∨ a.handle + a.size ≤ d) := by
    obtain ⟨hd, happart⟩ := List.mem_filter.mp hd
    exact ⟨hd, of_decide_eq_true happart⟩
  refine ⟨layers', ⟨hlayout.withMem _ _, htemps, fun c hc => ?_, fun c hc => ?_, ?_, ?_,
    fun d hd => ?_, fun d hd c hc => ?_, ?_, h.marks_eq, h.snap_ok, ?_⟩⟩
  · rcases World.mem_live_add.mp hc with hc | rfl
    · exact h.ok c hc
    · exact hok
  · rcases World.mem_live_add.mp hc with hc | rfl
    · have hcsize := (h.ok c hc).le_size
      have hca : NativeArray.Apart a.handle a.size c.handle c.size := hapart c hc
      unfold Apart headerSize at *
      exact (h.header c hc).congr (hout (by omega)) (hout (by omega))
    · exact header_initArray s.mem c _
  · show ∀ c ∈ (if a.kind % 256 = 1 then w.persistent ++ [a] else w.persistent), c.kind % 256 = 1
    split_ifs with hkind
    · exact List.forall_mem_append.mpr ⟨h.persistent_kind, List.forall_mem_singleton.mpr hkind⟩
    · exact h.persistent_kind
  · show ∀ c ∈ (if a.kind % 256 = 1 then w.temps else w.temps ++ [a]), c.kind % 256 ≠ 1
    split_ifs with hkind
    · exact h.temp_kind
    · exact List.forall_mem_append.mpr ⟨h.temp_kind, List.forall_mem_singleton.mpr hkind⟩
  · obtain ⟨hd, hrange⟩ := hmem_dead hd
    obtain ⟨hzero, hmagic⟩ := h.dead d hd
    obtain ⟨hhead, hlength⟩ := hdead hrange
    refine ⟨hlength.trans hzero, ?_⟩
    show initArray s.mem a.handle a.length a.kind (payloadSize a.length a.kind) d % 2 ^ 32 ≠ _
    rwa [hhead]
  · obtain ⟨hd, hrange⟩ := hmem_dead hd
    rcases World.mem_live_add.mp hc with hc | rfl
    · exact h.dead_apart d hd c hc
    · exact hrange
  · exact hframes.trans h.frames_eq
  · obtain ⟨hsnaps, -, hold⟩ := List.pairwise_append.mp h.chain
    refine List.pairwise_append.mpr ⟨hsnaps, List.pairwise_singleton _ _, fun ks hks ls hls => ?_⟩
    rw [List.mem_singleton.mp hls]
    exact (hold ks hks layers List.mem_cons_self).trans holder

/-! ### Runs -/

theorem Inv.new (h : Inv w layers snaps) {checks : Bool} {answer : ℕ → Option ℕ} {length : ℤ}
    {kind : ℕ} (hop : Fair w (.new answer length kind))
    (hstep : w.step checks (.new answer length kind) = some w') :
    ∃ layers', Inv w' layers' snaps := by
  obtain ⟨hanswer, hlength, hkind, hfits⟩ := hop
  have hnat : length.toNat < 2 ^ 63 := by clear hfits hanswer hstep; omega
  have hclamp : (if length < 0 then 0 else length.toNat) = length.toNat := by
    split_ifs with hneg
    · exact (Int.toNat_of_nonpos (Int.le_of_lt hneg)).symm
    · rfl
  have hsize := sizeT_eq_exactSize hfits.1
  rw [World.step, State.new, hclamp, State.newArray] at hstep
  simp only [hsize] at hstep
  rcases hs : w.state.takeChunk answer kind (exactSize length.toNat kind) with - | ⟨p, s⟩
  · rw [hs] at hstep
    obtain rfl := Option.some.inj hstep
    exact ⟨layers, h⟩
  · rw [hs] at hstep
    obtain rfl := Option.some.inj hstep
    have hok : Arr.Ok ⟨p, length.toNat, kind, exactSize length.toNat kind⟩ :=
      ⟨hkind, hnat, rfl, hfits.1⟩
    have hadd := Inv.add (a := ⟨p, length.toNat, kind, exactSize length.toNat kind⟩) h hanswer
      hfits hok hs
    exact hadd

theorem Inv.release (h : Inv w layers snaps) {checks : Bool} {token : ℕ}
    (hstep : w.step checks (.release token) = some w') :
    ∃ layers' snaps', Inv w' layers' snaps' := by
  rw [World.step] at hstep
  rcases hm : (if token = 0 then none else w.marks[token - 1]?) with - | m
  · -- no frame has the token
    have hsame : w.state.release token = w.state := by
      rw [State.release]
      split_ifs at hm ⊢
      · rfl
      · have hframe : w.state.frames[token - 1]? = none := by
          rw [h.marks_eq, List.getElem?_map, Option.map_eq_none_iff] at hm
          rw [h.frames_eq, List.getElem?_map, hm]
          rfl
        rw [hframe]
    rw [hm] at hstep
    obtain rfl := Option.some.inj hstep
    rw [hsame]
    exact ⟨layers, snaps, h⟩
  · rw [hm] at hstep
    obtain rfl := Option.some.inj hstep
    split_ifs at hm with htoken
    obtain ⟨ks, hks⟩ := h.released htoken hm
    exact ⟨ks, _, hks⟩

theorem Inv.dispose (h : Inv w layers snaps) {checks : Bool} {handle : ℕ}
    (hop : Fair w (.dispose handle)) (hstep : w.step checks (.dispose handle) = some w') :
    Inv w' layers snaps := by
  obtain ⟨s, hs, rfl⟩ := Option.map_eq_some_iff.mp hstep
  rw [State.dispose] at hs
  by_cases hlive : ∃ a ∈ w.live, a.handle = handle
  · obtain ⟨a, ha, rfl⟩ := hlive
    have hheader := h.header a ha
    have hkindOf := hheader.kindOf (h.ok a ha)
    rw [if_neg (h.handle_ne_zero ha), if_neg (not_not.mpr hheader.magicOf),
      hheader.size (h.ok a ha), hkindOf] at hs
    by_cases hkind : a.kind % 256 = 1
    · rw [if_pos hkind] at hs
      obtain rfl := Option.some.inj hs
      refine h.disposed ((List.mem_append.mp ha).resolve_right fun htemp => ?_)
      exact h.temp_kind a htemp hkind
    · rw [if_neg hkind] at hs
      obtain rfl := Option.some.inj hs
      rw [World.disposed_of_forall]
      · exact h
      · rintro b hb hhandle
        have heq := h.eq_of_handle (List.mem_append_left _ hb) ha hhandle
        exact hkind (heq ▸ h.persistent_kind b hb)
  · -- the handle is not taken for one of an array
    have hnone : ∀ a ∈ w.persistent, a.handle ≠ handle := fun a ha heq =>
      hlive ⟨a, List.mem_append_left _ ha, heq⟩
    have hmagic : handle = 0 ∨ magicOf w.state.mem handle ≠ magicLive := by
      rcases hop with hzero | hthere | hdead | hmagic
      · exact .inl hzero
      · exact absurd hthere hlive
      · exact .inr (h.dead handle hdead).2
      · exact .inr hmagic
    have hsame : s = w.state := by
      rcases hmagic with hzero | hmagic
      · rw [if_pos hzero] at hs
        split_ifs at hs
        exact (Option.some.inj hs).symm
      · rw [if_pos hmagic] at hs
        split_ifs at hs
        · exact (Option.some.inj hs).symm
        · exact (Option.some.inj hs).symm
    rw [World.disposed_of_forall hnone, hsame]
    exact h

/-- **A call keeps the invariant.** -/
theorem Inv.step (h : Inv w layers snaps) {checks : Bool} {op : Op} (hop : Fair w op)
    (hstep : w.step checks op = some w') : ∃ layers' snaps', Inv w' layers' snaps' := by
  cases op with
  | new answer length kind =>
    obtain ⟨layers', h'⟩ := h.new hop hstep
    exact ⟨layers', snaps, h'⟩
  | mark =>
    obtain rfl := Option.some.inj hstep
    exact ⟨layers, _, h.mark⟩
  | release token => exact h.release hstep
  | dispose handle => exact ⟨layers, snaps, h.dispose hop hstep⟩
  | store handle k word =>
    obtain ⟨a, ha, rfl⟩ := hop
    obtain rfl := Option.some.inj hstep
    exact ⟨layers, snaps, h.store ha k word⟩

theorem inv_of_reached {checks : Bool} (h : Reached checks w) :
    ∃ layers snaps, Inv w layers snaps := by
  induction h with
  | start mem => exact ⟨[], [], inv_start mem⟩
  | step _ hop hstep ih =>
    obtain ⟨layers, snaps, h⟩ := ih
    exact h.step hop hstep

/-- **Native arrays never overlap or outgrow their memory** in a run in which no size wraps. -/
theorem sound_of_reached (checks : Bool) (w : {w : World // Reached checks w}) : Sound w.1 := by
  obtain ⟨layers, snaps, h⟩ := inv_of_reached w.2
  exact h.sound

/-- `malloc` that has 16 bytes. -/
def smallAnswer (n : ℕ) : Option ℕ := if n = 16 then some 4096 else none

/-- The world after a Persistent array of 2^61 elements of 8 bytes was made. -/
def wrappedWorld : World :=
  (World.start fun _ => 0).add ⟨4096, 2 ^ 61, 1, 16⟩
    ⟨initArray (fun _ => 0) 4096 (2 ^ 61) 1 0, [(4096, 16)], [], [], [], []⟩

/-- The size of an array can wrap: it is given 16 bytes, and its first element is outside. -/
theorem not_sound_wrapped : Answers [] smallAnswer ∧
    (World.start fun _ => 0).step false (.new smallAnswer (2 ^ 61) 1) = some wrappedWorld ∧
      ¬Sound wrappedWorld := by
  refine ⟨fun n p hp => ?_, rfl, fun h => ?_⟩
  · rw [smallAnswer] at hp
    split_ifs at hp with hn
    obtain rfl := Option.some.inj hp
    exact ⟨by decide, by decide, by omega, nofun⟩
  · have hinside := h.inside ⟨4096, 2 ^ 61, 1, 16⟩ (List.mem_singleton.mpr rfl) 0
      ⟨Int.le_refl 0, by decide⟩
    revert hinside
    decide

end NativeArray

end TsAot
