import TsAot.Runtime.GC.MinorPromote

/-!
# Forwarding references

`forwardWord` moves a word that refers into a promoted object to the same place of the copy and
leaves every other word alone (`Table.forwardWord_toNat`, `Table.forwardWord_eq_self`). A pass
of the fix-up phases therefore rewrites the words at its addresses, however often it visits
them (`Forwarded`).
-/

namespace TsAot

namespace GC

variable {r : NurseryRegion} {objects : List NurseryObject} {forwarding : List ForwardEntry}

/-- The table lists objects of the nursery, each once, and addresses outside it. -/
structure Table (r : NurseryRegion) (objects : List NurseryObject)
    (forwarding : List ForwardEntry) : Prop where
  entry : ∀ e ∈ forwarding, ∃ o ∈ objects, e.nurseryAddr = r.base + o.data ∧ e.size = o.size
  distinct : forwarding.Pairwise fun e e' => e.nurseryAddr ≠ e'.nurseryAddr
  outside : ∀ e ∈ forwarding, ∀ x < e.size, r.contains (e.oldGenAddr + x) = false ∧
    4096 ≤ e.oldGenAddr + x ∧ e.oldGenAddr + x < 2 ^ 47

/-- The word refers into the object the entry moves. -/
def ForwardEntry.Covers (e : ForwardEntry) (w : Word) : Prop :=
  e.nurseryAddr ≤ w.toNat ∧ w.toNat < e.nurseryAddr + e.size

theorem ForwardEntry.covers_iff {e : ForwardEntry} {o : NurseryObject} {w : Word}
    (haddr : e.nurseryAddr = r.base + o.data) (hsize : e.size = o.size) :
    e.Covers w ↔ InBody r o w.toNat := by
  rw [Covers, InBody, haddr, hsize, NurseryObject.stop, Nat.add_assoc]

namespace Table

variable {words : NurseryWords} {w : Word} {e : ForwardEntry}

theorem size_pos (ht : Table r objects forwarding) (hl : Layout r.size words objects)
    (he : e ∈ forwarding) : 0 < e.size := by
  obtain ⟨o, ho, -, hsize⟩ := ht.entry e he
  exact hsize ▸ (hl.wellSized o ho).size_pos

theorem contains_of_covers (ht : Table r objects forwarding) (hl : Layout r.size words objects)
    (he : e ∈ forwarding) (hw : e.Covers w) : r.contains w.toNat = true := by
  obtain ⟨o, ho, haddr, hsize⟩ := ht.entry e he
  exact hl.contains_of_inBody ho ((ForwardEntry.covers_iff haddr hsize).mp hw)

theorem apart (ht : Table r objects forwarding) (hl : Layout r.size words objects) :
    forwarding.Pairwise (IntervalSearch.Apart ForwardEntry.nurseryAddr
      fun e => e.nurseryAddr + e.size) := by
  refine ht.distinct.imp_of_mem fun {e e'} he he' hne => ?_
  obtain ⟨o, ho, haddr, hsize⟩ := ht.entry e he
  obtain ⟨o', ho', haddr', hsize'⟩ := ht.entry e' he'
  have hstop : o.stop = o.data + o.size := rfl
  have hstop' : o'.stop = o'.data + o'.size := rfl
  have hdata := o.data_eq
  have hdata' := o'.data_eq
  rw [IntervalSearch.Apart]
  by_cases heq : o = o'
  · exact absurd (by rw [haddr, haddr', heq]) hne
  · obtain hle | hle := hl.apart.forall ho ho' heq
    · exact .inl (by omega)
    · exact .inr (by omega)

/-- **`lookup_forward`.** -/
theorem forwardWord_of_covers (ht : Table r objects forwarding)
    (hl : Layout r.size words objects) (he : e ∈ forwarding) (hw : e.Covers w) :
    forwardWord r forwarding w = BitVec.ofNat 64 (e.oldGenAddr + (w.toNat - e.nurseryAddr)) := by
  have hcontains := ht.contains_of_covers hl he hw
  have hrange := NurseryRegion.contains_iff.mp hcontains
  have hend := r.end_le
  have hbase := r.le_base
  have hregion : r.size = r.mb * 1024 * 1024 := rfl
  have hprobe := (IntervalSearch.probe_insertionSort_eq_some_iff
    (fun e he => Nat.lt_add_of_pos_right (ht.size_pos hl he)) (ht.apart hl)).mpr ⟨he, hw⟩
  rw [forwardWord, Nursery.fixWord, if_neg (by omega), if_pos hcontains, lookupForward,
    if_pos hcontains, hprobe]

theorem forwardWord_toNat (ht : Table r objects forwarding) (hl : Layout r.size words objects)
    (he : e ∈ forwarding) (hw : e.Covers w) :
    (forwardWord r forwarding w).toNat = e.oldGenAddr + (w.toNat - e.nurseryAddr) := by
  have hout := ht.outside e he (w.toNat - e.nurseryAddr) (by
    have := hw.1
    have := hw.2
    omega)
  rw [ht.forwardWord_of_covers hl he hw, BitVec.toNat_ofNat, Nat.mod_eq_of_lt (by omega)]

theorem forwardWord_eq_self (ht : Table r objects forwarding) (hl : Layout r.size words objects)
    (hw : ∀ e ∈ forwarding, ¬e.Covers w) : forwardWord r forwarding w = w := by
  rw [forwardWord, Nursery.fixWord]
  split_ifs with hrange hcontains
  · rfl
  · have hprobe : IntervalSearch.probe ForwardEntry.nurseryAddr (fun e => e.nurseryAddr + e.size)
        (forwarding.insertionSort fun e e' => e.nurseryAddr ≤ e'.nurseryAddr) w.toNat
        forwarding.length 0 forwarding.length = none := by
      refine Option.eq_none_iff_forall_ne_some.mpr fun e he => ?_
      have hfound := (IntervalSearch.probe_insertionSort_eq_some_iff
        (fun e he => Nat.lt_add_of_pos_right (ht.size_pos hl he)) (ht.apart hl)).mp he
      exact hw e hfound.1 hfound.2
    rw [lookupForward, if_pos hcontains, hprobe, BitVec.ofNat_toNat, BitVec.setWidth_eq]
  · rfl

/-- A word is moved with the object it refers into, or stays. -/
theorem forwardWord_cases (ht : Table r objects forwarding) (hl : Layout r.size words objects)
    (w : Word) : (∃ e ∈ forwarding, e.Covers w ∧
      (forwardWord r forwarding w).toNat = e.oldGenAddr + (w.toNat - e.nurseryAddr)) ∨
      ((∀ e ∈ forwarding, ¬e.Covers w) ∧ forwardWord r forwarding w = w) := by
  by_cases hw : ∃ e ∈ forwarding, e.Covers w
  · obtain ⟨e, he, hw⟩ := hw
    exact .inl ⟨e, he, hw, ht.forwardWord_toNat hl he hw⟩
  · have hnone : ∀ e ∈ forwarding, ¬e.Covers w := fun e he hw' => hw ⟨e, he, hw'⟩
    exact .inr ⟨hnone, ht.forwardWord_eq_self hl hnone⟩

/-- A forwarded word refers into no promoted object. -/
theorem not_covers_forwardWord (ht : Table r objects forwarding)
    (hl : Layout r.size words objects) (w : Word) :
    ∀ e ∈ forwarding, ¬e.Covers (forwardWord r forwarding w) := by
  obtain ⟨e, he, hw, heq⟩ | ⟨hnone, heq⟩ := ht.forwardWord_cases hl w
  · intro e' he' hw'
    have hcontains := ht.contains_of_covers hl he' hw'
    have hlt := hw.2
    rw [heq, (ht.outside e he _ (by have := hw.1; omega)).1] at hcontains
    exact Bool.noConfusion hcontains
  · rwa [heq]

theorem forwardWord_idem (ht : Table r objects forwarding) (hl : Layout r.size words objects)
    (w : Word) : forwardWord r forwarding (forwardWord r forwarding w) =
      forwardWord r forwarding w :=
  ht.forwardWord_eq_self hl (ht.not_covers_forwardWord hl w)

/-- A word that refers into no object of the nursery stays. -/
theorem forwardWord_of_not_inBody (ht : Table r objects forwarding)
    (hl : Layout r.size words objects) (hw : ∀ o ∈ objects, ¬InBody r o w.toNat) :
    forwardWord r forwarding w = w := by
  refine ht.forwardWord_eq_self hl fun e he hcovers => ?_
  obtain ⟨o, ho, haddr, hsize⟩ := ht.entry e he
  exact hw o ho ((ForwardEntry.covers_iff haddr hsize).mp hcovers)

end Table

namespace Heap

variable {h h' h'' : Heap} {words : NurseryWords}

/-! ### The passes -/

/-- `h'` is `h` with the words at these addresses forwarded. -/
structure Forwarded (r : NurseryRegion) (forwarding : List ForwardEntry) (S : Set ℕ)
    (h h' : Heap) : Prop where
  same : SameButWords h h'
  moved : ∀ x ∈ S, h'.load r x = forwardWord r forwarding (h.load r x)
  kept : ∀ x ∉ S, h'.load r x = h.load r x

theorem Forwarded.refl : Forwarded r forwarding ∅ h h :=
  ⟨.refl h, fun _ hx => absurd hx (Set.notMem_empty _), fun _ _ => rfl⟩

theorem Forwarded.trans (ht : Table r objects forwarding) (hl : Layout r.size words objects)
    {S S' : Set ℕ} (hf : Forwarded r forwarding S h h') (hf' : Forwarded r forwarding S' h' h'') :
    Forwarded r forwarding (S ∪ S') h h'' := by
  refine ⟨hf.same.trans hf'.same, fun x hx => ?_, fun x hx => ?_⟩
  · by_cases hx' : x ∈ S'
    · rw [hf'.moved x hx']
      by_cases hxS : x ∈ S
      · rw [hf.moved x hxS, ht.forwardWord_idem hl]
      · rw [hf.kept x hxS]
    · rw [hf'.kept x hx', hf.moved x (hx.resolve_right hx')]
  · rw [Set.mem_union, not_or] at hx
    rw [hf'.kept x hx.2, hf.kept x hx.1]

theorem Forwarded.congr {S S' : Set ℕ} (hf : Forwarded r forwarding S h h') (heq : S = S') :
    Forwarded r forwarding S' h h' := heq ▸ hf

/-- One word. -/
theorem forwarded_store (h : Heap) (loc : ℕ) : Forwarded r forwarding {loc} h
    (h.store r loc (forwardWord r forwarding (h.load r loc))) := by
  refine ⟨sameButWords_store h loc _, fun x hx => ?_, fun x hx => ?_⟩
  · rw [Set.mem_singleton_iff.mp hx, load_store, if_pos rfl]
  · rw [load_store, if_neg fun heq => hx (Set.mem_singleton_iff.mpr heq)]

/-- The words at a list of addresses. -/
theorem forwarded_forwardSlots (ht : Table r objects forwarding)
    (hl : Layout r.size words objects) (slots : List ℕ) (h : Heap) :
    Forwarded r forwarding {x | x ∈ slots} h (h.forwardSlots r forwarding slots) := by
  induction slots generalizing h with
  | nil => exact Forwarded.refl.congr (Set.ext fun x => by simp)
  | cons loc slots ih =>
    refine ((forwarded_store h loc).trans ht hl (ih _)).congr (Set.ext fun x => ?_)
    simp only [Set.mem_union, Set.mem_singleton_iff, Set.mem_ofPred_eq, List.mem_cons]

/-- The addresses of the words of the pinned objects. -/
def pinnedSlots (r : NurseryRegion) (objects : List NurseryObject) (pin : NurseryObject → Bool) :
    Set ℕ :=
  {x | ∃ o ∈ objects, pin o = true ∧ InBody r o x}

/-- Phase 2b. -/
theorem forwarded_fixPinned {pin mark : NurseryObject → Bool} (ht : Table r objects forwarding)
    (hp : Phase r objects pin mark h.nursery) : Forwarded r forwarding
      (pinnedSlots r objects pin) h
      { h with nursery := h.nursery.fixPinned r (lookupForward r forwarding) } := by
  have hl := hp.layout
  -- the words of the nursery
  have hfold : ∀ (l : List NurseryObject) (ws : NurseryWords), (∀ o ∈ l, o ∈ objects) →
      (∀ o ∈ objects, nurseryIsPinned (ws o.offset) = pin o) →
      ∀ x, l.foldl (Nursery.fixStep r (lookupForward r forwarding)) ws x = ws x ∧
          (∀ o ∈ l, pin o = true → x < o.data ∨ o.stop ≤ x) ∨
        l.foldl (Nursery.fixStep r (lookupForward r forwarding)) ws x =
          forwardWord r forwarding (ws x) ∧
          ∃ o ∈ l, pin o = true ∧ o.data ≤ x ∧ x < o.stop := by
    intro l
    induction l with
    | nil => exact fun ws _ _ x => .inl ⟨rfl, fun o ho => absurd ho List.not_mem_nil⟩
    | cons p l ih =>
      intro ws hl' hpin x
      have hp' := hl' p List.mem_cons_self
      rw [List.foldl_cons, Nursery.fixStep, hpin p hp']
      split_ifs with hpinned
      · set ws' : NurseryWords := fun x => if p.data ≤ x ∧ x < p.stop then
          Nursery.fixWord r (lookupForward r forwarding) (ws x) else ws x with hws'
        have hpin' : ∀ o ∈ objects, nurseryIsPinned (ws' o.offset) = pin o := by
          intro o ho
          have hne := fun (hin : p.data ≤ o.offset ∧ o.offset < p.stop) =>
            hl.ne_offset_of_body hp' ho hin.1 hin.2 rfl
          rw [hws']
          dsimp only
          rw [if_neg hne, hpin o ho]
        obtain ⟨heq, hout⟩ | ⟨heq, o, ho, hpo, hin⟩ :=
          ih ws' (fun o ho => hl' o (List.mem_cons_of_mem _ ho)) hpin' x
        · rw [heq]
          by_cases hin : p.data ≤ x ∧ x < p.stop
          · exact .inr ⟨if_pos hin, p, List.mem_cons_self, hpinned, hin⟩
          · refine .inl ⟨if_neg hin, fun o ho hpo => ?_⟩
            obtain rfl | ho := List.mem_cons.mp ho
            · omega
            · exact hout o ho hpo
        · refine .inr ⟨?_, o, List.mem_cons_of_mem _ ho, hpo, hin⟩
          rw [heq, hws']
          dsimp only
          split_ifs
          · exact ht.forwardWord_idem hl _
          · rfl
      · obtain ⟨heq, hout⟩ | ⟨heq, o, ho, hpo, hin⟩ :=
          ih ws (fun o ho => hl' o (List.mem_cons_of_mem _ ho)) hpin x
        · refine .inl ⟨heq, fun o ho hpo => ?_⟩
          obtain rfl | ho := List.mem_cons.mp ho
          · exact absurd hpo hpinned
          · exact hout o ho hpo
        · exact .inr ⟨heq, o, List.mem_cons_of_mem _ ho, hpo, hin⟩
  rw [Nursery.fixPinned]
  split_ifs with hcount
  · have hwords := hfold h.nursery.objects h.nursery.words (fun o ho => hp.mem_objects.mp ho)
      hp.pinned
    refine ⟨⟨_, h.mem, rfl⟩, ?_, fun x hx => ?_⟩
    · rintro x ⟨o, ho, hpo, hin⟩
      have hcontains := hl.contains_of_inBody ho hin
      rw [load, load, if_pos hcontains, if_pos hcontains]
      obtain ⟨-, hout⟩ | ⟨heq, -⟩ := hwords (x - r.base)
      · have hno := hout o (hp.mem_objects.mpr ho) hpo
        rw [InBody] at hin
        omega
      · exact heq
    · rw [load, load]
      split_ifs with hcontains
      · obtain ⟨heq, -⟩ | ⟨-, o, ho, hpo, hin⟩ := hwords (x - r.base)
        · exact heq
        · refine absurd ⟨o, hp.mem_objects.mp ho, hpo, ?_⟩ hx
          have hle := (NurseryRegion.contains_iff.mp hcontains).1
          rw [InBody]
          omega
      · rfl
  · refine ⟨⟨h.nursery.words, h.mem, rfl⟩, ?_, fun x _ => rfl⟩
    rintro x ⟨o, ho, hpo, -⟩
    have hnone := hp.count.mp (by omega) o ho
    exact absurd (hpo.symm.trans hnone) Bool.noConfusion

end Heap

end GC

end TsAot
