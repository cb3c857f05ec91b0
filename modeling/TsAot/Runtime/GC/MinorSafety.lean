import TsAot.Runtime.GC.HeapSteps

/-!
# What a minor collection preserves

After a minor collection no word of an object, no registered variable and no registered weak
slot refers to an object of the nursery that has been moved or wiped, and what the strong roots
reach has been mapped along the forwarding table, word by word. Of a finalizer entry the target,
the callback and the held value are roots of the collection; the unregister token is forwarded
but is no root (`Ready.minorCollect_spec`).
-/

namespace TsAot

namespace GC

variable {r : NurseryRegion} {cfg : GcConfig} {objects kept : List NurseryObject}
  {forwarding : List ForwardEntry}

namespace Heap

variable {h h' : Heap}

/-! ### References that stay -/

/-- The word refers to no object of the nursery that is not in `kept`. -/
def RefersOnlyTo (r : NurseryRegion) (objects kept : List NurseryObject) (w : Word) : Prop :=
  ∀ o ∈ objects, InBody r o w.toNat → o ∈ kept

theorem refersOnlyTo_zero : RefersOnlyTo r objects kept 0 :=
  fun _ _ hin => absurd hin not_inBody_zero

section

variable (he : Evacuated r h h' objects kept forwarding) (hr : h.Ready r objects)

include he hr

/-- A forwarded word refers to no object that is gone if the word referred to live ones. -/
theorem Evacuated.forwardWord_stays {w : Word}
    (hw : ∀ o ∈ objects, InBody r o w.toNat → h.MinorReach r objects o) :
    RefersOnlyTo r objects kept (forwardWord r forwarding w) := fun _ ho hin =>
  inBody_forwardWord he.table hr.young.arena.layout (fun o ho => (he.reach_iff o ho).mp) hw ho hin

/-- The words of the objects after the collection. -/
theorem Evacuated.word_stays {base size k : ℕ}
    (hscanned : h.OldObject base size → maxScannedSize < size →
      RefersOnlyTo r objects kept (h.load r (base + 8 * k)))
    (ho : h'.IsObject r kept base size) (hk : k < size / 8) :
    RefersOnlyTo r objects kept (h'.load r (base + 8 * k)) := by
  obtain hold | ⟨o, ho, rfl, rfl⟩ := ho
  · obtain hold | hcopy := (he.oldObject base size).mp hold
    · rw [he.load_old base size hold k hk]
      split_ifs with hfixed
      · refine he.forwardWord_stays hr fun o ho hin => ?_
        obtain hmax | hweak := hfixed
        · exact .root (.inr (.inl ⟨base, size, hold, hmax, k, hk, rfl⟩)) ho hin
        · exact .root (.inr (.inr (.inl ⟨_, hweak, rfl⟩))) ho hin
      · exact hscanned hold (by omega)
    · -- a copy: its words, and the rest of its slot
      obtain ⟨e, hmem, heq⟩ := List.mem_map.mp hcopy
      obtain ⟨rfl, rfl⟩ := Prod.mk.inj heq
      by_cases hbody : k < e.size / 8
      · rw [he.load_copy e hmem k hbody]
        obtain ⟨o, ho, haddr, hsize⟩ := he.table.entry e hmem
        have hreach := (he.reach_iff o ho).mpr (.inr (isMoved_iff.mpr ⟨e, hmem, haddr⟩))
        rw [haddr]
        exact he.forwardWord_stays hr fun o' ho' hin => hreach.step (hsize ▸ hbody) ho' hin
      · rw [he.load_tail e hmem k (by omega) hk]
        exact refersOnlyTo_zero
  · have hmem := he.kept_subset o ho
    have hreach := (he.reach_iff o hmem).mpr (.inl ho)
    rw [he.load_kept o ho k hk]
    exact he.forwardWord_stays hr fun o' ho' hin => hreach.step hk ho' hin

end

end Heap

end GC

end TsAot
