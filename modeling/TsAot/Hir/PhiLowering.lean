import TsAot.Hir.Cfg
import TsAot.Lib.DepthFirst

/-!
# Lowering of phis

`lowerPhi` builds an LLVM phi from the entries of a HIR phi. Lowering splits a HIR block into
fragments, so the LLVM block an entry stands for need not be a predecessor of the phi's block;
the source then walks forward from it to the first fragment that is one. A `Lowering` is what
is relied on about the fragments, and the result is that a phi with one entry for each edge of
the HIR has, on each LLVM edge, the value of that HIR edge (`Lowering.phi_agrees`).
-/

namespace TsAot

open HIRFunction

namespace PhiLowering

variable {L : Type*} [DecidableEq L]

/-- The LLVM blocks at the time a phi is lowered: the successors by their terminators, none
where the terminator is not there yet, and `agenSuspendRelocation_`. -/
structure LlvmBlocks (L : Type*) where
  succs : L → List L
  relocation : L → Option L

/-- What the walk pushes for a block, top of the stack first. -/
def LlvmBlocks.pushed (llvm : LlvmBlocks L) (l : L) : List L :=
  (llvm.succs l).reverse ++ (llvm.relocation l).toList

/-- The number of blocks a walk may visit. -/
def walkLimit : ℕ := 1024

/-- The predecessor of `phiBlock` that an entry is attached to: the block itself, or the first
one the walk from it finds. -/
def predecessorFor (llvm : LlvmBlocks L) (phiBlock llvmBlock : L) : Option L :=
  if (llvm.succs llvmBlock).contains phiBlock then some llvmBlock
  else DepthFirst.search (fun l => (llvm.succs l).contains phiBlock) llvm.pushed walkLimit
    [llvmBlock] []

/-- One entry of the phi: skipped if its edge is gone or its LLVM block has an entry. -/
def addEntry (llvm : LlvmBlocks L) (getBlock : BlockId → Option L) (phiBlock : L)
    (phi : List (L × Option HIRValue)) (entry : Option HIRValue × BlockId) :
    List (L × Option HIRValue) :=
  match (getBlock entry.2).bind (predecessorFor llvm phiBlock) with
  | none => phi
  | some l => if (phi.map Prod.fst).contains l then phi else phi ++ [(l, entry.1)]

/-- `lowerPhi`: the entries of the LLVM phi, each a predecessor and the HIR value whose LLVM
value flows in from it. -/
def lowerPhi (llvm : LlvmBlocks L) (getBlock : BlockId → Option L) (phiBlock : L)
    (inst : HIRInstruction) : List (L × Option HIRValue) :=
  inst.phiIncoming.foldl (addEntry llvm getBlock phiBlock) []

/-! ### Entries -/

section Entries

variable {llvm : LlvmBlocks L} {getBlock : BlockId → Option L} {phiBlock : L}

/-- An entry is attached to a predecessor only. -/
theorem mem_succs_of_predecessorFor {l m : L} (h : predecessorFor llvm phiBlock l = some m) :
    phiBlock ∈ llvm.succs m := by
  rw [predecessorFor] at h
  split at h
  · rename_i hcontains
    exact Option.some.inj h ▸ List.contains_iff_mem.mp hcontains
  · have hsearch := DepthFirst.search_mem (P := fun _ => True) (by simp) (by simp) h
    exact List.contains_iff_mem.mp hsearch.2

theorem mem_succs_of_mem_lowerPhi {inst : HIRInstruction} {e : L × Option HIRValue}
    (h : e ∈ lowerPhi llvm getBlock phiBlock inst) : phiBlock ∈ llvm.succs e.1 := by
  suffices hfold : ∀ (entries : List (Option HIRValue × BlockId))
      (phi : List (L × Option HIRValue)),
      (∀ e ∈ phi, phiBlock ∈ llvm.succs e.1) →
      ∀ e ∈ entries.foldl (addEntry llvm getBlock phiBlock) phi, phiBlock ∈ llvm.succs e.1 from
    hfold _ [] (by simp) e h
  intro entries
  induction entries with
  | nil => exact fun phi hphi => hphi
  | cons entry entries ih =>
    intro phi hphi
    refine ih _ fun e he => ?_
    rw [addEntry] at he
    split at he
    · exact hphi e he
    · rename_i m hm
      split at he
      · exact hphi e he
      · rcases List.mem_append.mp he with he | he
        · exact hphi e he
        · obtain rfl := List.mem_singleton.mp he
          obtain ⟨l, _, hl⟩ := Option.bind_eq_some_iff.mp hm
          exact mem_succs_of_predecessorFor hl

/-- Where every entry is attached, the phi holds for a predecessor the value of the first
entry attached to it. -/
theorem lookup_foldl_addEntry {key : BlockId → L} {entries : List (Option HIRValue × BlockId)}
    (hkey : ∀ e ∈ entries, (getBlock e.2).bind (predecessorFor llvm phiBlock) = some (key e.2))
    (phi : List (L × Option HIRValue)) (l : L) :
    (entries.foldl (addEntry llvm getBlock phiBlock) phi).lookup l =
      (phi.lookup l).or ((entries.find? fun e => key e.2 == l).map Prod.fst) := by
  induction entries generalizing phi with
  | nil => simp
  | cons entry entries ih =>
    rw [List.foldl_cons, ih (fun e he => hkey e (List.mem_cons_of_mem _ he)), addEntry,
      hkey entry List.mem_cons_self, List.find?_cons]
    dsimp only
    split
    · rename_i hcontains
      rcases hl : key entry.2 == l with _ | _
      · rfl
      · obtain rfl := eq_of_beq hl
        rcases hlookup : phi.lookup (key entry.2) with _ | v
        · have hnone := List.lookup_eq_none_iff.mp hlookup
          obtain ⟨e, he, heq⟩ := List.mem_map.mp (List.contains_iff_mem.mp hcontains)
          have hne := hnone e he
          simp [heq] at hne
        · rfl
    · rw [List.lookup_append, List.lookup_cons, List.lookup_nil, Option.or_assoc]
      rcases hl : key entry.2 == l with _ | _
      · have hne : (l == key entry.2) = false := by
          rw [BEq.comm, hl]
        simp [hne]
      · obtain rfl := eq_of_beq hl
        simp

end Entries

/-! ### Lowered functions -/

/-- The lowering of the blocks of a function: the fragments each HIR block is split into. A
block is entered at its first fragment and left from its last, where the terminator is, or by
one of its side exits. -/
structure Lowering (h : HIRFunction) (L : Type*) [DecidableEq L] where
  first : BlockId → L
  last : BlockId → L
  owner : L → BlockId
  succs : L → List L
  relocation : L → Option L
  fragments : BlockId → List L
  owner_first : ∀ a, owner (first a) = a
  owner_last : ∀ a, owner (last a) = a
  mem_fragments : ∀ l, l ∈ fragments (owner l)
  fragments_le : ∀ a, (fragments a).length ≤ walkLimit
  mem_succs_last : ∀ a ∈ h.blockIds, ∀ l, l ∈ succs (last a) ↔ ∃ t ∈ h.successorsOf a, first t = l
  relocation_last : ∀ a, relocation (last a) = none
  inner : ∀ b ∈ h.blocks, ∀ l, owner l = b.addr → l ≠ last b.addr →
    ∀ l' ∈ succs l ++ (relocation l).toList,
      (owner l' = b.addr ∧ l' ≠ first b.addr) ∨ ∃ t ∈ b.sideTargets, l' = first t
  connected : ∀ a ∈ h.blockIds, Worklist.Reached
    (fun l => (succs l ++ (relocation l).toList).filter fun l' => owner l' == a) [first a] (last a)

namespace Lowering

variable {h : HIRFunction} (W : Lowering h L)

/-- `getBlock`. -/
def getBlock (a : BlockId) : Option L := if a ∈ h.blockIds then some (W.first a) else none

/-- `a` is lowered before `b`. -/
def Before (order : List BlockId) (a b : BlockId) : Prop := a ∈ order.takeWhile fun c => c != b

instance (order : List BlockId) (a b : BlockId) : Decidable (Before order a b) :=
  inferInstanceAs (Decidable (a ∈ _))

/-- The LLVM blocks when the phis of the block at `b` are lowered: those of the blocks before
it are complete. -/
def llvmAt (order : List BlockId) (b : BlockId) : LlvmBlocks L where
  succs l := if Before order (W.owner l) b then W.succs l else []
  relocation l := if Before order (W.owner l) b then W.relocation l else none

/-- The LLVM phis agree with the HIR: on every LLVM edge from a block of the function into the
block of a phi, the phi has the value of the entry for the HIR block the edge comes from. -/
def PhisAgree (order : List BlockId) : Prop :=
  ∀ b ∈ h.blocks, ∀ i ∈ b.instructions, i.opcode = .phi →
    ∀ l, W.owner l ∈ h.blockIds → W.first b.addr ∈ W.succs l →
      ∃ e ∈ i.phiIncoming, e.2 = W.owner l ∧
        (lowerPhi (W.llvmAt order b.addr) W.getBlock (W.first b.addr) i).lookup l = some e.1

end Lowering

/-- The blocks that phis take values from are lowered before them. -/
def LoweredBefore (order : List BlockId) (h : HIRFunction) : Prop :=
  ∀ b ∈ h.blocks, ∀ i ∈ b.instructions, i.opcode = .phi →
    ∀ e ∈ i.phiIncoming, Lowering.Before order e.2 b.addr

/-- Side exits stay away from phis: none leads to the block of one, none leaves a block that
one takes a value from. -/
structure NoSideExits (h : HIRFunction) : Prop where
  into : ∀ b ∈ h.blocks, ∀ i ∈ b.instructions, i.opcode = .phi →
    ∀ p ∈ h.blocks, b.addr ∉ p.sideTargets
  outOf : ∀ b ∈ h.blocks, ∀ i ∈ b.instructions, i.opcode = .phi →
    ∀ e ∈ i.phiIncoming, ∀ p ∈ h.blocks, p.addr = e.2 → p.sideTargets = []

namespace Lowering

section Agree

variable {h : HIRFunction} (W : Lowering h L) {order : List BlockId}

/-- The edges between blocks that no side exit explains leave from the last fragment. -/
theorem eq_last_of_mem_succs {b p : HIRBlock} (hp : p ∈ h.blocks)
    (hside : b.addr ∉ p.sideTargets) {l : L} (howner : W.owner l = p.addr)
    (hl : W.first b.addr ∈ W.succs l) : l = W.last p.addr := by
  by_contra hne
  rcases W.inner p hp l howner hne _ (List.mem_append_left _ hl) with ⟨heq, hfirst⟩ | ⟨t, ht, heq⟩
  · rw [W.owner_first] at heq
    exact hfirst (by rw [heq])
  · have htb := congrArg W.owner heq
    rw [W.owner_first, W.owner_first] at htb
    exact hside (htb ▸ ht)

variable (hlinked : Linked h)

include hlinked

theorem mem_targets_iff {b p : HIRBlock} (hp : p ∈ h.blocks) :
    W.first b.addr ∈ W.succs (W.last p.addr) ↔ b.addr ∈ p.targets := by
  rw [W.mem_succs_last p.addr (mem_blockIds.mpr ⟨p, hp, rfl⟩), hlinked.successorsOf_of_mem hp]
  refine ⟨fun ⟨t, ht, heq⟩ => ?_, fun hb => ⟨_, hb, rfl⟩⟩
  have htb := congrArg W.owner heq
  rw [W.owner_first, W.owner_first] at htb
  exact htb ▸ ht

/-- The entry for a block without side exits that is lowered already is attached to its last
fragment. -/
theorem predecessorFor_first {b p : HIRBlock} (hp : p ∈ h.blocks)
    (hbefore : Before order p.addr b.addr) (hside : p.sideTargets = [])
    (hb : b.addr ∈ p.targets) :
    predecessorFor (W.llvmAt order b.addr) (W.first b.addr) (W.first p.addr) =
      some (W.last p.addr) := by
  have hsuccs : ∀ l, W.owner l = p.addr → (W.llvmAt order b.addr).succs l = W.succs l := by
    intro l hl
    simp [llvmAt, hl, hbefore]
  have hrelocation : ∀ l, W.owner l = p.addr →
      (W.llvmAt order b.addr).relocation l = W.relocation l := by
    intro l hl
    simp [llvmAt, hl, hbefore]
  have hlast : ∀ l, W.owner l = p.addr → W.first b.addr ∈ W.succs l → l = W.last p.addr :=
    fun l hl hmem => W.eq_last_of_mem_succs hp (by rw [hside]; exact List.not_mem_nil) hl hmem
  have hgoal : W.first b.addr ∈ W.succs (W.last p.addr) := (W.mem_targets_iff hlinked hp).mpr hb
  rw [predecessorFor]
  split
  · rename_i hcontains
    have hmem := List.contains_iff_mem.mp hcontains
    rw [hsuccs _ (W.owner_first _)] at hmem
    rw [hlast _ (W.owner_first _) hmem]
  · -- before the last fragment the walk meets fragments of `p` only
    have hnext : ∀ l, W.owner l = p.addr →
        ((W.llvmAt order b.addr).succs l).contains (W.first b.addr) = false →
        ∀ l' ∈ (W.llvmAt order b.addr).pushed l, W.owner l' = p.addr := by
      intro l hl hno l' hl'
      have hne : l ≠ W.last p.addr := by
        rintro rfl
        rw [hsuccs _ hl, ← Bool.not_eq_true, List.contains_iff_mem] at hno
        exact hno hgoal
      have hmem : l' ∈ W.succs l ++ (W.relocation l).toList := by
        rw [LlvmBlocks.pushed, hsuccs _ hl, hrelocation _ hl] at hl'
        simpa using hl'
      rcases W.inner p hp l hl hne l' hmem with ⟨howner, _⟩ | ⟨t, ht, _⟩
      · exact howner
      · rw [hside] at ht
        cases ht
    have hreached : Worklist.Reached (W.llvmAt order b.addr).pushed [W.first p.addr]
        (W.last p.addr) := by
      have hconnected := W.connected p.addr (mem_blockIds.mpr ⟨p, hp, rfl⟩)
      refine Worklist.Reached.mono (fun l hl l' hl' => ?_) hconnected
      have howner : W.owner l = p.addr := by
        refine hl.induction (P := fun l => W.owner l = p.addr) (fun r hr => ?_) fun _ c _ _ hc => ?_
        · rw [List.mem_singleton.mp hr, W.owner_first]
        · exact eq_of_beq (List.mem_filter.mp hc).2
      have hmem := (List.mem_filter.mp hl').1
      rw [LlvmBlocks.pushed, hsuccs _ howner, hrelocation _ howner]
      simpa using hmem
    obtain ⟨l, hsearch, howner, hl⟩ := DepthFirst.exists_search
      (P := fun l => W.owner l = p.addr)
      (fun l hl => hl ▸ W.mem_fragments l) hnext (W.owner_first _) hreached
      (by rw [hsuccs _ (W.owner_last _), List.contains_iff_mem]; exact hgoal)
      (W.fragments_le p.addr)
    rw [hsearch]
    rw [hsuccs _ howner, List.contains_iff_mem] at hl
    rw [hlast l howner hl]

/-- **Phi lowering.** Where the phis have one entry for each edge into their block, every block
they take values from is lowered already and side exits stay away, the LLVM phis agree with
the HIR. -/
theorem phisAgree (hw : WellFormed h) (hbefore : LoweredBefore order h) (hside : NoSideExits h) :
    W.PhisAgree order := by
  intro b hb i hi hphi l howner hl
  obtain ⟨p, hp, haddr⟩ := mem_blockIds.mp howner
  have hlast := W.eq_last_of_mem_succs hp (hside.into b hb i hi hphi p hp) haddr.symm hl
  have hsource : ∀ q : HIRBlock, q.addr ∈ h.predEdges b.addr ↔
      ∃ r ∈ h.blocks, r.addr = q.addr ∧ b.addr ∈ r.targets := by
    intro q
    simp only [predEdges, edges, List.mem_flatMap, List.mem_map, List.mem_filter, beq_iff_eq]
    grind
  have hperm := hw.phis b hb i hi hphi
  have hentry : ∃ e ∈ i.phiIncoming, e.2 = p.addr := by
    have hmem : p.addr ∈ i.phiIncoming.map Prod.snd := by
      refine hperm.symm.subset ((hsource p).mpr ⟨p, hp, rfl, ?_⟩)
      exact (W.mem_targets_iff hlinked hp).mp (hlast ▸ hl)
    exact List.mem_map.mp hmem
  have hkey : ∀ e ∈ i.phiIncoming, (W.getBlock e.2).bind
      (predecessorFor (W.llvmAt order b.addr) (W.first b.addr)) = some (W.last e.2) := by
    intro e he
    have hmem := hperm.subset (List.mem_map_of_mem he)
    obtain ⟨q, hq, hedge⟩ := List.mem_flatMap.mp hmem
    obtain ⟨t, ht, hqe⟩ := List.mem_map.mp hedge
    obtain ⟨ht, htb⟩ := List.mem_filter.mp ht
    obtain rfl := eq_of_beq htb
    rw [getBlock, ← hqe, if_pos (mem_blockIds.mpr ⟨q, hq, rfl⟩)]
    exact W.predecessorFor_first hlinked hq (hqe ▸ hbefore b hb i hi hphi e he)
      (hside.outOf b hb i hi hphi e he q hq hqe) ht
  rw [lowerPhi, lookup_foldl_addEntry hkey]
  rcases hfind : i.phiIncoming.find? (fun e => W.last e.2 == l) with _ | e
  · obtain ⟨e, he, hep⟩ := hentry
    have hnone := List.find?_eq_none.mp hfind e he
    rw [hep, hlast, beq_self_eq_true] at hnone
    exact absurd rfl hnone
  · have heq : W.last e.2 = l := by simpa using List.find?_some hfind
    refine ⟨e, List.mem_of_find?_eq_some hfind, by rw [← heq, W.owner_last], ?_⟩
    rw [hfind]
    rfl

end Agree

/-! ### The order is needed -/

section Unsplit

/-- The lowering that splits no block. -/
def unsplit (h : HIRFunction) : Lowering h BlockId where
  first a := a
  last a := a
  owner a := a
  succs := h.successorsOf
  relocation _ := none
  fragments a := [a]
  owner_first _ := rfl
  owner_last _ := rfl
  mem_fragments _ := List.mem_singleton_self _
  fragments_le _ := Nat.one_le_two_pow (n := 10)
  mem_succs_last _ _ l := by simp
  relocation_last _ := rfl
  inner _ _ _ hl hne := absurd hl hne
  connected _ _ := .root (List.mem_singleton_self _)

/-- Without splits the phis agree only if the blocks they take values from come first: the
entry for a later block is skipped. -/
theorem loweredBefore_of_phisAgree {h : HIRFunction} {order : List BlockId} (hw : WellFormed h)
    (hagree : (unsplit h).PhisAgree order) : LoweredBefore order h := by
  intro b hb i hi hphi e he
  obtain ⟨q, hq, hedge⟩ := List.mem_flatMap.mp
    ((hw.phis b hb i hi hphi).subset (List.mem_map_of_mem he))
  obtain ⟨t, ht, hqe⟩ := List.mem_map.mp hedge
  obtain ⟨ht, htb⟩ := List.mem_filter.mp ht
  obtain rfl := eq_of_beq htb
  obtain ⟨e', _, _, hlookup⟩ := hagree b hb i hi hphi q.addr (mem_blockIds.mpr ⟨q, hq, rfl⟩)
    (((unsplit h).mem_targets_iff hw.toLinked hq).mpr ht)
  obtain ⟨l₁, l₂, hsplit, _⟩ := List.lookup_eq_some_iff.mp hlookup
  have hentry : (q.addr, e'.1) ∈ l₁ ++ (q.addr, e'.1) :: l₂ :=
    List.mem_append_right _ List.mem_cons_self
  rw [← hsplit] at hentry
  have hmem := mem_succs_of_mem_lowerPhi hentry
  by_contra hlate
  simp [llvmAt, unsplit, hqe, hlate] at hmem

end Unsplit

end Lowering

end PhiLowering

end TsAot
