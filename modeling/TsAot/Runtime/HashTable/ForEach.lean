import TsAot.Runtime.HashTable.Runs

/-!
# Iterating while the callback changes the table

`ForEach` collects the live slots in sequence order once and then visits these slots, whatever
they hold when their turn comes. ECMAScript's rule is that of a cursor: the next entry visited is
the first one, in the order of insertion, after the one visited last (`nextLiveBySeq`,
`LiveRun`).

The two agree in every iteration whose callbacks leave what is still to be visited where it is
(`Undisturbed.liveRun`), as assignments to bound keys and deletions of entries already visited do.
The program is a state `X` with the table in it; a callback is any partial function on it.
-/

namespace TsAot.TsHashTable

open OrderedMap

variable {X K V : Type*}

section Definitions

variable (table : X → TsHashTable K V) (cb : K → V → X → Option X)

/-- The call for the entry in slot `i`. -/
def callAt (i : ℕ) (x : X) : Option X := cb ((table x).entries i).key ((table x).entries i).value x

/-- The loop of `ForEach` over the slots collected, with the visits it makes. -/
def forEachLoop : List ℕ → X → Option (List (K × V) × X)
  | [], x => some ([], x)
  | i :: order, x => (callAt table cb i x).bind fun y =>
      (forEachLoop order y).map fun z =>
        ((((table x).entries i).key, ((table x).entries i).value) :: z.1, z.2)

/-- `ForEach`. -/
def forEachWith (x : X) : Option (List (K × V) × X) :=
  forEachLoop table cb (table x).collectOrdered x

/-- The entry is still to be visited after the one with sequence number `after`. -/
def Pending (t : TsHashTable K V) (after : Option ℕ) (i : ℕ) : Prop :=
  t.Live i ∧ ∀ seq ∈ after, seq < (t.entries i).seq

/-- One round of `NextLiveBySeq`. -/
def nextRound (t : TsHashTable K V) (after best : Option ℕ) (i : ℕ) : Option ℕ :=
  if isLive (t.ctrl i) ∧ (∀ seq ∈ after, seq < (t.entries i).seq) ∧
      ∀ b ∈ best, (t.entries i).seq < (t.entries b).seq then some i
  else best

/-- `NextLiveBySeq` without a limit. -/
def nextLiveBySeq (t : TsHashTable K V) (after : Option ℕ) : Option ℕ :=
  (List.range t.capacity).foldl (t.nextRound after) none

/-- **The live iteration**: each entry visited is the first after the one visited last, and the
iteration ends when there is none. -/
inductive LiveRun : X → Option ℕ → List (K × V) → X → Prop
  | done {x : X} {after : Option ℕ} (hnone : (table x).nextLiveBySeq after = none) :
      LiveRun x after [] x
  | visit {x y z : X} {after : Option ℕ} {i : ℕ} {visits : List (K × V)}
      (hnext : (table x).nextLiveBySeq after = some i) (hcall : callAt table cb i x = some y)
      (hrest : LiveRun y (some ((table x).entries i).seq) visits z) :
      LiveRun x after ((((table x).entries i).key, ((table x).entries i).value) :: visits) z

/-- What is still to be visited in `t` is so in `u`, in the same slots, and nothing else is. -/
structure LeavesPending (t u : TsHashTable K V) (after : Option ℕ) : Prop where
  pending : ∀ i, u.Pending after i ↔ t.Pending after i
  seq : ∀ i, t.Pending after i → (u.entries i).seq = (t.entries i).seq

/-- Every call of the callback returns and leaves the entries still to be visited where they
are. -/
def Undisturbed : List ℕ → X → Prop
  | [], _ => True
  | i :: order, x => ∃ y, callAt table cb i x = some y ∧
      (table x).LeavesPending (table y) (some ((table x).entries i).seq) ∧ Undisturbed order y

end Definitions

variable {ops : KeyOps K} {t u w : TsHashTable K V} {after : Option ℕ}

/-! ### The cursor -/

/-- The cursor finds one of the first entries. -/
theorem nextRound_spec (t : TsHashTable K V) (after : Option ℕ) (n : ℕ) :
    (∀ b ∈ (List.range n).foldl (t.nextRound after) none,
      b < n ∧ isLive (t.ctrl b) ∧ ∀ seq ∈ after, seq < (t.entries b).seq) ∧
    ∀ i < n, isLive (t.ctrl i) → (∀ seq ∈ after, seq < (t.entries i).seq) →
      ∃ b ∈ (List.range n).foldl (t.nextRound after) none,
        (t.entries b).seq ≤ (t.entries i).seq := by
  induction n with
  | zero => exact ⟨nofun, nofun⟩
  | succ n ih =>
    obtain ⟨hfound, hleast⟩ := ih
    rw [List.range_succ, List.foldl_append, List.foldl_cons, List.foldl_nil]
    generalize (List.range n).foldl (t.nextRound after) none = best at hfound hleast
    rw [nextRound]
    split_ifs with hn
    · obtain ⟨hlive, hafter, hfirst⟩ := hn
      refine ⟨fun b hb => ?_, fun i hi hi' hi'' => ⟨n, rfl, ?_⟩⟩
      · obtain rfl := Option.some.inj hb
        exact ⟨Nat.lt_succ_self n, hlive, hafter⟩
      · obtain hlt | rfl := Nat.lt_succ_iff_lt_or_eq.mp hi
        · obtain ⟨b, hb, hle⟩ := hleast i hlt hi' hi''
          exact (hfirst b hb).le.trans hle
        · exact le_rfl
    · refine ⟨fun b hb => ?_, fun i hi hi' hi'' => ?_⟩
      · obtain ⟨hlt, hrest⟩ := hfound b hb
        exact ⟨hlt.trans (Nat.lt_succ_self n), hrest⟩
      · obtain hlt | rfl := Nat.lt_succ_iff_lt_or_eq.mp hi
        · exact hleast i hlt hi' hi''
        · by_contra hnone
          refine hn ⟨hi', hi'', fun b hb => ?_⟩
          by_contra hge
          exact hnone ⟨b, hb, not_lt.mp hge⟩

theorem nextLiveBySeq_eq_none (h : ∀ i, ¬t.Pending after i) : t.nextLiveBySeq after = none := by
  rcases hnext : t.nextLiveBySeq after with _ | b
  · rfl
  · obtain ⟨hlt, hlive, hafter⟩ := nextRound_spec t after t.capacity |>.1 b hnext
    exact absurd ⟨⟨hlt, hlive⟩, hafter⟩ (h b)

theorem nextLiveBySeq_eq_some {i : ℕ} (hi : t.Pending after i)
    (hfirst : ∀ j, t.Pending after j → j = i ∨ (t.entries i).seq < (t.entries j).seq) :
    t.nextLiveBySeq after = some i := by
  obtain ⟨hfound, hleast⟩ := nextRound_spec t after t.capacity
  obtain ⟨b, hb, hle⟩ := hleast i hi.1.1 hi.1.2 hi.2
  obtain ⟨hlt, hlive, hafter⟩ := hfound b hb
  obtain rfl | hgt := hfirst b ⟨⟨hlt, hlive⟩, hafter⟩
  · exact hb
  · exact absurd hle (not_le.mpr hgt)

/-! ### The snapshot -/

/-- The slots `order` are those of the entries still to be visited, in order. -/
structure Snapshot (t : TsHashTable K V) (after : Option ℕ) (order : List ℕ) : Prop where
  mem : ∀ i, i ∈ order ↔ t.Pending after i
  sorted : StrictBy (fun i => (t.entries i).seq) order

theorem Counted.snapshot (h : Counted ops t) : t.Snapshot none t.collectOrdered where
  mem _ := mem_collectOrdered.trans (and_iff_left nofun).symm
  sorted := h.strictBy_collectOrdered

/-- The head of the snapshot is the next entry. -/
theorem Snapshot.next {i : ℕ} {order : List ℕ} (h : t.Snapshot after (i :: order)) :
    t.nextLiveBySeq after = some i := by
  refine nextLiveBySeq_eq_some ((h.mem i).mp List.mem_cons_self) fun j hj => ?_
  obtain rfl | hmem := List.mem_cons.mp ((h.mem j).mpr hj)
  · exact .inl rfl
  · exact .inr ((List.pairwise_cons.mp h.sorted).1 j hmem)

/-- After the visit of its head the snapshot is right for its tail. -/
theorem Snapshot.tail {i : ℕ} {order : List ℕ} (h : t.Snapshot after (i :: order))
    (hleaves : t.LeavesPending u (some (t.entries i).seq)) :
    u.Snapshot (some (t.entries i).seq) order := by
  obtain ⟨hhead, hsorted⟩ := List.pairwise_cons.mp h.sorted
  have hi := (h.mem i).mp List.mem_cons_self
  have hmem : ∀ j, j ∈ order ↔ t.Pending (some (t.entries i).seq) j := by
    refine fun j => ⟨fun hj => ?_, fun ⟨hlive, hafter⟩ => ?_⟩
    · obtain ⟨hlive, -⟩ := (h.mem j).mp (List.mem_cons_of_mem _ hj)
      exact ⟨hlive, fun seq hseq => Option.some.inj hseq ▸ hhead j hj⟩
    · have hgt := hafter _ rfl
      have hj : j ∈ i :: order := (h.mem j).mpr
        ⟨hlive, fun seq hseq => (hi.2 seq hseq).trans hgt⟩
      obtain rfl | hj := List.mem_cons.mp hj
      · exact absurd hgt (lt_irrefl _)
      · exact hj
  refine ⟨fun j => (hmem j).trans (hleaves.pending j).symm, ?_⟩
  refine List.Pairwise.imp_of_mem (fun ha hb hab => ?_) hsorted
  show (u.entries _).seq < (u.entries _).seq
  rw [hleaves.seq _ ((hmem _).mp ha), hleaves.seq _ ((hmem _).mp hb)]
  exact hab

section Loop

variable {table : X → TsHashTable K V} {cb : K → V → X → Option X} {x : X}

/-- Along a snapshot, undisturbed, the loop is the live iteration. -/
theorem Snapshot.liveRun {order : List ℕ} (h : (table x).Snapshot after order)
    (hundisturbed : Undisturbed table cb order x) :
    ∃ visits y, forEachLoop table cb order x = some (visits, y) ∧
      LiveRun table cb x after visits y := by
  induction order generalizing x after with
  | nil =>
    refine ⟨[], x, rfl, .done (nextLiveBySeq_eq_none fun i hi => ?_)⟩
    exact List.not_mem_nil ((h.mem i).mpr hi)
  | cons i order ih =>
    obtain ⟨y, hcall, hleaves, hrest⟩ := hundisturbed
    obtain ⟨visits, z, hloop, hlive⟩ := ih (h.tail hleaves) hrest
    refine ⟨_ :: visits, z, ?_, .visit h.next hcall hlive⟩
    rw [forEachLoop, hcall, Option.bind_some, hloop]
    rfl

/-- The first visit of an iteration, and the rest. -/
theorem LiveRun.uncons {y : X} {visit : K × V} {visits : List (K × V)}
    (h : LiveRun table cb x after (visit :: visits) y) :
    ∃ i z, (table x).nextLiveBySeq after = some i ∧ callAt table cb i x = some z ∧
      visit = (((table x).entries i).key, ((table x).entries i).value) ∧
      LiveRun table cb z (some ((table x).entries i).seq) visits y := by
  cases h with
  | visit hnext hcall hrest => exact ⟨_, _, hnext, hcall, rfl, hrest⟩

/-- **`ForEach` under a callback that leaves the rest in place** returns, and its visits are those
of the live iteration. -/
theorem Undisturbed.liveRun (hundisturbed : Undisturbed table cb (table x).collectOrdered x)
    (h : Counted ops (table x)) :
    ∃ visits y, forEachWith table cb x = some (visits, y) ∧ LiveRun table cb x none visits y :=
  h.snapshot.liveRun hundisturbed

end Loop

/-! ### What leaves the rest in place -/

theorem LeavesPending.refl : t.LeavesPending t after := ⟨fun _ => Iff.rfl, fun _ _ => rfl⟩

theorem LeavesPending.trans (h : t.LeavesPending u after) (h' : u.LeavesPending w after) :
    t.LeavesPending w after where
  pending i := (h'.pending i).trans (h.pending i)
  seq i hi := (h'.seq i ((h.pending i).mpr hi)).trans (h.seq i hi)

/-- A table with the same live slots and the same sequence numbers. -/
theorem LeavesPending.of_seq (hlive : ∀ i, u.Live i ↔ t.Live i)
    (hseq : ∀ i, (u.entries i).seq = (t.entries i).seq) : t.LeavesPending u after where
  pending i := by rw [Pending, Pending, hlive, hseq]
  seq i _ := hseq i

variable [Inhabited K] [Inhabited V]

/-- An assignment to a bound key. -/
theorem set_leavesPending (after : Option ℕ) {k : K} (v : V) (hbound : t.has ops k) :
    ∃ u, t.set ops k v = some u ∧ t.LeavesPending u after := by
  obtain ⟨i, hi⟩ := Option.isSome_iff_exists.mp hbound
  refine ⟨t.storeEntry i k v, by rw [set, hi], .of_seq (fun _ => storeEntry_live_iff) fun j => ?_⟩
  obtain rfl | hne := eq_or_ne j i
  · rw [storeEntry_entries_self]
  · rw [storeEntry_entries_of_ne hne]

/-- The deletion of a key under which nothing is still to be visited. -/
theorem delete_leavesPending (h : SlotsOk ops t) {k : K}
    (hpast : ∀ i, t.Pending after i → ¬ops.equal (t.entries i).key k) :
    t.LeavesPending (t.delete ops k).1 after := by
  rw [delete]
  rcases hfind : t.findSlot ops.toKeyFunctions k with _ | i
  · exact .refl
  · obtain ⟨-, hequal⟩ := h.findSlot_some hfind
    have hne : ∀ j, t.Pending after j → j ≠ i := fun j hj hji => hpast j hj (hji ▸ hequal)
    have hkept (j : ℕ) (hj : j ≠ i) : (t.bury i).entries j = t.entries j := bury_entries_of_ne hj
    refine ⟨fun j => ⟨fun hj => ?_, fun hj => ?_⟩, fun j hj => ?_⟩
    · obtain ⟨hlive, hji⟩ := bury_live_iff.mp hj.1
      exact ⟨hlive, fun seq hseq => hkept j hji ▸ hj.2 seq hseq⟩
    · refine ⟨bury_live_iff.mpr ⟨hj.1, hne j hj⟩, fun seq hseq => ?_⟩
      rw [hkept j (hne j hj)]
      exact hj.2 seq hseq
    · exact congrArg Entry.seq (hkept j (hne j hj))

/-- The end of the iteration, when the table is cleared. -/
theorem clear_leavesPending (hdone : ∀ i, ¬t.Pending after i) :
    t.LeavesPending t.clear after where
  pending i := iff_of_false (fun hi => Bool.false_ne_true hi.1.2) (hdone i)
  seq i hi := absurd hi (hdone i)

end TsAot.TsHashTable
