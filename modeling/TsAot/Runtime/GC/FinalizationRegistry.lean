import TsAot.Runtime.GC.Finalization

/-!
# `FinalizationRegistry`

All registries share the heap's list of finalizers, and `unregister` takes every entry with the
token's word out of it. That word follows the token object through every collection
(`Reachable.followed`), so no registration made with the object is missed. What `unregister` takes
besides are the registrations of other registries, and those of tokens that have been freed and
whose address the object has now (`Reachable.unregister_precise_iff`).
-/

namespace TsAot

namespace GC

variable {r : NurseryRegion} {cfg : GcConfig}

/-! ### Where an object is now -/

/-- Where the object at `base` is after the collection, if it is still allocated. -/
def Collection.moves (cfg : GcConfig) : Collection r → ℕ → Option ℕ
  | .full s, base =>
    if (s.heap.collectInternal r cfg).isAllocated r base then some base else none
  | .minor plat s, base =>
    moveRef r (s.heap.survivors cfg plat s.objects) (s.heap.forwardingTable cfg plat) base

namespace HeapRun

/-- Where the object is that was at `base` after the first `since` collections. -/
def position (cfg : GcConfig) (s : HeapRun r) (since base : ℕ) : Option ℕ :=
  (s.log.take (s.log.length - since)).foldr (fun c found => found.bind (c.moves cfg)) (some base)

variable {s s' : HeapRun r}

theorem position_now (s : HeapRun r) (base : ℕ) :
    s.position cfg s.log.length base = some base := by
  rw [position, Nat.sub_self, List.take_zero, List.foldr_nil]

theorem position_congr (hlog : s'.log = s.log) (since base : ℕ) :
    s'.position cfg since base = s.position cfg since base := by
  rw [position, position, hlog]

theorem position_cons {c : Collection r} (hlog : s'.log = c :: s.log) {since : ℕ}
    (hsince : since ≤ s.log.length) (base : ℕ) :
    s'.position cfg since base = (s.position cfg since base).bind (c.moves cfg) := by
  have hlength : s'.log.length - since = s.log.length - since + 1 := by
    rw [hlog, List.length_cons]
    omega
  rw [position, hlength, hlog, List.take_succ_cons, List.foldr_cons, position]

/-- The entries of the registry with their numbers. -/
def registrations (s : HeapRun r) : List (ℕ × FinalizerEntry) := s.ids.zip s.heap.finalizers

end HeapRun

/-! ### The registries -/

/-- `sizeof(TsFinalizationRegistry)`. -/
def finalizationRegistrySize : ℕ := 32

/-- The offset of `TsFinalizationRegistry::cleanupCallback`. -/
def cleanupCallback : ℕ := 24

/-- A call of `register`: the address of the registry, the word of the token, and the number of
collections before the call. -/
structure Registration where
  registry : ℕ
  token : Word
  since : ℕ
deriving DecidableEq

/-- A run of the heap, and the calls of `register` by the numbers of their entries. -/
structure RegistryRun (r : NurseryRegion) extends HeapRun r where
  made : ℕ → Option Registration

/-- One operation. -/
inductive RegistryOp (r : NurseryRegion)
  | heap (op : HeapOp r)
  /-- `ts_finalization_registry_register`. -/
  | register (registry : ℕ) (target heldValue token : Word)
  /-- `ts_finalization_registry_unregister`. -/
  | unregister (registry : ℕ) (token : Word)

namespace RegistryRun

/-- `ts_finalization_registry_register`, on a target that is no box. -/
def register (registry : ℕ) (target heldValue token : Word) (s : RegistryRun r) : RegistryRun r :=
  if registry = 0 ∨ target = 0 then s
  else
    { toHeapRun := s.registerFinalizer
        ⟨target, s.heap.load r (registry + cleanupCallback), heldValue, token⟩
      made := Function.update s.made s.nextId (some ⟨registry, token, s.log.length⟩) }

/-- `ts_finalization_registry_unregister`. -/
def unregister (registry : ℕ) (token : Word) (s : RegistryRun r) : RegistryRun r × Bool :=
  if registry = 0 ∨ token = 0 then (s, false)
  else
    ({ s with toHeapRun := s.unregisterFinalizer token },
      s.heap.finalizers.any fun e => e.unregisterToken = token)

/-- One operation; `none` when the program is aborted. -/
def step (cfg : GcConfig) (s : RegistryRun r) : RegistryOp r → Option (RegistryRun r)
  | .heap op => (s.toHeapRun.step cfg op).map fun s' => { s with toHeapRun := s' }
  | .register registry target heldValue token =>
    some (s.register registry target heldValue token)
  | .unregister registry token => some (s.unregister registry token).1

/-- The word of an object. -/
def ObjectWord (s : RegistryRun r) (w : Word) : Prop :=
  ∃ size, s.heap.IsObject r s.objects w.toNat size

/-- The word of a value that is no object lies outside user space. -/
def Immediate (w : Word) : Prop := w.toNat < 4096 ∨ 2 ^ 47 ≤ w.toNat

/-- What the program may ask for: the methods are called on registries, with an object as the
target and, for `unregister`, as the token; the finalizers are reached through them only. -/
def Permitted (s : RegistryRun r) : RegistryOp r → Prop
  | .heap (.registerFinalizer _) => False
  | .heap (.unregisterFinalizer _) => False
  | .heap op => s.toHeapRun.Permitted op
  | .register registry target _ token =>
    (∃ size, finalizationRegistrySize ≤ size ∧ s.heap.IsObject r s.objects registry size) ∧
      s.ObjectWord target ∧ (s.ObjectWord token ∨ Immediate token)
  | .unregister registry token =>
    (∃ size, finalizationRegistrySize ≤ size ∧ s.heap.IsObject r s.objects registry size) ∧
      s.ObjectWord token

/-- The state `gc_init` leaves. -/
def init (cfg : GcConfig) (mem : ℕ → Word) : RegistryRun r where
  toHeapRun := HeapRun.init cfg mem
  made := fun _ => none

/-- The states of the runs. -/
inductive Reachable (cfg : GcConfig) : RegistryRun r → Prop
  | init (mem : ℕ → Word) : Reachable cfg (init cfg mem)
  | step {s s' : RegistryRun r} {op : RegistryOp r} (h : Reachable cfg s) (hop : s.Permitted op)
      (hs : s.step cfg op = some s') : Reachable cfg s'

/-! ### What `unregister` is for -/

/-- Entry `i` was made on the registry that is at `registry` now. -/
def MadeOn (cfg : GcConfig) (s : RegistryRun r) (registry i : ℕ) : Prop :=
  ∃ m, s.made i = some m ∧ s.position cfg m.since m.registry = some registry

/-- Entry `i` was made with the token object that is at `token` now. -/
def MadeWith (cfg : GcConfig) (s : RegistryRun r) (token i : ℕ) : Prop :=
  ∃ m, s.made i = some m ∧ s.position cfg m.since m.token.toNat = some token

/-- The token object entry `i` was made with is still there. -/
def TokenThere (cfg : GcConfig) (s : RegistryRun r) (i : ℕ) : Prop :=
  ∃ token, s.MadeWith cfg token i

/-- The call of `unregister` removes the entries made on this registry with this token object, no
others, and returns whether there was one. -/
structure Precise (cfg : GcConfig) (s : RegistryRun r) (registry : ℕ) (token : Word) : Prop where
  left : ∀ x, x ∈ (s.unregister registry token).1.registrations ↔
    x ∈ s.registrations ∧ ¬(s.MadeOn cfg registry x.1 ∧ s.MadeWith cfg token.toNat x.1)
  order : (s.unregister registry token).1.registrations.Sublist s.registrations
  result : (s.unregister registry token).2 = true ↔
    ∃ x ∈ s.registrations, s.MadeOn cfg registry x.1 ∧ s.MadeWith cfg token.toNat x.1

/-- The entries that carry the token's word were made on this registry, with tokens that have not
been freed since. -/
def Unshared (cfg : GcConfig) (s : RegistryRun r) (registry : ℕ) (token : Word) : Prop :=
  ∀ x ∈ s.registrations, x.2.unregisterToken = token →
    s.MadeOn cfg registry x.1 ∧ s.TokenThere cfg x.1

end RegistryRun

/-! ### A token's word goes where the token goes -/

namespace HeapRun

variable {s s' : HeapRun r} {made : ℕ → Option Registration}

/-- The entries carry the words their tokens have now, unless these have been freed. -/
structure Followed (cfg : GcConfig) (made : ℕ → Option Registration) (s : HeapRun r) :
    Prop where
  registered : s.toHeapState.Registered
  unmade : ∀ i, s.nextId ≤ i → made i = none
  earlier : ∀ i m, made i = some m → m.since ≤ s.log.length
  word : ∀ x ∈ s.registrations, ∀ m, made x.1 = some m → ∀ token,
    s.position cfg m.since m.token.toNat = some token → x.2.unregisterToken.toNat = token

/-- A part that collects nothing and adds no entry of `register`. -/
theorem Followed.same (h : Followed cfg made s) (hreg : s'.toHeapState.Registered)
    (hnext : s.nextId ≤ s'.nextId) (hlog : s'.log = s.log)
    (hsub : ∀ x ∈ s'.registrations, x ∈ s.registrations ∨ s.nextId ≤ x.1) :
    Followed cfg made s' where
  registered := hreg
  unmade := fun i hi => h.unmade i (hnext.trans hi)
  earlier := fun i m hm => hlog ▸ h.earlier i m hm
  word := fun x hx m hm token htoken => by
    rw [position_congr hlog] at htoken
    obtain hx | hx := hsub x hx
    · exact h.word x hx m hm token htoken
    · exact absurd (hm.symm.trans (h.unmade x.1 hx)) (Option.some_ne_none m)

/-- A collection. -/
theorem Followed.collected (h : Followed cfg made s) (hreg : s'.toHeapState.Registered)
    (hnext : s'.nextId = s.nextId) {c : Collection r} (hlog : s'.log = c :: s.log)
    (hword : ∀ x' ∈ s'.registrations, ∃ x ∈ s.registrations, x'.1 = x.1 ∧
      ∀ token, c.moves cfg x.2.unregisterToken.toNat = some token →
        x'.2.unregisterToken.toNat = token) :
    Followed cfg made s' where
  registered := hreg
  unmade := fun i hi => h.unmade i (hnext ▸ hi)
  earlier := fun i m hm => by
    rw [hlog, List.length_cons]
    exact (h.earlier i m hm).trans (Nat.le_succ _)
  word := fun x' hx' m hm token htoken => by
    obtain ⟨x, hx, hnumber, hmoves⟩ := hword x' hx'
    rw [hnumber] at hm
    rw [position_cons hlog (h.earlier x.1 m hm), Option.bind_eq_some_iff] at htoken
    obtain ⟨before, hbefore, hmoved⟩ := htoken
    rw [← h.word x hx m hm before hbefore] at hmoved
    exact hmoves token hmoved

theorem registrations_collectInternal (hl : s.Laid) (h : s.toHeapState.Registered) :
    ∀ x ∈ (s.collectInternal cfg).registrations, x ∈ s.registrations := by
  obtain ⟨hf, hstate⟩ := hl.old.fates h.length
  have hfinalizers : (s.collectInternal cfg).heap.finalizers = _ :=
    hl.collectInternal_registries.1
  rw [← hstate, hf.kept] at hfinalizers
  have hkept : (s.heap.fates r s.ids).kept = (s.collectInternal cfg).registrations :=
    List.zip_of_prod rfl hfinalizers.symm
  intro x hx
  rw [← hkept] at hx
  exact List.mem_reverse.mp (hf.once.subset (List.mem_append_right _ hx))

/-- **Phase 5b** forwards the word of a token to where the token is. -/
theorem forwardWord_moveRef {plat : Platform r} (hr : s.heap.Ready r s.objects) {w : Word}
    {token : ℕ} (hmove : moveRef r (s.heap.survivors cfg plat s.objects)
      (s.heap.forwardingTable cfg plat) w.toNat = some token) :
    (forwardWord r (s.heap.forwardingTable cfg plat) w).toNat = token := by
  have hevac := hr.evacuated cfg plat
  have hlayout := hr.young.arena.layout
  rw [moveRef] at hmove
  split_ifs at hmove with hcontains hkept
  · obtain rfl := Option.some.inj hmove
    obtain ⟨o, ho, hbase⟩ := List.any_eq_true.mp hkept
    have hbase : r.base + o.data = w.toNat := of_decide_eq_true hbase
    have hmem := hevac.kept_subset o ho
    have hstop : o.stop = o.data + o.size := rfl
    have hpos := (hlayout.wellSized o hmem).size_pos
    have hin : InBody r o w.toNat := ⟨hbase.le, by omega⟩
    refine congrArg BitVec.toNat (hevac.table.forwardWord_eq_self hlayout fun e he hcovers => ?_)
    -- the entry would move the object, which stays
    obtain ⟨o', ho', haddr, hsize⟩ := hevac.table.entry e he
    have hin' := (ForwardEntry.covers_iff haddr hsize).mp hcovers
    have hdata := o.data_eq
    have hdata' := o'.data_eq
    rw [InBody] at hin hin'
    obtain rfl := hlayout.eq_of_overlap ho' hmem (by omega) (by omega)
    exact absurd (isMoved_iff.mpr ⟨e, he, haddr⟩) (Bool.eq_false_iff.mp (hevac.not_moved o' ho))
  · obtain ⟨e, hfind, rfl⟩ := Option.map_eq_some_iff.mp hmove
    have he := List.mem_of_find?_eq_some hfind
    have hfound := List.find?_some hfind
    have haddr : e.nurseryAddr = w.toNat := of_decide_eq_true hfound
    have hpos := hevac.table.size_pos hlayout he
    have hcovers : e.Covers w := ⟨haddr.le, by omega⟩
    rw [hevac.table.forwardWord_toNat hlayout he hcovers]
    omega
  · obtain rfl := Option.some.inj hmove
    exact congrArg BitVec.toNat (hevac.table.forwardWord_of_not_inBody hlayout fun o ho hin =>
      hcontains (hlayout.contains_of_inBody ho hin))

theorem registrations_unregisterFinalizer (s : HeapRun r) (token : Word) :
    (s.unregisterFinalizer token).registrations =
      s.registrations.filter fun x => x.2.unregisterToken ≠ token :=
  (List.zip_of_prod rfl rfl).symm

theorem mem_registrations_registerFinalizer {e : FinalizerEntry} (h : s.toHeapState.Registered)
    {x : ℕ × FinalizerEntry} (hx : x ∈ (s.registerFinalizer e).registrations) :
    x ∈ s.registrations ∨ x = (s.nextId, e) := by
  have happend : (s.registerFinalizer e).registrations =
      s.registrations ++ [(s.nextId, e)] := List.zip_append h.length
  rw [happend] at hx
  exact (List.mem_append.mp hx).imp_right List.mem_singleton.mp

/-- Each part of an operation of the heap. -/
theorem Followed.micro (hl : s.Laid) (hm : Micro cfg s s') (h : Followed cfg made s) :
    Followed cfg made s' := by
  have hreg := registered_micro hl hm h.registered
  cases hm with
  | collect =>
    refine h.collected hreg rfl rfl fun x hx =>
      ⟨x, registrations_collectInternal hl h.registered x hx, rfl, fun token hmoves => ?_⟩
    rw [Collection.moves] at hmoves
    split_ifs at hmoves
    exact Option.some.inj hmoves
  | evacuate plat hr =>
    have hfinalizers : (s.evacuate cfg plat).heap.finalizers = _ :=
      (hr.evacuated cfg plat).finalizers
    have hids : (s.evacuate cfg plat).ids = s.ids := by rw [evacuate]
    have hnext : (s.evacuate cfg plat).nextId = s.nextId := by rw [evacuate]
    have hlog : (s.evacuate cfg plat).log = .minor plat s.toHeapState :: s.log := by rw [evacuate]
    refine h.collected hreg hnext hlog fun x' hx' => ?_
    rw [registrations, hfinalizers, hids, List.zip_map_right] at hx'
    obtain ⟨x, hx, rfl⟩ := List.mem_map.mp hx'
    exact ⟨x, hx, rfl, fun token hmoves => forwardWord_moveRef hr hmoves⟩
  | quiet hq =>
    refine h.same hreg hq.nextId.ge hq.log fun x hx => .inl ?_
    rwa [registrations, hq.ids, hq.finalizers] at hx
  | @registerWeakRef _ s' p hb target =>
    have hq := hb.quiet.trans (quiet_store s' (p + weakRefTarget) target)
    refine h.same hreg hb.quiet.nextId.ge hb.quiet.log fun x hx => .inl ?_
    have hids : (s'.registerWeakRef p target).ids = s.ids := hq.ids
    have hfin : (s'.registerWeakRef p target).heap.finalizers = s.heap.finalizers := hq.finalizers
    rwa [registrations, hids, hfin] at hx
  | registerFinalizer e =>
    refine h.same hreg (Nat.le_succ _) rfl fun x hx => ?_
    exact (mem_registrations_registerFinalizer h.registered hx).imp_right fun hx =>
      (congrArg Prod.fst hx).ge
  | unregisterFinalizer token =>
    refine h.same hreg le_rfl rfl fun x hx => .inl ?_
    rw [registrations_unregisterFinalizer] at hx
    exact (List.mem_filter.mp hx).1
  | call => exact h.same hreg le_rfl rfl fun x hx => .inl hx

theorem Followed.steps (hsteps : Steps cfg s s') (h : Followed cfg made s) :
    Followed cfg made s' := by
  induction hsteps with
  | refl => exact h
  | tail _ hpart ih => exact ih.micro hpart.1 hpart.2

/-- A new entry carries the word its token has. -/
theorem Followed.register (hl : s.Laid) (h : Followed cfg made s) (e : FinalizerEntry)
    (registry : ℕ) : Followed cfg (Function.update made s.nextId
      (some ⟨registry, e.unregisterToken, s.log.length⟩)) (s.registerFinalizer e) where
  registered :=
    have hpart : Micro cfg s (s.registerFinalizer e) := .registerFinalizer e s
    registered_micro hl hpart h.registered
  unmade := fun i hi => by
    have hlt : s.nextId < i := hi
    rw [Function.update_of_ne hlt.ne']
    exact h.unmade i hlt.le
  earlier := fun i m hm => by
    by_cases hi : i = s.nextId
    · rw [hi, Function.update_self] at hm
      obtain rfl := Option.some.inj hm
      exact le_rfl
    · rw [Function.update_of_ne hi] at hm
      exact h.earlier i m hm
  word := fun x hx m hm token htoken => by
    rw [position_congr (show (s.registerFinalizer e).log = s.log from rfl)] at htoken
    obtain hx | rfl := mem_registrations_registerFinalizer h.registered hx
    · have hmem : x.1 ∈ s.ids := (List.of_mem_zip (a := x.1) (b := x.2) hx).1
      have hlt := h.registered.fresh x.1 (List.mem_append_right _ hmem)
      rw [Function.update_of_ne hlt.ne] at hm
      exact h.word x hx m hm token htoken
    · rw [Function.update_self] at hm
      obtain rfl := Option.some.inj hm
      rw [position_now] at htoken
      exact Option.some.inj htoken

end HeapRun

namespace RegistryRun

variable {s s' : RegistryRun r}

theorem heap_permitted {op : HeapOp r} (hop : s.Permitted (.heap op)) :
    s.toHeapRun.Permitted op := by
  cases op
  case registerFinalizer => exact hop.elim
  case unregisterFinalizer => exact hop.elim
  all_goals exact hop

/-- The heap of a run is that of a run of the heap. -/
theorem Reachable.heapRun (h : Reachable cfg s) : HeapRun.Reachable cfg s.toHeapRun := by
  induction h with
  | init mem => exact .init mem
  | @step s s' op h hop hs ih =>
    cases op with
    | heap op =>
      obtain ⟨run, hrun, rfl⟩ := Option.map_eq_some_iff.mp hs
      exact ih.step (heap_permitted hop) hrun
    | register registry target heldValue token =>
      obtain rfl := Option.some.inj hs
      rw [register]
      split_ifs
      · exact ih
      · exact ih.step (show s.toHeapRun.Permitted (.registerFinalizer _) from trivial) rfl
    | unregister registry token =>
      obtain rfl := Option.some.inj hs
      rw [unregister]
      split_ifs
      · exact ih
      · exact ih.step (show s.toHeapRun.Permitted (.unregisterFinalizer token) from trivial) rfl

/-- **Tokens along a run.** Every entry of `register` carries the word its token has now, unless
the token has been freed. -/
theorem Reachable.followed (h : Reachable cfg s) : HeapRun.Followed cfg s.made s.toHeapRun := by
  induction h with
  | init mem => exact ⟨⟨rfl, .nil, nofun⟩, fun _ _ => rfl, nofun, nofun⟩
  | @step s s' op h hop hs ih =>
    have hvalid := h.heapRun.valid
    cases op with
    | heap op =>
      obtain ⟨run, hrun, rfl⟩ := Option.map_eq_some_iff.mp hs
      exact ih.steps (HeapRun.step_spec hvalid (heap_permitted hop) hrun).2
    | register registry target heldValue token =>
      obtain rfl := Option.some.inj hs
      rw [register]
      split_ifs
      · exact ih
      · exact ih.register (HeapRun.laid_of_valid hvalid)
          ⟨target, s.heap.load r (registry + cleanupCallback), heldValue, token⟩ registry
    | unregister registry token =>
      obtain rfl := Option.some.inj hs
      rw [unregister]
      split_ifs
      · exact ih
      · exact ih.micro (HeapRun.laid_of_valid hvalid) (.unregisterFinalizer token s.toHeapRun)

theorem objectWord_ne_zero (hv : s.heap.Valid r s.objects) {base size : ℕ}
    (ho : s.heap.IsObject r s.objects base size) : base ≠ 0 := by
  obtain hold | ⟨o, -, rfl, -⟩ := ho
  · have hlow := hv.old.low_of_object hold
    omega
  · have hbase := r.le_base
    omega

/-- **When `unregister` is precise.** In every state of every run, a call of `unregister` with a
token object removes the entries made on that registry with that object, and no others, and
returns whether there was one, exactly if the entries that carry the object's word are all of this
registry and of tokens that have not been freed. -/
theorem Reachable.unregister_precise_iff (h : Reachable cfg s) {registry : ℕ} {token : Word}
    (hop : s.Permitted (.unregister registry token)) :
    s.Precise cfg registry token ↔ s.Unshared cfg registry token := by
  have hvalid := h.heapRun.valid
  obtain ⟨⟨_, -, hregistry⟩, ⟨_, htoken⟩⟩ := hop
  have hnonzero : ¬(registry = 0 ∨ token = 0) := by
    rintro (hzero | rfl)
    · exact objectWord_ne_zero hvalid hregistry hzero
    · exact objectWord_ne_zero hvalid htoken rfl
  have hstate : (s.unregister registry token).1.registrations =
      s.registrations.filter fun x => x.2.unregisterToken ≠ token := by
    rw [unregister, if_neg hnonzero]
    exact HeapRun.registrations_unregisterFinalizer s.toHeapRun token
  have hfinalizers : s.heap.finalizers = s.registrations.map (·.2) :=
    (List.map_snd_zip h.followed.registered.length.ge).symm
  have hresult : (s.unregister registry token).2 = true ↔
      ∃ x ∈ s.registrations, x.2.unregisterToken = token := by
    rw [unregister, if_neg hnonzero, hfinalizers]
    simp only [List.any_map, List.any_eq_true, Function.comp_apply, decide_eq_true_eq]
  -- an entry of a token that is still there carries its word
  have hword : ∀ x ∈ s.registrations, ∀ base, s.MadeWith cfg base x.1 →
      x.2.unregisterToken.toNat = base := fun x hx base ⟨m, hm, hposition⟩ =>
    h.followed.word x hx m hm base hposition
  constructor
  · intro hprecise x hx hcarries
    have hgone : x ∉ (s.unregister registry token).1.registrations := by
      rw [hstate, List.mem_filter]
      exact fun hkept => of_decide_eq_true hkept.2 hcarries
    rw [hprecise.left, not_and, not_not] at hgone
    obtain ⟨hon, hwith⟩ := hgone hx
    exact ⟨hon, token.toNat, hwith⟩
  · intro hunshared
    have hmade : ∀ x ∈ s.registrations, x.2.unregisterToken = token ↔
        s.MadeOn cfg registry x.1 ∧ s.MadeWith cfg token.toNat x.1 := fun x hx => by
      constructor
      · intro hcarries
        obtain ⟨hon, base, hwith⟩ := hunshared x hx hcarries
        rw [← hword x hx base hwith, hcarries] at hwith
        exact ⟨hon, hwith⟩
      · rintro ⟨-, hwith⟩
        exact BitVec.eq_of_toNat_eq (hword x hx _ hwith)
    refine ⟨fun x => ?_, ?_, ?_⟩
    · rw [hstate, List.mem_filter]
      refine and_congr_right fun hx => ?_
      rw [decide_eq_true_eq, ne_eq, hmade x hx]
    · rw [hstate]
      exact List.filter_sublist
    · rw [hresult]
      exact exists_congr fun x => and_congr_right fun hx => hmade x hx

/-! ### Two registries with one token -/

/-- The state after an operation. -/
def follow (cfg : GcConfig) (s : RegistryRun r) (op : RegistryOp r) : RegistryRun r :=
  (s.step cfg op).getD s

theorem Reachable.follow (h : Reachable cfg s) (op : RegistryOp r) (hop : s.Permitted op)
    (hs : (s.step cfg op).isSome) : Reachable cfg (s.follow cfg op) := by
  obtain ⟨s', hs'⟩ := Option.isSome_iff_exists.mp hs
  rw [RegistryRun.follow, hs', Option.getD_some]
  exact h.step hop hs'

/-- The slot of the only block is in use. -/
def inUse (s : RegistryRun r) (i : ℕ) : Bool :=
  s.heap.blocks.any fun b => b.mem = 0x20000000 ∧ b.slotSize = 4096 ∧ i < b.slotCount ∧
    b.allocated i

theorem isObject_of_inUse {i base : ℕ} (h : s.inUse i = true)
    (hbase : base = 0x20000000 + i * 4096) : s.heap.IsObject r s.objects base 4096 := by
  obtain ⟨b, hb, hslot⟩ := List.any_eq_true.mp h
  obtain ⟨hmem, hsize, hi, halloc⟩ := of_decide_eq_true hslot
  refine .inl (.inl ⟨b, hb, i, hi, halloc, ?_, hsize.symm⟩)
  rw [Block.slot, hmem, hsize, hbase]

/-- An object of its own slot. -/
def allocated (s : RegistryRun NurseryRun.sampleRegion) : RegistryRun NurseryRun.sampleRegion :=
  s.follow Heap.sampleConfig (.heap (.allocOldGen 4096 HeapRun.samplePlatform))

/-- Two registries, a token and a target. -/
def fourObjects : RegistryRun NurseryRun.sampleRegion :=
  (init Heap.sampleConfig fun _ => 0).allocated.allocated.allocated.allocated

/-- The target is registered on the first registry. -/
def sharedToken : RegistryRun NurseryRun.sampleRegion :=
  fourObjects.follow Heap.sampleConfig (.register 0x20000000 0x20003000 3 0x20002000)

theorem Reachable.allocated {s : RegistryRun NurseryRun.sampleRegion}
    (h : Reachable Heap.sampleConfig s) (hs : (s.step Heap.sampleConfig
      (.heap (.allocOldGen 4096 HeapRun.samplePlatform))).isSome) :
    Reachable Heap.sampleConfig s.allocated :=
  h.follow _ (show 4096 + 40 < 2 ^ 64 by decide) hs

/-- What the objects and the registration leave behind. -/
theorem sharedToken_samples :
    (∀ i < 4, fourObjects.inUse i = true ∧ sharedToken.inUse i = true) ∧
      sharedToken.log.length = 0 ∧ sharedToken.ids = [0] ∧
      sharedToken.made 0 = some ⟨0x20000000, 0x20002000, 0⟩ ∧
      (sharedToken.unregister 0x20001000 0x20002000).2 = true ∧
      (sharedToken.unregister 0x20001000 0x20002000).1.ids = [] := by
  decide +kernel

theorem reachable_sharedToken : Reachable Heap.sampleConfig sharedToken := by
  have hinUse := sharedToken_samples.1
  have hfirst := (Reachable.init fun _ => 0).allocated (by decide +kernel)
  have hthird := (hfirst.allocated (by decide +kernel)).allocated (by decide +kernel)
  refine Reachable.follow (hthird.allocated (by decide +kernel)) _ ?_ rfl
  exact ⟨⟨4096, by decide, isObject_of_inUse (hinUse 0 (by decide)).1 rfl⟩,
    ⟨4096, isObject_of_inUse (hinUse 3 (by decide)).1 (by decide)⟩,
    .inl ⟨4096, isObject_of_inUse (hinUse 2 (by decide)).1 (by decide)⟩⟩

theorem sharedToken_permitted {i registry : ℕ} (hi : i < 4)
    (hregistry : registry = 0x20000000 + i * 4096) :
    sharedToken.Permitted (.unregister registry 0x20002000) :=
  have hinUse := sharedToken_samples.1
  ⟨⟨4096, by decide, isObject_of_inUse (hinUse i hi).2 hregistry⟩, 4096,
    isObject_of_inUse (hinUse 2 (by decide)).2 (by decide)⟩

theorem sharedToken_position (base : ℕ) :
    sharedToken.position Heap.sampleConfig 0 base = some base := by
  rw [HeapRun.position, List.length_eq_zero_iff.mp sharedToken_samples.2.1]
  rfl

/-- A call on the second registry removes the registration, which was made on the first. -/
theorem other_registry_unregistered :
    Reachable Heap.sampleConfig sharedToken ∧
      sharedToken.Permitted (.unregister 0x20001000 0x20002000) ∧
      (sharedToken.unregister 0x20001000 0x20002000).2 = true ∧
      (sharedToken.unregister 0x20001000 0x20002000).1.ids = [] ∧
      ¬sharedToken.Precise Heap.sampleConfig 0x20001000 0x20002000 := by
  obtain ⟨-, -, hids, hmade, hresult, hnone⟩ := sharedToken_samples
  refine ⟨reachable_sharedToken, sharedToken_permitted (i := 1) (by decide) rfl, hresult, hnone,
    fun hprecise => ?_⟩
  obtain ⟨x, hx, ⟨m, hm, hposition⟩, -⟩ := hprecise.result.mp hresult
  have hmem : x.1 ∈ sharedToken.ids := (List.of_mem_zip (a := x.1) (b := x.2) hx).1
  rw [hids, List.mem_singleton] at hmem
  rw [hmem, hmade] at hm
  obtain rfl := Option.some.inj hm
  rw [sharedToken_position] at hposition
  exact absurd (Option.some.inj hposition) (by decide)

/-- A call on the first. -/
theorem unregister_precise_sample :
    sharedToken.Precise Heap.sampleConfig 0x20000000 0x20002000 := by
  obtain ⟨-, -, hids, hmade, -⟩ := sharedToken_samples
  refine (Reachable.unregister_precise_iff reachable_sharedToken
    (sharedToken_permitted (i := 0) (by decide) rfl)).mpr fun x hx _ => ?_
  have hmem : x.1 ∈ sharedToken.ids := (List.of_mem_zip (a := x.1) (b := x.2) hx).1
  rw [hids, List.mem_singleton] at hmem
  rw [hmem]
  exact ⟨⟨_, hmade, sharedToken_position _⟩, _, _, hmade, sharedToken_position _⟩

/-- The program forgets the token. -/
def forgottenToken : RegistryRun NurseryRun.sampleRegion :=
  sharedToken.follow Heap.sampleConfig
    (.heap (.mutator [0x20000000, 0x20001000, 0x20003000] []))

/-- The token is collected, and its slot goes to another object. -/
def reusedAddress : RegistryRun NurseryRun.sampleRegion :=
  (forgottenToken.follow Heap.sampleConfig (.heap .forceCollect)).allocated

/-- What the reuse leaves behind. -/
theorem reusedAddress_samples :
    (∀ i < 3, reusedAddress.inUse i = true) ∧
      reusedAddress.position Heap.sampleConfig 0 0x20002000 = none ∧
      reusedAddress.ids = [0] ∧
      reusedAddress.made 0 = some ⟨0x20000000, 0x20002000, 0⟩ ∧
      (reusedAddress.unregister 0x20000000 0x20002000).2 = true := by
  decide +kernel

theorem reachable_reusedAddress : Reachable Heap.sampleConfig reusedAddress := by
  have hforgotten : Reachable Heap.sampleConfig forgottenToken :=
    reachable_sharedToken.follow _ trivial rfl
  have hcollected := hforgotten.follow (.heap .forceCollect) trivial rfl
  exact hcollected.allocated (by decide +kernel)

/-- A call with the new object removes the registration, which was made with the old one. -/
theorem reused_address_unregistered :
    Reachable Heap.sampleConfig reusedAddress ∧
      reusedAddress.Permitted (.unregister 0x20000000 0x20002000) ∧
      reusedAddress.position Heap.sampleConfig 0 0x20002000 = none ∧
      (reusedAddress.unregister 0x20000000 0x20002000).2 = true ∧
      ¬reusedAddress.Precise Heap.sampleConfig 0x20000000 0x20002000 := by
  obtain ⟨hinUse, hfreed, hids, hmade, hresult⟩ := reusedAddress_samples
  refine ⟨reachable_reusedAddress,
    ⟨⟨4096, by decide, isObject_of_inUse (hinUse 0 (by decide)) rfl⟩, 4096,
      isObject_of_inUse (hinUse 2 (by decide)) (by decide)⟩, hfreed, hresult, fun hprecise => ?_⟩
  obtain ⟨x, hx, -, m, hm, hposition⟩ := hprecise.result.mp hresult
  have hmem : x.1 ∈ reusedAddress.ids := (List.of_mem_zip (a := x.1) (b := x.2) hx).1
  rw [hids, List.mem_singleton] at hmem
  rw [hmem, hmade] at hm
  obtain rfl := Option.some.inj hm
  exact absurd (hfreed.symm.trans hposition) nofun

end RegistryRun

end GC

end TsAot
