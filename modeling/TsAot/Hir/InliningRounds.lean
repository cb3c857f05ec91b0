import Mathlib.Data.Multiset.DershowitzManna
import Mathlib.Tactic.Abel
import TsAot.Hir.Inlining

/-!
# The rounds of the inliner

`detectRecursion` finds exactly the functions from which a cycle of direct calls is reached. A call
that is inlined is a call of another function, so what a function calls after any number of rounds
it reached in the graph of the module before the pass. Hence no function is inlined into itself, the
functions inlined into each other form no cycle, and every call that is inlined gives way to calls
that reach less. The rounds would end without their bound (`rounds_end`).
-/

namespace TsAot

namespace Inlining

open CycleSearch Relation

/-! ### The graph -/

section Graph

variable {m : HIRModule} {a b : String}

/-- A function called `a` has a direct call of `b`. -/
def Calls (m : HIRModule) (a b : String) : Prop :=
  ∃ f ∈ m.functions, f.name = a ∧ ∃ i ∈ f.instructions, calledName i = some b

theorem edge_callGraph (m : HIRModule) : Edge (callGraph m) = Calls m := by
  funext a b
  simp [Edge, callGraph, Calls, calledNames, List.mem_insertionSort, and_assoc]

theorem calls_of_mem {f : HIRFunction} (hf : f ∈ m.functions) (hb : b ∈ calledNames f) :
    Calls m f.name b := ⟨f, hf, rfl, List.mem_filterMap.mp hb⟩

theorem mem_graphNames_of_calls (h : Calls m a b) : b ∈ graphNames m := by
  obtain ⟨f, hf, -, hb⟩ := h
  exact List.mem_append_right _ (List.mem_flatMap.mpr ⟨f, hf, List.mem_filterMap.mpr hb⟩)

/-- Calls lead from this function to a cycle. -/
def Recursive (m : HIRModule) (a : String) : Prop :=
  ∃ b, ReflTransGen (Calls m) a b ∧ TransGen (Calls m) b b

theorem reachesCycle_callGraph : ReachesCycle (callGraph m) a ↔ Recursive m a := by
  rw [ReachesCycle, edge_callGraph, Recursive]

/-- **The recursive functions** are those from which a cycle of calls is reached. The search ends. -/
theorem exists_detectRecursion (m : HIRModule) : ∃ recursive, detectRecursion m = some recursive ∧
    ∀ name, name ∈ recursive ↔ Recursive m name := by
  have hedge : ∀ {x y}, y ∈ callGraph m x → Calls m x y := fun {x y} hy => by
    rw [← edge_callGraph]
    exact hy
  have hnext : ∀ x ∈ (graphNames m).toFinset, ∀ y ∈ callGraph m x, y ∈ (graphNames m).toFinset :=
    fun x _ y hy => List.mem_toFinset.mpr (mem_graphNames_of_calls (hedge hy))
  have hfuel : (graphNames m).toFinset.card < (graphNames m).length + 1 :=
    Nat.lt_succ_of_le (List.toFinset_card_le _)
  have hroots : ∀ a ∈ m.functions.map HIRFunction.name, a ∈ (graphNames m).toFinset :=
    fun a ha => List.mem_toFinset.mpr (List.mem_append_left _ ha)
  obtain ⟨recursive, heq, -, hright, hmem⟩ := markAll_spec hnext hfuel hroots []
  refine ⟨recursive, heq, fun name => ?_⟩
  rw [← reachesCycle_callGraph]
  refine ⟨fun h => (hright name h).resolve_left List.not_mem_nil, fun h => hmem name ?_ h⟩
  -- only functions of the module have calls
  obtain ⟨b, hb, -⟩ := reachesCycle_iff.mp h
  obtain ⟨f, hf, rfl, -⟩ := hedge hb
  exact List.mem_map_of_mem hf

theorem mem_recursiveFunctions :
    a ∈ (analyzeCallGraph m).recursiveFunctions ↔ Recursive m a := by
  obtain ⟨recursive, heq, hmem⟩ := exists_detectRecursion m
  rw [analyzeCallGraph, heq]
  exact hmem a

/-- How many functions are reached. -/
noncomputable def height (m : HIRModule) (name : String) : ℕ :=
  open scoped Classical in
  ((graphNames m).toFinset.filter (TransGen (Calls m) name)).card

/-- A function that reaches no cycle reaches more than those it reaches. -/
theorem height_lt (ha : ¬Recursive m a) (hab : TransGen (Calls m) a b) :
    height m b < height m a := by
  classical
  obtain ⟨c, -, hcb⟩ := TransGen.tail'_iff.mp hab
  have hb : b ∈ (graphNames m).toFinset.filter (TransGen (Calls m) a) :=
    Finset.mem_filter.mpr ⟨List.mem_toFinset.mpr (mem_graphNames_of_calls hcb), hab⟩
  have hnot : b ∉ (graphNames m).toFinset.filter (TransGen (Calls m) b) := fun h =>
    ha ⟨b, hab.to_reflTransGen, (Finset.mem_filter.mp h).2⟩
  refine Finset.card_lt_card (Finset.ssubset_iff_subset_ne.mpr ⟨fun x hx => ?_, fun heq => ?_⟩)
  · rw [Finset.mem_filter] at hx ⊢
    exact ⟨hx.1, hab.trans hx.2⟩
  · exact hnot (heq ▸ hb)

end Graph

/-! ### What a clone calls -/

section Clone

variable {alloc : ℕ → ℕ} {i : HIRInstruction}

/-- The called function is read off the opcode and the first operand. -/
theorem calledName_congr {i j : HIRInstruction} {g : HIROperand → HIROperand}
    (hopcode : j.opcode = i.opcode) (hoperands : j.operands = i.operands.map g)
    (hg : ∀ o name, g o = .str name ↔ o = .str name) : calledName j = calledName i := by
  rw [calledName, calledName, hopcode, hoperands]
  rcases hi : i.operands with _ | ⟨o, rest⟩
  · rfl
  · rw [List.map_cons]
    split_ifs
    · cases ho : o with
      | str name => rw [(hg _ name).mpr rfl]
      | _ =>
        split
        · next heq =>
          have hhead := (List.cons.inj heq).1
          rw [hg] at hhead
          cases hhead
        · rfl
    · rfl

@[simp]
theorem calledName_replaceUses (old new : HIRValue) (i : HIRInstruction) :
    calledName (replaceUses old new i) = calledName i := by
  refine calledName_congr rfl rfl fun o name => ?_
  cases o <;> simp

@[simp]
theorem calledName_cloneInstruction (st : CloneState) :
    calledName (cloneInstruction alloc i st).1 = calledName i := by
  refine @calledName_congr _ _ (cloneInstruction alloc i st).2.remapOperand rfl rfl fun o name => ?_
  cases o <;> simp [CloneState.remapOperand]

theorem calledNames_cloneBlock (insts : List HIRInstruction) (st : CloneState) :
    (cloneBlock alloc insts st).1.filterMap calledName = insts.filterMap calledName := by
  induction insts generalizing st with
  | nil => rfl
  | cons i rest ih =>
    rw [cloneBlock, List.filterMap_cons, List.filterMap_cons, ih, calledName_cloneInstruction]

/-- The undefined values call nothing. -/
theorem calledNames_mapParams (args : List (Option HIRValue))
    (params : List (String × Option HIRTypeKind)) (k : ℕ) (st : CloneState) :
    (mapParams alloc args k params st).1.filterMap calledName = [] := by
  induction params generalizing k st with
  | nil => rfl
  | cons p rest ih =>
    rw [mapParams]
    split
    · exact ih _ _
    · rw [List.filterMap_cons, ih]
      rfl

/-- A clone calls what the first block of the callee calls. -/
theorem calledNames_cloneInstructions (callee : HIRFunction) (args : List (Option HIRValue))
    (st : CloneState) :
    ((cloneInstructions alloc callee args st).1.filterMap calledName).Sublist
      (calledNames callee) := by
  rw [cloneInstructions, calledNames, HIRFunction.instructions]
  rcases callee.blocks with _ | ⟨block, rest⟩
  · exact List.Sublist.refl _
  · dsimp only
    rw [List.filterMap_append, calledNames_mapParams, calledNames_cloneBlock, List.nil_append,
      List.flatMap_cons, List.filterMap_append]
    exact List.sublist_append_left _ _

/-- The instructions of the blocks after a splice. -/
theorem flatMap_splice (new : List HIRInstruction) {k : ℕ} {blocks : List HIRBlock}
    (hk : k < (blocks.flatMap HIRBlock.instructions).length) :
    (splice new k blocks).flatMap HIRBlock.instructions =
      (blocks.flatMap HIRBlock.instructions).take k ++ new ++
        (blocks.flatMap HIRBlock.instructions).drop (k + 1) := by
  induction blocks generalizing k with
  | nil => exact absurd hk (Nat.not_lt_zero _)
  | cons b rest ih =>
    rw [List.flatMap_cons, List.length_append] at hk
    rw [splice, List.flatMap_cons]
    split_ifs with hlt
    · rw [List.flatMap_cons, List.take_append_of_le_length hlt.le,
        List.drop_append_of_le_length hlt]
      simp only [List.append_assoc]
    · rw [List.flatMap_cons, ih (by omega), List.take_append, List.drop_append,
        List.take_of_length_le (show b.instructions.length ≤ k by omega),
        List.drop_of_length_le (show b.instructions.length ≤ k + 1 by omega),
        show k + 1 - b.instructions.length = k - b.instructions.length + 1 by omega]
      simp only [List.append_assoc, List.nil_append]

end Clone

/-! ### One call -/

section Call

variable {alloc : ℕ → ℕ}

theorem mapParams_name (args : List (Option HIRValue)) (params : List (String × Option HIRTypeKind))
    (k : ℕ) (st : CloneState) :
    (mapParams alloc args k params st).2.caller.name = st.caller.name := by
  induction params generalizing k st with
  | nil => rfl
  | cons p rest ih =>
    rw [mapParams]
    split
    · exact ih _ _
    · exact ih _ _

theorem cloneInstruction_name (i : HIRInstruction) (st : CloneState) :
    (cloneInstruction alloc i st).2.caller.name = st.caller.name := by
  rw [cloneInstruction]
  rcases i.result with _ | old <;> rfl

theorem cloneBlock_name (insts : List HIRInstruction) (st : CloneState) :
    (cloneBlock alloc insts st).2.caller.name = st.caller.name := by
  induction insts generalizing st with
  | nil => rfl
  | cons i rest ih => exact (ih _).trans (cloneInstruction_name i st)

theorem cloneInstructions_name (callee : HIRFunction) (args : List (Option HIRValue))
    (st : CloneState) :
    (cloneInstructions alloc callee args st).2.caller.name = st.caller.name := by
  rw [cloneInstructions]
  rcases callee.blocks with _ | ⟨block, rest⟩
  · rfl
  · exact (cloneBlock_name _ _).trans (mapParams_name _ _ _ _)

/-- What inlining a call makes of the instructions of the caller. -/
structure Inlined (caller caller' callee : HIRFunction) (k : ℕ) : Prop where
  name : caller'.name = caller.name
  instructions : ∃ (rename : HIRInstruction → HIRInstruction) (body : List HIRInstruction),
    (∀ i, calledName (rename i) = calledName i) ∧
    (body.filterMap calledName).Sublist (calledNames callee) ∧
    caller'.instructions = (caller.instructions.map rename).take k ++ body ++
      (caller.instructions.map rename).drop (k + 1)

theorem inlined_inlineCall {caller : HIRFunction} {k : ℕ} (hk : k < caller.instructions.length)
    (callInst : HIRInstruction) (callee : HIRFunction) (allocated : ℕ) :
    Inlined caller (inlineCall alloc caller k callInst callee allocated).1 callee k := by
  unfold inlineCall
  extract_lets args
  have hname := @cloneInstructions_name alloc callee args ⟨caller, allocated, []⟩
  have hcalls := @calledNames_cloneInstructions alloc callee args ⟨caller, allocated, []⟩
  generalize cloneInstructions alloc callee args ⟨caller, allocated, []⟩ = cloned at hname hcalls ⊢
  obtain ⟨insts, st⟩ := cloned
  refine ⟨hname, ?_⟩
  have hbody : ((insts.filter fun i => i.opcode ≠ .ret ∧ i.opcode ≠ .returnVoid).filterMap
      calledName).Sublist (calledNames callee) :=
    (List.Sublist.filterMap _ List.filter_sublist).trans hcalls
  dsimp only
  split
  · next old new _ _ =>
    refine ⟨replaceUses old new, _, calledName_replaceUses old new, hbody, ?_⟩
    have hflat : (caller.blocks.map fun b =>
        { b with instructions := b.instructions.map (replaceUses old new) }).flatMap
          HIRBlock.instructions = caller.instructions.map (replaceUses old new) := by
      rw [HIRFunction.instructions, List.flatMap_map, List.map_flatMap]
    rw [HIRFunction.instructions, flatMap_splice _ (by rwa [hflat, List.length_map]), hflat]
  · refine ⟨id, _, fun _ => rfl, hbody, ?_⟩
    rw [List.map_id]
    exact flatMap_splice _ hk

namespace Inlined

variable {caller caller' callee : HIRFunction} {k : ℕ}

/-- The calls of the caller: the one inlined gives way to calls of the callee. -/
theorem calledNames_eq (h : Inlined caller caller' callee k) {callInst : HIRInstruction}
    {name : String} (hk : caller.instructions[k]? = some callInst)
    (hname : calledName callInst = some name) :
    ∃ before new after, new.Sublist (calledNames callee) ∧
      calledNames caller = before ++ name :: after ∧ calledNames caller' = before ++ new ++ after := by
  obtain ⟨rename, body, hrename, hbody, heq⟩ := h.instructions
  have hcalls : ∀ l : List HIRInstruction,
      (l.map rename).filterMap calledName = l.filterMap calledName := fun l => by
    rw [List.filterMap_map]
    exact List.filterMap_congr fun i _ => hrename i
  obtain ⟨hlt, hget⟩ := List.getElem?_eq_some_iff.mp hk
  refine ⟨(caller.instructions.take k).filterMap calledName, body.filterMap calledName,
    (caller.instructions.drop (k + 1)).filterMap calledName, hbody, ?_, ?_⟩
  · have hsplit : caller.instructions =
        caller.instructions.take k ++ callInst :: caller.instructions.drop (k + 1) := by
      rw [← hget, List.getElem_cons_drop, List.take_append_drop]
    rw [calledNames]
    conv_lhs => rw [hsplit]
    rw [List.filterMap_append, List.filterMap_cons, hname]
  · rw [calledNames, heq, List.filterMap_append, List.filterMap_append, ← List.map_take,
      ← List.map_drop, hcalls, hcalls]

/-- The calls before it stay in their places. -/
theorem calledName_getElem? (h : Inlined caller caller' callee k)
    (hk : k < caller.instructions.length) {j : ℕ} (hj : j < k) :
    caller'.instructions[j]?.bind calledName = caller.instructions[j]?.bind calledName := by
  obtain ⟨rename, body, hrename, -, heq⟩ := h.instructions
  rw [heq, List.append_assoc, List.getElem?_append_left (by simp; omega), List.getElem?_take,
    if_pos hj, List.getElem?_map]
  rcases caller.instructions[j]? with _ | i
  · rfl
  · exact hrename i

end Inlined

end Call

/-! ### The invariant of the rounds -/

section Rounds

variable {alloc : ℕ → ℕ} {cfg : Config} {m : HIRModule} {p p' p'' : Progress}

/-- What a function calls it reached before the pass, and what has been inlined it called. -/
structure Sound (m : HIRModule) (p : Progress) : Prop where
  calls : ∀ f ∈ p.module.functions, ∀ name ∈ calledNames f, TransGen (Calls m) f.name name
  inlined : ∀ x ∈ p.inlined, TransGen (Calls m) x.1 x.2 ∧ ¬Recursive m x.2

/-- The heights of the calls that may be inlined. -/
noncomputable def weight (m : HIRModule) (p : Progress) : Multiset ℕ :=
  open scoped Classical in
  ((p.module.functions.flatMap calledNames).filter (¬Recursive m ·)).map (height m)

/-- Nothing has changed, or calls have been inlined and less is left to inline. -/
def Advances (m : HIRModule) (p p' : Progress) : Prop :=
  p' = p ∨ (p.inlined.length < p'.inlined.length ∧
    (weight m p').IsDershowitzMannaLT (weight m p))

theorem Advances.refl (p : Progress) : Advances m p p := .inl rfl

theorem Advances.trans (h : Advances m p p') (h' : Advances m p' p'') : Advances m p p'' := by
  obtain rfl | ⟨hlen, hlt⟩ := h
  · exact h'
  · obtain rfl | ⟨hlen', hlt'⟩ := h'
    · exact .inr ⟨hlen, hlt⟩
    · exact .inr ⟨hlen.trans hlen', hlt'.trans hlt⟩

/-- The function that an instruction calls. -/
def nameAt (p : Progress) (i k : ℕ) : Option String :=
  p.module.functions[i]?.bind fun f => f.instructions[k]?.bind calledName

theorem findFunction_spec {name : String} {f : HIRFunction}
    (h : findFunction m name = some f) : f ∈ m.functions ∧ f.name = name :=
  ⟨List.mem_of_find?_eq_some h, of_decide_eq_true (List.find?_some h :)⟩

/-- One call that gives way to calls of lower height. -/
theorem weight_lt {l r before new after : List String} {name : String} {q q' : Progress}
    (hq : q.module.functions.flatMap calledNames = l ++ (before ++ name :: after) ++ r)
    (hq' : q'.module.functions.flatMap calledNames = l ++ (before ++ new ++ after) ++ r)
    (hname : ¬Recursive m name) (hnew : ∀ c ∈ new, TransGen (Calls m) name c) :
    (weight m q').IsDershowitzMannaLT (weight m q) := by
  classical
  set heights : List String → Multiset ℕ := fun names =>
    ((names.filter (¬Recursive m ·)).map (height m) : List ℕ)
  have happend : ∀ x y, heights (x ++ y) = heights x + heights y := fun x y => by
    simp only [heights, List.filter_append, List.map_append, Multiset.coe_add]
  have hcons : heights (name :: after) = {height m name} + heights after := by
    simp only [heights]
    rw [List.filter_cons_of_pos (by simpa using hname), List.map_cons]
    rfl
  refine ⟨heights l + heights before + heights after + heights r, heights new, {height m name},
    Multiset.singleton_ne_zero _, ?_, ?_, fun y hy => ⟨_, Multiset.mem_singleton_self _, ?_⟩⟩
  · change heights _ = _
    rw [hq', happend, happend, happend, happend]
    abel
  · change heights _ = _
    rw [hq, happend, happend, happend, hcons]
    abel
  · obtain ⟨c, hc, rfl⟩ := List.mem_map.mp (Multiset.mem_coe.mp hy)
    exact height_lt hname (hnew c (List.mem_of_mem_filter hc))

/-- **One call.** Where the call at this place is not recursive, inlining it keeps the invariant and
leaves less to inline. The calls before it stay. -/
theorem inlineAt_spec (hs : Sound m p) {i k : ℕ}
    (hk : ∀ name, nameAt p i k = some name → ¬Recursive m name) :
    Sound m (inlineAt alloc i p k) ∧ Advances m p (inlineAt alloc i p k) ∧
      ∀ j < k, nameAt (inlineAt alloc i p k) i j = nameAt p i j := by
  rw [inlineAt]
  rcases hfunc : p.module.functions[i]? with _ | func
  · exact ⟨hs, .refl p, fun _ _ => rfl⟩
  dsimp only
  split
  · next callInst callee hinst hcallee =>
    obtain ⟨name, hname, hfind⟩ := Option.bind_eq_some_iff.mp hcallee
    obtain ⟨hmem, hcalleeName⟩ := findFunction_spec hfind
    have hcalled : calledName callInst = some name := by rwa [hinst] at hname
    have hnot : ¬Recursive m name := hk name (by rw [nameAt, hfunc]; exact hname)
    obtain ⟨hi, hget⟩ := List.getElem?_eq_some_iff.mp hfunc
    obtain ⟨hlt, -⟩ := List.getElem?_eq_some_iff.mp hinst
    have hfuncMem : func ∈ p.module.functions := List.mem_of_getElem? hfunc
    have hcall := @inlined_inlineCall alloc func k hlt callInst callee p.allocated
    obtain ⟨before, new, after, hsub, hold, hnew⟩ := hcall.calledNames_eq hinst hcalled
    set func' := (inlineCall alloc func k callInst callee p.allocated).1
    -- what the callee calls, the caller reaches through it
    have hreach : TransGen (Calls m) func.name name :=
      hs.calls func hfuncMem name (by rw [hold]; simp)
    have hbelow : ∀ c ∈ new, TransGen (Calls m) name c := fun c hc =>
      hcalleeName ▸ hs.calls callee hmem c (hsub.subset hc)
    have hsplit : p.module.functions =
        p.module.functions.take i ++ func :: p.module.functions.drop (i + 1) := by
      rw [← hget, List.getElem_cons_drop, List.take_append_drop]
    have hset : p.module.functions.set i func' =
        p.module.functions.take i ++ func' :: p.module.functions.drop (i + 1) :=
      List.set_eq_take_append_cons_drop.trans (if_pos hi)
    refine ⟨⟨fun f hf c hc => ?_, fun x hx => ?_⟩, .inr ⟨?_, ?_⟩, fun j hj => ?_⟩
    · obtain hf | rfl := List.mem_or_eq_of_mem_set hf
      · exact hs.calls f hf c hc
      · rw [hcall.name]
        rw [hnew] at hc
        obtain hc | hc := List.mem_append.mp hc
        · obtain hc | hc := List.mem_append.mp hc
          · exact hs.calls func hfuncMem c (by rw [hold]; exact List.mem_append_left _ hc)
          · exact hreach.trans (hbelow c hc)
        · refine hs.calls func hfuncMem c ?_
          rw [hold]
          exact List.mem_append_right _ (List.mem_cons_of_mem _ hc)
    · obtain hx | hx := List.mem_append.mp hx
      · exact hs.inlined x hx
      · obtain rfl := List.mem_singleton.mp hx
        rw [hcalleeName]
        exact ⟨hreach, hnot⟩
    · rw [List.length_append]
      exact Nat.lt_succ_self _
    · have hcallsOld : p.module.functions.flatMap calledNames =
          (p.module.functions.take i).flatMap calledNames ++ (before ++ name :: after) ++
            (p.module.functions.drop (i + 1)).flatMap calledNames := by
        conv_lhs => rw [hsplit]
        rw [List.flatMap_append, List.flatMap_cons, hold, ← List.append_assoc]
      have hcallsNew : (p.module.functions.set i func').flatMap calledNames =
          (p.module.functions.take i).flatMap calledNames ++ (before ++ new ++ after) ++
            (p.module.functions.drop (i + 1)).flatMap calledNames := by
        rw [hset, List.flatMap_append, List.flatMap_cons, hnew, ← List.append_assoc]
      exact weight_lt hcallsOld hcallsNew hnot hbelow
    · rw [nameAt, nameAt, hfunc, List.getElem?_set_self hi]
      exact hcall.calledName_getElem? hlt hj
  · exact ⟨hs, .refl p, fun _ _ => rfl⟩

theorem inlineCalls_spec (hs : Sound m p) {i : ℕ} {places : List ℕ}
    (hsorted : places.Pairwise (· > ·))
    (hplaces : ∀ k ∈ places, ∀ name, nameAt p i k = some name → ¬Recursive m name) :
    Sound m (places.foldl (inlineAt alloc i) p) ∧
      Advances m p (places.foldl (inlineAt alloc i) p) := by
  induction places generalizing p with
  | nil => exact ⟨hs, .refl p⟩
  | cons k rest ih =>
    obtain ⟨hbelow, hrest⟩ := List.pairwise_cons.mp hsorted
    obtain ⟨hs', hadv, hstay⟩ :=
      @inlineAt_spec alloc m p hs i k (hplaces k List.mem_cons_self)
    obtain ⟨hs'', hadv'⟩ := ih hs' hrest fun j hj name hname => by
      rw [hstay j (hbelow j hj)] at hname
      exact hplaces j (List.mem_cons_of_mem _ hj) name hname
    exact ⟨hs'', hadv.trans hadv'⟩

/-- A call that is to be inlined is not recursive. -/
theorem not_recursive_of_mem_callsToInline {i k : ℕ} {func : HIRFunction}
    (hfunc : p.module.functions[i]? = some func)
    (hk : k ∈ callsToInline cfg (analyzeCallGraph m) p.module func) {name : String}
    (hname : nameAt p i k = some name) : ¬Recursive m name := by
  obtain ⟨-, hjudged⟩ := List.mem_filter.mp hk
  obtain ⟨callee, hcallee, hshould⟩ : ∃ callee, calleeAt p.module func k = some callee ∧
      shouldInline cfg (analyzeCallGraph m) callee = true := by
    rcases hcallee : calleeAt p.module func k with _ | callee
    · rw [hcallee] at hjudged
      cases hjudged
    · rw [hcallee] at hjudged
      exact ⟨callee, rfl, hjudged⟩
  obtain ⟨name', hname', hfind⟩ := Option.bind_eq_some_iff.mp hcallee
  rw [nameAt, hfunc] at hname
  obtain rfl := Option.some.inj (hname'.symm.trans hname)
  rw [← (findFunction_spec hfind).2, ← mem_recursiveFunctions]
  intro hmem
  rw [shouldInline, if_pos hmem] at hshould
  exact Bool.false_ne_true hshould

theorem inlineInto_spec (hs : Sound m p) (i : ℕ) :
    Sound m (inlineInto alloc cfg (analyzeCallGraph m) p i) ∧
      Advances m p (inlineInto alloc cfg (analyzeCallGraph m) p i) := by
  rw [inlineInto]
  rcases hfunc : p.module.functions[i]? with _ | func
  · exact ⟨hs, .refl p⟩
  · refine inlineCalls_spec hs ?_ fun k hk name hname => ?_
    · rw [List.pairwise_reverse]
      exact List.Pairwise.filter _ List.pairwise_lt_range
    · exact not_recursive_of_mem_callsToInline hfunc (List.mem_reverse.mp hk) hname

/-- **One round** keeps the invariant, and leaves less to inline if it has inlined a call. -/
theorem inlineRound_spec (hs : Sound m p) :
    Sound m (inlineRound alloc cfg (analyzeCallGraph m) p) ∧
      Advances m p (inlineRound alloc cfg (analyzeCallGraph m) p) := by
  rw [inlineRound]
  generalize List.range p.module.functions.length = indices
  induction indices generalizing p with
  | nil => exact ⟨hs, .refl p⟩
  | cons i rest ih =>
    obtain ⟨hs', hadv⟩ := @inlineInto_spec alloc cfg m p hs i
    obtain ⟨hs'', hadv'⟩ := ih hs'
    exact ⟨hs'', hadv.trans hadv'⟩

theorem sound_iterate (hs : Sound m p) (n : ℕ) :
    Sound m ((inlineRound alloc cfg (analyzeCallGraph m))^[n] p) := by
  induction n generalizing p with
  | zero => exact hs
  | succ n ih => exact ih (inlineRound_spec hs).1

/-- **The rounds end**: some round inlines nothing. -/
theorem exists_round_same (hs : Sound m p) : ∃ n,
    (inlineRound alloc cfg (analyzeCallGraph m))^[n + 1] p =
      (inlineRound alloc cfg (analyzeCallGraph m))^[n] p := by
  obtain ⟨w, hw⟩ : ∃ w, w = weight m p := ⟨_, rfl⟩
  have hwf : WellFounded fun a b : Multiset ℕ => a.IsDershowitzMannaLT b :=
    Multiset.wellFounded_isDershowitzMannaLT
  induction w using hwf.induction generalizing p with
  | _ w ih =>
    obtain ⟨hs', hsame | ⟨-, hlt⟩⟩ := @inlineRound_spec alloc cfg m p hs
    · exact ⟨0, hsame⟩
    · obtain ⟨n, hn⟩ := ih _ (hw ▸ hlt) hs' rfl
      exact ⟨n + 1, hn⟩

theorem sound_start (m : HIRModule) : Sound m ⟨m, 0, []⟩ :=
  ⟨fun _ hf _ hc => .single (calls_of_mem hf hc), fun _ hx => absurd hx List.not_mem_nil⟩

/-- The functions inlined into each other form no cycle. -/
theorem Sound.acyclic (hs : Sound m p) (name : String) :
    ¬TransGen (fun a b => (a, b) ∈ p.inlined) name name := by
  intro h
  have hcalls : ∀ {a b}, TransGen (fun a b => (a, b) ∈ p.inlined) a b →
      TransGen (Calls m) a b ∧ ¬Recursive m b := fun {a b} h => by
    induction h with
    | single h => exact hs.inlined _ h
    | tail _ h ih =>
      have hlast := hs.inlined _ h
      exact ⟨ih.1.trans hlast.1, hlast.2⟩
  obtain ⟨hcycle, hnot⟩ := hcalls h
  exact hnot ⟨name, .refl, hcycle⟩

/-- The loop of the pass is a number of rounds. -/
theorem exists_inlineLoop_eq (an : Analysis) (bound : ℕ) (p : Progress) : ∃ n ≤ bound,
    inlineLoop alloc cfg an bound p = (inlineRound alloc cfg an)^[n] p := by
  induction bound generalizing p with
  | zero => exact ⟨0, le_rfl, rfl⟩
  | succ bound ih =>
    rw [inlineLoop]
    split_ifs
    · exact ⟨1, by omega, rfl⟩
    · obtain ⟨n, hn, heq⟩ := ih (inlineRound alloc cfg an p)
      exact ⟨n + 1, by omega, heq⟩

end Rounds

/-- **Recursion detection.** The search ends, and finds every function on a cycle of direct calls.
After any number of rounds, among them those of the pass, no function has been inlined into itself,
and the functions inlined into each other form no cycle. The rounds end without their bound. -/
theorem recursion_detected (m : HIRModule) (alloc : ℕ → ℕ) (cfg : Config) :
    (∃ recursive, detectRecursion m = some recursive ∧
      ∀ name, TransGen (Calls m) name name → name ∈ recursive) ∧
    (∀ n, ∀ name, ¬TransGen (fun a b =>
      (a, b) ∈ ((inlineRound alloc cfg (analyzeCallGraph m))^[n] ⟨m, 0, []⟩).inlined) name name) ∧
    (∃ n ≤ maxIterations,
      run alloc cfg m = (inlineRound alloc cfg (analyzeCallGraph m))^[n] ⟨m, 0, []⟩) ∧
    ∃ n, (inlineRound alloc cfg (analyzeCallGraph m))^[n + 1] ⟨m, 0, []⟩ =
      (inlineRound alloc cfg (analyzeCallGraph m))^[n] ⟨m, 0, []⟩ := by
  refine ⟨?_, fun n => (sound_iterate (sound_start m) n).acyclic, ?_,
    exists_round_same (sound_start m)⟩
  · obtain ⟨recursive, heq, hmem⟩ := exists_detectRecursion m
    exact ⟨recursive, heq, fun name h => (hmem name).mpr ⟨name, .refl, h⟩⟩
  · exact exists_inlineLoop_eq _ _ _

end Inlining

end TsAot
