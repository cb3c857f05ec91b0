import TsAot.Lib.StableSort

/-!
# Ordered multimaps

A list of pairs, read as a map with several values for a key: to set a key is to replace the first
of its pairs in its place and to remove the others, to sort is to sort stably by key.
-/

namespace TsAot

namespace Multimap

variable {κ ν : Type*} [LinearOrder κ]

/-- The pairs of the other keys. -/
def delete (l : List (κ × ν)) (k : κ) : List (κ × ν) := l.filter (·.1 ≠ k)

/-- The first pair of the key has the value, in its place, or a new one at the end. -/
def set (k : κ) (v : ν) : List (κ × ν) → List (κ × ν)
  | [] => [(k, v)]
  | p :: l => if p.1 = k then (k, v) :: delete l k else p :: set k v l

/-- The pairs in the order of their keys. -/
def sort (l : List (κ × ν)) : List (κ × ν) := l.mergeSort fun p q => p.1 ≤ q.1

/-- The value of the first pair of the key. -/
def get (l : List (κ × ν)) (k : κ) : Option ν := (l.find? (·.1 = k)).map Prod.snd

/-- The values of the key. -/
def getAll (l : List (κ × ν)) (k : κ) : List ν := (l.filter (·.1 = k)).map Prod.snd

/-- There is a pair of the key. -/
def has (l : List (κ × ν)) (k : κ) : Bool := l.any (·.1 = k)

variable {l : List (κ × ν)} {k : κ} {v : ν}

/-- A stable sort of entries is the sort of what they are read as. -/
theorem map_eq_sort {α : Type*} {f : α → κ × ν} {es es' : List α}
    (h : StableSort.IsStableSort (fun e => (f e).1) es es') : es'.map f = sort (es.map f) := by
  refine StableSort.IsStableSort.eq ⟨h.perm.map f, ?_, fun k => ?_⟩
    (StableSort.isStableSort_mergeSort Prod.fst (es.map f))
  · exact List.pairwise_map.mpr h.sorted
  · rw [List.filter_map, List.filter_map]
    exact congrArg (List.map f) (h.stable k)

/-- To remove the pairs and put the new one at the end is the same where the pairs of the key are
the last ones. -/
theorem delete_append_iff : delete l k ++ [(k, v)] = set k v l ↔
    ∀ p ∈ l.dropWhile (·.1 ≠ k), p.1 = k := by
  induction l with
  | nil => simp [delete, set]
  | cons p l ih =>
    by_cases hp : p.1 = k
    · rw [set, if_pos hp, delete, List.filter_cons_of_neg (by simpa using hp),
        List.dropWhile_cons_of_neg (by simpa using hp), List.forall_mem_cons]
      constructor
      · intro h
        refine ⟨hp, fun q hq => by_contra fun hne => ?_⟩
        -- the first pair of another key would be the new one
        have hmem : q ∈ delete l k := List.mem_filter.mpr ⟨hq, by simpa using hne⟩
        obtain ⟨d, ds, hd⟩ := List.exists_cons_of_ne_nil (List.ne_nil_of_mem hmem)
        have hdk : d ∈ delete l k := by rw [hd]; exact List.mem_cons_self
        have hfirst := congrArg List.head? h
        rw [← delete, hd, List.cons_append, List.head?_cons, List.head?_cons,
          Option.some_inj] at hfirst
        simp [delete, hfirst] at hdk
      · rintro ⟨-, h⟩
        have hnil : delete l k = [] := List.filter_eq_nil_iff.mpr fun q hq => by simpa using h q hq
        rw [← delete, hnil, List.nil_append]
    · have hcons : delete (p :: l) k = p :: delete l k := List.filter_cons_of_pos (by simpa using hp)
      rw [set, if_neg hp, hcons, List.cons_append, List.cons_inj_right, ih,
        List.dropWhile_cons_of_pos (by simpa using hp)]

end Multimap

end TsAot
