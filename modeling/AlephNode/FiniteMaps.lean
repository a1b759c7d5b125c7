import Mathlib.Data.Finmap

/-!
# Finite maps with the operations of a hash map

Mathlib's `Finmap` with constant value type, together with the in-place update and
the filter that hash maps offer. Every operation is characterized by its effect on
`lookup`, so that equality of maps is decided key by key.
-/
namespace AlephNode

abbrev FiniteMap (κ ν : Type*) := Finmap (fun _ : κ => ν)

/-- `l` lists the elements of `s`, each once: an order in which a loop over `s` may run. -/
def Enumerates {κ : Type*} (l : List κ) (s : Finset κ) : Prop :=
  l.Nodup ∧ ∀ k, k ∈ l ↔ k ∈ s

instance {κ : Type*} [DecidableEq κ] (l : List κ) (s : Finset κ) : Decidable (Enumerates l s) :=
  decidable_of_iff (l.Nodup ∧ l.toFinset = s) (by simp [Enumerates, Finset.ext_iff])

namespace FiniteMap
variable {κ ν : Type*} [DecidableEq κ]

theorem mem_keys_iff (m : FiniteMap κ ν) (k : κ) : k ∈ m.keys ↔ ∃ v, m.lookup k = some v := by
  rw [Finmap.mem_keys, ← Finmap.lookup_isSome, Option.isSome_iff_exists]

theorem lookup_insert (m : FiniteMap κ ν) (k k' : κ) (v : ν) :
    (m.insert k v).lookup k' = if k' = k then some v else m.lookup k' := by
  by_cases h : k' = k
  · subst h
    simp
  · simp [h, Finmap.lookup_insert_of_ne]

theorem lookup_erase (m : FiniteMap κ ν) (k k' : κ) :
    (m.erase k).lookup k' = if k' = k then none else m.lookup k' := by
  by_cases h : k' = k
  · subst h
    simp
  · simp [h, Finmap.lookup_erase_ne]

theorem erase_eq_self {m : FiniteMap κ ν} {k : κ} (h : m.lookup k = none) : m.erase k = m := by
  apply Finmap.ext_lookup
  intro k'
  rw [lookup_erase]
  split
  · next he => rw [he, h]
  · rfl

def modify (m : FiniteMap κ ν) (k : κ) (f : ν → ν) : FiniteMap κ ν :=
  match m.lookup k with
  | none => m
  | some v => m.insert k (f v)

theorem lookup_modify (m : FiniteMap κ ν) (k k' : κ) (f : ν → ν) :
    (m.modify k f).lookup k' = if k' = k then (m.lookup k').map f else m.lookup k' := by
  by_cases he : k' = k
  · subst he
    cases h : m.lookup k' with
    | none => simp [modify, h]
    | some v => simp [modify, h]
  · cases h : m.lookup k with
    | none => simp [modify, h, he]
    | some v => simp [modify, h, he, Finmap.lookup_insert_of_ne]

theorem modify_comm (m : FiniteMap κ ν) (k k' : κ) {f g : ν → ν} (h : ∀ v, f (g v) = g (f v)) :
    (m.modify k f).modify k' g = (m.modify k' g).modify k f := by
  apply Finmap.ext_lookup
  intro k''
  simp only [lookup_modify]
  split_ifs with hk' hk
  · simp [Function.comp_def, h]
  · rfl
  · rfl
  · rfl

private theorem lookup_foldl_modify_list {μ : Type*} (f : μ → ν → ν)
    {entries : List (Sigma fun _ : κ => μ)} (hnodup : entries.NodupKeys) (m : FiniteMap κ ν) (k : κ) :
    (entries.foldl (fun m e => m.modify e.1 (f e.2)) m).lookup k =
      (m.lookup k).map (fun v => (entries.dlookup k).elim v (f · v)) := by
  induction entries generalizing m with
  | nil => simp
  | cons e entries ih =>
    obtain ⟨k', a⟩ := e
    obtain ⟨hfresh, hrest⟩ := List.nodupKeys_cons.mp hnodup
    rw [List.foldl_cons, ih hrest, lookup_modify]
    by_cases hk : k = k'
    · subst hk
      have hnone : entries.dlookup k = none := List.dlookup_eq_none.mpr hfresh
      simp [hnone, Function.comp_def]
    · simp [hk]

/-- A loop over the entries of one map that changes the values at the same keys of another. -/
theorem lookup_foldl_modify {μ : Type*} (l : FiniteMap κ μ) (m : FiniteMap κ ν) (f : μ → ν → ν)
    (hcomm : ∀ m k a k' b, modify (modify m k (f a)) k' (f b) = modify (modify m k' (f b)) k (f a))
    (k : κ) :
    (l.foldl (fun m k a => m.modify k (f a)) hcomm m).lookup k =
      (m.lookup k).map (fun v => (l.lookup k).elim v (f · v)) := by
  induction l using Finmap.induction_on with
  | _ l => exact lookup_foldl_modify_list f l.nodupKeys m k

def retain (m : FiniteMap κ ν) (p : κ → ν → Bool) : FiniteMap κ ν where
  entries := m.entries.filter (fun e => p e.1 e.2)
  nodupKeys := Multiset.nodup_keys.mp <| Multiset.nodup_of_le
    (Multiset.map_le_map (Multiset.filter_le _ _)) (Multiset.nodup_keys.mpr m.nodupKeys)

theorem lookup_retain (m : FiniteMap κ ν) (p : κ → ν → Bool) (k : κ) :
    (m.retain p).lookup k = (m.lookup k).filter (p k) := by
  apply Option.ext
  intro v
  rw [Option.filter_eq_some_iff, ← Option.mem_def, Finmap.mem_lookup_iff]
  simp only [retain, Multiset.mem_filter]
  rw [← Finmap.mem_lookup_iff, Option.mem_def]

end FiniteMap
end AlephNode
