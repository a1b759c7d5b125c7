import AlephNode.ClientState
import Mathlib.Tactic.Tauto

/-!
# The chain extension step

`chain_extension_step` walks from a proposed block towards the last finalized one. The
walk follows parent hashes downwards, so the number of its starting header bounds the
iterations. What it returns is a gapless path above the last finalized block.
-/
namespace AlephNode.ChainExtension
variable {Hash : Type} [DecidableEq Hash]

/-- The loop of `chain_extension_step`; `none` stands for a loop that has not ended after
`fuel` iterations. -/
def extensionLoop (client : HeaderStore Hash) (lastFinalized : Hash) (lastFinalizedNumber : ℕ) :
    ℕ → Hash → List (Header Hash) → Option (List (Header Hash))
  | 0, _, _ => none
  | fuel + 1, hash, extension =>
    match client.header hash with
    | none => some []
    | some header =>
      if header.number ≤ lastFinalizedNumber then
        -- at or below the finalized height the walk stops, on the finalized chain or not
        if hash ≠ lastFinalized then some [] else some extension
      else
        extensionLoop client lastFinalized lastFinalizedNumber fuel header.parentHash
          (header :: extension)

def chainExtensionStep (client : HeaderStore Hash) (lastFinalized : Hash)
    (newData : AlephData Hash) : List (Header Hash) :=
  if newData.hash = lastFinalized then []
  else
    match client.number lastFinalized with
    | none => []
    | some lastFinalizedNumber =>
      match client.header newData.hash with
      | none => []
      | some header =>
        if header.number ≠ newData.number then []
        else (extensionLoop client lastFinalized lastFinalizedNumber (header.number + 1)
          newData.hash []).getD []

/-- The loop ends: the number of the current header decreases in every iteration. -/
theorem extensionLoop_ends (client : HeaderStore Hash) (last : Hash) (lastNumber : ℕ)
    {fuel : ℕ} {hash : Hash} {header : Header Hash} (hknown : client.header hash = some header)
    (hfuel : header.number < fuel) (extension : List (Header Hash)) :
    ∃ result, extensionLoop client last lastNumber fuel hash extension = some result := by
  induction fuel generalizing hash header extension with
  | zero => omega
  | succ fuel ih =>
    simp only [extensionLoop, hknown]
    split
    · split <;> exact ⟨_, rfl⟩
    · cases hparent : client.header header.parentHash with
      | none =>
        cases fuel with
        | zero => omega
        | succ fuel => exact ⟨[], by simp [extensionLoop, hparent]⟩
      | some parent =>
        have hnumber := client.number_eq _ _ _ hknown hparent
        exact ih hparent (by omega) _

/-- Headers of the store, each the child of the one before it, the first a child of `base`. -/
def IsPathFrom (client : HeaderStore Hash) : Hash → List (Header Hash) → Prop
  | _, [] => True
  | base, header :: rest =>
    client.header header.hash = some header ∧ header.parentHash = base ∧
      IsPathFrom client header.hash rest

/-- The loop extends a path downwards until its lower end is the finalized block. -/
theorem extensionLoop_path (client : HeaderStore Hash) (last : Hash) (lastNumber : ℕ)
    {fuel : ℕ} {hash : Hash} {extension result : List (Header Hash)}
    (h : extensionLoop client last lastNumber fuel hash extension = some result)
    (hpath : IsPathFrom client hash extension) (habove : ∀ hd ∈ extension, lastNumber < hd.number) :
    IsPathFrom client last result ∧ ∀ hd ∈ result, lastNumber < hd.number := by
  induction fuel generalizing hash extension with
  | zero => simp [extensionLoop] at h
  | succ fuel ih =>
    cases hknown : client.header hash with
    | none =>
      simp only [extensionLoop, hknown, Option.some.injEq] at h
      subst h
      exact ⟨trivial, by simp⟩
    | some header =>
      simp only [extensionLoop, hknown] at h
      by_cases hle : header.number ≤ lastNumber
      · simp only [hle, if_true] at h
        by_cases hlast : hash = last
        · simp only [hlast, ne_eq, not_true_eq_false, if_false, Option.some.injEq] at h
          subst h hlast
          exact ⟨hpath, habove⟩
        · simp only [ne_eq, hlast, not_false_eq_true, if_true, Option.some.injEq] at h
          subst h
          exact ⟨trivial, by simp⟩
      · simp only [hle, if_false] at h
        have hhash := client.hash_eq _ _ hknown
        apply ih h
        · exact ⟨by rw [hhash]; exact hknown, rfl, by rw [hhash]; exact hpath⟩
        · intro hd hmem
          rcases List.mem_cons.mp hmem with rfl | hmem
          · omega
          · exact habove hd hmem

/-- Whatever the proposed data, the result is a path of known headers that starts at a
child of the last finalized block. -/
theorem chainExtensionStep_path (client : HeaderStore Hash) (last : Hash)
    (newData : AlephData Hash) :
    IsPathFrom client last (chainExtensionStep client last newData) ∧
      ∀ hd ∈ chainExtensionStep client last newData,
        ∃ lastHeader, client.header last = some lastHeader ∧ lastHeader.number < hd.number := by
  unfold chainExtensionStep
  split
  · exact ⟨trivial, by simp⟩
  · cases hlast : client.header last with
    | none =>
      simp only [HeaderStore.number, hlast, Option.map_none]
      exact ⟨trivial, by simp⟩
    | some lastHeader =>
      simp only [HeaderStore.number, hlast, Option.map_some]
      split
      · exact ⟨trivial, by simp⟩
      · next header hknown =>
        split
        · exact ⟨trivial, by simp⟩
        · obtain ⟨result, hresult⟩ := extensionLoop_ends client last lastHeader.number hknown
            (Nat.lt_succ_self _) []
          rw [hresult, Option.getD_some]
          obtain ⟨hpath, habove⟩ := extensionLoop_path client last lastHeader.number hresult
            trivial (by simp)
          exact ⟨hpath, fun hd hmem => ⟨lastHeader, rfl, habove hd hmem⟩⟩

/-- The block at the end of a path from `base`. -/
def pathEnd (base : Hash) (path : List (Header Hash)) : Hash :=
  (path.getLast?.map Header.hash).getD base

omit [DecidableEq Hash]

@[simp] theorem pathEnd_nil (base : Hash) : pathEnd base [] = base := rfl

@[simp] theorem pathEnd_concat (base : Hash) (path : List (Header Hash)) (header : Header Hash) :
    pathEnd base (path ++ [header]) = header.hash := by
  simp [pathEnd]

theorem pathEnd_cons (base : Hash) (header : Header Hash) (path : List (Header Hash)) :
    pathEnd base (header :: path) = pathEnd header.hash path := by
  cases h : path.getLast? with
  | none => simp [pathEnd, h, List.getLast?_cons]
  | some last => simp [pathEnd, h, List.getLast?_cons]

theorem pathEnd_append (base : Hash) (path rest : List (Header Hash)) :
    pathEnd base (path ++ rest) = pathEnd (pathEnd base path) rest := by
  induction path generalizing base with
  | nil => rfl
  | cons header path ih => rw [List.cons_append, pathEnd_cons, pathEnd_cons, ih]

theorem isPathFrom_append {client : HeaderStore Hash} {base : Hash}
    {path rest : List (Header Hash)} : IsPathFrom client base (path ++ rest) ↔
      IsPathFrom client base path ∧ IsPathFrom client (pathEnd base path) rest := by
  induction path generalizing base with
  | nil => simp [IsPathFrom]
  | cons header path ih =>
    rw [List.cons_append, IsPathFrom, IsPathFrom, pathEnd_cons, ih]
    tauto

theorem IsPathFrom.known {client : HeaderStore Hash} {base : Hash} {path : List (Header Hash)}
    (h : IsPathFrom client base path) {header : Header Hash} (hmem : header ∈ path) :
    client.header header.hash = some header := by
  obtain ⟨before, after, rfl⟩ := List.append_of_mem hmem
  exact (isPathFrom_append.mp h).2.1

theorem IsPathFrom.increasing {client : HeaderStore Hash} {base : Hash} {path : List (Header Hash)}
    (h : IsPathFrom client base path) : path.Pairwise (fun hd hd' => hd.number < hd'.number) ∧
      ∀ baseHeader, client.header base = some baseHeader →
        ∀ hd ∈ path, baseHeader.number < hd.number := by
  induction path generalizing base with
  | nil => simp
  | cons header path ih =>
    obtain ⟨hheader, hparent, hrest⟩ := h
    obtain ⟨hpairwise, habove⟩ := ih hrest
    refine ⟨.cons (habove header hheader) hpairwise, ?_⟩
    intro baseHeader hbase hd hmem
    have hfirst := client.number_eq _ _ _ hheader (hparent ▸ hbase)
    rcases List.mem_cons.mp hmem with rfl | hmem
    · omega
    · have hlater := habove header hheader hd hmem
      omega

variable [DecidableEq Hash]

private theorem extensionLoop_of_path {client : HeaderStore Hash} {last : Hash}
    {lastHeader : Header Hash} (hlast : client.header last = some lastHeader)
    {path : List (Header Hash)} (hpath : IsPathFrom client last path) {fuel : ℕ}
    (hfuel : client.height (pathEnd last path) < fuel) (extension : List (Header Hash)) :
    extensionLoop client last lastHeader.number fuel (pathEnd last path) extension =
      some (path ++ extension) := by
  induction path using List.reverseRecOn generalizing fuel extension with
  | nil =>
    obtain ⟨fuel, rfl⟩ := Nat.exists_eq_succ_of_ne_zero (Nat.ne_zero_of_lt hfuel)
    simp [extensionLoop, hlast]
  | append_singleton path header ih =>
    obtain ⟨hinit, hheader, hparent, _⟩ := isPathFrom_append.mp hpath
    have habove := hpath.increasing.2 lastHeader hlast header (by simp)
    rw [pathEnd_concat, HeaderStore.height_eq hheader] at hfuel
    obtain ⟨fuel, rfl⟩ := Nat.exists_eq_succ_of_ne_zero (Nat.ne_zero_of_lt hfuel)
    rw [pathEnd_concat, extensionLoop]
    simp only [hheader, Nat.not_le.mpr habove, if_false]
    rw [hparent, ih hinit, List.append_assoc, List.singleton_append]
    -- the number of the parent is smaller
    cases hknown : client.header (pathEnd last path) with
    | none =>
      rw [HeaderStore.height, HeaderStore.number, hknown, Option.map_none, Option.getD_none]
      omega
    | some parent =>
      have hnumber := client.number_eq _ _ _ hheader (hparent ▸ hknown)
      rw [HeaderStore.height_eq hknown]
      omega

/-- If the proposed block descends from the last finalized one, the step returns the path
between them. -/
theorem chainExtensionStep_of_path {client : HeaderStore Hash} {last : Hash}
    {lastHeader : Header Hash} (hlast : client.header last = some lastHeader)
    {path : List (Header Hash)} (hpath : IsPathFrom client last path) {newData : AlephData Hash}
    (hend : newData.hash = pathEnd last path)
    (hnumber : client.number newData.hash = some newData.number) :
    chainExtensionStep client last newData = path := by
  induction path using List.reverseRecOn with
  | nil =>
    rw [pathEnd_nil] at hend
    rw [chainExtensionStep, if_pos hend]
  | append_singleton path header _ =>
    rw [pathEnd_concat] at hend
    obtain ⟨_, hheader, _, _⟩ := isPathFrom_append.mp hpath
    have habove := hpath.increasing.2 lastHeader hlast header (by simp)
    have hne : newData.hash ≠ last := by
      intro he
      rw [hend] at he
      rw [he, hlast, Option.some.injEq] at hheader
      rw [hheader] at habove
      exact Nat.lt_irrefl _ habove
    rw [hend, HeaderStore.number, hheader, Option.map_some, Option.some.injEq] at hnumber
    have hfuel : client.height (pathEnd last (path ++ [header])) < newData.number + 1 := by
      rw [pathEnd_concat, HeaderStore.height_eq hheader, hnumber]
      exact Nat.lt_succ_self _
    have hloop := extensionLoop_of_path hlast hpath hfuel []
    rw [pathEnd_concat, List.append_nil] at hloop
    rw [hend] at hne
    simp [chainExtensionStep, hne, HeaderStore.number, hlast, hend, hheader, hnumber, hloop]

private theorem extensionLoop_suffix {client : HeaderStore Hash} {last : Hash} {lastNumber : ℕ}
    {fuel : ℕ} {hash : Hash} {extension result : List (Header Hash)}
    (h : extensionLoop client last lastNumber fuel hash extension = some result) :
    result = [] ∨ extension <:+ result := by
  induction fuel generalizing hash extension with
  | zero => cases h
  | succ fuel ih =>
    simp only [extensionLoop] at h
    split at h
    · cases h
      exact .inl rfl
    · next header hheader =>
      split_ifs at h
      · cases h
        exact .inl rfl
      · cases h
        exact .inr (List.suffix_refl _)
      · obtain hnil | hsuffix := ih h
        · exact .inl hnil
        · exact .inr ((List.suffix_cons _ _).trans hsuffix)

/-- A path that the step returns ends at the proposed block, whose number is right. -/
theorem chainExtensionStep_end {client : HeaderStore Hash} {last : Hash} {newData : AlephData Hash}
    (hne : chainExtensionStep client last newData ≠ []) :
    newData.hash = pathEnd last (chainExtensionStep client last newData) ∧
      client.number newData.hash = some newData.number := by
  by_cases hsame : newData.hash = last
  · simp [chainExtensionStep, hsame] at hne
  cases hlast : client.header last with
  | none => simp [chainExtensionStep, hsame, HeaderStore.number, hlast] at hne
  | some lastHeader =>
    cases hheader : client.header newData.hash with
    | none => simp [chainExtensionStep, hsame, HeaderStore.number, hlast, hheader] at hne
    | some header =>
      by_cases hnumber : header.number = newData.number
      · refine ⟨?_, by rw [HeaderStore.number, hheader, Option.map_some, hnumber]⟩
        obtain ⟨result, hresult⟩ := extensionLoop_ends client last lastHeader.number hheader
          (Nat.lt_succ_self _) []
        have hstep : chainExtensionStep client last newData = result := by
          rw [hnumber] at hresult
          simp [chainExtensionStep, hsame, HeaderStore.number, hlast, hheader, hnumber, hresult]
        rw [hstep] at hne ⊢
        simp only [extensionLoop, hheader] at hresult
        split_ifs at hresult with hlow
        · simp only [Option.some.injEq] at hresult
          exact absurd hresult.symm hne
        · obtain hnil | ⟨init, hinit⟩ := extensionLoop_suffix hresult
          · exact absurd hnil hne
          · rw [← hinit, pathEnd_concat, client.hash_eq _ _ hheader]
      · simp [chainExtensionStep, hsame, HeaderStore.number, hlast, hheader, hnumber] at hne

end AlephNode.ChainExtension
