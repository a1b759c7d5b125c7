import AlephNode.ChainExtension

/-!
# The extension is the path

In a store whose numbers grow by one from parent to child, the way from a block to a
descendant is unique. `chain_extension_step` returns exactly this way, and nothing where
there is none.
-/
namespace AlephNode.ChainExtension
variable {Hash : Type} {client : HeaderStore Hash} {base block last : Hash}
  {header : Header Hash} {path : List (Header Hash)}

/-- The first block is an ancestor of the second, not the block itself. -/
abbrev ProperAncestor (client : HeaderStore Hash) : Hash → Hash → Prop :=
  Relation.TransGen client.IsParent

theorem ProperAncestor.mono {larger : HeaderStore Hash} (h : ProperAncestor client base block)
    (hsubset : client.Subset larger) : ProperAncestor larger base block := by
  have hparents : client.IsParent ≤ larger.IsParent := fun _ _ hparent => hparent.mono hsubset
  exact Relation.TransGen.mono hparents _ _ h

theorem ProperAncestor.height_lt (h : ProperAncestor client base block) :
    client.height base < client.height block := by
  induction h with
  | single hparent => exact hparent.height_lt
  | tail _ hparent ih => exact ih.trans hparent.height_lt

/-- Along the way to a descendant every header is the child of the one before it. -/
theorem exists_path_of_ancestor (h : AncestorOrEqual client.IsParent base block) :
    ∃ path, IsPathFrom client base path ∧ pathEnd base path = block := by
  induction h with
  | refl => exact ⟨[], trivial, rfl⟩
  | @tail parent child _ hparent ih =>
    obtain ⟨path, hpath, hend⟩ := ih
    obtain ⟨_, childHeader, _, hchild, hparentHash⟩ := hparent
    have hhash := client.hash_eq _ _ hchild
    refine ⟨path ++ [childHeader], ?_, ?_⟩
    · refine isPathFrom_append.mpr ⟨hpath, ?_, ?_, trivial⟩
      · rwa [hhash]
      · rw [hparentHash, hend]
    · rw [pathEnd_concat, hhash]

theorem ProperAncestor.exists_path (h : ProperAncestor client base block)
    (hheader : client.header block = some header) :
    ∃ before, IsPathFrom client base (before ++ [header]) := by
  obtain ⟨parent, hinit, hlast⟩ := Relation.TransGen.tail'_iff.mp h
  obtain ⟨before, hbefore, hend⟩ := exists_path_of_ancestor hinit
  obtain ⟨_, childHeader, _, hchild, hparentHash⟩ := hlast
  rw [hheader, Option.some.injEq] at hchild
  subst hchild
  refine ⟨before, isPathFrom_append.mpr ⟨hbefore, ?_, ?_, trivial⟩⟩
  · rwa [client.hash_eq _ _ hheader]
  · rw [hparentHash, hend]

/-- The block at the end of a path descends from the block where the path begins. -/
theorem IsPathFrom.ancestor_end {baseHeader : Header Hash} (h : IsPathFrom client base path)
    (hbase : client.header base = some baseHeader) :
    AncestorOrEqual client.IsParent base (pathEnd base path) := by
  induction path generalizing base baseHeader with
  | nil => exact .refl
  | cons header path ih =>
    obtain ⟨hheader, hparent, hrest⟩ := h
    rw [pathEnd_cons]
    exact .head ⟨baseHeader, header, hbase, hheader, hparent⟩ (ih hrest hheader)

theorem IsPathFrom.between {baseHeader : Header Hash} (h : IsPathFrom client base path)
    (hbase : client.header base = some baseHeader) (hmem : header ∈ path) :
    ProperAncestor client base header.hash ∧
      AncestorOrEqual client.IsParent header.hash (pathEnd base path) := by
  obtain ⟨before, after, rfl⟩ := List.append_of_mem hmem
  obtain ⟨hbefore, hheader, hparent, hafter⟩ := isPathFrom_append.mp h
  obtain ⟨parentHeader, hparentHeader⟩ :
      ∃ parentHeader, client.header (pathEnd base before) = some parentHeader := by
    cases before using List.reverseRecOn with
    | nil => exact ⟨baseHeader, hbase⟩
    | append_singleton before parentHeader =>
      rw [pathEnd_concat]
      exact ⟨parentHeader, hbefore.known (by simp)⟩
  have hlast : client.IsParent (pathEnd base before) header.hash :=
    ⟨parentHeader, header, hparentHeader, hheader, hparent⟩
  constructor
  · exact Relation.TransGen.tail' (hbefore.ancestor_end hbase) hlast
  · rw [pathEnd_append, pathEnd_cons]
    exact hafter.ancestor_end hheader

/-- The number of a block is the number of headers between it and an ancestor away. -/
theorem IsPathFrom.number_eq {baseHeader : Header Hash} (h : IsPathFrom client base path)
    (hbase : client.header base = some baseHeader) {i : ℕ} (hheader : path[i]? = some header) :
    header.number = baseHeader.number + i + 1 := by
  induction path generalizing base baseHeader i with
  | nil => simp at hheader
  | cons first path ih =>
    obtain ⟨hfirst, hparent, hrest⟩ := h
    have hnumber := client.number_eq _ _ _ hfirst (hparent ▸ hbase)
    cases i with
    | zero =>
      rw [List.getElem?_cons_zero, Option.some.injEq] at hheader
      rw [← hheader, hnumber]
    | succ i =>
      rw [List.getElem?_cons_succ] at hheader
      rw [ih hrest hfirst hheader, hnumber]
      omega

theorem ProperAncestor.known (h : ProperAncestor client last block) :
    (∃ header, client.header last = some header) ∧ ∃ header, client.header block = some header := by
  induction h with
  | single hparent =>
    obtain ⟨parentHeader, header, hparentHeader, hheader, _⟩ := hparent
    exact ⟨⟨parentHeader, hparentHeader⟩, header, hheader⟩
  | tail _ hparent ih =>
    obtain ⟨_, header, _, hheader, _⟩ := hparent
    exact ⟨ih.1, header, hheader⟩

variable [DecidableEq Hash] {newData : AlephData Hash}

theorem extensionLoop_mono {lastNumber fuel more : ℕ} {extension result : List (Header Hash)}
    (h : extensionLoop client last lastNumber fuel block extension = some result)
    (hmore : fuel ≤ more) :
    extensionLoop client last lastNumber more block extension = some result := by
  induction fuel generalizing more block extension with
  | zero => cases h
  | succ fuel ih =>
    obtain ⟨more, rfl⟩ := Nat.exists_eq_succ_of_ne_zero (Nat.ne_zero_of_lt hmore)
    rw [extensionLoop] at h ⊢
    cases hheader : client.header block with
    | none => simpa [hheader] using h
    | some header =>
      simp only [hheader] at h ⊢
      by_cases hle : header.number ≤ lastNumber
      · simpa only [hle, if_true] using h
      · simp only [hle, if_false] at h ⊢
        exact ih h (Nat.le_of_succ_le_succ hmore)

/-- The blocks for which there is a way to return: the number is right, and the block
descends from the last finalized one. -/
def Extends (client : HeaderStore Hash) (last : Hash) (newData : AlephData Hash) : Prop :=
  client.number newData.hash = some newData.number ∧ ProperAncestor client last newData.hash

theorem extends_of_chainExtensionStep (hne : chainExtensionStep client last newData ≠ []) :
    Extends client last newData := by
  obtain ⟨hend, hnumber⟩ := chainExtensionStep_end hne
  obtain ⟨hpath, habove⟩ := chainExtensionStep_path client last newData
  refine ⟨hnumber, ?_⟩
  cases hresult : chainExtensionStep client last newData using List.reverseRecOn with
  | nil => exact absurd hresult hne
  | append_singleton init header =>
    rw [hresult] at hend hpath habove
    obtain ⟨lastHeader, hlast, _⟩ := habove header (by simp)
    rw [hend, pathEnd_concat]
    exact (hpath.between hlast (by simp)).1

/-- What is returned for a descendant is the way to it, and no header is missing. -/
theorem chainExtensionStep_of_extends (h : Extends client last newData) :
    chainExtensionStep client last newData ≠ [] ∧
      pathEnd last (chainExtensionStep client last newData) = newData.hash ∧
      ∀ header, header ∈ chainExtensionStep client last newData ↔
        client.header header.hash = some header ∧ ProperAncestor client last header.hash ∧
          AncestorOrEqual client.IsParent header.hash newData.hash := by
  obtain ⟨hnumber, hancestor⟩ := h
  obtain ⟨⟨lastHeader, hlast⟩, _⟩ := hancestor.known
  obtain ⟨block, hblock⟩ := hancestor.known.2
  have hblockHash := client.hash_eq _ _ hblock
  -- every path to the block is the one that is returned
  have hunique : ∀ path, IsPathFrom client last path → pathEnd last path = newData.hash →
      chainExtensionStep client last newData = path := by
    intro path hpath hend
    exact chainExtensionStep_of_path hlast hpath hend.symm hnumber
  obtain ⟨before, hpath⟩ := hancestor.exists_path hblock
  have hend : pathEnd last (before ++ [block]) = newData.hash := by
    rw [pathEnd_concat, hblockHash]
  rw [hunique _ hpath hend]
  refine ⟨by simp, hend, ?_⟩
  intro header
  constructor
  · intro hmem
    have hbetween := hpath.between hlast hmem
    rw [hend] at hbetween
    exact ⟨hpath.known hmem, hbetween⟩
  · rintro ⟨hheader, hbelow, habove⟩
    obtain ⟨lower, hlower⟩ := hbelow.exists_path hheader
    obtain ⟨upper, hupper, hupperEnd⟩ := exists_path_of_ancestor habove
    -- the way through the header is the only way
    have hjoined : IsPathFrom client last ((lower ++ [header]) ++ upper) := by
      refine isPathFrom_append.mpr ⟨hlower, ?_⟩
      rwa [pathEnd_concat]
    have hjoinedEnd : pathEnd last ((lower ++ [header]) ++ upper) = newData.hash := by
      rw [pathEnd_append, pathEnd_concat, hupperEnd]
    rw [← hunique _ hpath hend, hunique _ hjoined hjoinedEnd]
    simp

/-- The loop ends, with one result for every number of iterations that is large enough. For
a descendant with the right number the step returns the headers of the way to it, in
ascending order without a gap; otherwise it returns nothing. -/
theorem chain_extension_is_path (client : HeaderStore Hash) (last : Hash)
    (newData : AlephData Hash) :
    (∀ lastNumber header, client.header newData.hash = some header → ∃ result, ∀ fuel,
      header.number < fuel →
        extensionLoop client last lastNumber fuel newData.hash [] = some result) ∧
    (Extends client last newData →
      pathEnd last (chainExtensionStep client last newData) = newData.hash ∧
      (∀ header, header ∈ chainExtensionStep client last newData ↔
        client.header header.hash = some header ∧ ProperAncestor client last header.hash ∧
          AncestorOrEqual client.IsParent header.hash newData.hash) ∧
      ∀ i header, (chainExtensionStep client last newData)[i]? = some header →
        header.number = client.height last + i + 1) ∧
    (chainExtensionStep client last newData = [] ↔ ¬ Extends client last newData) ∧
    IsPathFrom client last (chainExtensionStep client last newData) := by
  have hpath := (chainExtensionStep_path client last newData).1
  refine ⟨?_, ?_, ?_, hpath⟩
  · intro lastNumber header hheader
    obtain ⟨result, hresult⟩ :=
      extensionLoop_ends client last lastNumber hheader (Nat.lt_succ_self _) []
    refine ⟨result, ?_⟩
    intro fuel hfuel
    exact extensionLoop_mono hresult hfuel
  · intro hextends
    obtain ⟨_, hend, hheaders⟩ := chainExtensionStep_of_extends hextends
    obtain ⟨⟨lastHeader, hlast⟩, _⟩ := hextends.2.known
    refine ⟨hend, hheaders, ?_⟩
    intro i header hheader
    rw [HeaderStore.height_eq hlast]
    exact hpath.number_eq hlast hheader
  · constructor
    · intro hnil hextends
      exact (chainExtensionStep_of_extends hextends).1 hnil
    · intro hextends
      by_contra hne
      exact hextends (extends_of_chainExtensionStep hne)

end AlephNode.ChainExtension
