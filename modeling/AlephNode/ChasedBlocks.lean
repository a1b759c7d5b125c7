import AlephNode.ChainExtension

/-!
# What a list of items passes on

`run_aggregator` walks from the last block it knows to the block of each item, and passes on
what lies within the session. Whoever begins at a block on this way passes on what comes
after it.
-/
namespace AlephNode.RunAggregator

variable {Hash : Type}

inductive AggregatorCall (Hash : Type) where
  | startAggregation (hash : Hash)
  | notifyLastHash
  deriving DecidableEq

/-- The hashes that calls pass to `start_aggregation`. -/
def startedBy (calls : List (AggregatorCall Hash)) : List Hash :=
  calls.filterMap fun
    | .startAggregation hash => some hash
    | .notifyLastHash => none

@[simp] theorem startedBy_nil : startedBy ([] : List (AggregatorCall Hash)) = [] := rfl

@[simp] theorem startedBy_start (hash : Hash) (calls : List (AggregatorCall Hash)) :
    startedBy (.startAggregation hash :: calls) = hash :: startedBy calls := rfl

@[simp] theorem startedBy_notify (calls : List (AggregatorCall Hash)) :
    startedBy (.notifyLastHash :: calls) = startedBy calls := rfl

@[simp] theorem startedBy_append (calls more : List (AggregatorCall Hash)) :
    startedBy (calls ++ more) = startedBy calls ++ startedBy more :=
  List.filterMap_append

def headerCalls (lastBlockInSession : ℕ) : List (Header Hash) → List (AggregatorCall Hash)
  | [] => []
  | header :: headers =>
    let started :=
      if header.number ≤ lastBlockInSession then [.startAggregation header.hash] else []
    if header.number ≥ lastBlockInSession then started ++ [.notifyLastHash]
    else started ++ headerCalls lastBlockInSession headers

/-- The hashes that the loop over the headers of an extension passes to `start_aggregation`. -/
def passedHeaders (lastBlockInSession : ℕ) (headers : List (Header Hash)) : List Hash :=
  startedBy (headerCalls lastBlockInSession headers)

theorem passedHeaders_cons (lastBlockInSession : ℕ) (header : Header Hash)
    (headers : List (Header Hash)) :
    passedHeaders lastBlockInSession (header :: headers) =
      (if header.number ≤ lastBlockInSession then [header.hash] else []) ++
        if header.number ≥ lastBlockInSession then []
        else passedHeaders lastBlockInSession headers := by
  simp only [passedHeaders, headerCalls]
  split_ifs
  · rfl
  · rfl
  · rfl
  · rfl

variable [DecidableEq Hash]

/-- What one item of a batch passes on from `last`. -/
def extension (client : HeaderStore Hash) (lastBlockInSession : ℕ) (last : Hash)
    (newData : AlephData Hash) : List Hash :=
  passedHeaders lastBlockInSession (ChainExtension.chainExtensionStep client last newData)

/-- What a list of items passes on from `last`. -/
def chase (client : HeaderStore Hash) (lastBlockInSession : ℕ) :
    Hash → List (AlephData Hash) → List Hash
  | _, [] => []
  | last, newData :: rest =>
    let passed := extension client lastBlockInSession last newData
    passed ++ chase client lastBlockInSession (passed.getLast?.getD last) rest

section Chase
open ChainExtension

variable {client : HeaderStore Hash} {lastBlock : ℕ} {last base block : Hash}
  {newData : AlephData Hash} {items : List (AlephData Hash)} {path : List (Header Hash)}

omit [DecidableEq Hash] in
/-- Along a path, the headers up to the last block of the session are passed on. -/
theorem passedHeaders_eq (hincreasing : path.Pairwise (fun hd hd' => hd.number < hd'.number)) :
    passedHeaders lastBlock path =
      (path.filter (fun hd => decide (hd.number ≤ lastBlock))).map Header.hash := by
  induction path with
  | nil => rfl
  | cons header path ih =>
    obtain ⟨habove, hrest⟩ := List.pairwise_cons.mp hincreasing
    have hnone : lastBlock ≤ header.number →
        path.filter (fun hd => decide (hd.number ≤ lastBlock)) = [] := by
      intro hge
      rw [List.filter_eq_nil_iff]
      intro hd hmem
      have hlt := habove hd hmem
      simp only [decide_eq_true_eq]
      omega
    rw [passedHeaders_cons]
    by_cases hge : header.number ≥ lastBlock
    · rw [if_pos hge, List.filter_cons, hnone hge]
      by_cases hle : header.number ≤ lastBlock <;> simp [hle]
    · have hle : header.number ≤ lastBlock := by omega
      rw [if_neg hge, ih hrest]
      simp [hle]

omit [DecidableEq Hash] in
/-- A path is what is passed on, followed by what lies beyond the session. -/
theorem path_split (lastBlock : ℕ)
    (hincreasing : path.Pairwise (fun hd hd' => hd.number < hd'.number)) :
    ∃ inside beyond, path = inside ++ beyond ∧ (∀ hd ∈ inside, hd.number ≤ lastBlock) ∧
      ∀ hd ∈ beyond, lastBlock < hd.number := by
  induction path with
  | nil => exact ⟨[], [], rfl, by simp, by simp⟩
  | cons header path ih =>
    obtain ⟨habove, hrest⟩ := List.pairwise_cons.mp hincreasing
    by_cases hle : header.number ≤ lastBlock
    · obtain ⟨inside, beyond, rfl, hinside, hbeyond⟩ := ih hrest
      exact ⟨header :: inside, beyond, rfl, by simpa [hle] using hinside, hbeyond⟩
    · refine ⟨[], header :: path, rfl, by simp, ?_⟩
      intro hd hmem
      rcases List.mem_cons.mp hmem with rfl | hmem
      · omega
      · have hlt := habove hd hmem
        omega

omit [DecidableEq Hash] in
theorem passedHeaders_append {inside beyond : List (Header Hash)}
    (hincreasing : (inside ++ beyond).Pairwise (fun hd hd' => hd.number < hd'.number))
    (hinside : ∀ hd ∈ inside, hd.number ≤ lastBlock)
    (hbeyond : ∀ hd ∈ beyond, lastBlock < hd.number) :
    passedHeaders lastBlock (inside ++ beyond) = inside.map Header.hash := by
  have hall : inside.filter (fun hd => decide (hd.number ≤ lastBlock)) = inside := by
    rw [List.filter_eq_self]
    exact fun hd hmem => decide_eq_true (hinside hd hmem)
  have hnone : beyond.filter (fun hd => decide (hd.number ≤ lastBlock)) = [] := by
    rw [List.filter_eq_nil_iff]
    exact fun hd hmem => by simpa using hbeyond hd hmem
  rw [passedHeaders_eq hincreasing, List.filter_append, hall, hnone, List.append_nil]

omit [DecidableEq Hash] in
theorem getLast?_map_hash (base : Hash) (path : List (Header Hash)) :
    (path.map Header.hash).getLast?.getD base = pathEnd base path := by
  rw [List.getLast?_map, pathEnd]

/-- One item passes on the part of a path that lies within the session. -/
theorem extension_path (client : HeaderStore Hash) (lastBlock : ℕ) (last : Hash)
    (newData : AlephData Hash) : ∃ inside beyond,
      chainExtensionStep client last newData = inside ++ beyond ∧
      IsPathFrom client last (inside ++ beyond) ∧ (∀ hd ∈ inside, hd.number ≤ lastBlock) ∧
      (∀ hd ∈ beyond, lastBlock < hd.number) ∧
      extension client lastBlock last newData = inside.map Header.hash := by
  obtain ⟨hpath, _⟩ := chainExtensionStep_path client last newData
  obtain ⟨inside, beyond, hsplit, hinside, hbeyond⟩ := path_split lastBlock hpath.increasing.1
  rw [hsplit] at hpath
  refine ⟨inside, beyond, hsplit, hpath, hinside, hbeyond, ?_⟩
  rw [extension, hsplit, passedHeaders_append hpath.increasing.1 hinside hbeyond]

/-- What a list of items passes on is a path of known headers within the session. -/
theorem chase_path (client : HeaderStore Hash) (lastBlock : ℕ) (last : Hash)
    (items : List (AlephData Hash)) : ∃ path, IsPathFrom client last path ∧
      (∀ hd ∈ path, hd.number ≤ lastBlock) ∧
        chase client lastBlock last items = path.map Header.hash := by
  induction items generalizing last with
  | nil => exact ⟨[], trivial, by simp, rfl⟩
  | cons newData rest ih =>
    obtain ⟨inside, beyond, _, hpath, hinside, _, hextension⟩ :=
      extension_path client lastBlock last newData
    obtain ⟨path, hrest, hbound, heq⟩ := ih (pathEnd last inside)
    refine ⟨inside ++ path, ?_, ?_, ?_⟩
    · exact isPathFrom_append.mpr ⟨(isPathFrom_append.mp hpath).1, hrest⟩
    · intro hd hmem
      rcases List.mem_append.mp hmem with hmem | hmem
      · exact hinside hd hmem
      · exact hbound hd hmem
    · rw [chase, hextension, getLast?_map_hash, heq, List.map_append]

theorem chase_known (hne : chase client lastBlock last items ≠ []) :
    ∃ lastHeader, client.header last = some lastHeader := by
  induction items with
  | nil => exact absurd rfl hne
  | cons newData rest ih =>
    by_cases hextension : extension client lastBlock last newData = []
    · rw [chase, hextension] at hne
      exact ih hne
    · have hstep : chainExtensionStep client last newData ≠ [] := by
        intro he
        rw [extension, he] at hextension
        exact hextension rfl
      obtain ⟨hd, hmem⟩ := List.exists_mem_of_ne_nil _ hstep
      obtain ⟨lastHeader, hlast, _⟩ := (chainExtensionStep_path client last newData).2 hd hmem
      exact ⟨lastHeader, hlast⟩

/-- From a block on the way of an item, the item passes on the rest of its way. -/
theorem extension_of_mem {inside beyond : List (Header Hash)} {header : Header Hash}
    {later : List (Header Hash)}
    (hstep : chainExtensionStep client last newData = (inside ++ header :: later) ++ beyond)
    (hinside : ∀ hd ∈ inside ++ header :: later, hd.number ≤ lastBlock)
    (hbeyond : ∀ hd ∈ beyond, lastBlock < hd.number) :
    extension client lastBlock header.hash newData = later.map Header.hash := by
  obtain ⟨hpath, _⟩ := chainExtensionStep_path client last newData
  have hne : chainExtensionStep client last newData ≠ [] := by simp [hstep]
  obtain ⟨hend, hnumber⟩ := chainExtensionStep_end hne
  have hassoc : (inside ++ header :: later) ++ beyond =
      (inside ++ [header]) ++ (later ++ beyond) := by simp
  rw [hstep, hassoc] at hpath hend
  obtain ⟨hinit, hrest⟩ := isPathFrom_append.mp hpath
  rw [pathEnd_append, pathEnd_concat] at hend
  rw [pathEnd_concat] at hrest
  have hheader := (isPathFrom_append.mp hinit).2.1
  have hlater : ∀ hd ∈ later, hd.number ≤ lastBlock := by
    intro hd hmem
    exact hinside hd (by simp [hmem])
  rw [extension, chainExtensionStep_of_path hheader hrest hend hnumber,
    passedHeaders_append hrest.increasing.1 hlater hbeyond]

/-- An item that leads to a block by a way that does not meet `block`, passes on nothing
from `block`, if `block` lies ahead of where the item leads within the session. -/
theorem extension_ahead {inside beyond ahead : List (Header Hash)} {lastHeader : Header Hash}
    (hknown : client.header last = some lastHeader)
    (hstep : chainExtensionStep client last newData = inside ++ beyond)
    (hbeyond : ∀ hd ∈ beyond, lastBlock < hd.number) (hinside : IsPathFrom client last inside)
    (hahead : IsPathFrom client (pathEnd last inside) ahead) (hne : ahead ≠ [])
    (hbound : ∀ hd ∈ ahead, hd.number ≤ lastBlock) :
    extension client lastBlock (pathEnd (pathEnd last inside) ahead) newData = [] := by
  obtain ⟨hpath, _⟩ :=
    chainExtensionStep_path client (pathEnd (pathEnd last inside) ahead) newData
  by_cases hnil : chainExtensionStep client (pathEnd (pathEnd last inside) ahead) newData = []
  · rw [extension, hnil]
    rfl
  · -- otherwise the item would have passed the same blocks from `last` on
    obtain ⟨hend, hnumber⟩ := chainExtensionStep_end hnil
    have hjoined := isPathFrom_append.mpr ⟨hinside, isPathFrom_append.mpr ⟨hahead, hpath⟩⟩
    rw [← pathEnd_append, ← pathEnd_append] at hend
    rw [chainExtensionStep_of_path hknown hjoined hend hnumber] at hstep
    obtain ⟨hd, hmem⟩ := List.exists_mem_of_ne_nil _ hne
    have hsame := List.append_cancel_left hstep
    have hlow := hbound hd hmem
    have hhigh := hbeyond hd (by rw [← hsame]; simp [hmem])
    omega

/-- An item passes on nothing from a block that later items pass on. -/
theorem extension_of_later {inside beyond : List (Header Hash)} {lastHeader : Header Hash}
    {rest : List (AlephData Hash)} (hknown : client.header last = some lastHeader)
    (hstep : chainExtensionStep client last newData = inside ++ beyond)
    (hbeyond : ∀ hd ∈ beyond, lastBlock < hd.number) (hinside : IsPathFrom client last inside)
    (hmem : block ∈ chase client lastBlock (pathEnd last inside) rest) :
    extension client lastBlock block newData = [] := by
  -- `block` lies on the path that the later items pass on
  obtain ⟨path, hpathAhead, hbound, hrest⟩ :=
    chase_path client lastBlock (pathEnd last inside) rest
  rw [hrest] at hmem
  obtain ⟨header, hheader, rfl⟩ := List.mem_map.mp hmem
  obtain ⟨before, later, rfl⟩ := List.append_of_mem hheader
  rw [List.append_cons before header later] at hpathAhead
  have hlow : ∀ hd ∈ before ++ [header], hd.number ≤ lastBlock := by
    intro hd hmem
    apply hbound
    rw [List.append_cons before header later]
    exact List.mem_append_left _ hmem
  have hnothing := extension_ahead hknown hstep hbeyond hinside
    (isPathFrom_append.mp hpathAhead).1 (by simp) hlow
  rwa [pathEnd_concat] at hnothing

/-- Whoever begins at a block that is passed on the way passes on what comes after it. -/
theorem chase_of_mem (hblock : block ∈ last :: chase client lastBlock last items) :
    ∃ earlier, last :: chase client lastBlock last items =
      earlier ++ block :: chase client lastBlock block items := by
  by_cases hsame : block = last
  · exact ⟨[], by rw [hsame, List.nil_append]⟩
  have hmem : block ∈ chase client lastBlock last items := by
    rcases List.mem_cons.mp hblock with h | h
    · exact absurd h hsame
    · exact h
  clear hblock
  induction items generalizing last with
  | nil => cases hmem
  | cons newData rest ih =>
    obtain ⟨lastHeader, hknown⟩ := chase_known (List.ne_nil_of_mem hmem)
    obtain ⟨inside, beyond, hstep, hpath, hinside, hbeyond, hextension⟩ :=
      extension_path client lastBlock last newData
    have hchase : chase client lastBlock last (newData :: rest) =
        inside.map Header.hash ++ chase client lastBlock (pathEnd last inside) rest := by
      rw [chase, hextension, getLast?_map_hash]
    by_cases hway : block ∈ inside.map Header.hash
    · obtain ⟨header, hheader, rfl⟩ := List.mem_map.mp hway
      obtain ⟨before, later, rfl⟩ := List.append_of_mem hheader
      have hrest := extension_of_mem hstep hinside hbeyond
      have hend : pathEnd last (before ++ header :: later) = pathEnd header.hash later := by
        rw [pathEnd_append, pathEnd_cons]
      refine ⟨last :: before.map Header.hash, ?_⟩
      rw [hchase, chase, hrest, getLast?_map_hash, hend]
      simp
    · rw [hchase, List.mem_append, or_iff_right hway] at hmem
      have hahead : block ≠ pathEnd last inside := by
        intro he
        cases inside using List.reverseRecOn with
        | nil => exact hsame he
        | append_singleton inside header _ =>
          rw [pathEnd_concat] at he
          exact hway (by simp [he])
      obtain ⟨earlier, heq⟩ := ih hahead hmem
      have hnothing :=
        extension_of_later hknown hstep hbeyond (isPathFrom_append.mp hpath).1 hmem
      cases earlier with
      | nil =>
        rw [List.nil_append] at heq
        exact absurd (List.cons.inj heq).1.symm hahead
      | cons first earlier =>
        rw [List.cons_append, List.cons.injEq] at heq
        refine ⟨last :: (inside.map Header.hash ++ earlier), ?_⟩
        rw [hchase, heq.2, chase, hnothing]
        simp

theorem chase_append (client : HeaderStore Hash) (lastBlock : ℕ) (last : Hash)
    (items more : List (AlephData Hash)) :
    chase client lastBlock last (items ++ more) = chase client lastBlock last items ++
      chase client lastBlock ((chase client lastBlock last items).getLast?.getD last) more := by
  induction items generalizing last with
  | nil => rfl
  | cons newData rest ih =>
    rw [List.cons_append, chase, ih, chase, List.append_assoc, List.getLast?_append]
    congr 3
    cases (chase client lastBlock
      ((extension client lastBlock last newData).getLast?.getD last) rest).getLast? <;> rfl

/-- Nothing is passed on from the last block of the session. -/
theorem extension_settled (hsettled : lastBlock ≤ client.height last) :
    extension client lastBlock last newData = [] := by
  obtain ⟨inside, beyond, hstep, _, hinside, _, hextension⟩ :=
    extension_path client lastBlock last newData
  cases inside with
  | nil => exact hextension
  | cons header later =>
    obtain ⟨lastHeader, hlast, habove⟩ :=
      (chainExtensionStep_path client last newData).2 header (by simp [hstep])
    have hle := hinside header List.mem_cons_self
    rw [HeaderStore.height_eq hlast] at hsettled
    omega

theorem chase_settled (hsettled : lastBlock ≤ client.height last)
    (items : List (AlephData Hash)) : chase client lastBlock last items = [] := by
  induction items with
  | nil => rfl
  | cons newData rest ih =>
    rw [chase, extension_settled hsettled]
    exact ih

end Chase

end AlephNode.RunAggregator
