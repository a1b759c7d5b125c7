import AlephNode.ExtensionPaths
import AlephNode.LateJoiners

/-!
# Clients that know part of a block tree

A client knows a part of the block tree that is closed under parents. For a block that it
knows, the chain extension step returns what it would return for the whole tree. Two nodes that
begin at different blocks of what a list of items passes on do not drift apart.
-/
namespace AlephNode

variable {Hash : Type}

/-- With a block of the tree the store has all of its ancestors. -/
structure HeaderStore.ClosedIn (tree store : HeaderStore Hash) : Prop where
  subset : store.Subset tree
  parent : ∀ p c header, tree.IsParent p c → store.header c = some header →
    ∃ parentHeader, store.header p = some parentHeader

theorem HeaderStore.ClosedIn.refl (tree : HeaderStore Hash) : tree.ClosedIn tree where
  subset := .refl tree
  parent _ _ _ hparent _ := by
    rcases hparent with ⟨parentHeader, _, hknown, _⟩
    exact ⟨parentHeader, hknown⟩

theorem HeaderStore.ClosedIn.ancestor {tree store : HeaderStore Hash} (h : tree.ClosedIn store)
    {a b : Hash} (hancestor : AncestorOrEqual tree.IsParent a b) {header : Header Hash}
    (hb : store.header b = some header) : ∃ ancestorHeader, store.header a = some ancestorHeader := by
  induction hancestor generalizing header with
  | refl => exact ⟨header, hb⟩
  | tail _ hparent ih =>
    rcases h.parent _ _ header hparent hb with ⟨parentHeader, hknown⟩
    exact ih hknown

theorem HeaderStore.IsParent.unique {store : HeaderStore Hash} {p q c : Hash}
    (hp : store.IsParent p c) (hq : store.IsParent q c) : p = q := by
  rcases hp with ⟨_, header, _, hheader, rfl⟩
  rcases hq with ⟨_, header', _, hheader', rfl⟩
  rw [hheader, Option.some.injEq] at hheader'
  rw [hheader']

namespace ChainExtension
variable {tree client : HeaderStore Hash} {base last : Hash} {newData : AlephData Hash}
  {path : List (Header Hash)}

/-- A path of headers that the client knows is a path of the client. -/
theorem IsPathFrom.of_known (h : IsPathFrom tree base path)
    (hknown : ∀ header ∈ path, client.header header.hash = some header) :
    IsPathFrom client base path := by
  induction path generalizing base with
  | nil => trivial
  | cons header path ih =>
    refine ⟨hknown header List.mem_cons_self, h.2.1, ?_⟩
    apply ih h.2.2
    intro hd hmem
    exact hknown hd (List.mem_cons_of_mem _ hmem)

/-- The blocks of a path are a contiguous chain above the block where it begins. -/
theorem IsPathFrom.isChain {baseHeader : Header Hash} (h : IsPathFrom tree base path)
    (hbase : tree.header base = some baseHeader) :
    (base :: path.map Header.hash).IsChain tree.IsParent := by
  induction path generalizing base baseHeader with
  | nil => exact .singleton base
  | cons header path ih =>
    rcases h with ⟨hheader, hparent, hrest⟩
    rw [List.map_cons, List.isChain_cons_cons]
    exact ⟨⟨baseHeader, header, hbase, hheader, hparent⟩, ih hrest hheader⟩

variable [DecidableEq Hash]

theorem chainExtensionStep_of_unknown (hunknown : client.header newData.hash = none) :
    chainExtensionStep client last newData = [] := by
  by_contra hne
  have hnumber := (chainExtensionStep_end hne).2
  rw [HeaderStore.number, hunknown] at hnumber
  cases hnumber

/-- For a block that the client knows it takes the same step as for the whole tree. -/
theorem chainExtensionStep_of_known (hclosed : tree.ClosedIn client) {header : Header Hash}
    (hknown : client.header newData.hash = some header) :
    chainExtensionStep client last newData = chainExtensionStep tree last newData := by
  by_cases hextends : Extends tree last newData
  · rcases chainExtensionStep_of_extends hextends with ⟨-, hend, hheaders⟩
    have hpath : IsPathFrom client last (chainExtensionStep tree last newData) := by
      apply (chainExtensionStep_path tree last newData).1.of_known
      intro hd hmem
      rcases (hheaders hd).mp hmem with ⟨hheader, -, hancestor⟩
      rcases hclosed.ancestor hancestor hknown with ⟨hd', hclient⟩
      rw [hclosed.subset _ _ hclient, Option.some.injEq] at hheader
      rw [hclient, hheader]
    rcases hclosed.ancestor hextends.2.to_reflTransGen hknown with ⟨lastHeader, hlast⟩
    have hnumber : client.number newData.hash = some newData.number := by
      have htree := hextends.1
      rw [HeaderStore.number, hclosed.subset _ _ hknown] at htree
      rwa [HeaderStore.number, hknown]
    exact chainExtensionStep_of_path hlast hpath hend.symm hnumber
  · have htree : chainExtensionStep tree last newData = [] := by
      by_contra hne
      exact hextends (extends_of_chainExtensionStep hne)
    rw [htree]
    by_contra hne
    rcases extends_of_chainExtensionStep hne with ⟨hnumber, hancestor⟩
    apply hextends
    refine ⟨?_, hancestor.mono hclosed.subset⟩
    rw [HeaderStore.number, hknown] at hnumber
    rwa [HeaderStore.number, hclosed.subset _ _ hknown]

end ChainExtension

namespace RunAggregator
open ChainExtension
variable {S : Type} [DecidableEq Hash] {tree client : HeaderStore Hash} {lastBlock : ℕ}
  {last base block : Hash} {newData : AlephData Hash} {items more : List (AlephData Hash)}

/-- A move of a task whose client takes the same extension step as the whole tree. -/
theorem Step.in_tree {task task' : RunAggregator Hash S} {event : Event Hash S}
    (hsubset : client.Subset tree) (hsame : ∀ newData, event = .data newData →
      chainExtensionStep client task.lastFinalized newData =
        chainExtensionStep tree task.lastFinalized newData)
    (hstep : Step client task event task') : Step tree task event task' := by
  cases hstep with
  | batch batch select unseen => exact .batch batch select unseen
  | batchIgnored batch select seen => exact .batchIgnored batch select seen
  | @data newData rest processing =>
    have hdata : task.processData client newData = task.processData tree newData := by
      rw [processData, processData, hsame newData rfl]
    rw [hdata]
    exact .data processing
  | batchDone processing => exact .batchDone processing
  | batchesEnded select => exact .batchesEnded select
  | multisigned select poll run =>
    refine .multisigned select poll ?_
    unfold sendJustification at run ⊢
    split at run
    · cases run
    · next number hnumber =>
      rcases Option.map_eq_some_iff.mp hnumber with ⟨header, hheader, hsame⟩
      rw [HeaderStore.number, hsubset _ _ hheader, Option.map_some, hsame]
      exact run
  | rmcCompleted hash multisignature select poll => exact .rmcCompleted hash multisignature select poll
  | hashesEnded select poll => exact .hashesEnded select poll
  | networkClosed select poll => exact .networkClosed select poll
  | exit listening => exact .exit listening

theorem isChain_chase : (base :: chase tree lastBlock base items).IsChain tree.IsParent := by
  by_cases hnil : chase tree lastBlock base items = []
  · rw [hnil]
    exact .singleton base
  · rcases chase_known hnil with ⟨baseHeader, hbase⟩
    rcases chase_path tree lastBlock base items with ⟨path, hpath, -, heq⟩
    rw [heq]
    exact hpath.isChain hbase

theorem chase_subset : chase tree lastBlock base items ⊆ chase tree lastBlock base (items ++ more) := by
  rw [chase_append]
  exact List.subset_append_left _ _

theorem mem_extension (h : Extends tree last newData) (hbound : newData.number ≤ lastBlock) :
    newData.hash ∈ extension tree lastBlock last newData := by
  rcases chainExtensionStep_of_extends h with ⟨hne, hend, -⟩
  obtain ⟨inside, beyond, hsplit, hpath, -, hbeyond, hextension⟩ :=
    extension_path tree lastBlock last newData
  rw [hextension]
  rw [hsplit] at hne hend
  cases beyond using List.reverseRecOn with
  | nil =>
    cases inside using List.reverseRecOn with
    | nil => exact absurd rfl hne
    | append_singleton inside header =>
      rw [List.append_nil, pathEnd_concat] at hend
      simp [← hend]
  | append_singleton beyond header =>
    -- the last header is that of the item, and lies within the session
    have habove := hbeyond header (by simp)
    rw [← List.append_assoc, pathEnd_concat] at hend
    have hheader : tree.header header.hash = some header := hpath.known (by simp)
    have hnumber := h.1
    rw [HeaderStore.number, ← hend, hheader, Option.map_some, Option.some.injEq] at hnumber
    omega

theorem chase_increasing : (base :: chase tree lastBlock base items).Pairwise
    (fun a b => tree.height a < tree.height b) := by
  have hheights : ((base :: chase tree lastBlock base items).map tree.height).IsChain (· < ·) := by
    rw [List.isChain_map]
    exact isChain_chase.imp (fun _ _ hparent => hparent.height_lt)
  exact List.pairwise_map.mp (List.isChain_iff_pairwise.mp hheights)

/-- What is passed on at or above a block of the way is passed on from this block. -/
theorem mem_chase_of_height (hbase : base ∈ last :: chase tree lastBlock last items)
    (hblock : block ∈ last :: chase tree lastBlock last items)
    (hle : tree.height base ≤ tree.height block) :
    block ∈ base :: chase tree lastBlock base items := by
  have hincreasing : (last :: chase tree lastBlock last items).Pairwise
      (fun a b => tree.height a < tree.height b) := chase_increasing
  rcases chase_of_mem hbase with ⟨earlier, hsplit⟩
  rw [hsplit] at hblock hincreasing
  rcases List.mem_append.mp hblock with hearlier | hlater
  · have hlt := (List.pairwise_append.mp hincreasing).2.2 block hearlier base List.mem_cons_self
    omega
  · exact hlater

/-- From a block that only later items pass on, the earlier ones pass on nothing. -/
theorem chase_before (hmem : block ∈ chase tree lastBlock last (items ++ more))
    (hnot : block ∉ last :: chase tree lastBlock last items) :
    chase tree lastBlock block items = [] := by
  induction items generalizing last with
  | nil => rfl
  | cons newData rest ih =>
    rcases chase_known (List.ne_nil_of_mem hmem) with ⟨lastHeader, hknown⟩
    obtain ⟨inside, beyond, hstep, hpath, -, hbeyond, hextension⟩ :=
      extension_path tree lastBlock last newData
    have hsplit : ∀ items, chase tree lastBlock last (newData :: items) =
        inside.map Header.hash ++ chase tree lastBlock (pathEnd last inside) items := by
      intro items
      rw [chase, hextension, getLast?_map_hash]
    rw [List.cons_append, hsplit] at hmem
    rw [hsplit, List.mem_cons, List.mem_append, not_or, not_or] at hnot
    rcases hnot with ⟨hlast, hinside, hrest⟩
    have hlater := (List.mem_append.mp hmem).resolve_left hinside
    have hahead : block ≠ pathEnd last inside := by
      rintro rfl
      cases inside using List.reverseRecOn with
      | nil => exact hlast rfl
      | append_singleton inside header =>
        apply hinside
        simp
    rw [chase, extension_of_later hknown hstep hbeyond (isPathFrom_append.mp hpath).1 hlater]
    apply ih hlater
    rw [List.mem_cons, not_or]
    exact ⟨hahead, hrest⟩

/-- Two that begin on the same way pass on the same blocks above the places where they begin. -/
theorem chase_agrees {root base' : Hash}
    (hbase : base ∈ root :: chase tree lastBlock root (items ++ more))
    (hbase' : base' ∈ root :: chase tree lastBlock root (items ++ more))
    (hmem : block ∈ chase tree lastBlock base items) (habove : tree.height base' < tree.height block) :
    block ∈ chase tree lastBlock base' items := by
  have hne : block ≠ base' := by
    rintro rfl
    exact Nat.lt_irrefl _ habove
  suffices hway : block ∈ base' :: chase tree lastBlock base' items from
    (List.mem_cons.mp hway).resolve_left hne
  rcases Nat.le_total (tree.height base') (tree.height base) with hle | hle
  · -- the first one begins later, at a block that the items pass on for the other one
    have hahead := mem_chase_of_height hbase' hbase hle
    have hpassed : base ∈ base' :: chase tree lastBlock base' items := by
      by_contra hnot
      have hlater := (List.mem_cons.mp hahead).resolve_left fun hsame =>
        hnot (hsame ▸ List.mem_cons_self)
      rw [chase_before hlater hnot] at hmem
      cases hmem
    rcases chase_of_mem hpassed with ⟨earlier, hsplit⟩
    rw [hsplit]
    exact List.mem_append_right _ (List.mem_cons_of_mem _ hmem)
  · have hahead := mem_chase_of_height hbase hbase' hle
    have hincreasing : (base :: chase tree lastBlock base (items ++ more)).Pairwise
        (fun a b => tree.height a < tree.height b) := chase_increasing
    rw [chase_append, ← List.cons_append] at hahead hincreasing
    have hpassed : base' ∈ base :: chase tree lastBlock base items := by
      rcases List.mem_append.mp hahead with hpassed | hlater
      · exact hpassed
      · have hlow := (List.pairwise_append.mp hincreasing).2.2 block
          (List.mem_cons_of_mem _ hmem) base' hlater
        omega
    exact mem_chase_of_height hpassed (List.mem_cons_of_mem _ hmem) habove.le

/-- A block that extends what was passed on so far is an ancestor of what is passed on at its
height or above. -/
theorem ancestor_of_chase (hextends : Extends tree last newData)
    (hlast : (chase tree lastBlock base items).getLast?.getD base = last)
    (hbound : newData.number ≤ lastBlock)
    (hmem : block ∈ base :: chase tree lastBlock base (items ++ newData :: more))
    (hle : newData.number ≤ tree.height block) :
    AncestorOrEqual tree.IsParent newData.hash block := by
  have hproposed : newData.hash ∈ base :: chase tree lastBlock base (items ++ newData :: more) := by
    rw [chase_append, hlast, chase]
    apply List.mem_cons_of_mem
    apply List.mem_append_right
    exact List.mem_append_left _ (mem_extension hextends hbound)
  have hchain := onOneChain_of_isChain isChain_chase hproposed hmem
  have hheight : tree.height newData.hash = newData.number := by
    rw [HeaderStore.height, hextends.1, Option.getD_some]
  apply hchain.ancestor_of_rank_le (fun _ _ hparent => hparent.height_lt)
  rwa [hheight]

end RunAggregator
end AlephNode
