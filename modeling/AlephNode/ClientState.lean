import AlephNode.AncestorChains
import Mathlib.Order.Basic

/-!
# Headers and the client

The client answers header queries from a store in which every header lies under its own
hash and carries the number that follows its parent's. A failed query and an unknown
block are treated alike by all callers, so both are `none` here.
-/
namespace AlephNode

/-- `AlephData`: a block hash with the number that was announced for it. -/
structure AlephData (Hash : Type) where
  hash : Hash
  number : ℕ
  deriving DecidableEq, Repr

structure Header (Hash : Type) where
  hash : Hash
  number : ℕ
  parentHash : Hash
  deriving DecidableEq, Repr

structure HeaderStore (Hash : Type) where
  header : Hash → Option (Header Hash)
  hash_eq : ∀ h hd, header h = some hd → hd.hash = h
  number_eq : ∀ h hd pd, header h = some hd → header hd.parentHash = some pd →
    hd.number = pd.number + 1

/-- What `client.info()` reports, over the known headers. -/
structure Client (Hash : Type) extends HeaderStore Hash where
  finalizedHash : Hash
  finalizedNumber : ℕ
  bestNumber : ℕ

namespace HeaderStore
variable {Hash : Type} {store larger : HeaderStore Hash} {h p c : Hash}

/-- `client.number(hash)` -/
def number (store : HeaderStore Hash) (h : Hash) : Option ℕ := (store.header h).map Header.number

def Subset (store larger : HeaderStore Hash) : Prop :=
  ∀ h hd, store.header h = some hd → larger.header h = some hd

/-- Both blocks are known, and the first is the parent of the second. -/
def IsParent (store : HeaderStore Hash) (p c : Hash) : Prop :=
  ∃ pd cd, store.header p = some pd ∧ store.header c = some cd ∧ cd.parentHash = p

theorem Subset.refl (store : HeaderStore Hash) : Subset store store := fun _ _ h => h

def height (store : HeaderStore Hash) (h : Hash) : ℕ := (store.number h).getD 0

theorem height_eq {hd : Header Hash} (h : store.header p = some hd) :
    store.height p = hd.number := by
  simp [height, number, h]

theorem IsParent.height_eq_succ (h : IsParent store p c) :
    store.height c = store.height p + 1 := by
  obtain ⟨pd, cd, hp, hc, rfl⟩ := h
  rw [height_eq hp, height_eq hc]
  exact store.number_eq c cd pd hc hp

theorem IsParent.mono (h : IsParent store p c) (hsubset : Subset store larger) :
    IsParent larger p c := by
  obtain ⟨pd, cd, hp, hc, hparent⟩ := h
  exact ⟨pd, cd, hsubset p pd hp, hsubset c cd hc, hparent⟩

theorem IsParent.height_lt (h : IsParent store p c) : store.height p < store.height c := by
  rw [h.height_eq_succ]
  exact Nat.lt_succ_self _

end HeaderStore

namespace Client
variable {Hash : Type}

structure Grows (before after : Client Hash) : Prop where
  headers : before.toHeaderStore.Subset after.toHeaderStore
  finalized : before.finalizedNumber ≤ after.finalizedNumber

/-- `finalize_block`. The client refuses a block it does not know; whether it accepts one
that it knows is up to the client. -/
def finalizeBlock (client : Client Hash) (hash : Hash) (accepted : Bool) : Option (Client Hash) :=
  match client.header hash with
  | none => none
  | some header =>
    if accepted then
      some { client with finalizedHash := hash, finalizedNumber := header.number }
    else none

theorem finalizeBlock_of_known {client : Client Hash} {hash : Hash} {header : Header Hash}
    (h : client.header hash = some header) : client.finalizeBlock hash true =
      some { client with finalizedHash := hash, finalizedNumber := header.number } := by
  simp [finalizeBlock, h]

theorem finalizeBlock_eq_some {client client' : Client Hash} {hash : Hash} {accepted : Bool}
    (h : client.finalizeBlock hash accepted = some client') :
    ∃ header, client.header hash = some header ∧ client'.toHeaderStore = client.toHeaderStore ∧
      client'.finalizedHash = hash ∧ client'.finalizedNumber = header.number := by
  unfold finalizeBlock at h
  split at h
  · cases h
  · next header hknown =>
    split at h
    · cases h
      exact ⟨header, hknown, rfl, rfl, rfl⟩
    · cases h

/-- A client that knows one chain, whose block of number `n` has hash `n + 1`. -/
def ofLine (best finalized : ℕ) : Client ℕ where
  header h := if 0 < h ∧ h ≤ best + 1 then some ⟨h, h - 1, h - 1⟩ else none
  hash_eq h hd hknown := by
    split at hknown
    · cases hknown
      rfl
    · cases hknown
  number_eq h hd pd hknown hparent := by
    split at hknown
    · cases hknown
      dsimp only at hparent ⊢
      split at hparent
      · cases hparent
        dsimp only
        omega
      · cases hparent
    · cases hknown
  finalizedHash := finalized + 1
  finalizedNumber := finalized
  bestNumber := best

theorem ofLine_grows {best best' finalized finalized' : ℕ} (hbest : best ≤ best')
    (hfinalized : finalized ≤ finalized') :
    (ofLine best finalized).Grows (ofLine best' finalized') where
  headers h hd hknown := by
    simp only [ofLine] at hknown ⊢
    split at hknown
    · rw [if_pos (by omega)]
      exact hknown
    · cases hknown
  finalized := hfinalized

end Client
end AlephNode
