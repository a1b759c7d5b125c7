import AlephNode.PanicsAndChannels
import AlephNode.ScaleCodec

/-!
# Key boxes and multisignatures

A key box verifies signatures of the authorities of one session. The completeness check of
multisignatures belongs to aleph_bft; it is a parameter here that has to verify the
entries of a large enough set in order, until one fails.
-/
namespace AlephNode

/-- The position of an authority. Any number can come in from outside. -/
structure NodeIndex where
  val : ℕ
  deriving DecidableEq, Repr

/-- The signatures of the authorities' keys. Signing uses the key store of the node. -/
class SignatureScheme (AuthorityId : Type) (AuthoritySignature : outParam Type) where
  sign : AuthorityId → List UInt8 → AuthoritySignature
  verify : AuthorityId → List UInt8 → AuthoritySignature → Bool

/-- An encoding of node indices for examples, in eight bytes. -/
@[reducible] def nodeIndexCodec : Codec NodeIndex where
  encode i := Codec.encodeFixed 8 i.val
  decode bytes := (Codec.decodeFixed 8 bytes).map (fun (n, rest) => (⟨n⟩, rest))

structure Signature (AuthoritySignature : Type) where
  id : NodeIndex
  sgn : AuthoritySignature
  deriving DecidableEq, Repr

instance {S : Type} [Codec NodeIndex] [Codec S] : Codec (Signature S) where
  encode s := Codec.encode s.id ++ Codec.encode s.sgn
  decode bytes := do
    let (id, bytes) ← Codec.decode bytes
    let (sgn, bytes) ← Codec.decode bytes
    some (⟨id, sgn⟩, bytes)

/-- A scheme for examples: a signature is the message together with the key. -/
structure PlainKey where
  key : UInt32
  deriving DecidableEq

structure PlainSignature where
  key : UInt32
  msg : List UInt8
  deriving DecidableEq

instance : SignatureScheme PlainKey PlainSignature where
  sign authority msg := ⟨authority.key, msg⟩
  verify authority msg sgn := decide (sgn = ⟨authority.key, msg⟩)

instance : Codec PlainSignature where
  encode s := Codec.encode s.key ++ Codec.encode s.msg
  decode bytes := do
    let (key, bytes) ← Codec.decode bytes
    let (msg, bytes) ← Codec.decode bytes
    some (⟨key, msg⟩, bytes)

structure KeyBox (AuthorityId : Type) where
  id : NodeIndex
  authKeystore : AuthorityId
  authorities : List AuthorityId
  deriving DecidableEq

namespace KeyBox
variable {A S : Type} [SignatureScheme A S]

/-- `KeyBox::new` takes the key at the node's own index. -/
def new (id : NodeIndex) (authorities : List A) : Result (KeyBox A) :=
  match authorities[id.val]? with
  | none => .error .indexOutOfBounds
  | some authority => .ok ⟨id, authority, authorities⟩

def nodeCount (keybox : KeyBox A) : ℕ := keybox.authorities.length

def sign (keybox : KeyBox A) (msg : List UInt8) : Signature S :=
  ⟨keybox.id, SignatureScheme.sign keybox.authKeystore msg⟩

/-- The index is not compared with the number of authorities, nor with the one inside the
signature. -/
def verify (keybox : KeyBox A) (msg : List UInt8) (sgn : Signature S) (index : NodeIndex) :
    Result Bool :=
  match keybox.authorities[index.val]? with
  | none => .error .indexOutOfBounds
  | some authority => .ok (SignatureScheme.verify authority msg sgn.sgn)

end KeyBox

/-- `SignatureSet`: at every position a signature or nothing. -/
abbrev SignatureSet (S : Type) := List (Option (Signature S))

namespace SignatureSet
variable {S : Type}

/-- The entries that are present, with their positions, in order. -/
def present (set : SignatureSet S) : List (NodeIndex × Signature S) :=
  set.zipIdx.filterMap (fun (entry, i) => entry.map (⟨i⟩, ·))

def verifyInOrder (verify : Signature S → NodeIndex → Result Bool) :
    List (NodeIndex × Signature S) → Result Bool
  | [] => .ok true
  | (index, sgn) :: rest => do
    if ← verify sgn index then verifyInOrder verify rest else .ok false

end SignatureSet

/-- What is used of aleph_bft's `DefaultMultiKeychain`: its completeness check for a number
of nodes and a way to verify single signatures. -/
class MultiKeychain (S : Type) where
  quorum : ℕ → ℕ
  isComplete : ℕ → (Signature S → NodeIndex → Result Bool) → SignatureSet S → Result Bool
  two_thirds_lt_quorum : ∀ nodes, 2 * nodes / 3 < quorum nodes
  too_few : ∀ nodes verify set, set.present.length < quorum nodes →
    isComplete nodes verify set = .ok false
  enough : ∀ nodes verify set, quorum nodes ≤ set.present.length →
    isComplete nodes verify set = SignatureSet.verifyInOrder verify set.present

instance defaultMultiKeychain (S : Type) : MultiKeychain S where
  quorum nodes := 2 * nodes / 3 + 1
  isComplete nodes verify set :=
    if set.present.length < 2 * nodes / 3 + 1 then .ok false
    else SignatureSet.verifyInOrder verify set.present
  two_thirds_lt_quorum _ := Nat.lt_succ_self _
  too_few _ _ _ h := if_pos h
  enough _ _ _ h := if_neg (Nat.not_lt.mpr h)

section Verification
variable {A S : Type} [SignatureScheme A S] {authorities : List A} {msg : List UInt8}

/-- The entry is a signature of the message by the authority at its position. -/
def Genuine (authorities : List A) (msg : List UInt8) (entry : NodeIndex × Signature S) : Prop :=
  ∃ authority, authorities[entry.1.val]? = some authority ∧
    SignatureScheme.verify authority msg entry.2.sgn = true

theorem Genuine.inRange {entry : NodeIndex × Signature S} (h : Genuine authorities msg entry) :
    entry.1.val < authorities.length := by
  obtain ⟨_, hauthority, _⟩ := h
  exact (List.getElem?_eq_some_iff.mp hauthority).1

theorem KeyBox.verify_of_inRange (msg : List UInt8) {keybox : KeyBox A}
    {entry : NodeIndex × Signature S}
    (h : entry.1.val < keybox.authorities.length) :
    ∃ valid, keybox.verify msg entry.2 entry.1 = .ok valid ∧
      (valid = true ↔ Genuine keybox.authorities msg entry) := by
  refine ⟨SignatureScheme.verify (keybox.authorities[entry.1.val]) msg entry.2.sgn,
    by simp only [KeyBox.verify, List.getElem?_eq_getElem h], ?_⟩
  simp [Genuine, List.getElem?_eq_getElem h]

theorem KeyBox.verify_of_outOfRange {keybox : KeyBox A} {entry : NodeIndex × Signature S}
    (h : ¬entry.1.val < keybox.authorities.length) :
    keybox.verify msg entry.2 entry.1 = .error .indexOutOfBounds := by
  simp only [KeyBox.verify, List.getElem?_eq_none (Nat.not_lt.mp h)]

namespace SignatureSet

theorem present_sorted (set : SignatureSet S) :
    set.present.Pairwise (fun e e' => e.1.val < e'.1.val) := by
  have hpos : set.zipIdx.Pairwise (fun e e' => e.2 < e'.2) := by
    rw [← List.pairwise_map (f := Prod.snd) (R := (· < ·)), List.zipIdx_map_snd]
    exact List.pairwise_lt_range'
  refine hpos.filterMap _ ?_
  rintro ⟨entry, i⟩ ⟨entry', j⟩ hlt e he e' he'
  obtain ⟨_, _, rfl⟩ := Option.map_eq_some_iff.mp he
  obtain ⟨_, _, rfl⟩ := Option.map_eq_some_iff.mp he'
  exact hlt

variable {keybox : KeyBox A} {entries : List (NodeIndex × Signature S)}

theorem verifyInOrder_eq_true :
    verifyInOrder (keybox.verify msg) entries = .ok true ↔
      ∀ e ∈ entries, Genuine keybox.authorities msg e := by
  induction entries with
  | nil => simp [verifyInOrder]
  | cons e rest ih =>
    by_cases hrange : e.1.val < keybox.authorities.length
    · obtain ⟨valid, hverify, hvalid⟩ := KeyBox.verify_of_inRange msg hrange
      cases valid <;> simp_all [verifyInOrder]
    · have hnot : ¬Genuine keybox.authorities msg e := fun h => hrange h.inRange
      simp [verifyInOrder, KeyBox.verify_of_outOfRange hrange, hnot, bind, Except.bind]

/-- Verification in order panics exactly if an entry is out of range and none of those in
range fails before it. -/
theorem verifyInOrder_returns (hsorted : entries.Pairwise (fun e e' => e.1.val < e'.1.val)) :
    Returns (verifyInOrder (keybox.verify msg) entries) ↔
      (∀ e ∈ entries, e.1.val < keybox.authorities.length) ∨
        ∃ e ∈ entries, e.1.val < keybox.authorities.length ∧
          ¬Genuine keybox.authorities msg e := by
  induction entries with
  | nil => simp [verifyInOrder, Returns]
  | cons e rest ih =>
    obtain ⟨hhead, hrest⟩ := List.pairwise_cons.mp hsorted
    by_cases hrange : e.1.val < keybox.authorities.length
    · obtain ⟨valid, hverify, hvalid⟩ := KeyBox.verify_of_inRange msg hrange
      cases valid with
      | true =>
        have hgenuine := hvalid.mp rfl
        simp [verifyInOrder, hverify, ih hrest, hrange, hgenuine]
      | false =>
        have hnot : ¬Genuine keybox.authorities msg e := by simpa using hvalid
        simp [verifyInOrder, hverify, hrange, hnot, Returns]
    · -- every later position is out of range too
      have hlater : ∀ e' ∈ rest, ¬e'.1.val < keybox.authorities.length := by
        intro e' he'
        have hlt := hhead e' he'
        omega
      have hpanic : ¬Returns (verifyInOrder (keybox.verify msg) (e :: rest)) := by
        simp [verifyInOrder, KeyBox.verify_of_outOfRange hrange, Returns, bind, Except.bind]
      simp only [hpanic, List.forall_mem_cons, hrange, false_and, List.exists_mem_cons_iff,
        false_or, false_iff]
      rintro ⟨e', he', hin, _⟩
      exact hlater e' he' hin

end SignatureSet
end Verification
end AlephNode
