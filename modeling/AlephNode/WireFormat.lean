import AlephNode.ConsensusNetwork
import AlephNode.MessageRoundTrips

/-!
# The wire format

Messages are read back from their encodings whatever follows, so that what a receiver
encodes again is what the sender signed, and no signed text begins another one.
-/
namespace AlephNode

/-- Node indices are of type `usize`. -/
def NodeIndex.IsUsize (i : NodeIndex) : Prop := i.val < 2 ^ 64

/-- The encoding of node indices is that of a fixed-width integer. -/
class LawfulIndexCodec [Codec NodeIndex] : Prop where
  decode_encode (i : NodeIndex) (h : i.IsUsize) (rest : List UInt8) :
    Codec.decode (Codec.encode i ++ rest) = some (i, rest)

theorem nodeIndexCodec_lawful : @LawfulIndexCodec nodeIndexCodec := by
  let indices := nodeIndexCodec
  constructor
  · intro i h rest
    show (Codec.decodeFixed 8 (Codec.encodeFixed 8 i.val ++ rest)).map _ = _
    rw [Codec.decodeFixed_encodeFixed, Option.map_some]
    have hvalue : i.val % 256 ^ 8 = i.val := Nat.mod_eq_of_lt h
    rw [hvalue]

section Messages
variable {PeerId A S D : Type}

def InternalMessage.Representable : InternalMessage PeerId S D → Prop
  | .ofMeta (.authentication authData signature) => authData.nodeId.IsUsize ∧ signature.id.IsUsize
  | .ofMeta (.authenticationRequest _) => True
  | .ofData _ _ => True

variable [PeerIdBytes PeerId] [Codec NodeIndex] [Codec S] [Codec D]
  [LawfulPeerIdBytes PeerId] [LawfulIndexCodec] [LawfulCodec S] [LawfulCodec D]

theorem signature_readsBack {signature : Signature S} (h : signature.id.IsUsize) :
    Codec.ReadsBack signature := by
  intro rest
  show ((Codec.decode ((Codec.encode signature.id ++ Codec.encode signature.sgn) ++ rest) :
    Option (NodeIndex × List UInt8)) >>= _) = _
  rw [List.append_assoc, LawfulIndexCodec.decode_encode _ h]
  show ((Codec.decode (Codec.encode signature.sgn ++ rest) : Option (S × List UInt8)) >>= _) = _
  rw [LawfulCodec.decode_encode]
  rfl

omit [Codec D] [LawfulCodec D] in
theorem metaMessage_readsBack {message : MetaMessage PeerId S}
    (h : (.ofMeta message : InternalMessage PeerId S D).Representable) :
    Codec.ReadsBack message := by
  intro rest
  cases message with
  | authentication authData signature =>
    obtain ⟨hnode, hid⟩ := h
    show ((Codec.decode ((Codec.encode authData ++ Codec.encode signature) ++ rest) :
      Option (AuthData PeerId × List UInt8)) >>= _) = _
    rw [List.append_assoc, authData_readsBack (LawfulIndexCodec.decode_encode _ hnode)]
    show ((Codec.decode (Codec.encode signature ++ rest) :
      Option (Signature S × List UInt8)) >>= _) = _
    rw [signature_readsBack hid]
    rfl
  | authenticationRequest sessionId =>
    show ((Codec.decode (Codec.encode sessionId ++ rest) :
      Option (SessionId × List UInt8)) >>= _) = _
    rw [LawfulCodec.decode_encode]
    rfl

theorem internalMessage_readsBack {message : InternalMessage PeerId S D}
    (h : message.Representable) : Codec.ReadsBack message := by
  intro rest
  cases message with
  | ofMeta message =>
    show ((Codec.decode (Codec.encode message ++ rest) :
      Option (MetaMessage PeerId S × List UInt8)) >>= _) = _
    rw [metaMessage_readsBack h]
    rfl
  | ofData sessionId data =>
    show ((Codec.decode ((Codec.encode sessionId ++ Codec.encode data) ++ rest) :
      Option (SessionId × List UInt8)) >>= _) = _
    rw [List.append_assoc, LawfulCodec.decode_encode]
    show ((Codec.decode (Codec.encode data ++ rest) : Option (D × List UInt8)) >>= _) = _
    rw [LawfulCodec.decode_encode]
    rfl

/-- Every message is read back whatever follows it. What a receiver of an authentication
encodes to verify it is what `start_session` signed, and what is signed for one session,
peer and node does not begin what is signed for others. -/
theorem messages_read_back [SignatureScheme A S] :
    (∀ (message : InternalMessage PeerId S D) (suffix : List UInt8), message.Representable →
      Codec.decode (Codec.encode message ++ suffix) = some (message, suffix)) ∧
    (∀ (net : ConsensusNetwork PeerId A S D) (session : SessionId) (keychain : KeyBox A)
      (suffix : List UInt8), keychain.id.IsUsize → ∃ received signature,
        Codec.decode (Codec.encode (.ofMeta (net.startSession session keychain).2 :
          InternalMessage PeerId S D) ++ suffix) =
            some ((.ofMeta (.authentication received signature) : InternalMessage PeerId S D),
              suffix) ∧
        received = ⟨session, net.localPeerId, keychain.id⟩ ∧
        signature = keychain.sign (Codec.encode received)) ∧
    ∀ a b : AuthData PeerId, a.nodeId.IsUsize → b.nodeId.IsUsize →
      Codec.encode a <+: Codec.encode b → a = b := by
  refine ⟨?_, ?_, ?_⟩
  · intro message suffix h
    exact internalMessage_readsBack h suffix
  · intro net session keychain suffix hindex
    refine ⟨_, _, internalMessage_readsBack ?_ suffix, rfl, rfl⟩
    exact ⟨hindex, hindex⟩
  · intro a b ha hb hprefix
    have hreadA := authData_readsBack (LawfulIndexCodec.decode_encode _ ha)
    have hreadB := authData_readsBack (LawfulIndexCodec.decode_encode _ hb)
    exact hreadA.eq_of_prefix hreadB hprefix

end Messages

section Example

@[reducible] private def checksum : SignatureScheme UInt32 UInt32 where
  sign key msg := msg.foldl (fun sum byte => 31 * sum + byte.toUInt32) key
  verify key msg sgn := decide (sgn = msg.foldl (fun sum byte => 31 * sum + byte.toUInt32) key)

attribute [local instance] nodeIndexCodec nodeIndexCodec_lawful checksum

theorem messages_read_back_plain :
    (∀ suffix : List UInt8, Codec.decode (Codec.encode (.ofMeta (.authentication
        ⟨⟨3⟩, ⟨1⟩, ⟨2⟩⟩ ⟨⟨2⟩, 5⟩) : InternalMessage PlainPeer UInt32 UInt32) ++ suffix) =
      some ((.ofMeta (.authentication ⟨⟨3⟩, ⟨1⟩, ⟨2⟩⟩ ⟨⟨2⟩, 5⟩) :
        InternalMessage PlainPeer UInt32 UInt32), suffix)) ∧
    ¬ Codec.encode (⟨⟨3⟩, ⟨1⟩, ⟨2⟩⟩ : AuthData PlainPeer) <+:
      Codec.encode (⟨⟨3⟩, ⟨1⟩, ⟨7⟩⟩ : AuthData PlainPeer) := by
  have hindex : ∀ i : ℕ, i < 8 → NodeIndex.IsUsize ⟨i⟩ := by
    intro i hi
    exact hi.trans (by decide)
  obtain ⟨hmessage, _, hauth⟩ := @messages_read_back PlainPeer UInt32 UInt32 UInt32 _ _ _ _ _ _ _ _ _
  constructor
  · intro suffix
    exact hmessage _ suffix ⟨hindex 2 (by decide), hindex 2 (by decide)⟩
  · intro hprefix
    have heq := hauth _ _ (hindex 2 (by decide)) (hindex 7 (by decide)) hprefix
    cases heq

end Example
end AlephNode
