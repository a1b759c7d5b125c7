import AlephNode.CodecRoundTrips
import AlephNode.NetworkMessages

/-!
# Round trips of messages

What a node sends is read by its receiver as what it was: data as the same data, and an
authentication with the same content. Peer ids, node indices and payloads belong to other
libraries; their encodings are assumed to be read back.
-/
namespace AlephNode

/-- The bytes of a peer id can be read back, and they are few. -/
class LawfulPeerIdBytes (PeerId : Type) [PeerIdBytes PeerId] : Prop where
  fromBytes_toBytes (p : PeerId) : PeerIdBytes.fromBytes (PeerIdBytes.toBytes p) = some p
  length_lt (p : PeerId) : (PeerIdBytes.toBytes p).length < 2 ^ 32

instance : LawfulPeerIdBytes PlainPeer where
  fromBytes_toBytes _ := rfl
  length_lt _ := Nat.one_lt_two_pow (by decide)

instance : LawfulCodec SessionId where
  decode_encode s rest := by
    show (Codec.decode (Codec.encode s.val ++ rest)).map _ = _
    rw [LawfulCodec.decode_encode]
    rfl

section Messages
variable {PeerId S D : Type} [PeerIdBytes PeerId] [Codec NodeIndex] [Codec S] [Codec D]

omit [Codec NodeIndex] in
theorem peerIdCodec_decode_encode [LawfulPeerIdBytes PeerId] (p : PeerId) (rest : List UInt8) :
    peerIdCodec.decode (peerIdCodec.encode p ++ rest) = some (p, rest) := by
  show ((Codec.decode (Codec.encode (PeerIdBytes.toBytes p) ++ rest) :
    Option (List UInt8 × List UInt8)) >>= _) = _
  rw [Codec.decode_encode_list (LawfulPeerIdBytes.length_lt p)]
  show (PeerIdBytes.fromBytes (PeerIdBytes.toBytes p) >>= _) = _
  rw [LawfulPeerIdBytes.fromBytes_toBytes]
  rfl

theorem authData_readsBack [LawfulPeerIdBytes PeerId] {d : AuthData PeerId}
    (hnode : Codec.ReadsBack d.nodeId) : Codec.ReadsBack d := by
  intro rest
  show ((Codec.decode ((Codec.encode d.sessionId ++ peerIdCodec.encode d.peerId ++
    Codec.encode d.nodeId) ++ rest) : Option (SessionId × List UInt8)) >>= _) = _
  rw [List.append_assoc, List.append_assoc, LawfulCodec.decode_encode]
  show (peerIdCodec.decode (peerIdCodec.encode d.peerId ++ (Codec.encode d.nodeId ++ rest)) >>=
    _) = _
  rw [peerIdCodec_decode_encode]
  show ((Codec.decode (Codec.encode d.nodeId ++ rest) : Option (NodeIndex × List UInt8)) >>=
    _) = _
  rw [hnode]
  rfl

theorem decode_encode_ofData {data : D} (hdata : Codec.decode (Codec.encode data) = some (data, []))
    (session : SessionId) :
    Codec.decode (Codec.encode (.ofData session data : InternalMessage PeerId S D)) =
      some ((.ofData session data : InternalMessage PeerId S D), []) := by
  show ((Codec.decode (Codec.encode session ++ Codec.encode data) :
    Option (SessionId × List UInt8)) >>= _) = _
  rw [LawfulCodec.decode_encode]
  show ((Codec.decode (Codec.encode data) : Option (D × List UInt8)) >>= _) = _
  rw [hdata]
  rfl

theorem decode_encode_ofMeta {message : MetaMessage PeerId S} {session : SessionId} {data : D}
    {rest : List UInt8} :
    Codec.decode (Codec.encode (.ofMeta message : InternalMessage PeerId S D)) ≠
      some ((.ofData session data : InternalMessage PeerId S D), rest) := by
  show ((Codec.decode (Codec.encode message) : Option (MetaMessage PeerId S × List UInt8)) >>=
    _) ≠ _
  intro h
  obtain ⟨_, _, hmessage⟩ := Option.bind_eq_some_iff.mp h
  cases hmessage

/-- What is read as an authentication was sent as an authentication with this content, if
the index that it names is read back. -/
theorem sent_of_decode_authentication [LawfulPeerIdBytes PeerId]
    {message : InternalMessage PeerId S D} {authData : AuthData PeerId} {signature : Signature S}
    {rest : List UInt8} (h : Codec.decode (Codec.encode message) =
      some ((.ofMeta (.authentication authData signature) : InternalMessage PeerId S D), rest))
    (hnode : ∀ authData' signature', message = .ofMeta (.authentication authData' signature') →
      Codec.ReadsBack authData'.nodeId) :
    ∃ signature', message = .ofMeta (.authentication authData signature') := by
  cases message with
  | ofData session data =>
    obtain ⟨_, _, hrest⟩ := Option.bind_eq_some_iff.mp h
    obtain ⟨_, _, hrest⟩ := Option.bind_eq_some_iff.mp hrest
    cases hrest
  | ofMeta message =>
    obtain ⟨⟨read, _⟩, hread, hrest⟩ := Option.bind_eq_some_iff.mp h
    cases hrest
    cases message with
    | authenticationRequest session =>
      obtain ⟨_, _, hrest⟩ := Option.bind_eq_some_iff.mp hread
      cases hrest
    | authentication authData' signature' =>
      obtain ⟨⟨_, _⟩, hauthData, hrest⟩ := Option.bind_eq_some_iff.mp hread
      rw [authData_readsBack (hnode authData' signature' rfl)] at hauthData
      cases hauthData
      obtain ⟨_, _, hrest⟩ := Option.bind_eq_some_iff.mp hrest
      cases hrest
      exact ⟨signature', rfl⟩

end Messages
end AlephNode
