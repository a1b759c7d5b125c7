import AlephNode.KeyBoxes
import AlephNode.SessionArithmetic

/-!
# Messages between nodes

What nodes send each other about sessions, with its encoding. A peer id is written as the
vector of its bytes; reading fails if the bytes are not those of a peer id.
-/
namespace AlephNode

class PeerIdBytes (PeerId : Type) where
  toBytes : PeerId → List UInt8
  fromBytes : List UInt8 → Option PeerId

structure PlainPeer where
  byte : UInt8
  deriving DecidableEq

instance : PeerIdBytes PlainPeer where
  toBytes p := [p.byte]
  fromBytes
    | [b] => some ⟨b⟩
    | _ => none

structure AuthData (PeerId : Type) where
  sessionId : SessionId
  peerId : PeerId
  nodeId : NodeIndex
  deriving DecidableEq

inductive MetaMessage (PeerId S : Type) where
  | authentication (authData : AuthData PeerId) (signature : Signature S)
  | authenticationRequest (sessionId : SessionId)
  deriving DecidableEq

inductive InternalMessage (PeerId S D : Type) where
  | ofMeta (message : MetaMessage PeerId S)
  | ofData (sessionId : SessionId) (data : D)
  deriving DecidableEq

section Codecs
variable {PeerId S D : Type} [PeerIdBytes PeerId] [Codec NodeIndex] [Codec S] [Codec D]

instance : Codec SessionId where
  encode s := Codec.encode s.val
  decode bytes := (Codec.decode bytes).map (fun (n, rest) => (⟨n⟩, rest))

@[reducible] def peerIdCodec : Codec PeerId where
  encode p := Codec.encode (PeerIdBytes.toBytes p)
  decode input := do
    let (bytes, rest) ← (Codec.decode input : Option (List UInt8 × List UInt8))
    let p ← PeerIdBytes.fromBytes bytes
    some (p, rest)

instance : Codec (AuthData PeerId) where
  encode d := Codec.encode d.sessionId ++ peerIdCodec.encode d.peerId ++ Codec.encode d.nodeId
  decode bytes := do
    let (sessionId, bytes) ← Codec.decode bytes
    let (peerId, bytes) ← peerIdCodec.decode bytes
    let (nodeId, bytes) ← Codec.decode bytes
    some (⟨sessionId, peerId, nodeId⟩, bytes)

instance : Codec (MetaMessage PeerId S) where
  encode
    | .authentication authData signature => 0 :: (Codec.encode authData ++ Codec.encode signature)
    | .authenticationRequest sessionId => 1 :: Codec.encode sessionId
  decode
    | 0 :: bytes => do
      let (authData, bytes) ← Codec.decode bytes
      let (signature, bytes) ← Codec.decode bytes
      some (.authentication authData signature, bytes)
    | 1 :: bytes => do
      let (sessionId, bytes) ← Codec.decode bytes
      some (.authenticationRequest sessionId, bytes)
    | _ => none

instance : Codec (InternalMessage PeerId S D) where
  encode
    | .ofMeta message => 0 :: Codec.encode message
    | .ofData sessionId data => 1 :: (Codec.encode sessionId ++ Codec.encode data)
  decode
    | 0 :: bytes => do
      let (message, bytes) ← Codec.decode bytes
      some (.ofMeta message, bytes)
    | 1 :: bytes => do
      let (sessionId, bytes) ← Codec.decode bytes
      let (data, bytes) ← Codec.decode bytes
      some (.ofData sessionId data, bytes)
    | _ => none

end Codecs
end AlephNode
