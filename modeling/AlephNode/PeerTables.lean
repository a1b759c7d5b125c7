import AlephNode.FiniteMaps
import AlephNode.KeyBoxes
import AlephNode.LabelledRuns
import AlephNode.SessionArithmetic

/-!
# The tables of peers

`Peers` records for every connected peer as which node it is authenticated in each
session, and, the other way round, which peer stands for a node. Authenticating overwrites
both tables at one key; disconnecting removes from the second table what the first one
recorded for the peer, even where another peer has taken its place.
-/
namespace AlephNode

structure PeerInfo where
  authentications : FiniteMap SessionId NodeIndex
  deriving DecidableEq

namespace PeerInfo

def new : PeerInfo := ⟨∅⟩

def authenticatedFor (info : PeerInfo) (sessionId : SessionId) : Bool :=
  (info.authentications.lookup sessionId).isSome

def authenticate (info : PeerInfo) (sessionId : SessionId) (nodeId : NodeIndex) : PeerInfo :=
  ⟨info.authentications.insert sessionId nodeId⟩

end PeerInfo

structure Peers (PeerId : Type) where
  allPeers : FiniteMap PeerId PeerInfo
  toPeer : FiniteMap SessionId (FiniteMap NodeIndex PeerId)

namespace Peers
variable {PeerId : Type} [DecidableEq PeerId]

def new : Peers PeerId := ⟨∅, ∅⟩

def insert (peers : Peers PeerId) (peer : PeerId) : Peers PeerId :=
  { peers with allPeers := peers.allPeers.insert peer PeerInfo.new }

def isAuthenticated (peers : Peers PeerId) (peer : PeerId) (sessionId : SessionId) : Bool :=
  match peers.allPeers.lookup peer with
  | some info => info.authenticatedFor sessionId
  | none => false

def authenticate (peers : Peers PeerId) (peer : PeerId) (sessionId : SessionId)
    (nodeId : NodeIndex) : Peers PeerId :=
  let peers := if (peers.allPeers.lookup peer).isNone then peers.insert peer else peers
  let info := (peers.allPeers.lookup peer).getD PeerInfo.new
  let nodes := (peers.toPeer.lookup sessionId).getD ∅
  ⟨peers.allPeers.insert peer (info.authenticate sessionId nodeId),
    peers.toPeer.insert sessionId (nodes.insert nodeId peer)⟩

omit [DecidableEq PeerId] in
theorem removeNode_comm (toPeer : FiniteMap SessionId (FiniteMap NodeIndex PeerId))
    (session : SessionId) (node : NodeIndex) (session' : SessionId) (node' : NodeIndex) :
    (toPeer.modify session (·.erase node)).modify session' (·.erase node') =
      (toPeer.modify session' (·.erase node')).modify session (·.erase node) :=
  FiniteMap.modify_comm toPeer session session' (fun _ => Finmap.erase_erase)

def remove (peers : Peers PeerId) (peer : PeerId) : Peers PeerId :=
  let removed : Peers PeerId :=
    match peers.allPeers.lookup peer with
    | none => peers
    | some peerInfo =>
      { allPeers := peers.allPeers.erase peer
        toPeer := peerInfo.authentications.foldl
          (fun toPeer sessionId nodeId => toPeer.modify sessionId (·.erase nodeId))
          removeNode_comm peers.toPeer }
  { removed with toPeer := removed.toPeer.retain (fun _ nodes => decide (nodes ≠ ∅)) }

/-- The peers that stand for the nodes of a session, in the order of the nodes `order`. -/
def peersAuthenticatedFor (peers : Peers PeerId) (order : List NodeIndex) (sessionId : SessionId) :
    List PeerId :=
  match peers.toPeer.lookup sessionId with
  | none => []
  | some nodes => order.filterMap nodes.lookup

def get (peers : Peers PeerId) (sessionId : SessionId) (nodeId : NodeIndex) : Option PeerId := do
  (← peers.toPeer.lookup sessionId).lookup nodeId

def nodeOf (peers : Peers PeerId) (peer : PeerId) (sessionId : SessionId) : Option NodeIndex := do
  (← peers.allPeers.lookup peer).authentications.lookup sessionId

section Lookups
variable (peers : Peers PeerId) (peer peer' : PeerId) (session session' : SessionId)
  (node node' : NodeIndex)

theorem isAuthenticated_eq : peers.isAuthenticated peer session =
    (peers.nodeOf peer session).isSome := by
  unfold isAuthenticated nodeOf
  cases peers.allPeers.lookup peer with
  | none => rfl
  | some info => rfl

@[simp] theorem nodeOf_new : (new : Peers PeerId).nodeOf peer session = none := by
  simp [nodeOf, new]

omit [DecidableEq PeerId] in
@[simp] theorem get_new : (new : Peers PeerId).get session node = none := by
  simp [get, new]

theorem nodeOf_insert : (peers.insert peer).nodeOf peer' session =
    if peer' = peer then none else peers.nodeOf peer' session := by
  simp only [nodeOf, insert, FiniteMap.lookup_insert]
  split <;> simp [PeerInfo.new]

theorem nodeOf_authenticate : (peers.authenticate peer session node).nodeOf peer' session' =
    if peer' = peer ∧ session' = session then some node else peers.nodeOf peer' session' := by
  by_cases hpeer : peer' = peer
  · subst hpeer
    cases hinfo : peers.allPeers.lookup peer' with
    | none =>
      simp [nodeOf, authenticate, insert, hinfo, PeerInfo.authenticate, PeerInfo.new,
        FiniteMap.lookup_insert]
    | some info =>
      simp [nodeOf, authenticate, hinfo, PeerInfo.authenticate, FiniteMap.lookup_insert]
  · cases hinfo : peers.allPeers.lookup peer with
    | none => simp [nodeOf, authenticate, insert, hinfo, hpeer]
    | some info => simp [nodeOf, authenticate, hinfo, hpeer]

theorem get_authenticate : (peers.authenticate peer session node).get session' node' =
    if session' = session ∧ node' = node then some peer else peers.get session' node' := by
  have htoPeer : (peers.authenticate peer session node).toPeer = peers.toPeer.insert session
      (((peers.toPeer.lookup session).getD ∅).insert node peer) := by
    unfold authenticate
    dsimp only
    split <;> rfl
  simp only [get, htoPeer, FiniteMap.lookup_insert]
  by_cases hsession : session' = session
  · subst hsession
    cases peers.toPeer.lookup session' <;> simp [FiniteMap.lookup_insert]
  · simp [hsession]

theorem nodeOf_remove : (peers.remove peer).nodeOf peer' session =
    if peer' = peer then none else peers.nodeOf peer' session := by
  unfold nodeOf remove
  cases hinfo : peers.allPeers.lookup peer with
  | none =>
    by_cases hpeer : peer' = peer
    · subst hpeer
      simp [hinfo]
    · simp [hpeer]
  | some info =>
    by_cases hpeer : peer' = peer
    · subst hpeer
      simp
    · simp [hpeer]

private theorem bind_lookup_filter (nodes : Option (FiniteMap NodeIndex PeerId)) :
    (nodes.filter (fun nodes => decide (nodes ≠ ∅))).bind (·.lookup node) =
      nodes.bind (·.lookup node) := by
  cases nodes with
  | none => rfl
  | some nodes =>
    by_cases hempty : nodes = ∅
    · simp [hempty]
    · rw [Option.filter_some, if_pos (decide_eq_true hempty)]

omit [DecidableEq PeerId] in
private theorem bind_lookup_erase (nodes : Option (FiniteMap NodeIndex PeerId))
    (recorded : Option NodeIndex) :
    ((nodes.map (fun nodes => recorded.elim nodes (nodes.erase ·))).bind (·.lookup node)) =
      if recorded = some node then none else nodes.bind (·.lookup node) := by
  cases recorded with
  | none => simp
  | some node' =>
    cases nodes with
    | none => simp
    | some nodes =>
      by_cases he : node = node'
      · subst he
        simp
      · simp [he, Ne.symm he]

/-- Removing a peer removes the nodes that it is recorded as, whoever stands for them. -/
theorem get_remove : (peers.remove peer).get session node =
    if peers.nodeOf peer session = some node then none else peers.get session node := by
  unfold get nodeOf remove
  simp only [FiniteMap.lookup_retain, Option.bind_eq_bind, bind_lookup_filter]
  cases hinfo : peers.allPeers.lookup peer with
  | none => simp
  | some info =>
    simp only [FiniteMap.lookup_foldl_modify, Option.bind_some]
    exact bind_lookup_erase node _ _

theorem mem_allPeers_insert_self {peers : Peers PeerId} {peer : PeerId} :
    peer ∈ (peers.insert peer).allPeers.keys :=
  Finmap.mem_keys.mpr (Finmap.mem_insert.mpr (.inl rfl))

/-- Who is known stays known when another peer is inserted, authenticates or disconnects. -/
theorem mem_allPeers_insert {peers : Peers PeerId} {peer peer' : PeerId}
    (h : peer' ∈ peers.allPeers.keys) : peer' ∈ (peers.insert peer).allPeers.keys := by
  rw [Finmap.mem_keys] at h ⊢
  exact Finmap.mem_insert.mpr (.inr h)

theorem mem_allPeers_authenticate {peers : Peers PeerId} {peer peer' : PeerId}
    {session : SessionId} {node : NodeIndex} (h : peer' ∈ peers.allPeers.keys) :
    peer' ∈ (peers.authenticate peer session node).allPeers.keys := by
  unfold authenticate
  dsimp only
  rw [Finmap.mem_keys]
  apply Finmap.mem_insert.mpr
  right
  rw [← Finmap.mem_keys]
  split
  · exact mem_allPeers_insert h
  · exact h

theorem mem_allPeers_remove {peers : Peers PeerId} {peer peer' : PeerId}
    (h : peer' ∈ peers.allPeers.keys) (hne : peer' ≠ peer) :
    peer' ∈ (peers.remove peer).allPeers.keys := by
  unfold remove
  cases peers.allPeers.lookup peer with
  | none => exact h
  | some info =>
    rw [Finmap.mem_keys] at h ⊢
    exact Finmap.mem_erase.mpr ⟨hne, h⟩

omit [DecidableEq PeerId] in
theorem get_of_mem_peersAuthenticatedFor {peers : Peers PeerId} {peer : PeerId}
    {order : List NodeIndex} {session : SessionId}
    (h : peer ∈ peers.peersAuthenticatedFor order session) :
    ∃ node, peers.get session node = some peer := by
  unfold peersAuthenticatedFor at h
  cases hnodes : peers.toPeer.lookup session with
  | none => simp [hnodes] at h
  | some nodes =>
    simp only [hnodes, List.mem_filterMap] at h
    obtain ⟨node, _, hnode⟩ := h
    exact ⟨node, by simp [get, hnodes, hnode]⟩

end Lookups
end Peers
end AlephNode
