import AlephNode.PeerTables

/-!
# Runs of the peer tables

What goes wrong with the two tables goes wrong in single steps: a node that authenticates
from a new peer while it is still recorded for an old one, a peer that is inserted again or
authenticates as another node while the table of nodes still names it. Without such steps
disconnections are local and the tables match; with them they are not.
-/
namespace AlephNode

inductive PeerEvent (PeerId : Type) where
  | connected (peer : PeerId)
  | authenticated (peer : PeerId) (session : SessionId) (node : NodeIndex)
  | disconnected (peer : PeerId)

namespace Peers
variable {PeerId : Type} [DecidableEq PeerId]

def handle (peers : Peers PeerId) : PeerEvent PeerId → Peers PeerId
  | .connected peer => peers.insert peer
  | .authenticated peer session node => peers.authenticate peer session node
  | .disconnected peer => peers.remove peer

def Step (before : Peers PeerId) (event : PeerEvent PeerId) (after : Peers PeerId) : Prop :=
  after = before.handle event

/-- Removing any one peer would change nothing for the others. -/
def DisconnectionsLocal (peers : Peers PeerId) : Prop :=
  ∀ p q s n, q ≠ p →
    (peers.get s n = some q → (peers.remove p).get s n = some q) ∧
      (peers.remove p).isAuthenticated q s = peers.isAuthenticated q s

/-- No node authenticates from a new peer while another peer is recorded as that node. -/
def NodeFree (peers : Peers PeerId) : PeerEvent PeerId → Prop
  | .authenticated peer session node => ∀ p, p ≠ peer → peers.nodeOf p session ≠ some node
  | _ => True

/-- Every entry of the table of nodes is matched by the record of its peer. -/
def Matched (peers : Peers PeerId) : Prop :=
  ∀ s n p, peers.get s n = some p → peers.nodeOf p s = some n

/-- No peer that the table of nodes names is inserted again, or authenticates as another
node of the session for which it is named. -/
def PeerFree (peers : Peers PeerId) : PeerEvent PeerId → Prop
  | .connected peer => ∀ s n, peers.get s n ≠ some peer
  | .authenticated peer session node => ∀ n, n ≠ node → peers.get session n ≠ some peer
  | .disconnected _ => True

section Local
variable {peers : Peers PeerId}

/-- Disconnections are local exactly if no peer is recorded as a node for which another
peer stands. -/
theorem disconnectionsLocal_iff : DisconnectionsLocal peers ↔
    ∀ p q s n, peers.nodeOf p s = some n → peers.get s n = some q → q = p := by
  constructor
  · intro h p q s n hnode hget
    by_contra hne
    have hafter := (h p q s n hne).1 hget
    rw [get_remove, if_pos hnode] at hafter
    cases hafter
  · intro h p q s n hne
    constructor
    · intro hget
      rw [get_remove, if_neg (fun hnode => hne (h p q s n hnode hget))]
      exact hget
    · rw [isAuthenticated_eq, isAuthenticated_eq, nodeOf_remove, if_neg hne]

/-- From tables with local disconnections a step leads to such tables exactly if it gives
no occupied node to a new peer. -/
theorem disconnectionsLocal_step (event : PeerEvent PeerId) (h : DisconnectionsLocal peers) :
    DisconnectionsLocal (peers.handle event) ↔ NodeFree peers event := by
  rw [disconnectionsLocal_iff] at h ⊢
  cases event with
  | connected peer =>
    refine iff_of_true ?_ trivial
    intro p q s n hnode hget
    rw [handle, nodeOf_insert] at hnode
    split at hnode
    · cases hnode
    · exact h p q s n hnode hget
  | authenticated peer session node =>
    constructor
    · intro hafter p hne hnode
      apply hne
      refine (hafter p peer session node ?_ ?_).symm
      · rw [handle, nodeOf_authenticate, if_neg (fun hp => hne hp.1)]
        exact hnode
      · rw [handle, get_authenticate, if_pos ⟨rfl, rfl⟩]
    · intro hfree p q s n hnode hget
      rw [handle, nodeOf_authenticate] at hnode
      rw [handle, get_authenticate] at hget
      by_cases hentry : s = session ∧ n = node
      · obtain ⟨rfl, rfl⟩ := hentry
        rw [if_pos ⟨rfl, rfl⟩] at hget
        cases hget
        by_contra hne
        rw [if_neg (fun hp => hne hp.1.symm)] at hnode
        exact hfree p (Ne.symm hne) hnode
      · rw [if_neg hentry] at hget
        split at hnode
        · next hp =>
          cases hnode
          exact absurd ⟨hp.2, rfl⟩ hentry
        · exact h p q s n hnode hget
  | disconnected peer =>
    refine iff_of_true ?_ trivial
    intro p q s n hnode hget
    rw [handle, nodeOf_remove] at hnode
    rw [handle, get_remove] at hget
    split at hnode
    · cases hnode
    · split at hget
      · cases hget
      · exact h p q s n hnode hget

/-- The runs in which a disconnection would at any time affect the peer only that
disconnects are those in which no node authenticates from a new peer while another peer is
recorded as that node. -/
theorem disconnections_local_iff (events : List (PeerEvent PeerId)) (peers : Peers PeerId) :
    Run (EndingIn Step DisconnectionsLocal) new events peers ↔
      Run (Guarded Step NodeFree) new events peers := by
  apply Run.endingIn_iff_guarded
  · intro p q s n _
    simp [isAuthenticated_eq, nodeOf_remove]
  · intro before event after hlocal hstep
    rw [hstep]
    exact disconnectionsLocal_step event hlocal

/-- A node authenticates from a second peer, and the first one disconnects. -/
theorem disconnection_of_old_peer : ∃ (events : List (PeerEvent ℕ)) (peers : Peers ℕ),
    Run Step new events peers ∧ peers.get ⟨0⟩ ⟨3⟩ = some 2 ∧
      (peers.remove 1).get ⟨0⟩ ⟨3⟩ ≠ some 2 := by
  refine ⟨[.authenticated 2 ⟨0⟩ ⟨3⟩, .connected 2, .authenticated 1 ⟨0⟩ ⟨3⟩, .connected 1], _,
    .tail (.tail (.tail (.tail .refl rfl) rfl) rfl) rfl, ?_, ?_⟩
  · decide
  · decide

end Local

section Matched
variable {peers : Peers PeerId}

/-- Who stands for a node in matching tables is authenticated. -/
theorem Matched.isAuthenticated (h : Matched peers) {session : SessionId} {node : NodeIndex}
    {peer : PeerId} (hget : peers.get session node = some peer) :
    peers.isAuthenticated peer session = true := by
  rw [isAuthenticated_eq, h session node peer hget]
  rfl

/-- From matching tables a step leads to matching tables exactly if the peer concerned is
free. -/
theorem matched_step (event : PeerEvent PeerId) (h : Matched peers) :
    Matched (peers.handle event) ↔ PeerFree peers event := by
  cases event with
  | connected peer =>
    constructor
    · intro hafter s n hget
      have hnode := hafter s n peer hget
      rw [handle, nodeOf_insert, if_pos rfl] at hnode
      cases hnode
    · intro hfree s n p hget
      have hne : p ≠ peer := fun he => hfree s n (he ▸ hget)
      rw [handle, nodeOf_insert, if_neg hne]
      exact h s n p hget
  | authenticated peer session node =>
    constructor
    · intro hafter n hne hget
      have hget' : (peers.handle (.authenticated peer session node)).get session n = some peer := by
        rw [handle, get_authenticate, if_neg (fun he => hne he.2)]
        exact hget
      have hnode := hafter session n peer hget'
      rw [handle, nodeOf_authenticate, if_pos ⟨rfl, rfl⟩, Option.some.injEq] at hnode
      exact hne hnode.symm
    · intro hfree s n p hget
      rw [handle, get_authenticate] at hget
      rw [handle, nodeOf_authenticate]
      split at hget
      · next hentry =>
        cases hget
        rw [if_pos ⟨rfl, hentry.1⟩, hentry.2]
      · next hentry =>
        rw [if_neg]
        · exact h s n p hget
        · intro hsame
          obtain ⟨rfl, rfl⟩ := hsame
          have hne : n ≠ node := fun hn => hentry ⟨rfl, hn⟩
          exact hfree n hne hget
  | disconnected peer =>
    refine iff_of_true ?_ trivial
    intro s n p hget
    rw [handle, get_remove] at hget
    rw [handle, nodeOf_remove]
    split at hget
    · cases hget
    · next hnode =>
      have hmatched := h s n p hget
      have hne : p ≠ peer := by
        intro hsame
        subst hsame
        exact hnode hmatched
      rw [if_neg hne]
      exact hmatched

end Matched
end Peers
end AlephNode
