import AlephNode.AuthenticatedPeers
import Mathlib.Algebra.BigOperators.Group.Finset.Basic
import Mathlib.Algebra.Group.Action.Defs
import Mathlib.Algebra.Order.BigOperators.Group.Finset

/-!
# What the network component keeps of sessions

A session has an entry in the map of sessions, an entry in the record of each peer that is
authenticated for it, and one in the table of nodes. Where every peer is one node of a
session and no open stream is opened again, a session without the first two has no entry in
the table of nodes either. So what is kept is bounded by the number of sessions of which
something is left.
-/
namespace AlephNode

namespace Peers
variable {PeerId : Type} [DecidableEq PeerId]

/-- The number of sessions in the records of the peers and in the table of nodes. -/
def sessionEntries (peers : Peers PeerId) : ℕ :=
  ∑ peer ∈ peers.allPeers.keys,
    ((peers.allPeers.lookup peer).elim ∅ (·.authentications.keys)).card + peers.toPeer.keys.card

/-- Only these peers act, as one node of each session each, and none of them connects while
it is authenticated. -/
def Steady (known : Finset PeerId) (index : PeerId → SessionId → NodeIndex)
    (peers : Peers PeerId) : PeerEvent PeerId → Prop
  | .connected peer => peer ∈ known ∧ ∀ session, peers.isAuthenticated peer session = false
  | .authenticated peer session node => peer ∈ known ∧ node = index peer session
  | .disconnected _ => True

/-- The tables hold these peers only, as the nodes that they are, and match. -/
structure Settled (known : Finset PeerId) (index : PeerId → SessionId → NodeIndex)
    (peers : Peers PeerId) : Prop where
  known : peers.allPeers.keys ⊆ known
  recorded : ∀ peer session node, peers.nodeOf peer session = some node → node = index peer session
  matched : Matched peers
  nonempty : ∀ session nodes, peers.toPeer.lookup session = some nodes → nodes ≠ ∅

section Settled
variable {known : Finset PeerId} {index : PeerId → SessionId → NodeIndex} {peers : Peers PeerId}
  {event : PeerEvent PeerId}

theorem settled_new : Settled known index (new : Peers PeerId) where
  known _ h := by simp [new] at h
  recorded _ _ _ h := by simp at h
  matched _ _ _ h := by simp at h
  nonempty _ _ h := by simp [new] at h

theorem Steady.peerFree (h : Settled known index peers) (hsteady : Steady known index peers event) :
    PeerFree peers event := by
  cases event with
  | connected peer =>
    intro session node hget
    have hauthenticated := h.matched.isAuthenticated hget
    rw [hsteady.2 session] at hauthenticated
    cases hauthenticated
  | authenticated peer session node =>
    intro node' hne hget
    have hrecorded := h.recorded peer session node' (h.matched session node' peer hget)
    exact hne (hrecorded.trans hsteady.2.symm)
  | disconnected => trivial

private theorem keys_handle (h : peers.allPeers.keys ⊆ known)
    (hsteady : Steady known index peers event) : (peers.handle event).allPeers.keys ⊆ known := by
  intro peer' hpeer'
  rw [FiniteMap.mem_keys_iff] at hpeer'
  have hknown : ∀ info, peers.allPeers.lookup peer' = some info → peer' ∈ known := by
    intro info hlookup
    exact h ((FiniteMap.mem_keys_iff _ _).mpr ⟨info, hlookup⟩)
  obtain ⟨info, hinfo⟩ := hpeer'
  cases event with
  | connected peer =>
    simp only [handle, insert, FiniteMap.lookup_insert] at hinfo
    split at hinfo
    · next he => exact he ▸ hsteady.1
    · exact hknown info hinfo
  | authenticated peer session node =>
    simp only [handle, authenticate, FiniteMap.lookup_insert] at hinfo
    split at hinfo
    · next he => exact he ▸ hsteady.1
    · next hne =>
      split at hinfo
      · simp only [insert, FiniteMap.lookup_insert, if_neg hne] at hinfo
        exact hknown info hinfo
      · exact hknown info hinfo
  | disconnected peer =>
    simp only [handle, remove] at hinfo
    split at hinfo
    · exact hknown info hinfo
    · rw [FiniteMap.lookup_erase] at hinfo
      split at hinfo
      · cases hinfo
      · exact hknown info hinfo

private theorem nonempty_handle
    (h : ∀ session nodes, peers.toPeer.lookup session = some nodes → nodes ≠ ∅)
    (session : SessionId) (nodes : FiniteMap NodeIndex PeerId)
    (hnodes : (peers.handle event).toPeer.lookup session = some nodes) : nodes ≠ ∅ := by
  cases event with
  | connected peer => exact h session nodes hnodes
  | authenticated peer session' node =>
    simp only [handle, authenticate, FiniteMap.lookup_insert] at hnodes
    split at hnodes
    · cases hnodes
      intro hempty
      have hlookup := congrArg (fun m : FiniteMap NodeIndex PeerId => m.lookup node) hempty
      simp at hlookup
    · apply h session nodes
      split at hnodes <;> exact hnodes
  | disconnected peer =>
    simp only [handle, remove, FiniteMap.lookup_retain, Option.filter_eq_some_iff] at hnodes
    exact of_decide_eq_true hnodes.2

theorem Settled.step (h : Settled known index peers) (hsteady : Steady known index peers event) :
    Settled known index (peers.handle event) := by
  refine ⟨keys_handle h.known hsteady, ?_, (matched_step event h.matched).mpr (hsteady.peerFree h),
    nonempty_handle h.nonempty⟩
  intro peer' session' node' hnode
  cases event with
  | connected peer =>
    rw [handle, nodeOf_insert] at hnode
    split at hnode
    · cases hnode
    · exact h.recorded peer' session' node' hnode
  | authenticated peer session node =>
    rw [handle, nodeOf_authenticate] at hnode
    split at hnode
    · next hsame =>
      obtain ⟨rfl, rfl⟩ := hsame
      cases hnode
      exact hsteady.2
    · exact h.recorded peer' session' node' hnode
  | disconnected peer =>
    rw [handle, nodeOf_remove] at hnode
    split at hnode
    · cases hnode
    · exact h.recorded peer' session' node' hnode

/-- A session of the table of nodes is in the record of a peer. -/
theorem Settled.authenticated_of_mem_toPeer (h : Settled known index peers) {session : SessionId}
    (hsession : session ∈ peers.toPeer.keys) :
    ∃ peer, peers.isAuthenticated peer session = true := by
  obtain ⟨nodes, hnodes⟩ := (FiniteMap.mem_keys_iff _ _).mp hsession
  have hne := h.nonempty session nodes hnodes
  have hsome : ∃ node peer, nodes.lookup node = some peer := by
    by_contra hnone
    push Not at hnone
    apply hne
    apply Finmap.ext_lookup
    intro node
    rw [Finmap.lookup_empty]
    exact Option.eq_none_iff_forall_ne_some.mpr (hnone node)
  obtain ⟨node, peer, hpeer⟩ := hsome
  have hget : peers.get session node = some peer := by
    simp [get, hnodes, hpeer]
  exact ⟨peer, h.matched.isAuthenticated hget⟩

/-- The entries of the tables are bounded by the number of peers and that of the sessions
for which some peer is authenticated. -/
theorem Settled.sessionEntries_le (h : Settled known index peers) (sessions : Finset SessionId)
    (hsessions : ∀ peer session, peers.isAuthenticated peer session = true → session ∈ sessions) :
    peers.sessionEntries ≤ known.card * sessions.card + sessions.card := by
  have hrecord : ∀ peer ∈ peers.allPeers.keys,
      ((peers.allPeers.lookup peer).elim ∅ (·.authentications.keys)).card ≤ sessions.card := by
    intro peer hpeer
    obtain ⟨info, hinfo⟩ := (FiniteMap.mem_keys_iff _ _).mp hpeer
    rw [hinfo, Option.elim_some]
    apply Finset.card_le_card
    intro session hsession
    obtain ⟨node, hnode⟩ := (FiniteMap.mem_keys_iff _ _).mp hsession
    apply hsessions peer session
    rw [isAuthenticated_eq]
    simp [nodeOf, hinfo, hnode]
  have hrecords := Finset.sum_le_card_nsmul _ _ _ hrecord
  rw [smul_eq_mul] at hrecords
  have hpeers : peers.allPeers.keys.card * sessions.card ≤ known.card * sessions.card :=
    Nat.mul_le_mul_right _ (Finset.card_le_card h.known)
  have hnodes : peers.toPeer.keys.card ≤ sessions.card := by
    apply Finset.card_le_card
    intro session hsession
    obtain ⟨peer, hpeer⟩ := h.authenticated_of_mem_toPeer hsession
    exact hsessions peer session hpeer
  exact Nat.add_le_add (hrecords.trans hpeers) hnodes

end Settled
end Peers
end AlephNode
