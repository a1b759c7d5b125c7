import AlephNode.FiniteMaps
import AlephNode.LabelledRuns
import AlephNode.PanicsAndChannels
import AlephNode.ClientState

/-!
# The data store

`DataStore` holds back network messages until all blocks they mention are available.
Messages that wait are indexed by block, and a counter for each message says how many of
its blocks are still missing. The sets of waiting messages and the map of dependents are
iterated in an unspecified order, which is an argument here: `order b` is the order in
which the messages that wait for `b` are visited. The client moves on while an event is
handled, so every block that is looked up comes with the client of that moment.
-/
namespace AlephNode

/-- `AlephNetworkMessage` -/
class AlephNetworkMessage (Message : Type) (Hash : outParam Type) where
  includedBlocks : Message → List (AlephData Hash)

structure BlockList where
  blocks : List (AlephData ℕ)
  deriving DecidableEq

instance : AlephNetworkMessage BlockList ℕ := ⟨BlockList.blocks⟩

/-- What the data store relies on in its cache of available blocks: a block is in the
cache only if it was put there. Any block may be evicted at any time. -/
class BlockCache (Cache : Type) (Block : outParam Type) where
  empty : Cache
  put : Cache → Block → Cache
  contains : Cache → Block → Bool
  contains_empty : ∀ b, contains empty b = false
  contains_put : ∀ c b b', contains (put c b) b' = true → b' = b ∨ contains c b' = true

def availableBlocksCacheSize : ℕ := 1000
def messageIdBoundary : ℕ := 100000

/-- `lru::LruCache` with the capacity of the data store, most recently used block first. -/
structure LruCache (Block : Type) where
  blocks : List Block
  deriving DecidableEq

instance {Block : Type} [DecidableEq Block] : BlockCache (LruCache Block) Block where
  empty := ⟨[]⟩
  put c b := ⟨(b :: c.blocks.erase b).take availableBlocksCacheSize⟩
  contains c b := decide (b ∈ c.blocks)
  contains_empty b := by simp
  contains_put c b b' h := by
    have hmem := List.mem_of_mem_take (of_decide_eq_true h)
    rcases List.mem_cons.mp hmem with rfl | hmem
    · exact .inl rfl
    · exact .inr (decide_eq_true (List.mem_of_mem_erase hmem))

/-- A message sent on `ready_messages_tx`. The client at the moment of sending is not part
of what is sent; it dates the message. -/
structure ReadyMessage (Hash Message : Type) where
  message : Message
  sentUnder : Client Hash

/-- The ids of messages are `u64` numbers. Here they do not run out. -/
structure DataStore (Hash Message Cache : Type) where
  nextMessageId : ℕ
  readyMessages : Channel (ReadyMessage Hash Message)
  dependentMessages : FiniteMap (AlephData Hash) (Finset ℕ)
  availableBlocks : Cache
  messageRequirements : FiniteMap ℕ ℕ
  pendingMessages : FiniteMap ℕ Message
  client : Client Hash

namespace DataStore
open AlephNetworkMessage

variable {Hash Message Cache : Type} [DecidableEq Hash] [AlephNetworkMessage Message Hash]
  [BlockCache Cache (AlephData Hash)]

/-- `DataStore::new` -/
def new (client : Client Hash) (readyMessages : Channel (ReadyMessage Hash Message)) :
    DataStore Hash Message Cache where
  nextMessageId := 0
  readyMessages := readyMessages
  dependentMessages := ∅
  availableBlocks := BlockCache.empty
  messageRequirements := ∅
  pendingMessages := ∅
  client := client

/-- The body of the loop in `forget_message`. -/
def forgetDependent (id : ℕ) (dependents : FiniteMap (AlephData Hash) (Finset ℕ))
    (blockData : AlephData Hash) : FiniteMap (AlephData Hash) (Finset ℕ) :=
  match dependents.lookup blockData with
  | none => dependents
  | some ids =>
    if ids.erase id = ∅ then dependents.erase blockData
    else dependents.insert blockData (ids.erase id)

def forgetMessage (store : DataStore Hash Message Cache) (id : ℕ) :
    DataStore Hash Message Cache :=
  let store := { store with messageRequirements := store.messageRequirements.erase id }
  match store.pendingMessages.lookup id with
  | none => store
  | some message =>
    { store with
      pendingMessages := store.pendingMessages.erase id
      dependentMessages := (includedBlocks message).foldl (forgetDependent id)
        store.dependentMessages }

/-- The body of the loop in `add_pending_message`. -/
def addDependent (id : ℕ) (dependents : FiniteMap (AlephData Hash) (Finset ℕ))
    (blockData : AlephData Hash) : FiniteMap (AlephData Hash) (Finset ℕ) :=
  dependents.insert blockData (insert id ((dependents.lookup blockData).getD ∅))

/-- The new message counts every element of the list of requirements. -/
def registerMessage (store : DataStore Hash Message Cache) (message : Message)
    (requirements : List (AlephData Hash)) : DataStore Hash Message Cache :=
  { store with
    nextMessageId := store.nextMessageId + 1
    dependentMessages := requirements.foldl (addDependent store.nextMessageId)
      store.dependentMessages
    messageRequirements := store.messageRequirements.insert store.nextMessageId
      requirements.length
    pendingMessages := store.pendingMessages.insert store.nextMessageId message }

def addPendingMessage (store : DataStore Hash Message Cache) (message : Message)
    (requirements : List (AlephData Hash)) : DataStore Hash Message Cache :=
  let messageId := store.nextMessageId
  let store := store.registerMessage message requirements
  if messageId ≥ messageIdBoundary then store.forgetMessage (messageId - messageIdBoundary)
  else store

def sendReady (store : DataStore Hash Message Cache) (message : Message) :
    DataStore Hash Message Cache :=
  { store with readyMessages := store.readyMessages.sendAll [⟨message, store.client⟩] }

/-- The body of the loop in `push_messages`. The subtraction would wrap in a release build. -/
def releaseRequirement (store : DataStore Hash Message Cache) (id : ℕ) :
    Result (DataStore Hash Message Cache) :=
  match store.messageRequirements.lookup id with
  | none => .error (.expect "there are some requirements")
  | some 0 => .error .subtractOverflow
  | some (k + 1) =>
    let store := { store with messageRequirements := store.messageRequirements.insert id k }
    if k = 0 then
      match store.pendingMessages.lookup id with
      | none => .error (.expect "there is a pending message")
      | some message =>
        let store := { store with pendingMessages := store.pendingMessages.erase id }
        let store := store.sendReady message
        .ok { store with messageRequirements := store.messageRequirements.erase id }
    else .ok store

def pushMessages (order : AlephData Hash → List ℕ) (store : DataStore Hash Message Cache)
    (blockData : AlephData Hash) : Result (DataStore Hash Message Cache) :=
  match store.dependentMessages.lookup blockData with
  | none => .ok store
  | some _ =>
    (order blockData).foldlM releaseRequirement
      { store with dependentMessages := store.dependentMessages.erase blockData }

def addBlock (order : AlephData Hash → List ℕ) (store : DataStore Hash Message Cache)
    (blockData : AlephData Hash) : Result (DataStore Hash Message Cache) :=
  pushMessages order
    { store with availableBlocks := BlockCache.put store.availableBlocks blockData } blockData

/-- The header is known to the client, or the announced number is finalized. -/
def Available (client : Client Hash) (blockData : AlephData Hash) : Prop :=
  (client.header blockData.hash).isSome ∨ blockData.number ≤ client.finalizedNumber

instance (client : Client Hash) (blockData : AlephData Hash) :
    Decidable (Available client blockData) := inferInstanceAs (Decidable (_ ∨ _))

/-- The filter of `add_message`: the blocks that have to be waited for, each looked up in
the client it comes with. Blocks that turn out to be available are added on the way. -/
def missingBlocks (order : AlephData Hash → List ℕ) (finalizedNumber : ℕ) :
    List (AlephData Hash × Client Hash) → DataStore Hash Message Cache →
      Result (List (AlephData Hash) × DataStore Hash Message Cache)
  | [], store => .ok ([], store)
  | (blockData, client) :: rest, store =>
    let store := { store with client := client }
    if BlockCache.contains store.availableBlocks blockData then
      missingBlocks order finalizedNumber rest store
    else if (store.client.header blockData.hash).isSome then do
      missingBlocks order finalizedNumber rest (← store.addBlock order blockData)
    else if finalizedNumber ≥ blockData.number then do
      missingBlocks order finalizedNumber rest (← store.addBlock order blockData)
    else do
      let (requirements, store) ← missingBlocks order finalizedNumber rest store
      .ok (blockData :: requirements, store)

def addMessage (order : AlephData Hash → List ℕ) (store : DataStore Hash Message Cache)
    (message : Message) (clients : List (Client Hash)) : Result (DataStore Hash Message Cache) := do
  let finalizedNumber := store.client.finalizedNumber
  let (requirements, store) ←
    missingBlocks order finalizedNumber ((includedBlocks message).zip clients) store
  if requirements.isEmpty then .ok (store.sendReady message)
  else .ok (store.addPendingMessage message requirements)

/-- The body of the loop in the maintenance branch of `run`. -/
def maintainBlock (order : AlephData Hash → List ℕ) (finalizedNumber : ℕ)
    (store : DataStore Hash Message Cache) (lookup : AlephData Hash × Client Hash) :
    Result (DataStore Hash Message Cache) :=
  let (blockData, client) := lookup
  let store := { store with client := client }
  if (store.client.header blockData.hash).isSome then store.addBlock order blockData
  else if finalizedNumber ≥ blockData.number then store.addBlock order blockData
  else .ok store

/-- The maintenance branch of `run`, with the dependents visited in the order of `keys`. -/
def maintain (order : AlephData Hash → List ℕ) (store : DataStore Hash Message Cache)
    (keys : List (AlephData Hash)) (clients : List (Client Hash)) :
    Result (DataStore Hash Message Cache) :=
  (keys.zip clients).foldlM (maintainBlock order store.client.finalizedNumber) store

/-- What happens around a data store: the three branches of `run`, and the moves of the
client and of the receiver of ready messages. `clients` are the states of the client in
which the blocks of a message, or the keys of a maintenance, are looked up. -/
inductive Event (Hash Message : Type) where
  | received (message : Message) (clients : List (Client Hash)) (order : AlephData Hash → List ℕ)
  | imported (block : Header Hash) (order : AlephData Hash → List ℕ)
  | maintenance (keys : List (AlephData Hash)) (clients : List (Client Hash))
      (order : AlephData Hash → List ℕ)
  | clientAdvanced (client : Client Hash)
  | readyReceiverDropped

def handle (store : DataStore Hash Message Cache) :
    Event Hash Message → Result (DataStore Hash Message Cache)
  | .received message clients order => store.addMessage order message clients
  | .imported block order => store.addBlock order ⟨block.hash, block.number⟩
  | .maintenance keys clients order => store.maintain order keys clients
  | .clientAdvanced client => .ok { store with client := client }
  | .readyReceiverDropped => .ok { store with readyMessages := store.readyMessages.dropReceiver }

/-- `order` is an order of iteration for every set of dependents. -/
def IsOrderFor (order : AlephData Hash → List ℕ)
    (dependents : FiniteMap (AlephData Hash) (Finset ℕ)) : Prop :=
  ∀ b ids, dependents.lookup b = some ids → Enumerates (order b) ids

instance (order : AlephData Hash → List ℕ) (dependents : FiniteMap (AlephData Hash) (Finset ℕ)) :
    Decidable (IsOrderFor order dependents) :=
  decidable_of_iff
    (∀ b ∈ dependents.keys, Enumerates (order b) ((dependents.lookup b).getD ∅)) (by
      constructor
      · intro h b ids hids
        simpa [hids] using h b (Finmap.mem_keys.mpr (Finmap.mem_of_lookup_eq_some hids))
      · intro h b hb
        obtain ⟨ids, hids⟩ := Finmap.mem_iff.mp (Finmap.mem_keys.mp hb)
        simpa [hids] using h b ids hids)

/-- The client moves through `clients`, one for each of `n` lookups, and only grows. -/
def Lookups (client : Client Hash) (n : ℕ) (clients : List (Client Hash)) : Prop :=
  clients.length = n ∧ (client :: clients).IsChain Client.Grows

/-- The iteration orders are orders of the sets iterated over, and the client only grows. -/
def Admissible (store : DataStore Hash Message Cache) : Event Hash Message → Prop
  | .received message clients order =>
    IsOrderFor order store.dependentMessages ∧
      Lookups store.client (includedBlocks message).length clients
  | .imported _ order => IsOrderFor order store.dependentMessages
  | .maintenance keys clients order =>
    IsOrderFor order store.dependentMessages ∧ Lookups store.client keys.length clients ∧
      Enumerates keys store.dependentMessages.keys
  | .clientAdvanced client => store.client.Grows client
  | .readyReceiverDropped => True

/-- One handled event. A handler that panics has no next state. -/
def Step (store : DataStore Hash Message Cache) (event : Event Hash Message)
    (next : DataStore Hash Message Cache) : Prop :=
  Admissible store event ∧ store.handle event = .ok next

end DataStore
end AlephNode
