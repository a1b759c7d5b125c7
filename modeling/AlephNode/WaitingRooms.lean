import Mathlib.Data.Finset.Card
import Mathlib.Data.List.Infix

/-!
# Waiting rooms

Messages arrive with a list of items that they require, and items are supplied one by one.
A message that requires nothing passes at once. Any other one is registered under the next
number and waits; it is served by the item that completes what it requires, unless `capacity`
further messages were registered in the meantime. What waits and what was served is told
from the history of arrivals and supplies.
-/
namespace AlephNode

variable {Item Message : Type}

/-- A message that waits. The surplus counts the repetitions among what it required; no
supply takes anything off it. -/
@[ext] structure WaitingMessage (Item Message : Type) where
  message : Message
  missing : Finset Item
  surplus : ℕ

structure WaitingRoom (Item Message : Type) where
  registered : ℕ
  waiting : ℕ → Option (WaitingMessage Item Message)
  passed : List Message
  served : List (ℕ × Message)

namespace WaitingRoom

inductive Operation (Item Message : Type) where
  | supply (item : Item)
  | arrive (message : Message) (required : List Item)
  deriving DecidableEq

namespace Operation

def registers : Operation Item Message → Bool
  | .supply _ => false
  | .arrive _ required => !required.isEmpty

def registrations (operations : List (Operation Item Message)) : ℕ := operations.countP registers

def passing : Operation Item Message → Option Message
  | .arrive message [] => some message
  | _ => none

/-- The message registered under the number `n` required these items, and the operations
`later` came after it. -/
def BeganWaiting (operations : List (Operation Item Message)) (n : ℕ) (message : Message)
    (required : List Item) (later : List (Operation Item Message)) : Prop :=
  ∃ earlier, operations = earlier ++ .arrive message required :: later ∧ required ≠ [] ∧
    registrations earlier = n

/-- The items were all supplied, and none of them had been required twice. -/
def Supplied (required : List Item) (operations : List (Operation Item Message)) : Prop :=
  required.Nodup ∧ ∀ item ∈ required, .supply item ∈ operations

/-- The message registered under the number `n` still waits. -/
def StillWaits (capacity : ℕ) (operations : List (Operation Item Message)) (n : ℕ)
    (message : Message) : Prop :=
  ∃ required later, BeganWaiting operations n message required later ∧
    registrations later < capacity ∧ ¬Supplied required later

/-- The message registered under the number `n` got all that it required in time. -/
def GotServed (capacity : ℕ) (operations : List (Operation Item Message)) (n : ℕ)
    (message : Message) : Prop :=
  ∃ required later inTime, BeganWaiting operations n message required later ∧
    inTime <+: later ∧ registrations inTime < capacity ∧ Supplied required inTime

section History
variable {n : ℕ} {message message' : Message} {item : Item} {required required' : List Item}
  {operation : Operation Item Message} {operations later later' : List (Operation Item Message)}

theorem registrations_concat :
    registrations (operations ++ [operation]) =
      registrations operations + if operation.registers then 1 else 0 := by
  simp [registrations, List.countP_append, List.countP_cons]

theorem BeganWaiting.concat_iff :
    BeganWaiting (operations ++ [operation]) n message required later ↔
      (later = [] ∧ operation = .arrive message required ∧ required ≠ [] ∧
        registrations operations = n) ∨
      ∃ later', later = later' ++ [operation] ∧
        BeganWaiting operations n message required later' := by
  constructor
  · rintro ⟨earlier, hsplit, hrequired, hnumber⟩
    rcases List.eq_nil_or_concat later with rfl | ⟨later', last, rfl⟩
    · obtain ⟨rfl, hlast⟩ := List.append_inj' hsplit rfl
      exact .inl ⟨rfl, by simpa using hlast, hrequired, hnumber⟩
    · have hends : operations ++ [operation] =
          (earlier ++ .arrive message required :: later') ++ [last] := by simpa using hsplit
      obtain ⟨rfl, hlast⟩ := List.append_inj' hends rfl
      obtain rfl := List.singleton_inj.mp hlast
      exact .inr ⟨later', by simp, earlier, rfl, hrequired, hnumber⟩
  · rintro (⟨rfl, rfl, hrequired, hnumber⟩ | ⟨later', rfl, earlier, rfl, hrequired, hnumber⟩)
    · exact ⟨operations, rfl, hrequired, hnumber⟩
    · exact ⟨earlier, by simp, hrequired, hnumber⟩

theorem BeganWaiting.concat (h : BeganWaiting operations n message required later)
    (operation : Operation Item Message) :
    BeganWaiting (operations ++ [operation]) n message required (later ++ [operation]) :=
  BeganWaiting.concat_iff.mpr (.inr ⟨later, rfl, h⟩)

/-- The number of a message, its own registration and the later ones make up all of them. -/
theorem BeganWaiting.registrations_eq
    (h : BeganWaiting operations n message required later) :
    registrations operations = n + registrations later + 1 := by
  obtain ⟨earlier, rfl, hrequired, rfl⟩ := h
  simp [registrations, List.countP_append, List.countP_cons, registers, hrequired]
  omega

theorem BeganWaiting.unique (h : BeganWaiting operations n message required later)
    (h' : BeganWaiting operations n message' required' later') :
    message = message' ∧ required = required' ∧ later = later' := by
  have hlater : registrations later = registrations later' := by
    have hcount := h.registrations_eq
    have hcount' := h'.registrations_eq
    omega
  obtain ⟨earlier, rfl, hrequired, hnumber⟩ := h
  obtain ⟨earlier', hsplit, hrequired', hnumber'⟩ := h'
  rcases List.append_eq_append_iff.mp hsplit with ⟨between, rfl, hrest⟩ | ⟨between, rfl, hrest⟩
  · cases between with
    | nil => simpa [and_assoc] using hrest
    | cons operation between =>
      -- the first message would have been registered before the second one
      simp only [List.cons_append, List.cons.injEq] at hrest
      obtain ⟨rfl, -⟩ := hrest
      simp [registrations, List.countP_append, List.countP_cons, registers, hrequired]
        at hnumber hnumber'
      omega
  · cases between with
    | nil => simpa [and_assoc, eq_comm] using hrest
    | cons operation between =>
      simp only [List.cons_append, List.cons.injEq] at hrest
      obtain ⟨rfl, -⟩ := hrest
      simp [registrations, List.countP_append, List.countP_cons, registers, hrequired']
        at hnumber hnumber'
      omega

theorem Supplied.mono (h : Supplied required later) (hsub : later ⊆ later') :
    Supplied required later' :=
  ⟨h.1, fun item hitem => hsub (h.2 item hitem)⟩

theorem supplied_concat_arrive :
    Supplied required (later ++ [.arrive message required']) ↔ Supplied required later := by
  simp [Supplied]

end History

end Operation

open Operation

section Machine
variable [DecidableEq Item]

def Due (item : Item) (waiting : WaitingMessage Item Message) : Prop :=
  waiting.missing = {item} ∧ waiting.surplus = 0

instance (item : Item) (waiting : WaitingMessage Item Message) : Decidable (Due item waiting) :=
  inferInstanceAs (Decidable (_ ∧ _))

def empty : WaitingRoom Item Message where
  registered := 0
  waiting := fun _ => none
  passed := []
  served := []

def takeOff (item : Item) (waiting : WaitingMessage Item Message) :
    Option (WaitingMessage Item Message) :=
  if Due item waiting then none else some { waiting with missing := waiting.missing.erase item }

/-- The message under the number `n`, if the item completes it. -/
def completed (room : WaitingRoom Item Message) (item : Item) (n : ℕ) : Option (ℕ × Message) :=
  (room.waiting n).bind (fun waiting => if Due item waiting then some (n, waiting.message) else none)

def supply (room : WaitingRoom Item Message) (item : Item) : WaitingRoom Item Message :=
  { room with
    waiting := fun n => (room.waiting n).bind (takeOff item)
    served := room.served ++ (List.range room.registered).filterMap (room.completed item) }

@[simp] theorem supply_waiting (room : WaitingRoom Item Message) (item : Item) (n : ℕ) :
    (room.supply item).waiting n = (room.waiting n).bind (takeOff item) := rfl

@[simp] theorem supply_served (room : WaitingRoom Item Message) (item : Item) :
    (room.supply item).served =
      room.served ++ (List.range room.registered).filterMap (room.completed item) := rfl

def register (capacity : ℕ) (room : WaitingRoom Item Message) (message : Message)
    (required : List Item) : WaitingRoom Item Message :=
  { room with
    registered := room.registered + 1
    waiting := fun n =>
      if n = room.registered then
        some ⟨message, required.toFinset, required.length - required.toFinset.card⟩
      else if n + capacity = room.registered then none
      else room.waiting n }

def step (capacity : ℕ) (room : WaitingRoom Item Message) :
    Operation Item Message → WaitingRoom Item Message
  | .supply item => room.supply item
  | .arrive message [] => { room with passed := room.passed ++ [message] }
  | .arrive message required => room.register capacity message required

def run (capacity : ℕ) (operations : List (Operation Item Message)) : WaitingRoom Item Message :=
  operations.foldl (step capacity) empty


section Runs
variable {capacity n : ℕ} {message : Message} {item : Item} {required : List Item}
  {operations : List (Operation Item Message)} {waiting : WaitingMessage Item Message}

theorem run_concat (operation : Operation Item Message) :
    run capacity (operations ++ [operation]) = step capacity (run capacity operations) operation := by
  simp [run]

theorem registered_run : (run capacity operations).registered = registrations operations := by
  induction operations using List.reverseRecOn with
  | nil => rfl
  | append_singleton operations operation ih =>
    rw [run_concat, registrations_concat, ← ih]
    rcases operation with item | ⟨message, _ | ⟨item, required⟩⟩
    · simp [step, supply, registers]
    · simp [step, registers]
    · simp [step, register, registers]

theorem passed_run : (run capacity operations).passed = operations.filterMap passing := by
  induction operations using List.reverseRecOn with
  | nil => rfl
  | append_singleton operations operation ih =>
    rw [run_concat, List.filterMap_append, ← ih]
    rcases operation with item | ⟨message, _ | ⟨item, required⟩⟩
    · simp [step, supply, passing]
    · simp [step, passing]
    · simp [step, register, passing]

/-- What a message still waits for, and how often it required something again. -/
def Waiting (required : List Item) (later : List (Operation Item Message))
    (waiting : WaitingMessage Item Message) : Prop :=
  (∀ item, item ∈ waiting.missing ↔ item ∈ required ∧ .supply item ∉ later) ∧
    waiting.surplus = required.length - required.toFinset.card

theorem surplus_eq_zero_iff :
    required.length - required.toFinset.card = 0 ↔ required.Nodup := by
  rw [List.card_toFinset, ← List.dedup_eq_self]
  have hsub := required.dedup_sublist
  constructor
  · intro hzero
    exact hsub.eq_of_length_le (by omega)
  · intro hself
    rw [hself, Nat.sub_self]

/-- A waiting message is due for the item that completes what it required. -/
theorem Waiting.due_iff {later : List (Operation Item Message)} (h : Waiting required later waiting)
    (hincomplete : ¬Supplied required later) :
    Due item waiting ↔ Supplied required (later ++ [.supply item]) := by
  have hnodup : waiting.surplus = 0 ↔ required.Nodup := by rw [h.2, surplus_eq_zero_iff]
  constructor
  · rintro ⟨hmissing, hzero⟩
    refine ⟨hnodup.mp hzero, ?_⟩
    intro other hother
    by_cases hsupplied : .supply other ∈ later
    · simp [hsupplied]
    · have hmem := (h.1 other).mpr ⟨hother, hsupplied⟩
      rw [hmissing, Finset.mem_singleton] at hmem
      simp [hmem]
  · rintro ⟨hrequired, hall⟩
    have honly : ∀ other ∈ waiting.missing, other = item := by
      intro other hother
      obtain ⟨hmem, hunsupplied⟩ := (h.1 other).mp hother
      simpa [hunsupplied] using hall other hmem
    refine ⟨?_, hnodup.mpr hrequired⟩
    apply Finset.eq_singleton_iff_nonempty_unique_mem.mpr
    refine ⟨?_, honly⟩
    by_contra hempty
    apply hincomplete
    refine ⟨hrequired, ?_⟩
    intro other hother
    by_contra hunsupplied
    exact hempty ⟨other, (h.1 other).mpr ⟨hother, hunsupplied⟩⟩

theorem Waiting.supply {later : List (Operation Item Message)} (h : Waiting required later waiting)
    (item : Item) : Waiting required (later ++ [.supply item])
      { waiting with missing := waiting.missing.erase item } := by
  refine ⟨?_, h.2⟩
  intro other
  simp only [Finset.mem_erase, h.1, List.mem_append, List.mem_singleton, Operation.supply.injEq,
    not_or]
  tauto

theorem Waiting.arrive {later : List (Operation Item Message)} {required' : List Item} :
    Waiting required (later ++ [.arrive message required']) waiting ↔
      Waiting required later waiting := by
  simp [Waiting]

theorem Waiting.unique {later : List (Operation Item Message)}
    {waiting' : WaitingMessage Item Message} (h : Waiting required later waiting)
    (h' : Waiting required later waiting') (hmessage : waiting.message = waiting'.message) :
    waiting = waiting' := by
  apply WaitingMessage.ext
  · exact hmessage
  · ext item
    rw [h.1, h'.1]
  · rw [h.2, h'.2]

theorem Waiting.exists (required : List Item) (later : List (Operation Item Message))
    (message : Message) :
    ∃ waiting : WaitingMessage Item Message, waiting.message = message ∧
      Waiting required later waiting := by
  classical
  refine ⟨⟨message, required.toFinset.filter (.supply · ∉ later), _⟩, rfl, ?_, rfl⟩
  simp

/-- The history leaves the message with the number `n` waiting like this. -/
def Awaits (capacity : ℕ) (operations : List (Operation Item Message)) (n : ℕ)
    (waiting : WaitingMessage Item Message) : Prop :=
  ∃ required later, BeganWaiting operations n waiting.message required later ∧
    registrations later < capacity ∧ ¬Supplied required later ∧ Waiting required later waiting

theorem stillWaits_iff : StillWaits capacity operations n message ↔
    ∃ waiting, Awaits capacity operations n waiting ∧ waiting.message = message := by
  constructor
  · rintro ⟨required, later, hbegan, hrecent, hincomplete⟩
    obtain ⟨waiting, rfl, hwaiting⟩ := Waiting.exists required later message
    exact ⟨waiting, ⟨required, later, hbegan, hrecent, hincomplete, hwaiting⟩, rfl⟩
  · rintro ⟨waiting, ⟨required, later, hbegan, hrecent, hincomplete, -⟩, rfl⟩
    exact ⟨required, later, hbegan, hrecent, hincomplete⟩

theorem Awaits.lt_registrations (h : Awaits capacity operations n waiting) :
    n < registrations operations := by
  obtain ⟨required, later, hbegan, -⟩ := h
  have hcount := hbegan.registrations_eq
  omega

theorem awaits_supply : Awaits capacity (operations ++ [.supply item]) n waiting ↔
    ∃ before, Awaits capacity operations n before ∧ takeOff item before = some waiting := by
  constructor
  · rintro ⟨required, later, hbegan, hrecent, hincomplete, hwaiting⟩
    rcases BeganWaiting.concat_iff.mp hbegan with ⟨-, hoperation, -⟩ | ⟨later, rfl, hearlier⟩
    · cases hoperation
    · obtain ⟨before, hmessage, hbefore⟩ := Waiting.exists required later waiting.message
      have hincomplete' : ¬Supplied required later :=
        fun h => hincomplete (h.mono (List.subset_append_left _ _))
      refine ⟨before, ⟨required, later, ?_, ?_, hincomplete', hbefore⟩, ?_⟩
      · rwa [hmessage]
      · simpa [registrations_concat, registers] using hrecent
      · rw [takeOff, if_neg (by rwa [hbefore.due_iff hincomplete'])]
        exact congrArg some ((hbefore.supply item).unique hwaiting hmessage)
  · rintro ⟨before, ⟨required, later, hbegan, hrecent, hincomplete, hwaiting⟩, hleft⟩
    unfold takeOff at hleft
    split at hleft
    · cases hleft
    · next hdue =>
      cases hleft
      refine ⟨required, later ++ [.supply item], hbegan.concat _, ?_, ?_, hwaiting.supply item⟩
      · simpa [registrations_concat, registers] using hrecent
      · rwa [← hwaiting.due_iff hincomplete]

/-- A message that was registered before an arrival waits after it, if it is not too old. -/
theorem Awaits.arrive (h : Awaits capacity operations n waiting)
    (hrecent : registrations (operations ++ [.arrive message required]) ≤ n + capacity) :
    Awaits capacity (operations ++ [.arrive message required]) n waiting := by
  obtain ⟨required', later, hbegan, -, hincomplete, hwaiting⟩ := h
  have hbegan' := hbegan.concat (.arrive message required)
  have hcount := hbegan'.registrations_eq
  refine ⟨required', later ++ [.arrive message required], hbegan', by omega, ?_, ?_⟩
  · rwa [supplied_concat_arrive]
  · rwa [Waiting.arrive]

/-- What waits after an arrival just began to wait, or waited before. -/
theorem Awaits.before_arrive
    (h : Awaits capacity (operations ++ [.arrive message required]) n waiting) :
    (n = registrations operations ∧ required ≠ [] ∧ waiting =
      ⟨message, required.toFinset, required.length - required.toFinset.card⟩) ∨
    (registrations (operations ++ [.arrive message required]) ≤ n + capacity ∧
      Awaits capacity operations n waiting) := by
  obtain ⟨required', later, hbegan, hrecent, hincomplete, hwaiting⟩ := h
  have hcount := hbegan.registrations_eq
  rcases BeganWaiting.concat_iff.mp hbegan with ⟨rfl, hoperation, hsome, hnew⟩ |
    ⟨later, rfl, hearlier⟩
  · rw [Operation.arrive.injEq] at hoperation
    obtain ⟨rfl, rfl⟩ := hoperation
    refine .inl ⟨hnew.symm, hsome, hwaiting.unique ?_ rfl⟩
    simp [Waiting]
  · refine .inr ⟨by omega, required', later, hearlier, ?_, ?_, ?_⟩
    · rw [registrations_concat] at hrecent
      omega
    · rwa [supplied_concat_arrive] at hincomplete
    · rwa [Waiting.arrive] at hwaiting

theorem waiting_run (hcapacity : 0 < capacity) :
    (run capacity operations).waiting n = some waiting ↔ Awaits capacity operations n waiting := by
  induction operations using List.reverseRecOn generalizing waiting with
  | nil => simp [run, empty, Awaits, BeganWaiting]
  | append_singleton operations operation ih =>
    rw [run_concat]
    rcases operation with item | ⟨message, _ | ⟨item, required⟩⟩
    · simp only [step, supply_waiting, Option.bind_eq_some_iff, ih, awaits_supply]
    · rw [step, ih]
      constructor
      · intro h
        have hnumber := h.lt_registrations
        obtain ⟨required, later, hbegan, hrecent, -⟩ := id h
        apply h.arrive
        have hcount := hbegan.registrations_eq
        have hsame : registrations (operations ++ [.arrive message []]) =
            registrations operations := by
          simp [registrations_concat, registers]
        omega
      · intro h
        rcases h.before_arrive with ⟨-, hsome, -⟩ | ⟨-, hbefore⟩
        · exact absurd rfl hsome
        · exact hbefore
    · have hmore : registrations (operations ++ [.arrive message (item :: required)]) =
          registrations operations + 1 := by
        simp [registrations_concat, registers]
      simp only [step, register, registered_run]
      constructor
      · intro hwaits
        split_ifs at hwaits with hnew hforgotten
        · cases hwaits
          refine ⟨item :: required, [], ?_, hcapacity, ?_, ?_⟩
          · exact BeganWaiting.concat_iff.mpr (.inl ⟨rfl, rfl, by simp, hnew.symm⟩)
          · exact fun hall => by simpa using hall.2 item List.mem_cons_self
          · simp [Waiting]
        · have h := ih.mp hwaits
          apply h.arrive
          obtain ⟨_, _, hbegan, hrecent, -⟩ := h
          have hcount := hbegan.registrations_eq
          omega
      · intro h
        rcases h.before_arrive with ⟨hnew, -, hwaiting⟩ | ⟨hrecent, hbefore⟩
        · rw [hwaiting]
          exact if_pos hnew
        · have hnumber := hbefore.lt_registrations
          rw [← ih] at hbefore
          rw [if_neg (by omega), if_neg (by omega), hbefore]

/-- So is what was served: an item completes what a message still waits for. -/
theorem gotServed_supply : GotServed capacity (operations ++ [.supply item]) n message ↔
    GotServed capacity operations n message ∨
      ∃ waiting, Awaits capacity operations n waiting ∧ Due item waiting ∧
        waiting.message = message := by
  constructor
  · rintro ⟨required, later, inTime, hbegan, hprefix, hrecent, hsupplied⟩
    rcases BeganWaiting.concat_iff.mp hbegan with ⟨-, hoperation, -⟩ | ⟨later, rfl, hearlier⟩
    · cases hoperation
    · rcases List.prefix_concat_iff.mp hprefix with rfl | hprefix
      · have hrecent' : registrations later < capacity := by
          simpa [registrations_concat, registers] using hrecent
        by_cases hbefore : Supplied required later
        · exact .inl ⟨required, later, later, hearlier, List.prefix_rfl, hrecent', hbefore⟩
        · obtain ⟨waiting, rfl, hwaiting⟩ := Waiting.exists required later message
          exact .inr ⟨waiting, ⟨required, later, hearlier, hrecent', hbefore, hwaiting⟩,
            (hwaiting.due_iff hbefore).mpr hsupplied, rfl⟩
      · exact .inl ⟨required, later, inTime, hearlier, hprefix, hrecent, hsupplied⟩
  · rintro (⟨required, later, inTime, hbegan, hprefix, hrecent, hsupplied⟩ |
      ⟨waiting, ⟨required, later, hbegan, hrecent, hincomplete, hwaiting⟩, hdue, rfl⟩)
    · exact ⟨required, later ++ [.supply item], inTime, hbegan.concat _,
        hprefix.trans (List.prefix_append _ _), hrecent, hsupplied⟩
    · refine ⟨required, later ++ [.supply item], later ++ [.supply item], hbegan.concat _,
        List.prefix_rfl, ?_, (hwaiting.due_iff hincomplete).mp hdue⟩
      simpa [registrations_concat, registers] using hrecent

omit [DecidableEq Item] in
theorem gotServed_arrive {message' : Message} :
    GotServed capacity (operations ++ [.arrive message' required]) n message ↔
      GotServed capacity operations n message := by
  constructor
  · rintro ⟨required', later, inTime, hbegan, hprefix, hrecent, hsupplied⟩
    rcases BeganWaiting.concat_iff.mp hbegan with ⟨rfl, -, hsome, -⟩ | ⟨later, rfl, hearlier⟩
    · obtain ⟨item, hitem⟩ := List.exists_mem_of_ne_nil _ hsome
      have hsupply := hsupplied.2 item hitem
      simp [List.prefix_nil.mp hprefix] at hsupply
    · rcases List.prefix_concat_iff.mp hprefix with rfl | hprefix
      · rw [supplied_concat_arrive] at hsupplied
        refine ⟨required', later, later, hearlier, List.prefix_rfl, ?_, hsupplied⟩
        rw [registrations_concat] at hrecent
        omega
      · exact ⟨required', later, inTime, hearlier, hprefix, hrecent, hsupplied⟩
  · rintro ⟨required', later, inTime, hbegan, hprefix, hrecent, hsupplied⟩
    exact ⟨required', later ++ [.arrive message' required], inTime, hbegan.concat _,
      hprefix.trans (List.prefix_append _ _), hrecent, hsupplied⟩

theorem completed_eq_some {room : WaitingRoom Item Message} {entry : ℕ × Message} :
    room.completed item n = some entry ↔
      ∃ waiting, room.waiting n = some waiting ∧ Due item waiting ∧ entry = (n, waiting.message) := by
  rw [completed, Option.bind_eq_some_iff]
  constructor
  · rintro ⟨waiting, hwaiting, hentry⟩
    split at hentry
    · next hdue =>
      cases hentry
      exact ⟨waiting, hwaiting, hdue, rfl⟩
    · cases hentry
  · rintro ⟨waiting, hwaiting, hdue, rfl⟩
    exact ⟨waiting, hwaiting, if_pos hdue⟩

theorem mem_completed (hcapacity : 0 < capacity) :
    (n, message) ∈ (List.range (run capacity operations).registered).filterMap
        ((run capacity operations).completed item) ↔
      ∃ waiting, Awaits capacity operations n waiting ∧ Due item waiting ∧
        waiting.message = message := by
  simp only [List.mem_filterMap, List.mem_range, completed_eq_some, waiting_run hcapacity,
    registered_run]
  constructor
  · rintro ⟨number, -, waiting, hawaits, hdue, hentry⟩
    cases hentry
    exact ⟨waiting, hawaits, hdue, rfl⟩
  · rintro ⟨waiting, hawaits, hdue, rfl⟩
    exact ⟨n, hawaits.lt_registrations, waiting, hawaits, hdue, rfl⟩

theorem mem_served_run (hcapacity : 0 < capacity) :
    (n, message) ∈ (run capacity operations).served ↔ GotServed capacity operations n message := by
  induction operations using List.reverseRecOn with
  | nil => simp [run, empty, GotServed, BeganWaiting]
  | append_singleton operations operation ih =>
    rw [run_concat]
    rcases operation with item | ⟨message', _ | ⟨item, required⟩⟩
    · rw [step, supply_served, List.mem_append, ih, mem_completed hcapacity, gotServed_supply]
    · rw [gotServed_arrive, ← ih]
      rfl
    · rw [gotServed_arrive, ← ih]
      rfl

theorem Awaits.not_gotServed (h : Awaits capacity operations n waiting) (message : Message) :
    ¬GotServed capacity operations n message := by
  rintro ⟨required, later, inTime, hbegan, hprefix, -, hsupplied⟩
  obtain ⟨required', later', hbegan', -, hincomplete, -⟩ := h
  obtain ⟨-, rfl, rfl⟩ := hbegan.unique hbegan'
  exact hincomplete (hsupplied.mono hprefix.subset)

theorem nodup_served_run (hcapacity : 0 < capacity) :
    (run capacity operations).served.Nodup := by
  induction operations using List.reverseRecOn with
  | nil => exact List.nodup_nil
  | append_singleton operations operation ih =>
    rw [run_concat]
    rcases operation with item | ⟨message, _ | ⟨item, required⟩⟩
    · rw [step, supply_served, List.nodup_append]
      refine ⟨ih, ?_, ?_⟩
      · apply List.nodup_range.filterMap
        intro first second entry hfirst hsecond
        obtain ⟨_, -, -, rfl⟩ := completed_eq_some.mp hfirst
        obtain ⟨_, -, -, hentry⟩ := completed_eq_some.mp hsecond
        exact congrArg Prod.fst hentry
      · rintro ⟨number, message⟩ hserved _ hnew rfl
        obtain ⟨waiting, hawaits, -⟩ := (mem_completed hcapacity).mp hnew
        exact hawaits.not_gotServed message ((mem_served_run hcapacity).mp hserved)
    · exact ih
    · exact ih

end Runs
end Machine
end WaitingRoom
end AlephNode
