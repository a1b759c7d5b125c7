import Mathlib.Data.List.Basic

/-!
# Panics and unbounded channels

A computation either returns or panics. An unbounded channel accepts messages as long as
its receiver exists; the receiver takes them in the order in which they were sent.
-/
namespace AlephNode

inductive Panic where
  | indexOutOfBounds
  | expect (message : String)
  | assert (message : String)
  | unwrap
  | divideByZero
  | subtractOverflow
  deriving DecidableEq, Repr

abbrev Result := Except Panic

def Returns {α : Type*} (r : Result α) : Prop := ∃ a, r = .ok a

@[simp] theorem ok_bind {α β : Type} (a : α) (f : α → Result β) :
    (Except.ok a >>= f : Result β) = f a := rfl

/-- Code that runs one part after another returns if both parts do. -/
theorem bind_eq_ok {α β : Type} {r : Result α} {f : α → Result β} {b : β} :
    (r >>= f) = .ok b ↔ ∃ a, r = .ok a ∧ f a = .ok b := by
  cases r with
  | error e => simp [bind, Except.bind]
  | ok a => simp

/-- An unbounded channel: what was sent and not yet taken out, oldest first. What is left
when the receiver is dropped is never received. -/
structure Channel (α : Type*) where
  messages : List α
  receiverAlive : Bool

namespace Channel
variable {α : Type*}

/-- `mpsc::unbounded()` -/
def unbounded : Channel α := ⟨[], true⟩

/-- `UnboundedSender::unbounded_send`; the message is handed back when the receiver is gone. -/
def unboundedSend (c : Channel α) (a : α) : Except α (Channel α) :=
  if c.receiverAlive then .ok { c with messages := c.messages ++ [a] } else .error a

/-- Send several messages in order; a caller that ignores failures loses them when the
receiver is gone. -/
def sendAll (c : Channel α) (as : List α) : Channel α :=
  if c.receiverAlive then { c with messages := c.messages ++ as } else c

def dropReceiver (c : Channel α) : Channel α := { c with receiverAlive := false }

@[simp] theorem unboundedSend_alive {c : Channel α} (h : c.receiverAlive = true) (a : α) :
    c.unboundedSend a = .ok { c with messages := c.messages ++ [a] } := by
  simp [unboundedSend, h]

@[simp] theorem unboundedSend_dropped {c : Channel α} (h : c.receiverAlive = false) (a : α) :
    c.unboundedSend a = .error a := by
  simp [unboundedSend, h]

@[simp] theorem sendAll_nil (c : Channel α) : c.sendAll [] = c := by
  simp [sendAll]

@[simp] theorem sendAll_receiverAlive (c : Channel α) (as : List α) :
    (c.sendAll as).receiverAlive = c.receiverAlive := by
  unfold sendAll
  split <;> rfl

theorem sendAll_append (c : Channel α) (as bs : List α) :
    c.sendAll (as ++ bs) = (c.sendAll as).sendAll bs := by
  unfold sendAll
  split <;> simp_all [List.append_assoc]

theorem sendAll_messages (c : Channel α) (as : List α) :
    ∃ sent, (c.sendAll as).messages = c.messages ++ sent ∧ sent ⊆ as := by
  unfold sendAll
  split
  · exact ⟨as, rfl, fun _ h => h⟩
  · exact ⟨[], by simp, by simp⟩

end Channel

/-- A channel together with its sending end. When the sender is gone, the receiver still gets
what was sent, and then the end. -/
structure Mpsc (α : Type*) extends Channel α where
  senderAlive : Bool

namespace Mpsc
variable {α : Type*}

def unbounded : Mpsc α := ⟨.unbounded, true⟩

def unboundedSend (c : Mpsc α) (a : α) : Except α (Mpsc α) :=
  (c.toChannel.unboundedSend a).map (⟨·, c.senderAlive⟩)

def trySend (c : Mpsc α) (a : α) : Mpsc α := { c with toChannel := c.toChannel.sendAll [a] }

def dropSender (c : Mpsc α) : Mpsc α := { c with senderAlive := false }

def dropReceiver (c : Mpsc α) : Mpsc α := { c with toChannel := c.toChannel.dropReceiver }

def rest (c : Mpsc α) : Mpsc α := { c with messages := c.messages.tail }

def Ended (c : Mpsc α) : Prop := c.messages = [] ∧ c.senderAlive = false

@[simp] theorem trySend_receiverAlive (c : Mpsc α) (a : α) :
    (c.trySend a).receiverAlive = c.receiverAlive := Channel.sendAll_receiverAlive _ _

theorem trySend_added (c : Mpsc α) (a : α) :
    (c.trySend a).messages.drop c.messages.length = if c.receiverAlive then [a] else [] := by
  cases h : c.receiverAlive <;> simp [trySend, Channel.sendAll, h]

theorem unboundedSend_alive {c : Mpsc α} (h : c.receiverAlive = true) (a : α) :
    c.unboundedSend a = .ok (c.trySend a) := by
  simp [unboundedSend, trySend, h, Channel.sendAll, Except.map]

end Mpsc
end AlephNode
