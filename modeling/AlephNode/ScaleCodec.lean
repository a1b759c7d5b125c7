import Mathlib.Data.UInt
import Mathlib.Data.Nat.Notation

/-!
# The SCALE encoding

A decoder reads a value from the front of a byte string and leaves the rest. Fixed-width
integers are little endian, byte vectors carry a compact length, enumerations start with
the index of the variant.
-/
namespace AlephNode

class Codec (α : Type) where
  encode : α → List UInt8
  decode : List UInt8 → Option (α × List UInt8)

namespace Codec

/-- The `width` lowest bytes of `n`, least significant first. -/
def encodeFixed : ℕ → ℕ → List UInt8
  | 0, _ => []
  | width + 1, n => UInt8.ofNat n :: encodeFixed width (n / 256)

def decodeFixed : ℕ → List UInt8 → Option (ℕ × List UInt8)
  | 0, bytes => some (0, bytes)
  | _ + 1, [] => none
  | width + 1, b :: bytes =>
    (decodeFixed width bytes).map (fun (n, rest) => (b.toNat + 256 * n, rest))

/-- The compact encoding of a `u32`: the two lowest bits of the first byte select one of
four ranges. -/
def encodeCompact (n : ℕ) : List UInt8 :=
  if n < 2 ^ 6 then encodeFixed 1 (4 * n)
  else if n < 2 ^ 14 then encodeFixed 2 (4 * n + 1)
  else if n < 2 ^ 30 then encodeFixed 4 (4 * n + 2)
  else 3 :: encodeFixed 4 n

/-- A number outside the range that its first byte selects is refused. -/
def decodeCompact : List UInt8 → Option (ℕ × List UInt8)
  | [] => none
  | b :: bytes =>
    match b.toNat % 4 with
    | 0 => some (b.toNat / 4, bytes)
    | 1 => do
      let (n, rest) ← decodeFixed 2 (b :: bytes)
      if 2 ^ 6 ≤ n / 4 then some (n / 4, rest) else none
    | 2 => do
      let (n, rest) ← decodeFixed 4 (b :: bytes)
      if 2 ^ 14 ≤ n / 4 then some (n / 4, rest) else none
    | _ => do
      if b.toNat / 4 ≠ 0 then none
      let (n, rest) ← decodeFixed 4 bytes
      if 2 ^ 30 ≤ n then some (n, rest) else none

/-- `Compact<u32>` -/
instance : Codec ℕ := ⟨encodeCompact, decodeCompact⟩

instance : Codec UInt8 where
  encode n := [n]
  decode
    | [] => none
    | n :: rest => some (n, rest)

instance : Codec UInt32 where
  encode n := encodeFixed 4 n.toNat
  decode bytes := (decodeFixed 4 bytes).map (fun (n, rest) => (UInt32.ofNat n, rest))

section Containers
variable {α : Type} [Codec α]

instance : Codec (Option α) where
  encode
    | none => [0]
    | some a => 1 :: encode a
  decode
    | 0 :: bytes => some (none, bytes)
    | 1 :: bytes => (decode bytes).map (fun (a, rest) => (some a, rest))
    | _ => none

def decodeElements : ℕ → List UInt8 → Option (List α × List UInt8)
  | 0, bytes => some ([], bytes)
  | n + 1, bytes => do
    let (a, bytes) ← decode bytes
    let (as, bytes) ← decodeElements n bytes
    some (a :: as, bytes)

/-- `Vec` -/
instance : Codec (List α) where
  encode as := encodeCompact as.length ++ as.flatMap encode
  decode bytes := do
    let (n, bytes) ← decodeCompact bytes
    decodeElements n bytes

end Containers
end Codec
end AlephNode
