import AlephNode.ScaleCodec
import Mathlib.Algebra.Order.Group.Nat
import Mathlib.Tactic.NormNum

/-!
# Round trips of the encoding

A decoder that is given the encoding of a value, and more bytes after it, returns the value
and leaves these bytes.
-/
namespace AlephNode

def Codec.ReadsBack {α : Type} [Codec α] (a : α) : Prop :=
  ∀ rest, Codec.decode (Codec.encode a ++ rest) = some (a, rest)

/-- Encodings that are read back with whatever follows do not begin each other. -/
theorem Codec.ReadsBack.eq_of_prefix {α : Type} [Codec α] {a b : α} (ha : ReadsBack a)
    (hb : ReadsBack b) (h : encode a <+: encode b) : a = b := by
  obtain ⟨rest, hrest⟩ := h
  have hfirst := ha rest
  have hsecond := hb []
  rw [List.append_nil, ← hrest, hfirst, Option.some.injEq, Prod.mk.injEq] at hsecond
  exact hsecond.1

class LawfulCodec (α : Type) [Codec α] : Prop where
  decode_encode (a : α) (rest : List UInt8) :
    Codec.decode (Codec.encode a ++ rest) = some (a, rest)

namespace Codec

theorem decodeFixed_encodeFixed (width n : ℕ) (rest : List UInt8) :
    decodeFixed width (encodeFixed width n ++ rest) = some (n % 256 ^ width, rest) := by
  induction width generalizing n with
  | zero => simp [decodeFixed, encodeFixed, Nat.mod_one]
  | succ width ih =>
    have hbyte : (UInt8.ofNat n).toNat = n % 256 := UInt8.toNat_ofNat'
    rw [encodeFixed, List.cons_append, decodeFixed, ih, Option.map_some, hbyte,
      Nat.pow_succ', Nat.mod_mul]

private theorem encodeFixed_cons (width n : ℕ) (rest : List UInt8) :
    ∃ b bytes, encodeFixed (width + 1) n ++ rest = b :: bytes ∧ b.toNat = n % 256 :=
  ⟨_, _, rfl, UInt8.toNat_ofNat'⟩

theorem decodeCompact_encodeCompact {n : ℕ} (hn : n < 2 ^ 32) (rest : List UInt8) :
    decodeCompact (encodeCompact n ++ rest) = some (n, rest) := by
  unfold encodeCompact
  split
  · next hone =>
    have hbyte : (UInt8.ofNat (4 * n)).toNat = 4 * n := by
      rw [UInt8.toNat_ofNat']
      omega
    rw [encodeFixed, encodeFixed, List.singleton_append, decodeCompact, hbyte]
    simp
  · split
    · next hone htwo =>
      obtain ⟨b, bytes, hbytes, hb⟩ := encodeFixed_cons 1 (4 * n + 1) rest
      have hfixed := decodeFixed_encodeFixed 2 (4 * n + 1) rest
      have hvalue : (4 * n + 1) % 256 ^ 2 = 4 * n + 1 := by omega
      have hmode : b.toNat % 4 = 1 := by omega
      rw [hbytes, hvalue] at hfixed
      rw [hbytes]
      simp [decodeCompact, hmode, hfixed]
      omega
    · split
      · next htwo hfour =>
        obtain ⟨b, bytes, hbytes, hb⟩ := encodeFixed_cons 3 (4 * n + 2) rest
        have hfixed := decodeFixed_encodeFixed 4 (4 * n + 2) rest
        have hvalue : (4 * n + 2) % 256 ^ 4 = 4 * n + 2 := by omega
        have hmode : b.toNat % 4 = 2 := by omega
        rw [hbytes, hvalue] at hfixed
        rw [hbytes]
        simp [decodeCompact, hmode, hfixed]
        omega
      · next hfour =>
        have hfixed := decodeFixed_encodeFixed 4 n rest
        have hvalue : n % 256 ^ 4 = n := by omega
        rw [hvalue] at hfixed
        simp [decodeCompact, hfixed]
        omega

instance : LawfulCodec UInt8 where
  decode_encode _ _ := rfl

instance : LawfulCodec UInt32 where
  decode_encode n rest := by
    simp [encode, decode, decodeFixed_encodeFixed]

section Containers
variable {α : Type} [Codec α] [LawfulCodec α]

theorem decodeElements_encode (as : List α) (rest : List UInt8) :
    decodeElements as.length (as.flatMap encode ++ rest) = some (as, rest) := by
  induction as with
  | nil => rfl
  | cons a as ih =>
    rw [List.flatMap_cons, List.append_assoc]
    simp [decodeElements, LawfulCodec.decode_encode, ih]

theorem decode_encode_list {as : List α} (h : as.length < 2 ^ 32) (rest : List UInt8) :
    decode (encode as ++ rest) = some (as, rest) := by
  simp [encode, decode, decodeCompact_encodeCompact h, decodeElements_encode]

end Containers
end Codec
end AlephNode
