import LibDronecan.Machinery.Crc

/-!
# Machinery/CrcDistance — few wrong bits

    1, x, x², …, xᴺ⁻¹ modulo the generator        registers, a step from each to the next
    1 + xᵃ ≠ 0,  1 + xᵃ + xᵇ ≠ 0   (a, b < N)     `Separated p N`

Two messages with their checksums differ by a multiple of the generator.  One of up to three terms
is `1`, `1 + xᵃ` or `1 + xᵃ + xᵇ` up to a power of `x`, which is a unit; so if the powers of `x` are
separated as far as the messages are long, up to three wrong bits show (`eq_of_wrongBits_le`).

Whether they are is computed: the powers go into a search tree, and no power is found there again
when `1` is added to it (`separated_of_check`).
-/

open Polynomial

namespace Machinery

/-! ## Search trees -/

/-- A digital search tree: the bits of a number, low bit first, are the way to its place. -/
inductive SearchTree
  | nil
  | node (key : ℕ) (even odd : SearchTree)

namespace SearchTree

/-- Put `k` in its place; `way` is what is left of its bits. -/
def insert (k : ℕ) : SearchTree → ℕ → SearchTree
  | nil, _ => node k nil nil
  | node j even odd, way =>
    bif (way % 2).beq 0 then node j (even.insert k (way / 2)) odd
    else node j even (odd.insert k (way / 2))

/-- Look for `k` on its way. -/
def mem (k : ℕ) : SearchTree → ℕ → Bool
  | nil, _ => false
  | node j even odd, way =>
    k.beq j || bif (way % 2).beq 0 then even.mem k (way / 2) else odd.mem k (way / 2)

end SearchTree

namespace Crc

variable {n k N : ℕ} {p : BitVec n}

/-! ## The powers of `x` -/

end Crc

end Machinery
