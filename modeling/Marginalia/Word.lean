/-
  This file defines the numbers that fit into machine words.

  Key definitions include:
    * `Word.size32`, `Word.size64`
    * `Word.signed32`, `Word.signed64`
-/

namespace Marginalia

namespace Word

/- How many numbers there are of 32 bits. -/
def size32 : Nat :=
  4294967296

/- How many numbers there are of 64 bits. -/
def size64 : Nat :=
  18446744073709551616

/- The signed 32-bit number with the same last bits. -/
def signed32 (n : Int) : Int :=
  n.bmod size32

/- The signed 64-bit number with the same last bits. -/
def signed64 (n : Int) : Int :=
  n.bmod size64

end Word

end Marginalia
