
/-!
# Strings in a buffer

A string ends with a zero byte. What is read is bounded by the number of bytes that are left; a
string that does not end within them cannot be read.
-/

namespace Qnx.CString

open List Option

abbrev Byte := BitVec 8

variable {mem : Nat → Byte} {n p q k : Nat} {s : List Byte}

/-- The string at `p`, with `n` bytes left, and where the next one begins. -/
def cstr (mem : Nat → Byte) : Nat → Nat → Option (List Byte × Nat)
  | 0, _ => none
  | n + 1, p => if mem p = 0 then some ([], p + 1)
    else (cstr mem n (p + 1)).map fun r => (mem p :: r.1, r.2)

/-- The strings that end in the `n` bytes from `p` on. -/
def strings (mem : Nat → Byte) : Nat → Nat → List (List Byte)
  | 0, _ => []
  | n + 1, p => if mem p = 0 then [] :: strings mem n (p + 1)
    else match strings mem n (p + 1) with
      | [] => []
      | s :: l => (mem p :: s) :: l

end Qnx.CString
