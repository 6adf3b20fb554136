import Lisplet.Span

/-!
# Bytes to text

Source bytes are UTF-8. `verified` reads as many characters as it can and says
where it stopped; `decode` accepts the bytes only if nothing is left over.
-/

namespace Lisplet.Utf8

/-- The characters read from byte `i` on, after those in `acc` (last one
first), and the offset of the first byte that starts no character. -/
def verifiedFrom (bytes : ByteArray) (i : Nat) (acc : List Char) : List Char × Nat :=
  match _h : bytes.utf8DecodeChar? i with
  | some c => verifiedFrom bytes (i + c.utf8Size) (c :: acc)
  | none => (acc.reverse, i)
termination_by bytes.size - i
decreasing_by
  have := ByteArray.le_size_of_utf8DecodeChar?_eq_some _h
  have := c.utf8Size_pos
  omega

def verified (bytes : ByteArray) : List Char × Nat :=
  verifiedFrom bytes 0 []

def decode (bytes : ByteArray) : Except Position (List Char) :=
  let (cs, n) := verified bytes
  if n = bytes.size then .ok cs else .error (Position.origin.advanceAll cs)

/-- Reads bytes that may have been cut inside a character: what is left of that
character shows as one replacement character. -/
def decodeCut (bytes : ByteArray) : String :=
  let (cs, n) := verified bytes
  if n = bytes.size then String.ofList cs else (String.ofList cs).push '\uFFFD'

end Lisplet.Utf8
