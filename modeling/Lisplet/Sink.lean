/-!
# Output sinks

A sink collects the bytes that a program prints. It may have room for only so
many: then it takes what still fits and refuses the rest, always with the same
words. Sinks that fail for other reasons, or take bytes again after a refusal,
are left out.
-/

namespace Lisplet

structure Sink where
  bytes : ByteArray := .empty
  /-- how many more bytes fit; without a number, any -/
  room : Option Nat := none

namespace Sink

def write (s : Sink) (bytes : ByteArray) : Bool × Sink :=
  match s.room with
  | none => (true, { s with bytes := s.bytes ++ bytes })
  | some n =>
    if bytes.size ≤ n then (true, ⟨s.bytes ++ bytes, some (n - bytes.size)⟩)
    else (false, ⟨s.bytes ++ bytes.extract 0 n, some 0⟩)

def refusal : String := "sink full"

end Sink

end Lisplet
