import Lisplet.Number.Decimal
import Lisplet.Token.Lexer

/-!
# Self checks

A few checks of the lexer and of number literals that the command can run on
itself.
-/

namespace Lisplet

structure SelfCheck where
  name : String
  passes : Bool

def firstToken (source : String) : Token := (Lexer.start source.toList).next.1

def selfChecks : List SelfCheck :=
  [⟨"equal token text", (firstToken "Something").sameText (firstToken "Something")⟩,
   ⟨"longer token text differs", !(firstToken "Something123").sameText (firstToken "Something")⟩,
   ⟨"shorter token text differs", !(firstToken "Something").sameText (firstToken "Something123")⟩,
   ⟨"int rejects a decimal point", (Number.readInt "1.0".toList).isNone⟩,
   ⟨"int rejects a suffix", (Number.readInt "1.0f".toList).isNone⟩,
   ⟨"float rejects trailing text", (Number.readFloat "1.0a".toList).isNone⟩,
   ⟨"int accepts a digit", (Number.readInt "1".toList).isSome⟩]

end Lisplet
