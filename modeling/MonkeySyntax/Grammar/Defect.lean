import MonkeySyntax.Token.Basic

namespace MonkeySyntax

def maxInteger : Nat := Nat.pow 2 64 - 1

def maxDigits : Nat := 4300

inductive Defect where
  | unexpected (wanted : Kind) (found : Token)
  | noOperand (found : Token)
  /-- The text ends inside the block that this brace opens. -/
  | unterminatedBlock (brace : Token)
  | malformedInteger (token : Token)
  | integerOutOfRange (token : Token)
  /-- Expressions stand inside each other more deeply than is allowed where this token begins
  another one. -/
  | nestedTooDeeply (found : Token)
deriving DecidableEq, Repr

namespace Defect

def token : Defect → Token
  | .unexpected _ t | .noOperand t | .unterminatedBlock t | .malformedInteger t
  | .integerOutOfRange t | .nestedTooDeeply t => t

def isNesting : Defect → Bool
  | .nestedTooDeeply _ => true
  | _ => false

def message : Defect → String
  | .unexpected wanted found =>
    s!"expected next token to be {wanted.name}, got {found.describe} instead"
  | .noOperand found => s!"no prefix parse function for {found.kind.name} ({found.describe}) found"
  | .unterminatedBlock _ => "unterminated block: expected RBRACE, got end of input"
  | .malformedInteger t => s!"could not parse {quoted t.literal} as integer"
  | .integerOutOfRange t => s!"integer literal {t.literal} is out of range (max {maxInteger})"
  | .nestedTooDeeply _ => "expression nested too deeply"

end Defect

structure Diagnostic where
  message : String
  position : Position
deriving DecidableEq, Repr

/-- The message, followed by the place if it has a line. -/
def Diagnostic.text (d : Diagnostic) : String :=
  if d.position.line = 0 then d.message
  else s!"{d.message} (line {d.position.line}, col {d.position.column})"

def Diagnostic.about (message : String) (t : Option Token) : Diagnostic :=
  ⟨message, (t.map Token.position).getD .nowhere⟩

def Defect.diagnostic (d : Defect) : Diagnostic := .about d.message d.token

def Defect.text (d : Defect) : String := d.diagnostic.text

inductive Fault where
  | defect (d : Defect)
  | oversizedLiteral (digits : Nat)
deriving DecidableEq, Repr

def oversizedMessage (digits : Nat) : String :=
  s!"Exceeds the limit ({maxDigits} digits) for integer string conversion: " ++
    s!"value has {digits} digits; use sys.set_int_max_str_digits() to increase the limit"

end MonkeySyntax
