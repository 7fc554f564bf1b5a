import Mathlib.Data.List.Basic
import MonkeySyntax.Shell.Prompt

namespace MonkeySyntax

namespace Entry

def text : Entry → String
  | .line s => strip s
  | .interrupt => ""

end Entry

namespace Mode

def askedBy? (text : String) : Option Mode :=
  if text = ":tokens" then some .tokens else if text = ":parse" then some .parse else none

/-- The mode that texts lead to: the last one asked for, or else that at the start. -/
def behind (start : Mode) (texts : List String) : Mode :=
  (texts.filterMap askedBy?).getLast?.getD start

end Mode

section

variable (m : Machine)

end

end MonkeySyntax
