import MonkeySyntax.Token.Basic

/-!
# From text to tokens

The lexical grammar. Layout, which is spaces, tabs, line feeds and carriage returns, separates
tokens and is dropped. Elsewhere the first character decides: a letter or an underscore starts a
word, an ASCII digit starts a numeral, both as long as the run of such characters is, and anything
else is the longest operator or delimiter that fits, or one illegal character. No text is refused.
-/

namespace MonkeySyntax

def isLayout (c : Char) : Bool :=
  c == ' ' || c == '\t' || c == '\n' || c == '\r'

def isLetter (c : Char) : Bool :=
  c.isAlpha || c == '_'

def alphabet : String := "abcdefghijklmnopqrstuvwxyzABCDEFGHIJKLMNOPQRSTUVWXYZ"

def occursIn (cs : List Char) : (text : List Char) → Bool
  | [] => cs.isEmpty
  | c :: text => cs.isPrefixOf (c :: text) || occursIn cs text

/-- Whether a text is an underscore or a nonempty stretch of the alphabet. -/
def isLetterText (s : String) : Bool :=
  s != "" && (occursIn s.toList alphabet.toList || s == "_")

/-- Whether a text lies between "0" and "9" in the order of texts. -/
def isDigitText (s : String) : Bool :=
  s != "" && !decide (s < "0") && !decide ("9" < s)

/-- What the front of a text holds: the kind of its first token, the characters of that token and
the text behind them. -/
structure Lexeme where
  kind : Kind
  text : List Char
  rest : List Char
deriving DecidableEq, Repr

def longestSymbol? : (n : Nat) → List Char → Option Lexeme
  | 0, _ => none
  | n + 1, cs =>
    match Kind.ofSymbol? (String.ofList (cs.take (n + 1))) with
    | some k => some ⟨k, cs.take (n + 1), cs.drop (n + 1)⟩
    | none => longestSymbol? n cs

def symbol? (cs : List Char) : Option Lexeme :=
  longestSymbol? Kind.maxSymbolLength cs

/-- The lexeme at the front of the text `c :: cs`, where `c` is no layout. -/
def lexeme (c : Char) (cs : List Char) : Lexeme :=
  if isLetter c then
    let word := c :: cs.takeWhile isLetter
    ⟨.ofWord (String.ofList word), word, cs.dropWhile isLetter⟩
  else if c.isDigit then ⟨.int, c :: cs.takeWhile Char.isDigit, cs.dropWhile Char.isDigit⟩
  else (symbol? (c :: cs)).getD ⟨.illegal, [c], cs⟩

theorem longestSymbol?_split {n : Nat} {cs : List Char} {l : Lexeme}
    (h : longestSymbol? n cs = some l) : l.text ++ l.rest = cs ∧ l.text ≠ [] := by
  induction n with
  | zero => simp [longestSymbol?] at h
  | succ n ih =>
    simp only [longestSymbol?] at h
    split at h
    · next k hk =>
      cases h
      refine ⟨List.take_append_drop _ _, fun hnil => ?_⟩
      have hnone : Kind.ofSymbol? (String.ofList []) = none := by decide
      rw [show cs.take (n + 1) = [] from hnil, hnone] at hk
      cases hk
    · exact ih h

theorem lexeme_split (c : Char) (cs : List Char) :
    (lexeme c cs).text ++ (lexeme c cs).rest = c :: cs ∧ (lexeme c cs).text ≠ [] := by
  simp only [lexeme]
  split
  · simp
  split
  · simp
  cases h : symbol? (c :: cs) with
  | none => simp
  | some l => exact longestSymbol?_split h

theorem length_rest_lexeme (c : Char) (cs : List Char) :
    (lexeme c cs).rest.length < cs.length + 1 := by
  have h := lexeme_split c cs
  have hlen := congrArg List.length h.1
  have hpos := List.length_pos_iff.2 h.2
  simp only [List.length_append, List.length_cons] at hlen
  omega

structure Lexed where
  tokens : List Token
  stop : Position
deriving DecidableEq, Repr

def lex (p : Position) : List Char → Lexed
  | [] => ⟨[], p⟩
  | c :: cs =>
    if isLayout c then lex (p.next c) cs
    else
      let l := lexeme c cs
      let behind := lex (p.past l.text) l.rest
      { behind with tokens := ⟨l.kind, String.ofList l.text, p⟩ :: behind.tokens }
termination_by cs => cs.length
decreasing_by
  · simp
  · simpa using length_rest_lexeme c cs

def Lexed.all (l : Lexed) : List Token :=
  l.tokens ++ [.finish l.stop]

def tokenize (source : String) : List Token :=
  (lex .start source.toList).all

end MonkeySyntax
