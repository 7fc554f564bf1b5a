import MonkeySyntax.Text.Quoted

namespace MonkeySyntax

/-- A place in a text. The numbers are integers because a reader may be set up to count from
anywhere; a fresh text counts both from one. -/
@[ext] structure Position where
  line : Int
  column : Int
deriving DecidableEq, Repr

namespace Position

def start : Position := ⟨1, 1⟩

def nowhere : Position := ⟨0, 0⟩

def next (p : Position) (c : Char) : Position :=
  if c = '\n' then ⟨p.line + 1, 1⟩ else ⟨p.line, p.column + 1⟩

def past (p : Position) (cs : List Char) : Position :=
  cs.foldl next p

@[simp] theorem past_nil (p : Position) : p.past [] = p := rfl

@[simp] theorem past_cons (p : Position) (c : Char) (cs : List Char) :
    p.past (c :: cs) = (p.next c).past cs := rfl

@[simp] theorem past_append (p : Position) (cs ds : List Char) :
    p.past (cs ++ ds) = (p.past cs).past ds :=
  List.foldl_append

end Position

/-- The kinds of tokens: what no rule of the lexical grammar fits, the end of the text, names and
numerals, operators, delimiters, and the reserved words. -/
inductive Kind where
  | illegal
  | eof
  | ident
  | int
  | assign
  | plus
  | minus
  | bang
  | asterisk
  | slash
  | lt
  | gt
  | eq
  | notEq
  | comma
  | semicolon
  | lparen
  | rparen
  | lbrace
  | rbrace
  | wordFn
  | wordLet
  | wordTrue
  | wordFalse
  | wordIf
  | wordElse
  | wordReturn
deriving DecidableEq, Repr

namespace Kind

def all : List Kind :=
  [.illegal, .eof, .ident, .int, .assign, .plus, .minus, .bang, .asterisk, .slash, .lt, .gt, .eq,
   .notEq, .comma, .semicolon, .lparen, .rparen, .lbrace, .rbrace, .wordFn, .wordLet, .wordTrue,
   .wordFalse, .wordIf, .wordElse, .wordReturn]

def name : Kind → String
  | .illegal => "ILLEGAL"
  | .eof => "EOF"
  | .ident => "IDENT"
  | .int => "INT"
  | .assign => "ASSIGN"
  | .plus => "PLUS"
  | .minus => "MINUS"
  | .bang => "BANG"
  | .asterisk => "ASTERISK"
  | .slash => "SLASH"
  | .lt => "LT"
  | .gt => "GT"
  | .eq => "EQ"
  | .notEq => "NOT_EQ"
  | .comma => "COMMA"
  | .semicolon => "SEMICOLON"
  | .lparen => "LPAREN"
  | .rparen => "RPAREN"
  | .lbrace => "LBRACE"
  | .rbrace => "RBRACE"
  | .wordFn => "FUNCTION"
  | .wordLet => "LET"
  | .wordTrue => "TRUE"
  | .wordFalse => "FALSE"
  | .wordIf => "IF"
  | .wordElse => "ELSE"
  | .wordReturn => "RETURN"

def ofName? (s : String) : Option Kind :=
  all.find? (·.name == s)

def words : List (String × Kind) :=
  [("fn", .wordFn), ("let", .wordLet), ("true", .wordTrue), ("false", .wordFalse),
   ("if", .wordIf), ("else", .wordElse), ("return", .wordReturn)]

def symbols : List (String × Kind) :=
  [("=", .assign), ("+", .plus), ("-", .minus), ("!", .bang), ("*", .asterisk), ("/", .slash),
   ("<", .lt), (">", .gt), ("==", .eq), ("!=", .notEq), (",", .comma), (";", .semicolon),
   ("(", .lparen), (")", .rparen), ("\x7b", .lbrace), ("\x7d", .rbrace)]

def ofWord (s : String) : Kind :=
  (words.lookup s).getD .ident

def ofSymbol? (s : String) : Option Kind :=
  symbols.lookup s

def maxSymbolLength : Nat :=
  symbols.foldl (fun n s => max n s.1.length) 0

/-- What stands for a kind in a table of kinds: the spelling of an operator or a delimiter, and the
name of every other kind. -/
def label (k : Kind) : String :=
  ((symbols.find? (·.2 == k)).map (·.1)).getD k.name

end Kind

inductive Precedence where
  | lowest
  | equals
  | lessGreater
  | sum
  | product
  | unary
  | call
deriving DecidableEq, Repr

namespace Precedence

def level : Precedence → Nat
  | .lowest => 1
  | .equals => 2
  | .lessGreater => 3
  | .sum => 4
  | .product => 5
  | .unary => 6
  | .call => 7

def name : Precedence → String
  | .lowest => "LOWEST"
  | .equals => "EQUALS"
  | .lessGreater => "LESSGREATER"
  | .sum => "SUM"
  | .product => "PRODUCT"
  | .unary => "PREFIX"
  | .call => "CALL"

end Precedence

/-- How tightly a token of this kind binds the operand in front of it. Kinds that continue no
operand have the lowest level. -/
def Kind.precedence : Kind → Precedence
  | .eq | .notEq => .equals
  | .lt | .gt => .lessGreater
  | .plus | .minus => .sum
  | .asterisk | .slash => .product
  | .lparen => .call
  | _ => .lowest

@[ext] structure Token where
  kind : Kind
  /-- The text the token was read from; empty at the end of the text. -/
  literal : String
  position : Position := .nowhere
deriving DecidableEq, Repr

namespace Token

def finish (p : Position) : Token := ⟨.eof, "", p⟩

@[simp] theorem kind_finish (p : Position) : (finish p).kind = .eof := rfl

def debug (t : Token) : String :=
  s!"Token({t.kind.name}, {quoted t.literal})"

def describe (t : Token) : String :=
  if t.kind = .eof then "end of input" else quoted t.literal

end Token

end MonkeySyntax
