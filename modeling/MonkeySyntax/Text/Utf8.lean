import MonkeySyntax.Text.Quoted

namespace MonkeySyntax

namespace Utf8

inductive Reason where
  | start
  | continuation
  | truncated
deriving DecidableEq, Repr

def Reason.message : Reason → String
  | .start => "invalid start byte"
  | .continuation => "invalid continuation byte"
  | .truncated => "unexpected end of data"

/-- A place where bytes are no text: the first of the faulty bytes, its offset, and how many bytes
are at fault. -/
structure Fault where
  reason : Reason
  first : UInt8
  offset : Nat
  length : Nat
deriving DecidableEq, Repr

def Fault.message (f : Fault) : String :=
  let place :=
    if f.length = 1 then
      let byte := String.ofList (hexDigits 2 f.first.toNat)
      s!"byte 0x{byte} in position {f.offset}"
    else s!"bytes in position {f.offset}-{f.offset + f.length - 1}"
  s!"'utf-8' codec can't decode {place}: {f.reason.message}"

/-- What a first byte announces: the bits that it gives, the number of bytes that follow, and the
range of the one right behind it. -/
structure Lead where
  bits : Nat
  more : Nat
  low : Nat
  high : Nat

def lead? (b : UInt8) : Option Lead :=
  let n := b.toNat
  if n < 0x80 then some ⟨n, 0, 0x80, 0xBF⟩
  else if n < 0xC2 then none
  else if n < 0xE0 then some ⟨n - 0xC0, 1, 0x80, 0xBF⟩
  else if n = 0xE0 then some ⟨0, 2, 0xA0, 0xBF⟩
  else if n = 0xED then some ⟨0xD, 2, 0x80, 0x9F⟩
  else if n < 0xF0 then some ⟨n - 0xE0, 2, 0x80, 0xBF⟩
  else if n = 0xF0 then some ⟨0, 3, 0x90, 0xBF⟩
  else if n < 0xF4 then some ⟨n - 0xF0, 3, 0x80, 0xBF⟩
  else if n = 0xF4 then some ⟨4, 3, 0x80, 0x8F⟩
  else none

/-- Reads `more` continuation bytes behind `read` bytes of one character. The answer is the code
point, or a reason with the number of bytes that were in order. -/
def continued (bits low high : Nat) : (more read : Nat) → List UInt8 → Except (Reason × Nat) Nat
  | 0, _, _ => .ok bits
  | _ + 1, read, [] => .error (.truncated, read)
  | more + 1, read, b :: bs =>
    if low ≤ b.toNat ∧ b.toNat ≤ high then
      continued (bits * 64 + (b.toNat - 0x80)) 0x80 0xBF more (read + 1) bs
    else .error (.continuation, read)

def decodeFrom (offset : Nat) : List UInt8 → Except Fault (List Char)
  | [] => .ok []
  | b :: bs =>
    match lead? b with
    | none => .error ⟨.start, b, offset, 1⟩
    | some l =>
      match continued l.bits l.low l.high l.more 1 bs with
      | .error (reason, length) => .error ⟨reason, b, offset, length⟩
      | .ok n => do
        let cs ← decodeFrom (offset + 1 + l.more) (bs.drop l.more)
        return Char.ofNat n :: cs
termination_by bs => bs.length
decreasing_by simp only [List.length_drop, List.length_cons]; omega

def decode (bytes : List UInt8) : Except Fault (List Char) := decodeFrom 0 bytes

end Utf8

/-- The lines of a file whatever ends them: a carriage return, alone or with the line feed behind
it, counts as one line feed. -/
def unifyNewlines : List Char → List Char
  | [] => []
  | '\r' :: '\n' :: cs => '\n' :: unifyNewlines cs
  | '\r' :: cs => '\n' :: unifyNewlines cs
  | c :: cs => c :: unifyNewlines cs

end MonkeySyntax
