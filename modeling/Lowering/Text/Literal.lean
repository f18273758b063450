/-!
# String literals: source text to bytes, and bytes to IR text

A string literal arrives as the raw text between its quotes. Its bytes are the UTF-8 encoding of that text
with backslash escapes decoded: the eight escapes `\n \t \r \v \0 \\ \" \'` stand for one byte each; any other
escaped character stands for itself after a backslash, and a lone backslash at the end stands for itself.

In the IR a byte array is written between `c"` and `"`: a printable ASCII byte other than `"` and `\` as
itself, every other byte as `\` and two upper-case hex digits. The terminating NUL is added by the writer of
the constant, not here.

`escape` goes the other way from `decode`: it writes a string as raw literal text.
-/

namespace Lowering

namespace Literal

/-- The bytes an escaped character stands for. -/
def escapeBytes (c : Char) : List UInt8 :=
  match c with
  | 'n' => [10]
  | 't' => [9]
  | 'r' => [13]
  | 'v' => [11]
  | '0' => [0]
  | '\\' => [92]
  | '"' => [34]
  | '\'' => [39]
  | other => 92 :: String.utf8EncodeChar other

/-- The bytes of literal text, escapes decoded. -/
def decodeChars : List Char → List UInt8
  | [] => []
  | '\\' :: c :: rest => escapeBytes c ++ decodeChars rest
  | c :: rest => String.utf8EncodeChar c ++ decodeChars rest

/-- The bytes of a string literal's raw text. -/
def decode (raw : String) : List UInt8 := decodeChars raw.toList

/-- The source spelling of a character inside a literal: backslash, double quote and the five control
characters with an escape of their own are escaped, every other character stands for itself. -/
def escapeChar : Char → List Char
  | '\\' => ['\\', '\\']
  | '"' => ['\\', '"']
  | '\n' => ['\\', 'n']
  | '\t' => ['\\', 't']
  | '\r' => ['\\', 'r']
  | '\x0b' => ['\\', 'v']
  | '\x00' => ['\\', '0']
  | c => [c]

/-- The raw literal text that writes a string: each character spelt by `escapeChar`. -/
def escape (s : String) : String := String.ofList (s.toList.flatMap escapeChar)

/-- The upper-case hex digit of a number below sixteen. -/
def hexDigit (n : Nat) : Char := Char.ofNat (if n < 10 then 0x30 + n else 0x41 + n - 10)

/-- Whether a byte is written as itself: printable ASCII, but neither `"` nor `\`. -/
def isPlain (b : UInt8) : Bool := 0x20 ≤ b && b ≤ 0x7E && b != 0x22 && b != 0x5C

/-- The characters that write one byte in the IR. -/
def encodeByte (b : UInt8) : List Char :=
  if isPlain b then [Char.ofNat b.toNat]
  else ['\\', hexDigit (b.toNat / 16), hexDigit (b.toNat % 16)]

/-- The IR text of a byte array, without the quotes. -/
def encode (bytes : List UInt8) : String := String.ofList (bytes.flatMap encodeByte)

end Literal

end Lowering
