import ProbeCoverage.Text.CodeRanges

/-!
# Quoted text

A text between double quotes. A quote and a backslash are escaped by a backslash, common controls
are written by their letter, other characters that do not show by themselves by their code point in
hexadecimal digits.

Controls, format characters, separators other than the blank, fillers and characters for private use
have no shape, nor has a code point that stands for no character; a combining character changes the
shape of the one before it. All others show by themselves.
-/

namespace ProbeCoverage.Text

/-- Controls, format characters, separators, fillers and characters for private use. -/
def shapeless : CodeRanges := [
  (0x0, 0x1f), (0x7f, 0xa0), (0xad, 0xad), (0x600, 0x605), (0x61c, 0x61c), (0x6dd, 0x6dd),
  (0x70f, 0x70f), (0x890, 0x891), (0x8e2, 0x8e2), (0x115f, 0x1160), (0x1680, 0x1680),
  (0x180e, 0x180e), (0x2000, 0x200f), (0x2028, 0x202f), (0x205f, 0x2064), (0x2066, 0x206f),
  (0x3000, 0x3000), (0x3164, 0x3164), (0xe000, 0xf8ff), (0xfeff, 0xfeff), (0xffa0, 0xffa0),
  (0xfff9, 0xfffb), (0x110bd, 0x110bd), (0x110cd, 0x110cd), (0x13430, 0x1343f), (0x1bca0, 0x1bca3),
  (0x1d173, 0x1d17a), (0xe0001, 0xe0001), (0xe0020, 0xe007f), (0xf0000, 0xffffd),
  (0x100000, 0x10fffd)]

def isVisible (c : Char) : Bool :=
  !(shapeless.contains c || combining.contains c || unassigned.contains c)

/-- A code point in hexadecimal digits, as in `\u\x7b1b\x7d`. -/
def codePoint (c : Char) : List Char := ['\\', 'u', '\x7b'] ++ Nat.toDigits 16 c.toNat ++ ['\x7d']

def quoteChar (c : Char) : List Char :=
  match c with
  | '"' => ['\\', '"']
  | '\\' => ['\\', '\\']
  | '\t' => ['\\', 't']
  | '\r' => ['\\', 'r']
  | '\n' => ['\\', 'n']
  | '\x00' => ['\\', '0']
  | c => if isVisible c then [c] else codePoint c

def quote (s : String) : String :=
  String.ofList ('"' :: s.toList.flatMap quoteChar ++ ['"'])

end ProbeCoverage.Text
