import Anatomy.Text.Printable

namespace Anatomy.Text.Quoted

open Anatomy.Text.Printable

def apostrophe : Char := '\x27'
def doubleQuote : Char := '\x22'
def backslash : Char := '\x5c'

def hexDigits : Nat → Nat → List Char
  | 0, _ => []
  | width + 1, n => hexDigits width (n / 16) ++ [Nat.digitChar (n % 16)]

def delimiter (cs : List Char) : Char :=
  if cs.contains apostrophe && !cs.contains doubleQuote then doubleQuote else apostrophe

/-- The spelling of one character between two delimiters: the delimiter and the backslash are
marked by a backslash, and a hidden character is spelled by the shortest numeric escape. -/
def escape (delim c : Char) : List Char :=
  let n := c.toNat
  if c = delim || c = backslash then [backslash, c]
  else if c = '\n' then [backslash, 'n']
  else if c = '\r' then [backslash, 'r']
  else if c = '\t' then [backslash, 't']
  else if isPrintable c then [c]
  else if n < 0x100 then backslash :: 'x' :: hexDigits 2 n
  else if n < 0x10000 then backslash :: 'u' :: hexDigits 4 n
  else backslash :: 'U' :: hexDigits 8 n

def quoteChars (cs : List Char) : List Char :=
  let delim := delimiter cs
  delim :: cs.flatMap (escape delim) ++ [delim]

def quote (text : String) : String :=
  String.ofList (quoteChars text.toList)

end Anatomy.Text.Quoted

namespace Anatomy.Text.Sequence

/-- Items between parentheses. A single item keeps a comma, which tells the sequence from the item
in parentheses. -/
def parenthesized : List String → String
  | [item] => "(" ++ item ++ ",)"
  | items => "(" ++ ", ".intercalate items ++ ")"

def textSet (texts : List String) : List String :=
  texts.eraseDups.mergeSort

def bracketed (items : List String) : String :=
  "[" ++ ", ".intercalate items ++ "]"

end Anatomy.Text.Sequence
