import Mathlib.Data.List.Basic

/-! String operations of the sources, as functions on the characters, so that
they compute in the kernel. -/

namespace Sharko.Library.Text

def startsWith (text start : String) : Bool := start.toList.isPrefixOf text.toList

def endsWith (text ending : String) : Bool := ending.toList.isSuffixOf text.toList

def contains (text : String) (character : Char) : Bool := text.toList.contains character

def before (text : String) (character : Char) : String :=
  String.ofList (text.toList.takeWhile (· ≠ character))

def toAsciiLowercase (text : String) : String := String.ofList (text.toList.map Char.toLower)

def isWhitespace (c : Char) : Bool :=
  (0x9 ≤ c.toNat && c.toNat ≤ 0xd) || (0x2000 ≤ c.toNat && c.toNat ≤ 0x200a) ||
    [0x20,0x85,0xa0,0x1680,0x2028,0x2029,0x202f,0x205f,0x3000].contains c.toNat

def trim (text : String) : String :=
  String.ofList (((text.toList.dropWhile isWhitespace).reverse.dropWhile isWhitespace).reverse)

def utf8 (text : String) : List UInt8 := text.toUTF8.data.toList

def eqIgnoreAsciiCase (left right : String) : Bool :=
  left.toList.map Char.toLower == right.toList.map Char.toLower

def splitOnce (text : String) (character : Char) : Option (String × String) :=
  if contains text character then
    some (before text character,String.ofList ((text.toList.dropWhile (· ≠ character)).drop 1))
  else none

def split (text : String) (character : Char) : List String :=
  (text.toList.splitOn character).map String.ofList

def trimMatches (text : String) (character : Char) : String :=
  String.ofList (((text.toList.dropWhile (· = character)).reverse.dropWhile (· = character)).reverse)

def isDigits (text : String) : Bool := text.toList.all fun c => '0' ≤ c && c ≤ '9'

def decimal (text : String) : Nat :=
  text.toList.foldl (fun n c => 10 * n + (c.toNat - '0'.toNat)) 0

def isInfix (part : List Char) : List Char → Bool
  | [] => part.isEmpty
  | c :: rest => part.isPrefixOf (c :: rest) || isInfix part rest

def includes (text part : String) : Bool := isInfix part.toList text.toList

end Sharko.Library.Text
