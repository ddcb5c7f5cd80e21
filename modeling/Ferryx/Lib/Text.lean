import Mathlib

/-! # Texts: without their ends, split at a separator -/

namespace Ferryx.Lib
open List
variable {α : Type*}

def strip (p : α → Bool) (l : List α) : List α := (l.dropWhile p).rdropWhile p

def splitOnce [BEq α] (sep : List α) : List α → Option (List α × List α)
  | [] => if sep.isEmpty then some ([], []) else none
  | c :: l =>
    match sep.isPrefixOf? (c :: l) with
    | some rest => some ([], rest)
    | none => (splitOnce sep l).map fun (before, after) => (c :: before, after)

def wordsOf (p : α → Bool) (l : List α) : List (List α) := (l.splitOnP p).filter (!·.isEmpty)

@[irreducible] def startsWith (s pre : String) : Bool := pre.toList.isPrefixOf s.toList

@[irreducible] def stripPrefix (s pre : String) : Option String := (pre.toList.isPrefixOf? s.toList).map String.ofList

@[irreducible] def contains (s sub : String) : Bool := (splitOnce sub.toList s.toList).isSome

@[irreducible] def splitAt (s : String) (sep : String) : Option (String × String) :=
  (splitOnce sep.toList s.toList).map fun (before, after) => (String.ofList before, String.ofList after)

def splitAtAll (s : String) (c : Char) : List String := (s.toList.splitOn c).map String.ofList

def trimMatches (s : String) (c : Char) : String := String.ofList (strip (· == c) s.toList)

def trimEndMatches (s : String) (c : Char) : String := String.ofList (s.toList.rdropWhile (· == c))

def asciiLowercase (s : String) : String := String.ofList (s.toList.map Char.toLower)

def asciiUppercase (s : String) : String := String.ofList (s.toList.map Char.toUpper)

end Ferryx.Lib
