import LayeredParse.Unicode.CaseFold
import LayeredParse.Unicode.Category
/-!
# CharClass — sets of characters

A class is a range, a set given by general categories, or made from other classes by the set operations.  `caseless`
closes a class under differences of case: it holds what has a variant in the class.
-/
namespace LayeredParse

/-- A set of characters. -/
inductive CharClass where
  | empty
  /-- The characters from `first` to `last`, both included. -/
  | range (first last : Char)
  /-- The characters of the given general categories. -/
  | categories (members : List Unicode.Category)
  | word
  | decimalDigit
  | space
  | complement (of : CharClass)
  | union (a b : CharClass)
  | inter (a b : CharClass)
  | diff (a b : CharClass)
  /-- What is in one of the two classes but not in both. -/
  | symmDiff (a b : CharClass)
  /-- The characters with a case variant in the class. -/
  | caseless (of : CharClass)
  /-- The same, where case is known of the letters A to Z only. -/
  | asciiCaseless (of : CharClass)
  deriving Repr, Inhabited

namespace CharClass

/-- Whether the class holds the character. -/
def mem : CharClass → Char → Bool
  | empty, _ => false
  | range first last, c => first ≤ c && c ≤ last
  | categories members, c => members.contains (Unicode.categoryOf c)
  | word, c => Unicode.isWord c
  | decimalDigit, c => Unicode.isDecimalDigit c
  | space, c => Unicode.isSpace c
  | complement of, c => !mem of c
  | union a b, c => mem a c || mem b c
  | inter a b, c => mem a c && mem b c
  | diff a b, c => mem a c && !mem b c
  | symmDiff a b, c => mem a c != mem b c
  | caseless of, c => (Unicode.variants c).any (mem of)
  | asciiCaseless of, c => [c, c.toLower, c.toUpper].any (mem of)

def all : CharClass := complement empty

def single (c : Char) : CharClass := range c c

def ofRanges (ranges : List (Char × Char)) : CharClass :=
  ranges.foldl (fun set r => set.union (range r.1 r.2)) empty

/-- The decimal digits 0 to 9. -/
def asciiDigit : CharClass := range '0' '9'

/-- The letters A to Z in both cases, the digits 0 to 9 and the underscore. -/
def asciiWord : CharClass := ofRanges [('0', '9'), ('A', 'Z'), ('_', '_'), ('a', 'z')]

/-- Space, tabs, line feed, form feed and carriage return. -/
def asciiSpace : CharClass := ofRanges [('\t', '\r'), (' ', ' ')]

/-- The classes with a name between colons. -/
def posix? : String → Option CharClass
  | "alnum" => some (ofRanges [('0', '9'), ('A', 'Z'), ('a', 'z')])
  | "alpha" => some (ofRanges [('A', 'Z'), ('a', 'z')])
  | "ascii" => some (range '\x00' '\x7f')
  | "blank" => some (ofRanges [('\t', '\t'), (' ', ' ')])
  | "cntrl" => some (ofRanges [('\x00', '\x1f'), ('\x7f', '\x7f')])
  | "digit" => some asciiDigit
  | "graph" => some (range '!' '~')
  | "lower" => some (range 'a' 'z')
  | "print" => some (range ' ' '~')
  | "punct" => some (ofRanges [('!', '/'), (':', '@'), ('[', '\x60'), ('\x7b', '~')])
  | "space" => some asciiSpace
  | "upper" => some (range 'A' 'Z')
  | "word" => some asciiWord
  | "xdigit" => some (ofRanges [('0', '9'), ('A', 'F'), ('a', 'f')])
  | _ => none

/-- A property name without what does not count in it: case, spaces, underscores, hyphens, and a leading `is`. -/
def propertyName (name : List Char) : String :=
  let lower := name.map Char.toLower
  let bare := (if lower.take 2 = ['i', 's'] then lower.drop 2 else lower).filter fun c =>
    c != ' ' && c != '_' && c != '-' && c.toNat < 128
  String.ofList bare

/-- The characters with a property. -/
def property? (name : List Char) : Option CharClass :=
  match propertyName name with
  | "any" => some all
  | "ascii" => some (range '\x00' '\x7f')
  | "assigned" => some (complement (categories [.cn]))
  | "whitespace" | "space" | "wspace" => some space
  | "asciihexdigit" | "ahex" => posix? "xdigit"
  | bare => (Unicode.Category.named? bare).map categories

/-- The characters whose property has a value: the general category is the property known here. -/
def propertyValue? (name value : List Char) : Option CharClass :=
  match propertyName name with
  | "gc" | "generalcategory" => property? value
  | _ => none

end CharClass
end LayeredParse
