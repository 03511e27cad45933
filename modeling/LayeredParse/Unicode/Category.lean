import LayeredParse.Ascending
import LayeredParse.Reading
import LayeredParse.Unicode.CategoryTable
/-!
# Category — the general category of a character, and the classes made from it

`categoryOf` looks a character up in the table of runs.  The classes here are the word characters, decimal digits and
white space that regular expressions speak of, and the printable and combining characters that quoting speaks of.
-/
namespace LayeredParse
namespace Unicode

/-- The general categories, by their usual two letters. -/
inductive Category where
  | lu | ll | lt | lm | lo
  | mn | mc | me
  | nd | nl | no
  | pc | pd | ps | pe | pi | pf | po
  | sm | sc | sk | so
  | zs | zl | zp
  | cc | cf | cs | co | cn
  deriving DecidableEq, Repr, Inhabited

namespace Category

/-- Every category with its two letters and its long name, both in lower case and without separators. -/
def names : List (Category × String × String) := [
  (.lu, "lu", "uppercaseletter"), (.ll, "ll", "lowercaseletter"), (.lt, "lt", "titlecaseletter"),
  (.lm, "lm", "modifierletter"), (.lo, "lo", "otherletter"),
  (.mn, "mn", "nonspacingmark"), (.mc, "mc", "spacingmark"), (.me, "me", "enclosingmark"),
  (.nd, "nd", "decimalnumber"), (.nl, "nl", "letternumber"), (.no, "no", "othernumber"),
  (.pc, "pc", "connectorpunctuation"), (.pd, "pd", "dashpunctuation"), (.ps, "ps", "openpunctuation"),
  (.pe, "pe", "closepunctuation"), (.pi, "pi", "initialpunctuation"), (.pf, "pf", "finalpunctuation"),
  (.po, "po", "otherpunctuation"),
  (.sm, "sm", "mathsymbol"), (.sc, "sc", "currencysymbol"), (.sk, "sk", "modifiersymbol"), (.so, "so", "othersymbol"),
  (.zs, "zs", "spaceseparator"), (.zl, "zl", "lineseparator"), (.zp, "zp", "paragraphseparator"),
  (.cc, "cc", "control"), (.cf, "cf", "format"), (.cs, "cs", "surrogate"), (.co, "co", "privateuse"),
  (.cn, "cn", "unassigned")]

/-- Groups of categories, each with its short and its long name. -/
def groups : List (List Category × String × String) := [
  ([.lu, .ll, .lt, .lm, .lo], "l", "letter"),
  ([.lu, .ll, .lt], "lc", "casedletter"),
  ([.mn, .mc, .me], "m", "mark"),
  ([.nd, .nl, .no], "n", "number"),
  ([.pc, .pd, .ps, .pe, .pi, .pf, .po], "p", "punctuation"),
  ([.sm, .sc, .sk, .so], "s", "symbol"),
  ([.zs, .zl, .zp], "z", "separator"),
  ([.cc, .cf, .cs, .co, .cn], "c", "other")]

def aliases : List (String × String) := [
  ("cntrl", "cc"), ("digit", "nd"), ("punct", "p"), ("combiningmark", "m")]

/-- The categories that a name in lower case and without separators stands for. -/
def named? (name : String) : Option (List Category) :=
  let name := (aliases.lookup name).getD name
  match names.find? (fun n => n.2.1 == name || n.2.2 == name) with
  | some n => some [n.1]
  | none => (groups.find? (fun g => g.2.1 == name || g.2.2 == name)).map (·.1)

/-- The category that two letters of the table stand for. -/
def ofLetters (first second : Char) : Category :=
  ((names.find? (fun n => n.2.1.toList == [first.toLower, second])).map (·.1)).getD .cn

end Category

/-- The runs read so far from the table: where each starts and its category; then the run being read. -/
structure Runs where
  starts : Array Nat := #[]
  categories : Array Category := #[]
  next : Nat := 0
  count : Nat := 0
  letter : Option Char := none

/-- Reads one character of the table: an upper-case letter ends a run and begins the next, the letter after it completes
the category, and digits extend the count. -/
def Runs.read (r : Runs) (c : Char) : Runs :=
  match r.letter with
  | some first =>
    { r with starts := r.starts.push r.next, categories := r.categories.push (.ofLetters first c), letter := none }
  | none =>
    if c.isUpper then { r with next := r.next + r.count, count := 0, letter := some c }
    else { r with count := r.count * 16 + (hexDigit? c).getD 0 }

def runs : Runs :=
  categoryRuns.foldl (fun r line => line.toList.foldl Runs.read r) {}

def categoryOf (c : Char) : Category :=
  runs.categories.getD (Ascending.rank runs.starts c.toNat) .cn

/-- Numbers between a first and a last, both included. -/
def inRanges (ranges : List (Nat × Nat)) (c : Char) : Bool :=
  ranges.any fun r => r.1 ≤ c.toNat && c.toNat ≤ r.2

/-- Circled and squared letters, which are symbols but count as letters. -/
def isAlphabeticSymbol (c : Char) : Bool :=
  inRanges [(0x24B6, 0x24E9), (0x1F130, 0x1F149), (0x1F150, 0x1F169), (0x1F170, 0x1F189)] c

def isWord (c : Char) : Bool :=
  if c.toNat < 128 then c.isAlphanum || c == '_'
  else
    [Category.lu, .ll, .lt, .lm, .lo, .nl, .mn, .mc, .me, .nd, .pc].contains (categoryOf c) ||
      inRanges [(0x200C, 0x200D)] c || isAlphabeticSymbol c

def isDecimalDigit (c : Char) : Bool :=
  if c.toNat < 128 then c.isDigit else categoryOf c == .nd

def isSpace (c : Char) : Bool :=
  inRanges [(0x9, 0xD), (0x20, 0x20), (0x85, 0x85), (0xA0, 0xA0), (0x1680, 0x1680), (0x2000, 0x200A), (0x2028, 0x2029),
    (0x202F, 0x202F), (0x205F, 0x205F), (0x3000, 0x3000)] c

/-- Characters that show as themselves: all but controls, formats, surrogates, private use, unassigned ones, and
separators other than the space. -/
def isPrintable (c : Char) : Bool :=
  if c.toNat < 128 then 0x20 ≤ c.toNat && c.toNat < 0x7F
  else !([Category.cc, .cf, .cs, .co, .cn, .zl, .zp, .zs].contains (categoryOf c))

/-- Spacing marks and others that extend the character before them although they are not combining marks. -/
def isOtherExtend (c : Char) : Bool :=
  inRanges [(0x9BE, 0x9BE), (0x9D7, 0x9D7), (0xB3E, 0xB3E), (0xB57, 0xB57), (0xBBE, 0xBBE), (0xBD7, 0xBD7),
    (0xCC2, 0xCC2), (0xCD5, 0xCD6), (0xD3E, 0xD3E), (0xD57, 0xD57), (0xDCF, 0xDCF), (0xDDF, 0xDDF), (0x1B35, 0x1B35),
    (0x200C, 0x200C), (0x302E, 0x302F), (0xFF9E, 0xFF9F), (0x1133E, 0x1133E), (0x11357, 0x11357), (0x114B0, 0x114B0),
    (0x114BD, 0x114BD), (0x115AF, 0x115AF), (0x11930, 0x11930), (0x1D165, 0x1D165), (0x1D16E, 0x1D172),
    (0xE0020, 0xE007F)] c

/-- Characters that extend the one before them. -/
def isGraphemeExtend (c : Char) : Bool :=
  if c.toNat < 128 then false
  else [Category.mn, .me].contains (categoryOf c) || isOtherExtend c

end Unicode
end LayeredParse
