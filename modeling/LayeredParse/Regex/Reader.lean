import LayeredParse.Regex.Bracket
/-!
# Reader — regular expressions from their written form

`Regex.parse?` reads an expression from left to right with a stack of the groups that are still open.  Every step takes
one item: it opens or closes a group, begins a branch, repeats the item before it, or adds an item.
-/
namespace LayeredParse
namespace Regex

/-- What lies around an open group: the items before it, the branches before those, and the modes to go back to. -/
structure OpenGroup where
  items : List Regex
  branches : List Regex
  flags : Flags

/-- An expression as far as it is read.  Items and branches have the newest first. -/
structure Builder where
  items : List Regex := []
  branches : List Regex := []
  flags : Flags := {}
  outer : List OpenGroup := []
  names : List (List Char) := []

namespace Builder

/-- The items so far, one after the other. -/
def sequence (d : Builder) : Regex :=
  match d.items with
  | [] => empty
  | [r] => r
  | items => concat items.reverse

/-- The branches so far, the items so far as the last. -/
def body (d : Builder) : Regex :=
  match d.branches with
  | [] => d.sequence
  | branches => alternation (d.sequence :: branches).reverse

def add (d : Builder) (r : Regex) : Builder :=
  { d with items := r :: d.items }

def branch (d : Builder) : Builder :=
  { d with items := [], branches := d.sequence :: d.branches }

def openGroup (d : Builder) (flags : Flags) : Builder :=
  { d with items := [], branches := [], flags, outer := ⟨d.items, d.branches, d.flags⟩ :: d.outer }

/-- Closes the innermost group, if one is open. -/
def closeGroup (d : Builder) : Option Builder :=
  match d.outer with
  | [] => none
  | g :: outer =>
    some { d with items := group d.body :: g.items, branches := g.branches, flags := g.flags, outer }

def finish (d : Builder) : Option Regex :=
  if d.outer.isEmpty then some d.body else none

/-- Repeats the last item.  Before it must stand an item, and a change of modes is none. -/
def repeated (d : Builder) (least : Nat) (most : Option Nat) : Option Builder :=
  match d.items with
  | [] => none
  | empty :: _ => none
  | r :: items => some { d with items := times r least most :: items }

/-- Adds a character, a class or a condition, as it is in the modes in force. -/
def addAtom (d : Builder) : Atom → Builder
  | .literal c => d.add (oneOf (d.flags.close false (.single c)))
  | .members members => d.add (oneOf members)
  | .look condition => d.add (look condition (if d.flags.unicode then .word else .asciiWord))

end Builder

def Flags.startAnchor (f : Flags) : Look :=
  if !f.multiLine then .textStart else if f.carriageReturn then .lineStartCr else .lineStart

def Flags.endAnchor (f : Flags) : Look :=
  if !f.multiLine then .textEnd else if f.carriageReturn then .lineEndCr else .lineEnd

/-- The characters that a dot stands for; it has none outside the Unicode mode. -/
def Flags.dot? (f : Flags) : Option CharClass :=
  if !f.unicode then none
  else if f.dotAll then some .all
  else if f.carriageReturn then some (.complement (.ofRanges [('\n', '\n'), ('\r', '\r')]))
  else some (.complement (.single '\n'))

/-- Drops a question mark, which makes a repetition prefer fewer but does not change what can match. -/
def dropLazy : List Char → List Char
  | '?' :: rest => rest
  | rest => rest

def countLimit : Nat := 4294967295

/-- Reads a count, blanks around it left out. -/
def count? (s : List Char) : Option Nat :=
  let digits := (s.dropWhile Unicode.isSpace).reverse.dropWhile Unicode.isSpace |>.reverse
  if digits ≠ [] ∧ digits.all Char.isDigit then
    if decimalNumber digits ≤ countLimit then some (decimalNumber digits) else none
  else none

/-- The bounds between braces: one count, a least count and a comma, or a least and a greatest count. -/
def bounds? (s : List Char) : Option (Nat × Option Nat) :=
  let left := s.takeWhile (· != ',')
  match s.drop left.length with
  | [] => (count? left).map fun n => (n, some n)
  | _ :: [] => (count? left).map fun n => (n, none)
  | _ :: right =>
    match count? left, count? right with
    | some least, some most => if least ≤ most then some (least, some most) else none
    | _, _ => none

/-- Whether a character may stand in the name of a group; digits and some signs may not come first. -/
def isNameChar (first : Bool) (c : Char) : Bool :=
  if c.toNat < 128 then c.isAlpha || c == '_' || (!first && (c.isDigit || c == '.' || c == '[' || c == ']'))
  else
    [Unicode.Category.lu, .ll, .lt, .lm, .lo, .nl].contains (Unicode.categoryOf c) ||
      (!first && [Unicode.Category.nd, .no].contains (Unicode.categoryOf c))

/-- Reads the name of a group up to the closing angle bracket.  No two groups have the same name. -/
def readName (names : List (List Char)) (s : List Char) : Reading (List Char) :=
  let name := s.takeWhile (· != '>')
  match name, s.drop name.length with
  | first :: others, '>' :: rest =>
    if isNameChar true first ∧ others.all (isNameChar false) ∧ ¬ names.contains name then some (name, rest) else none
  | _, _ => none

/-- Reads what may follow an opening parenthesis: a name, modes for the rest or for the group, or nothing special. -/
def readGroup (d : Builder) (s : List Char) : Reading Builder :=
  match d.flags.skip s with
  | '?' :: 'P' :: '<' :: rest =>
    (readName d.names rest).map fun (name, rest) => ({ d.openGroup d.flags with names := name :: d.names }, rest)
  | '?' :: '<' :: rest =>
    (readName d.names rest).map fun (name, rest) => ({ d.openGroup d.flags with names := name :: d.names }, rest)
  | '?' :: rest =>
    (d.flags.read [] rest).map fun (flags, ofGroup, rest) =>
      (if ofGroup then d.openGroup flags else { d.add empty with flags }, rest)
  | rest => some (d.openGroup d.flags, rest)

/-- Takes the item that begins with `c`. -/
def step (d : Builder) (c : Char) (rest : List Char) : Reading Builder :=
  match c with
  | '(' => readGroup d rest
  | ')' => d.closeGroup.map fun d => (d, rest)
  | '|' => some (d.branch, rest)
  | '[' => (readClass d.flags rest).map fun (members, rest) => (d.add (oneOf members), rest)
  | '?' => (d.repeated 0 (some 1)).map fun d => (d, dropLazy rest)
  | '*' => (d.repeated 0 none).map fun d => (d, dropLazy rest)
  | '+' => (d.repeated 1 none).map fun d => (d, dropLazy rest)
  | '\x7b' =>
    (d.flags.readBraced false rest).bind fun (inside, rest) =>
      (bounds? inside).bind fun (least, most) =>
        (d.repeated least most).map fun d => (d, dropLazy (d.flags.skip rest))
  | '\\' => (readEscape d.flags rest).map fun (atom, rest) => (d.addAtom atom, rest)
  | '.' => d.flags.dot?.map fun members => (d.add (oneOf members), rest)
  | '^' => some (d.addAtom (.look d.flags.startAnchor), rest)
  | '$' => some (d.addAtom (.look d.flags.endAnchor), rest)
  | c => some (d.addAtom (.literal c), rest)

/-- Reads on in at most `steps` steps, each of which takes a character at least. -/
def readOn : (steps : Nat) → Builder → List Char → Option Regex
  | 0, _, _ => none
  | steps + 1, d, s =>
    match d.flags.skip s with
    | [] => d.finish
    | c :: rest => (step d c rest).bind fun (d, rest) => readOn steps d rest

def nestingLimit : Nat := 250

def sizeLimit : Nat := 327680

/-- The expression that a text writes, if it writes one that is neither nested too deep nor too large. -/
def parse? (s : List Char) : Option Regex :=
  (readOn (s.length + 1) {} s).filter fun r => r.nesting ≤ nestingLimit && r.expandedSize ≤ sizeLimit

end Regex
end LayeredParse
