import LayeredParse.Regex.Escape
/-!
# Bracket — classes in brackets

Between brackets stand characters, ranges, classes and further brackets; pairs of ampersands, hyphens and tildes intersect,
subtract and take the symmetric difference, from left to right.  Brackets that are still open form a stack, innermost
first.
-/
namespace LayeredParse
namespace Regex

/-- Operations on classes within brackets. -/
inductive SetOperation where
  | inter | diff | symmDiff

def SetOperation.apply : SetOperation → CharClass → CharClass → CharClass
  | inter => .inter
  | diff => .diff
  | symmDiff => .symmDiff

/-- Brackets not closed yet: the left side of an operation that waits for its right side, and the union so far. -/
structure OpenBracket where
  negated : Bool
  waiting : Option (CharClass × SetOperation) := none
  members : CharClass := .empty

namespace OpenBracket

def add (b : OpenBracket) (set : CharClass) : OpenBracket :=
  { b with members := b.members.union set }

/-- The class so far, the waiting operation applied. -/
def value (b : OpenBracket) (f : Flags) : CharClass :=
  match b.waiting with
  | none => b.members
  | some (left, operation) => operation.apply (f.close false left) (f.close false b.members)

/-- Begins the right side of an operation. -/
def operate (b : OpenBracket) (f : Flags) (operation : SetOperation) : OpenBracket :=
  { b with waiting := some (b.value f, operation), members := .empty }

end OpenBracket

/-- Drops hyphens, with what does not count after each, and tells whether there were any. -/
def dropHyphens (f : Flags) (inComment found : Bool) : List Char → Bool × List Char
  | [] => (found, [])
  | c :: rest =>
    if inComment then dropHyphens f (c != '\n') found rest
    else if f.spaced && Unicode.isSpace c then dropHyphens f false found rest
    else if f.spaced && c == '#' then dropHyphens f true found rest
    else if c = '-' then dropHyphens f false true rest
    else (found, c :: rest)

/-- Reads what may stand right after an opening bracket: a circumflex that negates, then hyphens or one closing bracket
that stand for themselves.  Something has to follow. -/
def openBracket (f : Flags) (s : List Char) : Reading OpenBracket :=
  let (negated, s) := match f.skip s with
    | '^' :: rest => (true, f.skip rest)
    | rest => (false, rest)
  let (hyphens, s) := dropHyphens f false false s
  let start : OpenBracket := { negated }
  match s with
  | [] => none
  | c :: rest =>
    if hyphens then
      if negated && !f.unicode then none else some (start.add (.single '-'), s)
    else if negated && !f.unicode then none
    else if c = ']' then
      match f.skip rest with
      | [] => none
      | rest => some (start.add (.single ']'), rest)
    else some (start, s)

/-- Reads a class with a name between colons, after the bracket: `:alpha:]`, or `:^alpha:]` for its complement. -/
def readPosix (f : Flags) : List Char → Reading CharClass
  | ':' :: s =>
    let (negated, s) := match s with
      | '^' :: rest => (true, rest)
      | rest => (false, rest)
    let name := s.takeWhile (· != ':')
    match s.drop name.length with
    | ':' :: ']' :: rest =>
      if negated && !f.unicode then none
      else (CharClass.posix? (String.ofList name)).map fun set => (f.close negated set, rest)
    | _ => none
  | _ => none

/-- Reads one character, escaped or not, or an escaped class. -/
def readMember (f : Flags) : List Char → Reading Atom
  | [] => none
  | '\\' :: rest => readEscape f rest
  | c :: rest => some (.literal c, rest)

/-- The class of a member that stands by itself.  Outside the Unicode mode characters must be ASCII. -/
def Atom.asClass? (f : Flags) : Atom → Option CharClass
  | literal c => if f.unicode || c.toNat < 128 then some (.single c) else none
  | members set => some set
  | look _ => none

/-- The class of a range, whose ends must be characters in order. -/
def rangeOf? (f : Flags) : Atom → Atom → Option CharClass
  | .literal first, .literal last =>
    if first ≤ last ∧ (f.unicode ∨ last.toNat < 128) then some (.range first last) else none
  | _, _ => none

/-- Reads a member, or a range if a hyphen follows that is neither last nor the first of two. -/
def readMembers (f : Flags) (s : List Char) : Reading CharClass :=
  (readMember f s).bind fun (first, rest) =>
    match f.skip rest with
    | [] => none
    | c :: after =>
      let alone := (first.asClass? f).map fun set => (set, c :: after)
      if c = '-' then
        match f.skip after with
        | ']' :: _ => alone
        | '-' :: _ => alone
        | s => (readMember f s).bind fun (last, rest) => (rangeOf? f first last).map fun set => (set, rest)
      else alone

/-- Reads up to the closing bracket of the outermost open one, in at most `steps` steps, each of which takes a character
at least. -/
def readBracket (f : Flags) : (steps : Nat) → (current : OpenBracket) → (outer : List OpenBracket) → List Char →
    Reading CharClass
  | 0, _, _, _ => none
  | steps + 1, current, outer, s =>
    match f.skip s with
    | [] => none
    | '[' :: rest =>
      match readPosix f rest with
      | some (set, rest) => readBracket f steps (current.add set) outer rest
      | none => (openBracket f rest).bind fun (inner, rest) => readBracket f steps inner (current :: outer) rest
    | ']' :: rest =>
      let set := f.close current.negated (current.value f)
      match outer with
      | [] => some (set, rest)
      | parent :: outer => readBracket f steps (parent.add set) outer rest
    | '&' :: '&' :: rest => readBracket f steps (current.operate f .inter) outer rest
    | '-' :: '-' :: rest => readBracket f steps (current.operate f .diff) outer rest
    | '~' :: '~' :: rest => readBracket f steps (current.operate f .symmDiff) outer rest
    | s => (readMembers f s).bind fun (set, rest) => readBracket f steps (current.add set) outer rest

def readClass (f : Flags) (s : List Char) : Reading CharClass :=
  (openBracket f s).bind fun (start, rest) => readBracket f (rest.length + 1) start [] rest

end Regex
end LayeredParse
