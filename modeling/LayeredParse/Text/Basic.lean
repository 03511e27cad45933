import LayeredParse.Text.Plain
/-!
# Text — text in layers

A text is plain characters, a concatenation of pieces, a window onto another text, or the output of a transformation
together with the text it was produced from.  `content` says which characters a text has; `subText` takes a window and
keeps windows shallow: a window onto a window looks through to the text behind it.
-/
namespace LayeredParse

/-- Text in layers. -/
inductive Text where
  | plain (chars : Plain)
  | composite (pieces : List Text)
  /-- The characters of `base` from `start` up to but not including `stop`. -/
  | sub (base : Text) (start stop : Nat)
  /-- What a transformation of `source` put out. -/
  | transformed (output source : Text)

/-- How a text is made. -/
inductive TextKind where
  | plain | composite | sub | transformed
  deriving DecidableEq, Repr

def TextKind.name : TextKind → String
  | plain => "Plain"
  | composite => "Composite"
  | sub => "Sub"
  | transformed => "Transformed"

namespace Text

/-- Plain text without an origin, from line 1 and column 1 on. -/
def ofString (s : String) : Text :=
  plain (.ofChars s.toList none 1 1)

/-- Plain text whose first character sits at the given line and column of its origin, each at least 1. -/
def locatedAt (origin : String) (s : String) (line column : Nat) : Text :=
  plain (.ofChars s.toList (some origin) (.ofNatClamp (max line 1)) (.ofNatClamp (max column 1)))

/-- Plain text that begins its origin. -/
def located (origin : String) (s : String) : Text :=
  locatedAt origin s 1 1

def kind : Text → TextKind
  | plain _ => .plain
  | composite _ => .composite
  | sub .. => .sub
  | transformed .. => .transformed

/-- The numbers added up. -/
def total (numbers : List Nat) : Nat :=
  numbers.foldr (· + ·) 0

mutual

def length : Text → Nat
  | plain p => p.length
  | composite pieces => total (lengths pieces)
  | sub _ start stop => stop - start
  | transformed output _ => length output

def lengths : List Text → List Nat
  | [] => []
  | t :: ts => length t :: lengths ts

end

mutual

/-- How many transformations lie between the text and its sources at most. -/
def depth : Text → Nat
  | plain _ => 0
  | composite pieces => depthMax pieces
  | sub base _ _ => depth base
  | transformed output source => max (depth output) (depth source) + 1

def depthMax : List Text → Nat
  | [] => 0
  | t :: ts => max (depth t) (depthMax ts)

end

mutual

def content : Text → List Char
  | plain p => p.chars.toList
  | composite pieces => contents pieces
  | sub base start stop => ((content base).drop start).take (stop - start)
  | transformed output _ => content output

def contents : List Text → List Char
  | [] => []
  | t :: ts => content t ++ contents ts

end

def isEmpty (t : Text) : Bool :=
  t.length == 0

def pieces : Text → List Text
  | composite pieces => pieces
  | _ => []

/-- A range that is reversed or ends after the last character. -/
structure OutOfBounds where
  start : Nat
  stop : Nat
  length : Nat
  deriving DecidableEq, Repr

def OutOfBounds.message (e : OutOfBounds) : String :=
  s!"sub-text range {e.start}..{e.stop} out of bounds for text of length {e.length}"

/-- The window onto a range.  The whole range is the text itself. -/
def subText (t : Text) (start stop : Nat) : Except OutOfBounds Text :=
  if start ≤ stop ∧ stop ≤ t.length then
    if start = 0 ∧ stop = t.length then .ok t
    else
      match t with
      | sub base first _ => .ok (sub base (first + start) (first + stop))
      | _ => .ok (sub t start stop)
  else .error ⟨start, stop, t.length⟩

/-- A summary of the text for diagnostics: how it is made, its length and its depth. -/
def summary (t : Text) : String :=
  s!"Text \x7b kind: {t.kind.name}, len: {t.length}, depth: {t.depth} \x7d"

end Text
end LayeredParse
