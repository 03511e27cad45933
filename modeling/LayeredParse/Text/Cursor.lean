import LayeredParse.Text.Basic
/-!
# Cursor — random access that remembers where it was

A cursor on a concatenation stays at the piece it read last and walks to the next one wanted from there; a cursor on a
transformation keeps the location of the source once it has been asked for.  Looking something up answers and moves the
cursor; a lookup out of range leaves it where it is.
-/
namespace LayeredParse

/-- A piece of a concatenation, by its index, and the number of characters in the pieces before it. -/
structure Seat where
  piece : Nat
  skipped : Nat
  deriving DecidableEq, Repr, Inhabited

namespace Seat

/-- Walks forward to the piece that holds `index`, or to the last piece; the list has the lengths from the active piece
on. -/
def forward (index : Nat) : List Nat → Seat → Seat
  | length :: rest, seat =>
    if rest ≠ [] ∧ seat.skipped + length ≤ index then forward index rest ⟨seat.piece + 1, seat.skipped + length⟩
    else seat
  | [], seat => seat

/-- Walks backward until the pieces before the active one end at or before `index`. -/
def backward (index : Nat) (lengths : List Nat) : (piece skipped : Nat) → Seat
  | 0, skipped => ⟨0, skipped⟩
  | piece + 1, skipped =>
    if index < skipped then backward index lengths piece (skipped - lengths.getD piece 0)
    else ⟨piece + 1, skipped⟩

/-- The seat at the piece that holds `index`, reached from this one. -/
def moved (seat : Seat) (lengths : List Nat) (index : Nat) : Seat :=
  let ahead := forward index (lengths.drop seat.piece) seat
  backward index lengths ahead.piece ahead.skipped

end Seat

/-- What a cursor remembers, layer by layer. -/
inductive CursorState where
  | plain
  /-- The active piece, and what is remembered in it once it has been read. -/
  | composite (seat : Seat) (inner : Option CursorState)
  | sub (base : CursorState)
  /-- What is remembered of the output, and the location of the source once it has been asked for. -/
  | transformed (output : CursorState) (source : Option Location)

namespace Text

/-- What a fresh cursor remembers. -/
def opened : Text → CursorState
  | plain _ => .plain
  | composite _ => .composite ⟨0, 0⟩ none
  | sub base _ _ => .sub (opened base)
  | transformed output _ => .transformed (opened output) none

mutual

/-- The character at an index, and what the cursor remembers afterwards. -/
def charStep : Text → CursorState → Nat → Option Char × CursorState
  | plain p, state, index => (p.chars[index]?, state)
  | composite pieces, .composite seat inner, index =>
    let lengths := lengths pieces
    if total lengths ≤ index then (none, .composite seat inner)
    else
      let next := seat.moved lengths index
      let found := charInPiece pieces next.piece (if next = seat then inner else none) (index - next.skipped)
      (found.1, .composite next found.2)
  | sub base start stop, .sub inner, index =>
    if stop - start ≤ index then (none, .sub inner)
    else
      let found := charStep base inner (start + index)
      (found.1, .sub found.2)
  | transformed output _, .transformed inner source, index =>
    let found := charStep output inner index
    (found.1, .transformed found.2 source)
  | _, state, _ => (none, state)

/-- The character at an index of one of the pieces, and what is remembered in it afterwards. -/
def charInPiece : List Text → Nat → Option CursorState → Nat → Option Char × Option CursorState
  | [], _, inner, _ => (none, inner)
  | t :: _, 0, inner, index =>
    let found := charStep t (inner.getD (opened t)) index
    (found.1, some found.2)
  | _ :: ts, piece + 1, inner, index => charInPiece ts piece inner index

end

mutual

/-- The location of an index, which may be the length, and what the cursor remembers afterwards. -/
def locationStep : Text → CursorState → Nat → Option Location × CursorState
  | plain p, state, index => ((p.place? index).map .source, state)
  | composite pieces, .composite seat inner, index =>
    let lengths := lengths pieces
    if total lengths < index then (none, .composite seat inner)
    else
      let next := seat.moved lengths index
      let found := locationInPiece pieces next.piece (if next = seat then inner else none) (index - next.skipped)
      (found.1, .composite next found.2)
  | sub base start stop, .sub inner, index =>
    if stop - start < index then (none, .sub inner)
    else
      let found := locationStep base inner (start + index)
      (found.1, .sub found.2)
  | transformed output source, .transformed inner known, index =>
    let found := locationStep output inner index
    match found.1 with
    | none => (none, .transformed found.2 known)
    | some location =>
      let known := known <|> (locationStep source (opened source) 0).1
      (some (match known with
        | some parent => location.withParent parent
        | none => location), .transformed found.2 known)
  | _, state, _ => (none, state)

/-- The location of an index of one of the pieces, and what is remembered in it afterwards. -/
def locationInPiece : List Text → Nat → Option CursorState → Nat → Option Location × Option CursorState
  | [], _, inner, _ => (none, inner)
  | t :: _, 0, inner, index =>
    let found := locationStep t (inner.getD (opened t)) index
    (found.1, some found.2)
  | _ :: ts, piece + 1, inner, index => locationInPiece ts piece inner index

end

end Text

/-- A text and what is remembered from reading it. -/
structure Cursor where
  text : Text
  state : CursorState

namespace Text

def cursor (t : Text) : Cursor :=
  ⟨t, t.opened⟩

end Text

namespace Cursor

def length (c : Cursor) : Nat :=
  c.text.length

def isEmpty (c : Cursor) : Bool :=
  c.text.isEmpty

/-- The character at an index, if there is one, and the cursor afterwards. -/
def charAt (c : Cursor) (index : Nat) : Option Char × Cursor :=
  let found := c.text.charStep c.state index
  (found.1, ⟨c.text, found.2⟩)

/-- The location of an index up to and including the length, and the cursor afterwards. -/
def location (c : Cursor) (index : Nat) : Option Location × Cursor :=
  let found := c.text.locationStep c.state index
  (found.1, ⟨c.text, found.2⟩)

def subText (c : Cursor) (start stop : Nat) : Except Text.OutOfBounds Text :=
  c.text.subText start stop

def subSequence (c : Cursor) (start stop : Nat) : Except Text.OutOfBounds Cursor :=
  (c.subText start stop).map Text.cursor

/-- The characters at `count` indices from `index` on. -/
def read (c : Cursor) (index : Nat) : (count : Nat) → List Char
  | 0 => []
  | count + 1 =>
    let found := c.charAt index
    found.1.toList ++ read found.2 (index + 1) count

/-- A summary of the cursor for diagnostics: its text, and on a concatenation the active piece. -/
def summary (c : Cursor) : String :=
  match c.state with
  | .composite seat _ =>
    s!"TextCursor \x7b text: {c.text.summary}, piece: {seat.piece}, skipped: {seat.skipped} \x7d"
  | _ => s!"TextCursor \x7b text: {c.text.summary} \x7d"

end Cursor

namespace Text

def charAt (t : Text) (index : Nat) : Option Char :=
  (t.cursor.charAt index).1

/-- The location of an index, which may be the length. -/
def location (t : Text) (index : Nat) : Option Location :=
  (t.cursor.location index).1

mutual

/-- The characters read off layer by layer, a window through a cursor on its base. -/
def spell : Text → List Char
  | plain p => p.chars.toList
  | composite pieces => spellAll pieces
  | sub base start stop => base.cursor.read start (stop - start)
  | transformed output _ => spell output

def spellAll : List Text → List Char
  | [] => []
  | t :: ts => spell t ++ spellAll ts

end

def toString (t : Text) : String :=
  String.ofList t.spell

end Text
end LayeredParse
