/-!
# Value — documents of tables and values

A document is a table.  Tables are made in different ways, which decide what may still be added to them: a table with a
header of its own or in braces is complete as it stands there, while one that was only mentioned on the way to another
may still get its own header, and one made by dotted keys may get more dotted keys.
-/
namespace LayeredParse
namespace Toml

/-- How a table came about. -/
inductive Made where
  /-- By a header of its own, or as the document itself. -/
  | byHeader
  /-- On the way to a table with a header. -/
  | inPassing
  /-- By a key with dots. -/
  | byDots
  /-- Within braces. -/
  | inline
  deriving DecidableEq, Repr, Inhabited

inductive Value where
  | string (s : String)
  | integer (n : Int)
  /-- A number with a point or an exponent, and whether it is within the range of doubles. -/
  | float (inRange : Bool)
  | boolean (b : Bool)
  | datetime
  | array (items : List Value)
  /-- Tables with the same doubly bracketed header, in order. -/
  | tables (items : List Value)
  | table (made : Made) (entries : List (String × Value))
  deriving Repr, Inhabited

namespace Value

def blank : Value := table .byHeader []

/-- The entries with a key set to another value. -/
def replaced (entries : List (String × Value)) (key : String) (v : Value) : List (String × Value) :=
  entries.map fun entry => if entry.1 == key then (key, v) else entry

/-- Changes the table at a path.  Tables that are missing on the way are made: by dots if the path is that of a dotted
key, in passing if it is that of a header.  A list of tables stands for its last one.  Tables in braces and other values
cannot be entered, and dotted keys cannot enter tables that have a header. -/
def change (dotted : Bool) (f : Value → Option Value) : (path : List String) → Value → Option Value
  | [], t => f t
  | key :: path, table made entries =>
    match entries.lookup key with
    | none =>
      (change dotted f path (table (if dotted then .byDots else .inPassing) [])).map fun child =>
        table made (entries ++ [(key, child)])
    | some (table below inside) =>
      if below = .inline ∨ (dotted ∧ below = .byHeader) then none
      else (change dotted f path (table below inside)).map fun child => table made (replaced entries key child)
    | some (tables items) =>
      match items.getLast? with
      | none => none
      | some last =>
        (change dotted f path last).map fun child => table made (replaced entries key (tables (items.dropLast ++ [child])))
    | some _ => none
  | _, _ => none

/-- Adds an entry to a table.  Keys are given once, and only dotted keys add to a table made by dots. -/
def addEntry (t : Value) (dotted : Bool) (key : String) (v : Value) : Option Value :=
  match t with
  | table made entries =>
    if (made == .byDots) != dotted || (entries.lookup key).isSome then none
    else some (table made (entries ++ [(key, v)]))
  | _ => none

/-- Adds an entry under a key with dots: the last part is the key in the table that the parts before it lead to. -/
def addPair (t : Value) (path : List String) (key : String) (v : Value) : Option Value :=
  change true (·.addEntry (!path.isEmpty) key v) path t

def openTable (t : Value) (key : String) : Option Value :=
  match t with
  | table made entries =>
    match entries.lookup key with
    | none => some (table made (entries ++ [(key, table .byHeader [])]))
    | some (table .inPassing inside) => some (table made (replaced entries key (table .byHeader inside)))
    | some _ => none
  | _ => none

def openElement (t : Value) (key : String) : Option Value :=
  match t with
  | table made entries =>
    match entries.lookup key with
    | none => some (table made (entries ++ [(key, tables [table .byHeader []])]))
    | some (tables items) => some (table made (replaced entries key (tables (items ++ [table .byHeader []]))))
    | some _ => none
  | _ => none

mutual

/-- Whether all numbers are within range: integers of 128 bits, with a sign or without, and doubles. -/
def inRange : Value → Bool
  | string _ | boolean _ | datetime => true
  | integer n => -Int.pow 2 127 ≤ n && n < Int.pow 2 128
  | float ok => ok
  | array items | tables items => allInRange items
  | table _ entries => entriesInRange entries

def allInRange : List Value → Bool
  | [] => true
  | v :: vs => inRange v && allInRange vs

def entriesInRange : List (String × Value) → Bool
  | [] => true
  | (_, v) :: rest => inRange v && entriesInRange rest

end

end Value
end Toml
end LayeredParse
