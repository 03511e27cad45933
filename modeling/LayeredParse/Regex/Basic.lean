import LayeredParse.Regex.CharClass
/-!
# Regex — regular expressions and the texts they accept

An expression is read as a map on positions: from a set of positions in a text it reaches the set of positions where a
match that begins at one of the first can end (`Regex.reach`).  A set of positions is a number, one bit for each
position.  An expression accepts a text if from anywhere in the text it reaches some position (`Regex.accepts`).
-/
namespace LayeredParse

/-- Conditions on a position by the characters before and after it. -/
inductive Look where
  | textStart | textEnd
  /-- After a line feed. -/
  | lineStart
  /-- Before a line feed. -/
  | lineEnd
  /-- After a line break that may also be a carriage return, alone or with a line feed. -/
  | lineStartCr
  /-- Before such a line break. -/
  | lineEndCr
  | wordBoundary | notWordBoundary
  | wordStart | wordEnd
  /-- No word character before. -/
  | wordStartHalf
  /-- No word character after. -/
  | wordEndHalf
  deriving DecidableEq, Repr, Inhabited

/-- Whether the condition holds between two characters, where `isWord` tells word characters. -/
def Look.holds (isWord : Char → Bool) (look : Look) (before after : Option Char) : Bool :=
  let wordBefore := before.any isWord
  let wordAfter := after.any isWord
  match look with
  | textStart => before.isNone
  | textEnd => after.isNone
  | lineStart => before.isNone || before == some '\n'
  | lineEnd => after.isNone || after == some '\n'
  | lineStartCr => before.isNone || before == some '\n' || (before == some '\r' && after != some '\n')
  | lineEndCr => after.isNone || after == some '\r' || (after == some '\n' && before != some '\r')
  | wordBoundary => wordBefore != wordAfter
  | notWordBoundary => wordBefore == wordAfter
  | wordStart => !wordBefore && wordAfter
  | wordEnd => wordBefore && !wordAfter
  | wordStartHalf => !wordBefore
  | wordEndHalf => !wordAfter

inductive Regex where
  | empty
  /-- One character of a class. -/
  | oneOf (members : CharClass)
  /-- The empty text where a condition holds; word characters are those of the class. -/
  | look (condition : Look) (wordChars : CharClass)
  | group (body : Regex)
  | concat (parts : List Regex)
  | alternation (branches : List Regex)
  /-- At least `least` and at most `most` times, without end if there is no `most`. -/
  | times (body : Regex) (least : Nat) (most : Option Nat)
  deriving Repr, Inhabited

namespace Regex

/-- A set of positions: bit `i` is set when position `i` is in the set. -/
abbrev Positions := Nat

def before (p : Char → Bool) : List Char → Positions
  | [] => 0
  | c :: rest => (if p c then 1 else 0) ||| (before p rest <<< 1)

/-- The positions where a condition on the characters around holds; `previous` stands before the first. -/
def between (p : Option Char → Option Char → Bool) (previous : Option Char) : List Char → Positions
  | [] => if p previous none then 1 else 0
  | c :: rest => (if p previous (some c) then 1 else 0) ||| (between p (some c) rest <<< 1)

/-- Applies `f` exactly `n` times, or until it changes nothing. -/
def exactly (f : Positions → Positions) : Nat → Positions → Positions
  | 0, s => s
  | n + 1, s => if f s = s then s else exactly f n (f s)

/-- Applies `f` up to `n` times, keeping what is reached on the way, or until nothing new is reached. -/
def upTo (f : Positions → Positions) : Nat → Positions → Positions
  | 0, s => s
  | n + 1, s => if s ||| f s = s then s else upTo f n (s ||| f s)

mutual

/-- The positions where a match that begins at one of the given positions can end. -/
def reach (text : List Char) : Regex → Positions → Positions
  | empty, s => s
  | oneOf members, s => (s &&& before members.mem text) <<< 1
  | look condition wordChars, s => s &&& between (condition.holds wordChars.mem) none text
  | group body, s => reach text body s
  | concat parts, s => reachAll text parts s
  | alternation branches, s => reachAny text branches s
  | times body least most, s =>
    let more := match most with
      | some most => most - least
      | none => text.length + 1
    upTo (reach text body) more (exactly (reach text body) least s)

def reachAll (text : List Char) : List Regex → Positions → Positions
  | [], s => s
  | r :: rest, s => reachAll text rest (reach text r s)

def reachAny (text : List Char) : List Regex → Positions → Positions
  | [], _ => 0
  | r :: rest, s => reach text r s ||| reachAny text rest s

end

/-- Whether the expression matches somewhere in the text. -/
def accepts (r : Regex) (text : List Char) : Bool :=
  reach text r ((1 <<< (text.length + 1)) - 1) != 0

mutual

/-- How deep groups, repetitions, concatenations and alternations nest. -/
def nesting : Regex → Nat
  | empty | oneOf _ | look _ _ => 0
  | group body => nesting body + 1
  | concat parts => nestingMax parts + 1
  | alternation branches => nestingMax branches + 1
  | times body _ _ => nesting body + 1

def nestingMax : List Regex → Nat
  | [] => 0
  | r :: rest => max (nesting r) (nestingMax rest)

end

mutual

/-- The number of single steps left when counted repetitions are written out. -/
def expandedSize : Regex → Nat
  | empty => 0
  | oneOf _ | look _ _ => 1
  | group body => expandedSize body
  | concat parts => expandedSizes parts
  | alternation branches => expandedSizes branches + 1
  | times body least none => max least 1 * expandedSize body + 1
  | times body least (some most) => least * expandedSize body + (most - least) * (expandedSize body + 1)

def expandedSizes : List Regex → Nat
  | [] => 0
  | r :: rest => expandedSize r + expandedSizes rest

end

end Regex
end LayeredParse
