import LayeredParse.Parse.State
import LayeredParse.Tree
/-!
# Attempt — the algebra of match attempts

An attempt tries to match at the current index; it answers with what it matched, or backtracks, or fails for good.  The
combinators here make attempts of attempts.  Each leaves the index where it was unless it matches, provided that the
attempts it is made of do, and each passes a fatal error on at once.
-/
namespace LayeredParse

inductive Answer (α : Type) where
  | matched (value : α)
  /-- Something else may be tried. -/
  | backtrack (why : Backtrack)
  /-- The whole parse fails. -/
  | fatal (error : ParseError)
  deriving Repr

def Answer.map {α β : Type} (f : α → β) : Answer α → Answer β
  | matched value => matched (f value)
  | backtrack why => backtrack why
  | fatal error => fatal error

def Answer.isMatch {α : Type} : Answer α → Bool
  | matched _ => true
  | backtrack _ | fatal _ => false

/-- An attempt to match from a state. -/
abbrev Attempt (α : Type) := State → Answer α × State

/-- What a trial of an attempt finds: the index that it reaches if it matches, nothing if it backtracks. -/
abbrev Trial := Except ParseError (Option Nat)

/-- What attempts add to the tree: nodes in order. -/
abbrev Forest := List Node

namespace Attempt

variable {α : Type}

/-- The attempt with the index set back where it was unless it matches. -/
def atomic (a : Attempt α) : Attempt α := fun s =>
  match a s with
  | (.matched value, t) => (.matched value, t)
  | (answer, t) => (answer, t.goTo s.index)

/-- Tries the attempt and goes back in any case. -/
def trial (a : Attempt α) (s : State) : Trial × State :=
  match a s with
  | (.matched _, t) => (.ok (some t.index), t.goTo s.index)
  | (.backtrack _, t) => (.ok none, t.goTo s.index)
  | (.fatal error, t) => (.error error, t.goTo s.index)

/-- The attempts one after the other; a later failure does not take back what the earlier ones took. -/
def chain : List (Attempt Forest) → Attempt Forest
  | [], s => (.matched [], s)
  | a :: rest, s =>
    match a s with
    | (.matched first, t) =>
      match chain rest t with
      | (.matched others, u) => (.matched (first ++ others), u)
      | failed => failed
    | failed => failed

def sequence (attempts : List (Attempt Forest)) : Attempt Forest :=
  atomic (chain attempts)

def firstOf : List (Attempt α) → Attempt α
  | [], s => (.backtrack .mismatch, s)
  | a :: rest, s =>
    match a s with
    | (.backtrack _, t) => firstOf rest t
    | settled => settled

/-- The better of the best attempt so far, with the index it reaches, and another that reaches `reached` if it
matches. -/
def better (best : Option (Attempt α × Nat)) (a : Attempt α) (reached : Option Nat) : Option (Attempt α × Nat) :=
  match reached, best with
  | none, best => best
  | some there, none => some (a, there)
  | some there, some (b, far) => if far < there then some (a, there) else some (b, far)

/-- Tries all attempts for the one that reaches furthest, the first of those that reach as far. -/
def longest : List (Attempt α) → Option (Attempt α × Nat) → State → Except ParseError (Option (Attempt α)) × State
  | [], best, s => (.ok (best.map Prod.fst), s)
  | a :: rest, best, s =>
    match trial a s with
    | (.error error, t) => (.error error, t)
    | (.ok reached, t) => longest rest (better best a reached) t

/-- Tries all attempts for the only one that matches; `tie` is the error, at the current index, if a second one does. -/
def only (tie : Nat → ParseError) : List (Attempt α) → Option (Attempt α) → State →
    Except ParseError (Option (Attempt α)) × State
  | [], found, s => (.ok found, s)
  | a :: rest, found, s =>
    match trial a s with
    | (.error error, t) => (.error error, t)
    | (.ok none, t) => only tie rest found t
    | (.ok (some _), t) => if found.isSome then (.error (tie t.index), t) else only tie rest (some a) t

/-- Makes the chosen attempt, if one was chosen. -/
def make : Except ParseError (Option (Attempt α)) × State → Answer α × State
  | (.error error, s) => (.fatal error, s)
  | (.ok none, s) => (.backtrack .mismatch, s)
  | (.ok (some a), s) => a s

def longestOne (attempts : List (Attempt α)) : Attempt α := fun s =>
  make (longest attempts none s)

def strictOr (tie : Nat → ParseError) (attempts : List (Attempt α)) : Attempt α := fun s =>
  make (only tie attempts none s)

def optional (a : Attempt Forest) : Attempt Forest := fun s =>
  match a s with
  | (.backtrack _, t) => (.matched [], t)
  | settled => settled

/-- The attempt over and over, at most `limit` times, until it backtracks or matches without taking a token. -/
def repeated (a : Attempt Forest) : (limit : Nat) → Attempt Forest
  | 0, s => (.matched [], s)
  | limit + 1, s =>
    match a s with
    | (.matched first, t) =>
      if t.index = s.index then (.matched first, t)
      else
        match repeated a limit t with
        | (.matched others, u) => (.matched (first ++ others), u)
        | failed => failed
    | (.backtrack _, t) => (.matched [], t)
    | (.fatal error, t) => (.fatal error, t)

/-- The attempt over and over.  It can take a token once for every token left, and then be made once more. -/
def repeatedFrom (input : Input) (a : Attempt Forest) : Attempt Forest := fun s =>
  repeated a (input.size - s.index + 1) s

def zeroOrMore (input : Input) (a : Attempt Forest) : Attempt Forest :=
  atomic (repeatedFrom input a)

def oneOrMore (input : Input) (a : Attempt Forest) : Attempt Forest :=
  sequence [a, repeatedFrom input a]

/-- Nothing, if the attempt would match. -/
def next (a : Attempt α) : Attempt Forest := fun s =>
  match trial a s with
  | (.error error, t) => (.fatal error, t)
  | (.ok (some _), t) => (.matched [], t)
  | (.ok none, t) => (.backtrack .mismatch, t)

/-- Nothing, if the attempt would not match; `m` is what should not match here. -/
def not (m : Matcher) (a : Attempt α) : Attempt Forest := fun s =>
  match trial a s with
  | (.error error, t) => (.fatal error, t)
  | (.ok (some _), t) => (.backtrack .mismatch, t.miss (.notMatching m))
  | (.ok none, t) => (.matched [], t)

/-- The next token, if it is acceptable; `m` is what is expected here. -/
def leaf (input : Input) (m : Matcher) (accepts : Token → Bool) : Attempt Forest := fun s =>
  match input.read s.index with
  | some token =>
    if accepts token then (.matched [.leaf token s.index (s.index + 1)], s.goTo (s.index + 1))
    else (.backtrack .mismatch, s.miss (.matching m))
  | none => (.backtrack .endOfInput, s.miss (.matching m))

/-- Nothing, after the last token. -/
def endOfInput (input : Input) : Attempt Forest := fun s =>
  if s.atEnd input then (.matched [], s) else (.backtrack .mismatch, s.miss (.matching .endOfInput))

/-- Whether a token begins on the line of the one before it and no further right than where that one ends. -/
def touches (before after : Token) : Bool :=
  after.line == before.line && after.column ≤ before.endColumn

/-- What the attempt matches, in a node of its own. -/
def wrapped (name : String) (a : Attempt Forest) : Attempt Forest := fun s =>
  match a s with
  | (.matched forest, t) => (.matched [.branch name forest s.index t.index false], t)
  | failed => failed

/-- The attempt, if the next token touches the one before it; `m` is what is expected here. -/
def adjacent (input : Input) (m : Matcher) (a : Attempt Forest) : Attempt Forest := fun s =>
  match s.previous input, input.read s.index with
  | some before, some after =>
    if touches before after then wrapped "adjacent" a s
    else (.backtrack .mismatch, s.miss (.matching (.adjacent m)))
  | none, some _ => (.backtrack .mismatch, s.miss (.matching (.adjacent m)))
  | _, none => (.backtrack .endOfInput, s.miss (.matching (.adjacent m)))

/-- Takes tokens, at most `left` of them, until the attempt would match. -/
def skipTo (a : Attempt Forest) : (left : Nat) → Attempt Unit
  | left, s =>
    match trial a s with
    | (.error error, t) => (.fatal error, t)
    | (.ok (some _), t) => (.matched (), t)
    | (.ok none, t) =>
      match left with
      | 0 => (.backtrack .endOfInput, t)
      | left + 1 => skipTo a left (t.goTo (t.index + 1))

/-- The tokens from one index to another as one token: their values, each followed by a space.  It sits where the first
of them does and covers them all; without any it sits nowhere. -/
def words (input : Input) (start stop : Nat) : Token :=
  let skipped := (input.tokens.extract start stop).toList
  let value := String.join (skipped.map fun token => token.value ++ " ")
  match skipped.head?, skipped.getLast? with
  | some first, some last => ⟨value, TokenType.words, first.line, first.column, first.range.cover last.range⟩
  | _, _ => ⟨value, TokenType.words, 0, 0, ⟨0, 0⟩⟩

/-- Takes all tokens before the first match of the attempt as one leaf. -/
def skippedWords (input : Input) (a : Attempt Forest) : Attempt Forest := fun s =>
  match skipTo a (input.size - s.index) s with
  | (.matched (), t) => (.matched [.leaf (words input s.index t.index) s.index t.index], t)
  | (.backtrack why, t) => (.backtrack why, t)
  | (.fatal error, t) => (.fatal error, t)

/-- All tokens up to and including the first match of the attempt, in a node of its own. -/
def till (input : Input) (a : Attempt Forest) : Attempt Forest :=
  wrapped "till" (sequence [skippedWords input a, a])

/-- What a rule's node adds to the tree. -/
def spliced (a : Attempt Node) : Attempt Forest := fun s =>
  match a s with
  | (answer, t) => (answer.map Node.spliced, t)

end Attempt
end LayeredParse
