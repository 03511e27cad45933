import LayeredParse.Event
import LayeredParse.Toml.Reader
/-!
# ConfigFile — configurations as they are written

A configuration is the entry `parser` of a document: a table with the known keys only, or an array of their values in
order.  What is missing has its default, and other entries of the document do not matter.
-/
namespace LayeredParse

/-- Why a configuration cannot be had. -/
inductive ConfigError where
  /-- The file is not there or not text. -/
  | unreadable
  /-- The text is no document, or its values do not fit. -/
  | malformed
  deriving DecidableEq, Repr

namespace ParserConfig

open Toml (Value)

/-- The least number that is too large for a limit. -/
def depthBound : Int := 18446744073709551616

def setMaxDepth (c : ParserConfig) : Value → Option ParserConfig
  | .integer n => if 0 ≤ n ∧ n < depthBound then some { c with maxDepth := n.toNat } else none
  | _ => none

def setTraceRules (c : ParserConfig) : Value → Option ParserConfig
  | .boolean b => some { c with traceRules := b }
  | _ => none

def setEntry (c : ParserConfig) (entry : String × Value) : Option ParserConfig :=
  match entry.1 with
  | "max_depth" => c.setMaxDepth entry.2
  | "trace_rules" => c.setTraceRules entry.2
  | _ => none

/-- The configuration that values give in order; values after those that are known do not matter. -/
def ofValues? : List Value → Option ParserConfig
  | [] => some {}
  | depth :: [] => setMaxDepth {} depth
  | depth :: trace :: _ => (setMaxDepth {} depth).bind (·.setTraceRules trace)

def ofValue? : Value → Option ParserConfig
  | .table _ entries => entries.foldlM setEntry {}
  | .array items | .tables items => ofValues? items
  | _ => none

/-- The configuration that a document gives. -/
def ofDocument? : Value → Option ParserConfig
  | .table _ entries =>
    let others := entries.filter (·.1 != "parser")
    if Value.entriesInRange others then
      match entries.lookup "parser" with
      | some v => ofValue? v
      | none => some {}
    else none
  | _ => none

def ofText (contents : String) : Except ConfigError ParserConfig :=
  match (Toml.parse? contents.toList).bind ofDocument? with
  | some c => .ok c
  | none => .error .malformed

/-- The configuration in a file with the given bytes, if there is a file. -/
def load : Option ByteArray → Except ConfigError ParserConfig
  | none => .error .unreadable
  | some bytes =>
    match String.fromUTF8? bytes with
    | some contents => ofText contents
    | none => .error .unreadable

/-- The configuration in a file, or the defaults if it cannot be had, which is reported if there is a file. -/
def loadOrDefault (file : Option ByteArray) : ParserConfig × List Event :=
  if file.isNone then ({}, [])
  else
    match load file with
    | .ok c => (c, [])
    | .error _ => ({}, [.fellBack])

end ParserConfig
end LayeredParse
