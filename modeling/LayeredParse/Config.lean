/-!
# Config — limits and diagnostics of a parse
-/
namespace LayeredParse

/-- How deep rules may nest, and whether rule entries and exits are traced. -/
structure ParserConfig where
  maxDepth : Nat := 512
  traceRules : Bool := false
  deriving DecidableEq, Repr, Inhabited

end LayeredParse
