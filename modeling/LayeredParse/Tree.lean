import LayeredParse.Token
/-!
# Tree — what a match produces

A leaf carries a token; a branch has a name and children.  Every node covers a range of token indices.  A node that is
skipped gives its place among its parent's children to its own children: `Node.spliced` is what a node adds to a parent.
-/
namespace LayeredParse

/-- A node of a syntax tree. -/
inductive Node where
  /-- A token, which covers the indices from `start` to `stop`. -/
  | leaf (token : Token) (start stop : Nat)
  /-- A named node with children. -/
  | branch (name : String) (children : List Node) (start stop : Nat) (skipped : Bool)
  deriving Repr, Inhabited

/-- When a rule's node is replaced by its children. -/
inductive SkipPolicy where
  | never
  | always
  | ifOnlyOneChild
  deriving DecidableEq, Repr, Inhabited

namespace SkipPolicy

def name : SkipPolicy → String
  | never => "Never"
  | always => "Always"
  | ifOnlyOneChild => "IfOnlyOneChild"

/-- Whether a node with these children, which are what is left of them after skipping below, is to be skipped. -/
def skips (policy : SkipPolicy) (children : List Node) : Bool :=
  match policy with
  | never => false
  | always => true
  | ifOnlyOneChild => children.length == 1

end SkipPolicy

namespace Node

def name : Node → String
  | leaf token .. => token.type
  | branch name .. => name

def token? : Node → Option Token
  | leaf token .. => some token
  | branch .. => none

def children : Node → List Node
  | leaf .. => []
  | branch _ children .. => children

def start : Node → Nat
  | leaf _ start _ => start
  | branch _ _ start .. => start

def stop : Node → Nat
  | leaf _ _ stop => stop
  | branch _ _ _ stop _ => stop

/-- Whether the node gives way to its children. -/
def isSkipped : Node → Bool
  | leaf .. => false
  | branch _ _ _ _ skipped => skipped

/-- What the node adds to the children of a parent: itself, or its children if it is skipped. -/
def spliced (n : Node) : List Node :=
  if n.isSkipped then n.children else [n]

def tokenValue? (n : Node) : Option String :=
  n.token?.map Token.value

def firstChild? (n : Node) : Option Node :=
  n.children.head?

def lastChild? (n : Node) : Option Node :=
  n.children.getLast?

def findFirstChild? (n : Node) (name : String) : Option Node :=
  n.children.find? (·.name == name)

def findChildren (n : Node) (name : String) : List Node :=
  n.children.filter (·.name == name)

mutual

def size : Node → Nat
  | leaf .. => 1
  | branch _ children .. => sizes children + 1

def sizes : List Node → Nat
  | [] => 0
  | n :: ns => size n + sizes ns

end

theorem sizes_append : ∀ (ns ms : List Node), sizes (ns ++ ms) = sizes ns + sizes ms
  | [], ms => by simp [sizes]
  | n :: ns, ms => by rw [List.cons_append, sizes, sizes, sizes_append ns ms]; omega

theorem sizes_children_lt (n : Node) : sizes n.children < size n := by
  cases n <;> simp [children, sizes, size]

/-- The nodes still to be visited and everything below them, each node before what is below it: the next node is taken
off the front and its children are put there instead. -/
def visit : (pending : List Node) → List Node
  | [] => []
  | n :: pending => n :: visit (n.children ++ pending)
termination_by pending => sizes pending
decreasing_by rw [sizes_append, sizes]; have := sizes_children_lt n; omega

/-- The node and everything below it, each node before what is below it. -/
def descendants (n : Node) : List Node :=
  visit [n]

def tokens (n : Node) : List Token :=
  n.descendants.filterMap token?

def firstToken? (n : Node) : Option Token :=
  n.tokens.head?

mutual

/-- The last token, looked for from the right. -/
def lastToken? : Node → Option Token
  | leaf token .. => some token
  | branch _ children .. => lastTokenAmong? children

def lastTokenAmong? : List Node → Option Token
  | [] => none
  | n :: ns => lastTokenAmong? ns <|> lastToken? n

end

/-- The characters from the first token to the last. -/
def textRange? (n : Node) : Option Span :=
  match n.firstToken?, n.lastToken? with
  | some first, some last => some (first.range.cover last.range)
  | _, _ => none

mutual

/-- Every node of the tree with its depth, each before what is below it. -/
def rows (depth : Nat) : Node → List (Nat × Node)
  | leaf token start stop => [(depth, leaf token start stop)]
  | branch name children start stop skipped =>
    (depth, branch name children start stop skipped) :: rowsOf (depth + 1) children

def rowsOf (depth : Nat) : List Node → List (Nat × Node)
  | [] => []
  | n :: ns => rows depth n ++ rowsOf depth ns

end

/-- A node on a line of its own: its name, and for a leaf the quoted value and the position of its token. -/
def line (n : Node) : String :=
  match n with
  | leaf token .. => s!"{n.name} {quote token.value}@{token.line}:{token.column}"
  | branch name .. => name

mutual

/-- The tree, one line for each node, indented by twice its depth. -/
def dumpFrom (depth : Nat) : Node → String
  | leaf token start stop => "".pushn ' ' (2 * depth) ++ line (leaf token start stop) ++ "\n"
  | branch name children _ _ _ => "".pushn ' ' (2 * depth) ++ name ++ "\n" ++ dumpsFrom (depth + 1) children

def dumpsFrom (depth : Nat) : List Node → String
  | [] => ""
  | n :: ns => dumpFrom depth n ++ dumpsFrom depth ns

end

def dump (n : Node) : String :=
  n.dumpFrom 0

def skippedUnder (n : Node) (policy : SkipPolicy) : Bool :=
  policy.skips n.children

end Node
end LayeredParse
