import LayeredParse.ConfigFile
import LayeredParse.Grammar.Draft
import LayeredParse.Proofs.Grammar.Patterns
import LayeredParse.Proofs.Lex.Coverage
import LayeredParse.Proofs.Lex.LongestMatch
import LayeredParse.Proofs.Parse.Adjacency
import LayeredParse.Proofs.Parse.Amending
import LayeredParse.Proofs.Parse.Collapsing
import LayeredParse.Proofs.Parse.FirstMatch
import LayeredParse.Proofs.Parse.Foreign
import LayeredParse.Proofs.Parse.Heads
import LayeredParse.Proofs.Parse.Layout
import LayeredParse.Proofs.Parse.Longest
import LayeredParse.Proofs.Parse.Nesting
import LayeredParse.Proofs.Parse.Origins
import LayeredParse.Proofs.Parse.Refactoring
import LayeredParse.Proofs.Parse.Repetition
import LayeredParse.Proofs.Parse.Reshaping
import LayeredParse.Proofs.Parse.Skipping
import LayeredParse.Proofs.Parse.Spans
import LayeredParse.Proofs.Parse.Strict
import LayeredParse.Proofs.Parse.Traces
import LayeredParse.Proofs.Peg.Complete
import LayeredParse.Proofs.Text.Depth
import LayeredParse.Proofs.Text.Ends
import LayeredParse.Proofs.Text.Fragments
import LayeredParse.Proofs.Text.Layers
import LayeredParse.Proofs.Text.Scan
import LayeredParse.Proofs.Text.Windows
import LayeredParse.Proofs.Tree.Walks
