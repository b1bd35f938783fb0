import TeachLang.Main
import TeachLang.World
import TeachLang.Tree.Copy
import TeachLang.Proofs.Forest
import TeachLang.Proofs.Built
import TeachLang.Proofs.Adding
import TeachLang.Proofs.Attaching
import TeachLang.Proofs.Adoption
import TeachLang.Proofs.Lasting
import TeachLang.Proofs.Preorder
import TeachLang.Proofs.Walks
import TeachLang.Proofs.Layout
import TeachLang.Proofs.Grammar
import TeachLang.Proofs.Reads
import TeachLang.Proofs.Success
import TeachLang.Proofs.ParserSound
import TeachLang.Proofs.ParserComplete
import TeachLang.Proofs.Parsing
import TeachLang.Proofs.Places
import TeachLang.Proofs.Safety
import TeachLang.Proofs.Semantics
import TeachLang.Proofs.Steps
import TeachLang.Proofs.EvalSound
import TeachLang.Proofs.EvalComplete
import TeachLang.Proofs.Denotation
import TeachLang.Proofs.Congruence
import TeachLang.Proofs.Simulation
import TeachLang.Proofs.Maintained
import TeachLang.Proofs.ScopeNames
import TeachLang.Proofs.Framing
import TeachLang.Proofs.BoundValues
import TeachLang.Proofs.Verdict
import TeachLang.Proofs.FirstError
import TeachLang.Proofs.Positions
import TeachLang.Proofs.Lines
import TeachLang.Proofs.Alike
import TeachLang.Proofs.Counterpart
import TeachLang.Proofs.Parsed
import TeachLang.Proofs.Sequel
import TeachLang.Proofs.Writing
import TeachLang.Proofs.Shape
import TeachLang.Proofs.Rendering
import TeachLang.Proofs.RoundTrip
import TeachLang.Proofs.Bindings
import TeachLang.Proofs.InputLines
import TeachLang.Proofs.Longest
import TeachLang.Proofs.Tiling
import TeachLang.Proofs.Resemblance
import TeachLang.Proofs.Copies
import TeachLang.Proofs.EqualTrees
import TeachLang.Proofs.Numbering
import TeachLang.Proofs.Renaming
import TeachLang.Proofs.Placement
import TeachLang.Proofs.Unread
import TeachLang.Proofs.BrokenOff
import TeachLang.Proofs.Overflow
import TeachLang.Proofs.Cloning
import TeachLang.Proofs.Unfolding
import TeachLang.Proofs.Lexemes
import TeachLang.Proofs.Extents
import TeachLang.Proofs.Excerpts
import TeachLang.Proofs.EmptyScopes
import TeachLang.Proofs.Mimicry
import TeachLang.Proofs.LoopForms
import TeachLang.Proofs.Brackets
import TeachLang.Proofs.OpenComments
import TeachLang.Proofs.LoopTexts
import TeachLang.Proofs.LoopPrograms
import TeachLang.Proofs.Postorder
import TeachLang.Proofs.IntegerLines
import TeachLang.Proofs.JoinedTexts
import TeachLang.Proofs.PrintedIntegers
import TeachLang.Proofs.SpelledOut
import TeachLang.Proofs.Drawings
import TeachLang.Proofs.Interchange
import TeachLang.Proofs.DryRuns
import TeachLang.Proofs.Jobs
import TeachLang.Proofs.Quoting
import TeachLang.Proofs.Unattachable
import TeachLang.Proofs.Descent
import TeachLang.Proofs.Recursion
import TeachLang.Proofs.Progress
import TeachLang.Proofs.Procedures
