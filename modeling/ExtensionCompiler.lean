import ExtensionCompiler.Compile
import ExtensionCompiler.Proofs.Resolution
import ExtensionCompiler.Proofs.Growth
import ExtensionCompiler.Proofs.Typing
import ExtensionCompiler.Proofs.Walk
import ExtensionCompiler.Proofs.UseSites
import ExtensionCompiler.Proofs.Hoisting
import ExtensionCompiler.Proofs.Pending
import ExtensionCompiler.Proofs.Revisits
import ExtensionCompiler.Proofs.Placeholders
import ExtensionCompiler.Proofs.Compatibility
import ExtensionCompiler.Proofs.Outline
import ExtensionCompiler.Proofs.FileLevel
import ExtensionCompiler.Proofs.Rendering
import ExtensionCompiler.Proofs.Meanings
import ExtensionCompiler.Proofs.Slots
import ExtensionCompiler.Proofs.Cycles
import ExtensionCompiler.Proofs.OnePass
import ExtensionCompiler.Proofs.Linkage
import ExtensionCompiler.Proofs.TypedefOrder
import ExtensionCompiler.Proofs.Canonical
import ExtensionCompiler.Proofs.StepLines
import ExtensionCompiler.Proofs.Frame
import ExtensionCompiler.Proofs.IndexedScopes
import ExtensionCompiler.Proofs.Addresses
import ExtensionCompiler.Proofs.NormalForm
import ExtensionCompiler.Proofs.Layout
import ExtensionCompiler.Proofs.Indentation
import ExtensionCompiler.Proofs.Chains
import ExtensionCompiler.Proofs.Loops
import ExtensionCompiler.Proofs.Counting
import ExtensionCompiler.Proofs.ShortCircuit
import ExtensionCompiler.Proofs.ExprTrees
import ExtensionCompiler.Proofs.ValueNames
import ExtensionCompiler.Proofs.Callables
import ExtensionCompiler.Proofs.FunctionValues
import ExtensionCompiler.Proofs.Printing
import ExtensionCompiler.Proofs.Declarators
import ExtensionCompiler.Proofs.Declarations
import ExtensionCompiler.Proofs.Headings
import ExtensionCompiler.Proofs.FunctionEntries
import ExtensionCompiler.Proofs.Targets
import ExtensionCompiler.Proofs.Redeclarations
import ExtensionCompiler.Proofs.TypedefLines
import ExtensionCompiler.Proofs.TagLines
import ExtensionCompiler.Proofs.Positions
import ExtensionCompiler.Proofs.GeneratedNames
import ExtensionCompiler.Proofs.Stores
import ExtensionCompiler.Proofs.Locals
import ExtensionCompiler.Proofs.Prologues
import ExtensionCompiler.Proofs.Initializers
import ExtensionCompiler.Proofs.Actions
import ExtensionCompiler.Proofs.ArrayValues
import ExtensionCompiler.Proofs.InsertionOrder
import ExtensionCompiler.Proofs.SecondLook
import ExtensionCompiler.Proofs.Blame
