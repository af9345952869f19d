import TracedScript.LogFormat
import TracedScript.Main
import TracedScript.Mapping.Decode
import TracedScript.Node.Writer
import TracedScript.Proofs.StableSort
import TracedScript.Proofs.Vlq
import TracedScript.Proofs.MappingText
import TracedScript.Proofs.Rendering
import TracedScript.Proofs.Preorder
import TracedScript.Proofs.Compilation
import TracedScript.Proofs.Boundaries
import TracedScript.Proofs.WellFormed
import TracedScript.Proofs.LineGroups
import TracedScript.Proofs.Emission
import TracedScript.Proofs.MappingForm
import TracedScript.Proofs.Unplaced
import TracedScript.Proofs.JsonRecords
import TracedScript.Proofs.DocumentText
import TracedScript.Proofs.JsonNesting
import TracedScript.Proofs.DocumentNesting
import TracedScript.Proofs.Base64
import TracedScript.Proofs.MapRuns
import TracedScript.Proofs.SourceMapText
import TracedScript.Proofs.FileRuns
import TracedScript.Proofs.FileTree
import TracedScript.Proofs.TreeChanges
import TracedScript.Proofs.LinkFree
import TracedScript.Proofs.OutputWriting
import TracedScript.Proofs.BuildInputs
import TracedScript.Proofs.BuildAccounts
import TracedScript.Proofs.OutputPaths
import TracedScript.Proofs.InputRoots
import TracedScript.Proofs.WritingAgain
import TracedScript.Proofs.Rebuild
import TracedScript.Proofs.Presentation
import TracedScript.Proofs.PresentedRecords
import TracedScript.Proofs.PresentedKinds
import TracedScript.Proofs.DocumentPresentation
import TracedScript.Proofs.Composition
import TracedScript.Proofs.VlqNumerals
import TracedScript.Proofs.MappingSegments
import TracedScript.Proofs.TotalsRange
import TracedScript.Proofs.GroupedRecords
import TracedScript.Proofs.Indentation
import TracedScript.Proofs.StatementPlaces
import TracedScript.Proofs.Base64Bits
import TracedScript.Proofs.Brackets
import TracedScript.Proofs.OutputContents
import TracedScript.Proofs.SourceIndices
import TracedScript.Proofs.CharacterPlaces
import TracedScript.Proofs.VlqLoop
import TracedScript.Proofs.FoldedOperations
import TracedScript.Proofs.ArgumentItems
import TracedScript.Proofs.ArgumentSpellings
