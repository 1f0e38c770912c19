import ContextFree.Derivation
import ContextFree.Grammar.Edit
import ContextFree.Main
import ContextFree.Recognizer.Basic
import ContextFree.Proofs.Words
import ContextFree.Proofs.EmptyWord
import ContextFree.Proofs.UnitChains
import ContextFree.Proofs.Rewriting
import ContextFree.Proofs.RuleLists
import ContextFree.Proofs.DeletionOrder
import ContextFree.Proofs.RuleCounts
import ContextFree.Proofs.UnitPasses
import ContextFree.Proofs.DrawnNames
import ContextFree.Proofs.TerminalWrappers
import ContextFree.Proofs.WrappedRules
import ContextFree.Proofs.Chains
import ContextFree.Proofs.ChainedRules
import ContextFree.Proofs.StageRuns
import ContextFree.Proofs.StageLanguage
import ContextFree.Proofs.StageShapes
import ContextFree.Proofs.RuleIndexes
import ContextFree.Proofs.CellFilling
import ContextFree.Proofs.ParseTables
import ContextFree.Proofs.Recognition
import ContextFree.Proofs.FinishedConversions
import ContextFree.Proofs.EmptyWordGap
import ContextFree.Proofs.ConvertedLayout
import ContextFree.Proofs.UndefinedStart
import ContextFree.Proofs.Renaming
import ContextFree.Proofs.RuleOrder
import ContextFree.Proofs.NullablePasses
import ContextFree.Proofs.ReorderedConversions
import ContextFree.Proofs.Reconversion
import ContextFree.Proofs.RuleLines
import ContextFree.Proofs.Readings
import ContextFree.Proofs.WrittenGrammars
import ContextFree.Proofs.Unwrapping
import ContextFree.Proofs.Inlining
import ContextFree.Proofs.NameLimits
import ContextFree.Proofs.NameShortage
import ContextFree.Proofs.FirstOccurrences
import ContextFree.Proofs.DeletionChoices
import ContextFree.Proofs.AllocationHistories
import ContextFree.Proofs.RenamedStages
import ContextFree.Proofs.RestemmedConversions
import ContextFree.Proofs.TypedWords
import ContextFree.Proofs.WordReports
import ContextFree.Proofs.EditHistories
import ContextFree.Proofs.CheckedFilling
import ContextFree.Proofs.Numbering
import ContextFree.Proofs.CompiledGrammars
