import ApiTypings.Compiler
import ApiTypings.Command.FileTree
import ApiTypings.Command.Arguments
import ApiTypings.Command.Discovery
import ApiTypings.Command.LogFormat
import ApiTypings.Command.Run
import ApiTypings.Main
import ApiTypings.Proofs.Except
import ApiTypings.Proofs.Repetitions
import ApiTypings.Proofs.Reachability
import ApiTypings.Proofs.Acyclicity
import ApiTypings.Proofs.CyclicDependencies
import ApiTypings.Proofs.Aggregation
import ApiTypings.Proofs.Nesting
import ApiTypings.Proofs.Pruning
import ApiTypings.Proofs.Muting
import ApiTypings.Proofs.Lineage
import ApiTypings.Proofs.Marking
import ApiTypings.Proofs.SparseAnnotations
import ApiTypings.Proofs.Announcements
import ApiTypings.Proofs.StableOrder
import ApiTypings.Proofs.Compilation
import ApiTypings.Proofs.Layout
import ApiTypings.Proofs.VisibleSymbols
import ApiTypings.Proofs.Modularity
import ApiTypings.Proofs.Lowered
import ApiTypings.Proofs.VisibleCopy
import ApiTypings.Proofs.VisibleRendering
import ApiTypings.Proofs.Buildings
import ApiTypings.Proofs.Overloads
import ApiTypings.Proofs.Declared
import ApiTypings.Proofs.ParameterLists
import ApiTypings.Proofs.Placement
import ApiTypings.Proofs.CallShapes
import ApiTypings.Proofs.TypeGrammar
import ApiTypings.Proofs.Unambiguity
import ApiTypings.Proofs.TypeText
import ApiTypings.Proofs.TypeGrouping
import ApiTypings.Proofs.Tightening
import ApiTypings.Proofs.Relaxing
import ApiTypings.Proofs.HiddenContent
import ApiTypings.Proofs.Undated
import ApiTypings.Proofs.UndatedRendering
import ApiTypings.Proofs.LoadedTables
import ApiTypings.Proofs.VariantOrder
import ApiTypings.Proofs.SchemaTypes
import ApiTypings.Proofs.DeclarationErrors
import ApiTypings.Proofs.DeclaredNames
import ApiTypings.Proofs.MemberOrder
import ApiTypings.Proofs.Ancestors
import ApiTypings.Proofs.Narrowing
import ApiTypings.Proofs.Inheritance
import ApiTypings.Proofs.UndefinedMembers
import ApiTypings.Proofs.PruningTwice
import ApiTypings.Proofs.BoundedArrays
import ApiTypings.Proofs.Identifiers
import ApiTypings.Proofs.CommentEnds
import ApiTypings.Proofs.CommentLines
import ApiTypings.Proofs.Replacements
import ApiTypings.Proofs.Exports
import ApiTypings.Proofs.ParsedMembers
import ApiTypings.Proofs.SymbolViews
import ApiTypings.Proofs.PathOrder
import ApiTypings.Proofs.TreePlaces
import ApiTypings.Proofs.DiscoveredFiles
import ApiTypings.Proofs.ReachedNodes
import ApiTypings.Proofs.BlamedNodes
import ApiTypings.Proofs.PrintedTypes
import ApiTypings.Proofs.TemplateErrors
import ApiTypings.Proofs.TemplateScopes
import ApiTypings.Proofs.Aliases
import ApiTypings.Proofs.Restrictions
import ApiTypings.Proofs.Distances
import ApiTypings.Proofs.TypeHeights
import ApiTypings.Proofs.SchemaVisits
import ApiTypings.Proofs.NestingGuard
import ApiTypings.Proofs.WrittenNames
