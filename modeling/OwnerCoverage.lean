import OwnerCoverage.FileSystem.Memory
import OwnerCoverage.FileSystem.Scripted
import OwnerCoverage.Glob.Meaning
import OwnerCoverage.Glob.Spelling
import OwnerCoverage.Main
import OwnerCoverage.Proofs.CommandLine.Discovered
import OwnerCoverage.Proofs.CommandLine.GivenFile
import OwnerCoverage.Proofs.CommandLine.Roots
import OwnerCoverage.Proofs.CommandLine.Running
import OwnerCoverage.Proofs.Coverage.Counting
import OwnerCoverage.Proofs.Coverage.Ratio
import OwnerCoverage.Proofs.FileSystem.Additivity
import OwnerCoverage.Proofs.FileSystem.Arena
import OwnerCoverage.Proofs.FileSystem.Atomicity
import OwnerCoverage.Proofs.FileSystem.Catalog
import OwnerCoverage.Proofs.FileSystem.Chart
import OwnerCoverage.Proofs.FileSystem.Joining
import OwnerCoverage.Proofs.FileSystem.Lookup
import OwnerCoverage.Proofs.FileSystem.Operations
import OwnerCoverage.Proofs.FileSystem.Verdicts
import OwnerCoverage.Proofs.FileSystem.Walk
import OwnerCoverage.Proofs.Glob.Components
import OwnerCoverage.Proofs.Glob.Faults
import OwnerCoverage.Proofs.Glob.Language
import OwnerCoverage.Proofs.Glob.LiteralSearch
import OwnerCoverage.Proofs.Glob.Reading
import OwnerCoverage.Proofs.Glob.Segments
import OwnerCoverage.Proofs.Glob.Spelling
import OwnerCoverage.Proofs.Glob.Symbols
import OwnerCoverage.Proofs.Host.Discovery
import OwnerCoverage.Proofs.Host.Nodes
import OwnerCoverage.Proofs.Host.Resolution
import OwnerCoverage.Proofs.Host.Roots
import OwnerCoverage.Proofs.Host.View
import OwnerCoverage.Proofs.Host.Walk
import OwnerCoverage.Proofs.Host.Within
import OwnerCoverage.Proofs.Path
import OwnerCoverage.Proofs.Pattern.Compiling
import OwnerCoverage.Proofs.Pattern.Expression
import OwnerCoverage.Proofs.Pattern.LeadingSlash
import OwnerCoverage.Proofs.Pattern.Meaning
import OwnerCoverage.Proofs.Pattern.Nesting
import OwnerCoverage.Proofs.Pattern.Search
import OwnerCoverage.Proofs.Regex.Language
import OwnerCoverage.Proofs.Report.Agreement
import OwnerCoverage.Proofs.Report.Reading
import OwnerCoverage.Proofs.Report.RulesFiles
import OwnerCoverage.Proofs.Rules.Building
import OwnerCoverage.Proofs.Rules.Escaping
import OwnerCoverage.Proofs.Rules.Fields
import OwnerCoverage.Proofs.Rules.Grammar
import OwnerCoverage.Proofs.Rules.Location
import OwnerCoverage.Proofs.Rules.Lookup
import OwnerCoverage.Proofs.Rules.Writing
import OwnerCoverage.Proofs.Traversal.Charted
import OwnerCoverage.Proofs.Traversal.Finding
import OwnerCoverage.Proofs.Traversal.Outline
import OwnerCoverage.Proofs.Traversal.Pruning
import OwnerCoverage.Proofs.Traversal.Recursion
import OwnerCoverage.Proofs.Traversal.Subtree
import OwnerCoverage.Regex.Spans
