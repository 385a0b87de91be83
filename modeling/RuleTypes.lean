import RuleTypes.Main
import RuleTypes.Proofs.Resolver.Memo
import RuleTypes.Proofs.Resolver.Agreement
import RuleTypes.Proofs.Generation.Declared
import RuleTypes.Proofs.Generation.Overriding
import RuleTypes.Proofs.Expr.Alike
import RuleTypes.Proofs.Generation.Opaque
import RuleTypes.Proofs.TsType.Normal
import RuleTypes.Proofs.Resolver.Normal
import RuleTypes.Proofs.Source.Pluck
import RuleTypes.Proofs.Source.References
import RuleTypes.Proofs.Source.Written
import RuleTypes.Proofs.Peg.Derivation
import RuleTypes.Proofs.Source.WellFormed
import RuleTypes.Proofs.Expr.Meaning
import RuleTypes.Proofs.Grammar.Closed
import RuleTypes.Proofs.Resolver.Meaning
import RuleTypes.Proofs.Expr.Inferred
import RuleTypes.Proofs.Naming.Fresh
import RuleTypes.Proofs.Generation.Total
import RuleTypes.Proofs.Naming.Identifier
import RuleTypes.Proofs.Text.Literal
import RuleTypes.Proofs.TsType.Readable
import RuleTypes.Proofs.Generation.Variants
import RuleTypes.Proofs.Generation.Hygiene
import RuleTypes.Proofs.TsType.Unique
import RuleTypes.Proofs.Generation.Exports
import RuleTypes.Proofs.Source.Join
import RuleTypes.Proofs.Generation.Literals
import RuleTypes.Proofs.Generation.Lines
import RuleTypes.Proofs.CommandLine.Endings
import RuleTypes.Proofs.Text.Utf8
import RuleTypes.Proofs.Files.Written
import RuleTypes.Proofs.CommandLine.ReturnTypes
import RuleTypes.Proofs.CommandLine.Failures
import RuleTypes.Proofs.Generation.SyntaxError
import RuleTypes.Proofs.Distinct
import RuleTypes.Proofs.TsType.Join
import RuleTypes.Proofs.Naming.Allocation
import RuleTypes.Proofs.Declaration.Layout
import RuleTypes.Proofs.Declaration.Emission
import RuleTypes.Proofs.Source.LiteralChoice
import RuleTypes.Proofs.Resolver.Passes
import RuleTypes.Proofs.Peg.Calls
import RuleTypes.Proofs.Source.Termination
import RuleTypes.Proofs.Source.Kept
import RuleTypes.Proofs.Source.CodeBlock
import RuleTypes.Proofs.Generation.LeadingBlanks
import RuleTypes.Proofs.Source.Appearance
import RuleTypes.Proofs.Naming.TypeName
