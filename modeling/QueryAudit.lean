import QueryAudit.Main
import QueryAudit.Notation.Printer
import QueryAudit.Document.Writer
import QueryAudit.TokenStream.Basic
import QueryAudit.Text.Unquote
import QueryAudit.Proofs.Scope.Stack
import QueryAudit.Proofs.Walk.Site
import QueryAudit.Proofs.Resolver.Local
import QueryAudit.Proofs.Resolver.Visible
import QueryAudit.Proofs.Notation.RoundTrip
import QueryAudit.Proofs.Notation.Failure
import QueryAudit.Proofs.TokenStream.Sequence
import QueryAudit.Proofs.Resolver.ExportNamespace
import QueryAudit.Proofs.Analyzer.UnqualifiedCondition
import QueryAudit.Proofs.Analyzer.DeclaredCondition
import QueryAudit.Proofs.Analyzer.Separation
import QueryAudit.Proofs.Analyzer.Containment
import QueryAudit.Proofs.Scope.Operation
import QueryAudit.Proofs.Walk.FirstFinding
import QueryAudit.Proofs.Document.Brackets
import QueryAudit.Proofs.Document.Load
import QueryAudit.Proofs.TokenStream.Rewind
import QueryAudit.Proofs.TokenStream.EnableOrder
import QueryAudit.Proofs.Data.Keyed
import QueryAudit.Proofs.Resolver.ExportTable
import QueryAudit.Proofs.Tree.Path
import QueryAudit.Proofs.Walk.Visit
import QueryAudit.Proofs.Walk.Protocol
import QueryAudit.Proofs.Walk.SelfContained
import QueryAudit.Proofs.Walk.Moment
import QueryAudit.Proofs.Rules.Predicate
import QueryAudit.Proofs.Rules.Transaction
import QueryAudit.Proofs.Registry.Selection
import QueryAudit.Proofs.Report.Lines
import QueryAudit.Proofs.Issue.Index
import QueryAudit.Proofs.Walk.AmongOthers
import QueryAudit.Proofs.Rules.Diagnostics
import QueryAudit.Proofs.Tree.Enumeration
import QueryAudit.Proofs.Walk.Depth
