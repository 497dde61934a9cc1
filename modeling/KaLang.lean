import KaLang.Main
import KaLang.Proofs.Carets
import KaLang.Proofs.CommandLine.Batch
import KaLang.Proofs.CommandLine.Order
import KaLang.Proofs.Diagnostic
import KaLang.Proofs.LineBreaks
import KaLang.Proofs.Scope.Assignment
import KaLang.Proofs.Scope.Places
import KaLang.Proofs.Scope.Visible
import KaLang.Proofs.Script.Closed
import KaLang.Proofs.Script.DeclaredNames
import KaLang.Proofs.Script.Faults
import KaLang.Proofs.Script.Formatting
import KaLang.Proofs.Script.Globals
import KaLang.Proofs.Script.Grouping
import KaLang.Proofs.Script.ModulePath
import KaLang.Proofs.Script.Numerals
import KaLang.Proofs.Script.OperatorTable
import KaLang.Proofs.Script.Oracles
import KaLang.Proofs.Script.Strings
import KaLang.Proofs.Script.Visits
import KaLang.Proofs.Syntax.Dump
import KaLang.Proofs.Syntax.Guards
import KaLang.Proofs.Syntax.Placement
import KaLang.Proofs.Syntax.RoundTrip
import KaLang.Proofs.Token.Longest
import KaLang.Scope.Index
