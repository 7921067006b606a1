import TastyLang.Proofs.Reading.TypeText
import TastyLang.Proofs.Reading.Faults
import TastyLang.Proofs.Attribute.Templates
import TastyLang.Proofs.Graph.Cycles
import TastyLang.Proofs.Graph.Affected
import TastyLang.Proofs.Graph.Orders
import TastyLang.Main
import TastyLang.Syntax.Nodes
import TastyLang.Proofs.Ownership.Paths
import TastyLang.Proofs.Ownership.Departures
import TastyLang.Proofs.Ownership.Naming
import TastyLang.Proofs.Ownership.Returns
import TastyLang.Proofs.Compilation.Lines
import TastyLang.Proofs.Compilation.Layout
import TastyLang.Proofs.Emission.Printer
import TastyLang.Proofs.Emission.Statements
import TastyLang.Proofs.Emission.Unit
import TastyLang.Proofs.Emission.Bounds
import TastyLang.Proofs.Emission.Namespaces
import TastyLang.Proofs.Include.Placement
import TastyLang.Proofs.Token.Extents
import TastyLang.Proofs.Reading.RoundTrip
import TastyLang.Proofs.Reading.SpanEnds
import TastyLang.Proofs.Resolution.Completeness
import TastyLang.Proofs.Resolution.Inheritance
import TastyLang.Proofs.Compilation.Readiness
import TastyLang.Proofs.Build.Freshness
import TastyLang.Proofs.Resolution.Meaning
import TastyLang.Proofs.Resolution.Methods
import TastyLang.Proofs.Resolution.Hoisting
import TastyLang.Proofs.Resolution.Findings
import TastyLang.Proofs.Text.Paths
import TastyLang.Proofs.Build.Outputs
import TastyLang.Proofs.Emission.Functions
import TastyLang.Proofs.Ty.Bounds
import TastyLang.Proofs.Emission.Guards
import TastyLang.Proofs.Emission.Signs
import TastyLang.Proofs.Emission.Bindings
import TastyLang.Proofs.Resolution.Forwarding
import TastyLang.Proofs.Ty.Conversion
import TastyLang.Proofs.Ty.Joins
import TastyLang.Proofs.Ty.Pointers
import TastyLang.Proofs.Resolution.Dereferencing
import TastyLang.Proofs.Resolution.Capabilities
import TastyLang.Proofs.Resolution.WrittenNames
import TastyLang.Proofs.Include.Asking
import TastyLang.Proofs.Include.Covering
import TastyLang.Proofs.Ty.Casts
import TastyLang.Proofs.Resolution.Holders
import TastyLang.Proofs.Resolution.Openings
import TastyLang.Proofs.Resolution.Failing
import TastyLang.Proofs.Resolution.Within
import TastyLang.Proofs.Resolution.Shadowing
import TastyLang.Proofs.Attribute.Inheritance
import TastyLang.Proofs.Attribute.Sites
import TastyLang.Proofs.Resolution.ExtensionNames
import TastyLang.Proofs.Resolution.EntryPoint
import TastyLang.Proofs.Emission.Fields
import TastyLang.Proofs.Reading.TypeEnds
import TastyLang.Proofs.Include.Order
import TastyLang.Proofs.Token.Numbers
import TastyLang.Proofs.Reading.Arguments
import TastyLang.Proofs.Reading.Descent
