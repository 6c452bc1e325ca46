import DagSelect.CommandLine.Options
import DagSelect.CommandLine.Path
import DagSelect.CommandLine.ReadError
import DagSelect.CommandLine.Run
import DagSelect.Depth
import DagSelect.Dictionary
import DagSelect.Error
import DagSelect.Graph.Adjacency
import DagSelect.Graph.Basic
import DagSelect.Graph.Contraction
import DagSelect.Graph.OfManifest
import DagSelect.Graph.Reach
import DagSelect.Json.Basic
import DagSelect.Json.Escape
import DagSelect.Json.Parser
import DagSelect.Json.Printer
import DagSelect.Listing
import DagSelect.Log
import DagSelect.Main
import DagSelect.Manifest.Basic
import DagSelect.Manifest.Document
import DagSelect.Manifest.Issue
import DagSelect.Manifest.Schema
import DagSelect.Member
import DagSelect.Method.Matching
import DagSelect.Method.Registry
import DagSelect.Number.Binary64
import DagSelect.OrderedSet
import DagSelect.Queue
import DagSelect.SearchTree
import DagSelect.Selector.Basic
import DagSelect.Selector.Evaluation
import DagSelect.Selector.Notice
import DagSelect.Sorting
import DagSelect.Spec.Arguments
import DagSelect.Spec.Basic
import DagSelect.Spec.Parser
import DagSelect.Text.Basic
import DagSelect.Text.Blank
import DagSelect.Text.Expression
import DagSelect.Text.KeyOrder
import DagSelect.Text.Order
import DagSelect.Text.Quoted
import DagSelect.Text.ReservedKey
import DagSelect.Text.Symbol
import DagSelect.Text.Wildcard
import DagSelect.Proofs.Graph.OfManifest
import DagSelect.Proofs.Graph.Contraction
import DagSelect.Proofs.Graph.ParentsFirst
import DagSelect.Proofs.Queue.Invariant
import DagSelect.Proofs.Queue.Schedule
import DagSelect.Proofs.Except
import DagSelect.Proofs.Spec.Arguments
import DagSelect.Proofs.Graph.Reach
import DagSelect.Proofs.Selector.Evaluation
import DagSelect.Proofs.Selector.Promotion
import DagSelect.Proofs.Selector.Everything
import DagSelect.Proofs.Selector.Construction
import DagSelect.Proofs.Selector.Exclusion
import DagSelect.Proofs.Selector.Parents
import DagSelect.Proofs.Listing
import DagSelect.Proofs.Greedy
import DagSelect.Proofs.Plan
import DagSelect.Proofs.Graph.Search
import DagSelect.Proofs.Queue.Run
import DagSelect.Proofs.Queue.Stuck
import DagSelect.Proofs.Selector.Totality
import DagSelect.Proofs.Graph.Same
import DagSelect.Proofs.Manifest.Reordered
import DagSelect.Proofs.Spec.Reordered
import DagSelect.Proofs.Selector.Reordered
import DagSelect.Proofs.Queue.Same
import DagSelect.Proofs.OrderIndependence
import DagSelect.Proofs.Selector.LeftOut
import DagSelect.Proofs.Selector.Repetition
import DagSelect.Proofs.Selector.Growth
import DagSelect.Proofs.Monotonicity
import DagSelect.Proofs.Depth
import DagSelect.Proofs.Spec.Method
import DagSelect.Proofs.Spec.Division
import DagSelect.Proofs.Spec.Grammar
import DagSelect.Proofs.Dictionary
import DagSelect.Proofs.Text.Numeral
import DagSelect.Proofs.Json.Enumeration
import DagSelect.Proofs.Manifest.Violations
import DagSelect.Proofs.Manifest.Acceptance
import DagSelect.Proofs.Manifest.Description
import DagSelect.Proofs.Manifest.Loading
import DagSelect.Proofs.Manifest.RoundTrip
import DagSelect.Proofs.Text.Wildcard
import DagSelect.Proofs.DefaultListing
import DagSelect.Proofs.Text.Symbol
import DagSelect.Proofs.Json.Quotation
import DagSelect.Proofs.Json.RoundTrip
import DagSelect.Proofs.CommandLine.Options
import DagSelect.Proofs.CommandLine.Report
import DagSelect.Proofs.Spec.RoundTrip
import DagSelect.Proofs.Graph.Distance
import DagSelect.Proofs.Graph.Discovery
import DagSelect.Proofs.Selector.Widening
import DagSelect.Proofs.Graph.Closure
import DagSelect.Proofs.Selector.Family
import DagSelect.Proofs.Queue.Termination
import DagSelect.Proofs.Queue.ListSchedule
import DagSelect.Proofs.Text.Parts
import DagSelect.Proofs.Text.Pattern
import DagSelect.Proofs.Method.QualifiedName
import DagSelect.Proofs.Filtering
import DagSelect.Proofs.JsonListing
import DagSelect.Proofs.Graph.Dependencies
import DagSelect.Proofs.Spec.Words
import DagSelect.Proofs.Selector.Unintelligible
import DagSelect.Proofs.Warnings
import DagSelect.Proofs.CommandLine.Invocation
import DagSelect.Proofs.Preparation
import DagSelect.Proofs.CommandLine.Requirement
import DagSelect.Proofs.CommandLine.Failure
