import GraphQL.Lexeme.Reader
import GraphQL.Decimal.Layout
import GraphQL.Decimal.Reading
import GraphQL.Json.Reader
import GraphQL.Value.Datum
import GraphQL.Document.Reader
import GraphQL.Schema.Basic
import GraphQL.Schema.Directives
import GraphQL.Schema.Scalars
import GraphQL.Schema.Build
import GraphQL.Schema.Check
import GraphQL.Coercion.Problem
import GraphQL.Coercion.Scope
import GraphQL.Coercion.Untyped
import GraphQL.Coercion.Input
import GraphQL.Coercion.Literal
import GraphQL.Coercion.Arguments
import GraphQL.Coercion.ToLiteral
import GraphQL.Coercion.Variables
import GraphQL.Execution.Collected
import GraphQL.Execution.Collection
import GraphQL.Execution.Process
import GraphQL.Validation.Error
import GraphQL.Validation.Rule
import GraphQL.Validation.RuleSet
import GraphQL.Execution.Request
import GraphQL.Response.Json
import GraphQL.Execution.Leaf
import GraphQL.Execution.Ask
import GraphQL.Execution.Completion
import GraphQL.Execution.Delivery
import GraphQL.Execution.Run
import GraphQL.Execution.Subscription
import GraphQL.Diagnostic.Notation
import GraphQL.Diagnostic.Responses
import GraphQL.Diagnostic.Schema
import GraphQL.Schema.Lazy
import GraphQL.Outline.Basic
import GraphQL.Outline.Document
import GraphQL.Outline.Schema
import GraphQL.Outline.Collected
import GraphQL.Outline.Token
import GraphQL.Outline.Visit
import GraphQL.Outline.Coercion
import GraphQL.Proofs.Schema.Attempts
import GraphQL.Proofs.Execution.Process.Results
import GraphQL.Proofs.Execution.Process.Answers
import GraphQL.Proofs.Execution.Completion.Basic
import GraphQL.Proofs.Execution.Report
import GraphQL.Proofs.Execution.Delivery.Jobs
import GraphQL.Proofs.Execution.Completion.Conformance
import GraphQL.Proofs.Execution.Collection.Basic
import GraphQL.Proofs.Execution.Completion.Errors
import GraphQL.Proofs.Execution.Process.Effects
import GraphQL.Proofs.Execution.Timing.Callbacks
import GraphQL.Proofs.Execution.Timing.Values
import GraphQL.Proofs.Execution.Timing.Agreement
import GraphQL.Proofs.Execution.Timing.Reports
import GraphQL.Proofs.Execution.Delivery.Histories
import GraphQL.Proofs.Execution.Timing.Responses
import GraphQL.Proofs.Value.Merging
import GraphQL.Proofs.Execution.Rewriting.Basic
import GraphQL.Proofs.Execution.Collection.Inlining
import GraphQL.Proofs.Execution.Collection.Mirroring
import GraphQL.Proofs.Execution.Process.Lockstep
import GraphQL.Proofs.Execution.Rewriting.Resemblance
import GraphQL.Proofs.Execution.Rewriting.Requests
import GraphQL.Proofs.Execution.Rewriting.Transparency
import GraphQL.Proofs.Execution.Rewriting.Plain
import GraphQL.Proofs.Execution.Collection.Reach
import GraphQL.Proofs.Execution.Completion.CleanData
import GraphQL.Proofs.Execution.Assembly.Parts
import GraphQL.Proofs.Execution.Assembly.Pieces
import GraphQL.Proofs.Execution.Assembly.Covering
import GraphQL.Proofs.Execution.Assembly.Responses
import GraphQL.Proofs.Execution.Assembly.Lossless
import GraphQL.Proofs.Execution.Completion.Containment
import GraphQL.Proofs.Execution.Delivery.Accounting
import GraphQL.Proofs.Execution.Process.Traces
import GraphQL.Proofs.Execution.Process.Moments
import GraphQL.Proofs.Execution.Process.Progress
import GraphQL.Proofs.Execution.Completion.Mutations
import GraphQL.Proofs.Execution.Abort.Tasks
import GraphQL.Proofs.Execution.Abort.Requests
import GraphQL.Proofs.Coercion.Basic
import GraphQL.Proofs.Coercion.Types
import GraphQL.Proofs.Coercion.VariableUse
import GraphQL.Proofs.Coercion.ConstantLiterals
import GraphQL.Proofs.Validation.Subscriptions
import GraphQL.Proofs.Document.Grammar
import GraphQL.Proofs.Document.Readers
import GraphQL.Proofs.Document.Soundness
import GraphQL.Proofs.Document.Completeness
import GraphQL.Proofs.Lexeme.Tokens
import GraphQL.Proofs.Execution.Delivery.Payloads
import GraphQL.Proofs.Schema.Validity
import GraphQL.Proofs.Execution.Completion.OutputTypes
import GraphQL.Proofs.Validation.Labels
import GraphQL.Proofs.Execution.Delivery.Origins
import GraphQL.Proofs.Json.RoundTrip
import GraphQL.Proofs.Value.RoundTrip
import GraphQL.Proofs.Execution.Collection.Termination
import GraphQL.Proofs.Execution.Collection.PromptFields
import GraphQL.Proofs.Coercion.Termination
import GraphQL.Proofs.Coercion.Substitution
import GraphQL.Proofs.Coercion.RenamedVariables
import GraphQL.Proofs.Execution.Collection.FragmentScopes
import GraphQL.Proofs.Execution.Rewriting.Hygiene
import GraphQL.Proofs.Execution.Collection.Walk
import GraphQL.Proofs.Coercion.WrittenValues
import GraphQL.Proofs.Lexeme.Source
import GraphQL.Proofs.Coercion.ErrorLimit
import GraphQL.Proofs.Coercion.ErrorPaths
import GraphQL.Proofs.Execution.Delivery.StreamCuts
import GraphQL.Proofs.Execution.Delivery.Threads
import GraphQL.Proofs.Execution.Delivery.Streams
import GraphQL.Proofs.Lexeme.Numerals
import GraphQL.Proofs.Lexeme.QuotedStrings
import GraphQL.Proofs.Lexeme.BlockStrings
import GraphQL.Proofs.Document.Printing
import GraphQL.Proofs.Validation.RuleSets
import GraphQL.Proofs.Schema.Membership
import GraphQL.Proofs.Execution.Abort.Reasons
import GraphQL.Proofs.Document.Nodes
import GraphQL.Proofs.Document.Placement
import GraphQL.Proofs.Lexeme.Excerpts
import GraphQL.Proofs.Document.Spans
import GraphQL.Proofs.Execution.Path
