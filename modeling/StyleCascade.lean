import StyleCascade.Cascade.Merge
import StyleCascade.Cascade.Priority
import StyleCascade.Declaration
import StyleCascade.Engine
import StyleCascade.Engine.Operation
import StyleCascade.Json
import StyleCascade.Keyed
import StyleCascade.Node.Basic
import StyleCascade.Node.Descendants
import StyleCascade.Node.Digest
import StyleCascade.Node.Key
import StyleCascade.Node.Traits
import StyleCascade.Number.Binary
import StyleCascade.Number.Layout
import StyleCascade.Number.Shortest
import StyleCascade.Proofs.Cascade.Completeness
import StyleCascade.Proofs.Cascade.Deletion
import StyleCascade.Proofs.Cascade.Precedence
import StyleCascade.Proofs.Cascade.Repetition
import StyleCascade.Proofs.Cascade.WeightOrder
import StyleCascade.Proofs.Cascade.Winner
import StyleCascade.Proofs.Engine.Atomicity
import StyleCascade.Proofs.Engine.Delivery
import StyleCascade.Proofs.Engine.Lifetime
import StyleCascade.Proofs.Engine.Memoization
import StyleCascade.Proofs.Engine.Reregistration
import StyleCascade.Proofs.Engine.Retention
import StyleCascade.Proofs.Engine.Run
import StyleCascade.Proofs.Keyed
import StyleCascade.Proofs.Node.Agreement
import StyleCascade.Proofs.Node.Building
import StyleCascade.Proofs.Node.Descent
import StyleCascade.Proofs.Node.Digest
import StyleCascade.Proofs.Node.Freshness
import StyleCascade.Proofs.Resolver.Memory
import StyleCascade.Proofs.Rule.Dependence
import StyleCascade.Proofs.Rule.Filing
import StyleCascade.Proofs.Rule.Malformed
import StyleCascade.Proofs.Rule.Preorder
import StyleCascade.Proofs.Rule.Reading
import StyleCascade.Proofs.Rule.Rearrangement
import StyleCascade.Proofs.Rule.Weight
import StyleCascade.Proofs.Scope.Exchange
import StyleCascade.Proofs.Scope.History
import StyleCascade.Proofs.Scope.Reentrancy
import StyleCascade.Proofs.Selector.Acceptance
import StyleCascade.Proofs.Selector.Concatenation
import StyleCascade.Proofs.Selector.Cursor
import StyleCascade.Proofs.Selector.Grammar
import StyleCascade.Proofs.Selector.Group
import StyleCascade.Proofs.Selector.Likeness
import StyleCascade.Proofs.Selector.Negation
import StyleCascade.Proofs.Selector.Nth
import StyleCascade.Proofs.Selector.Piece
import StyleCascade.Proofs.Selector.Termination
import StyleCascade.Proofs.Selector.Weight
import StyleCascade.Proofs.Sheet.Clauses
import StyleCascade.Proofs.Sheet.Faithfulness
import StyleCascade.Proofs.Sheet.FromJson
import StyleCascade.Proofs.Sheet.Lookup
import StyleCascade.Proofs.Sheet.Marks
import StyleCascade.Proofs.Sheet.Merging
import StyleCascade.Proofs.Sheet.NormalForm
import StyleCascade.Proofs.Sheet.Refusal
import StyleCascade.Proofs.Sheet.Retention
import StyleCascade.Proofs.Sheet.Rivals
import StyleCascade.Proofs.Sheet.SelectorKeys
import StyleCascade.Proofs.Sheet.Unenclosed
import StyleCascade.Proofs.Sheet.WritingOut
import StyleCascade.Proofs.Sheet.Writings
import StyleCascade.Proofs.StableSort
import StyleCascade.Proofs.Text.Bytes
import StyleCascade.Proofs.Variables.Evaluation
import StyleCascade.Proofs.Variables.References
import StyleCascade.Proofs.Variables.Relevance
import StyleCascade.Proofs.Variables.Termination
import StyleCascade.Resolver.Basic
import StyleCascade.Resolver.Memo
import StyleCascade.Rule.Basic
import StyleCascade.Rule.Extraction
import StyleCascade.Rule.Table
import StyleCascade.Scope.Bus
import StyleCascade.Scope.Event
import StyleCascade.Scope.Generation
import StyleCascade.Scope.Session
import StyleCascade.Scope.Store
import StyleCascade.Selector.Basic
import StyleCascade.Selector.Bracket
import StyleCascade.Selector.Compile
import StyleCascade.Selector.Cursor
import StyleCascade.Selector.Matching
import StyleCascade.Selector.Nth
import StyleCascade.Selector.Reader
import StyleCascade.Selector.Specificity
import StyleCascade.Sheet.Basic
import StyleCascade.Sheet.Expansion
import StyleCascade.Sheet.Key
import StyleCascade.Sheet.OfJson
import StyleCascade.StableSort
import StyleCascade.Text.Bytes
import StyleCascade.Text.Decimal
import StyleCascade.Text.Quoted
import StyleCascade.Text.Search
import StyleCascade.Text.Space
import StyleCascade.Value
import StyleCascade.Variables.Basic
import StyleCascade.Variables.Expansion
import StyleCascade.Variables.Stack
import StyleCascade.Warning
