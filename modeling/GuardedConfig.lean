import GuardedConfig.Text.Blank
import GuardedConfig.Text.Pieces
import GuardedConfig.Binary64.Basic
import GuardedConfig.Binary64.Rounding
import GuardedConfig.Binary64.Shortest
import GuardedConfig.Predicate.Expr
import GuardedConfig.Predicate.Token
import GuardedConfig.Predicate.Parse
import GuardedConfig.Shape
import GuardedConfig.Predicate.Run
import GuardedConfig.Rule.Resolve
import GuardedConfig.Json.Read
import GuardedConfig.Tree.Listing
import GuardedConfig.Tree.Json
import GuardedConfig.Context.Json
import GuardedConfig.RuleKeys.Json
import GuardedConfig.Overlay.Basic
import GuardedConfig.Session.Basic
import GuardedConfig.Proofs.Binary64.Sizes
import GuardedConfig.Proofs.Binary64.Nearest
import GuardedConfig.Proofs.Predicate.Grammar
import GuardedConfig.Proofs.Predicate.Spelling
import GuardedConfig.Proofs.Predicate.Lexemes
import GuardedConfig.Proofs.Predicate.Reading
import GuardedConfig.Proofs.Context.Leaves
import GuardedConfig.Proofs.Predicate.Meaning
import GuardedConfig.Proofs.Predicate.Evaluation
import GuardedConfig.Proofs.Predicate.Soundness
import GuardedConfig.Proofs.Overlay.Alike
import GuardedConfig.Proofs.Session.Run
import GuardedConfig.Proofs.Session.History
import GuardedConfig.Proofs.Rule.Questions
import GuardedConfig.Proofs.Predicate.Lookups
import GuardedConfig.Proofs.Session.Lookups
import GuardedConfig.Proofs.Tree.Views
import GuardedConfig.Proofs.Tree.Log
import GuardedConfig.Proofs.Tree.Visible
import GuardedConfig.Proofs.Overlay.Flatten
import GuardedConfig.Proofs.Session.Flatten
import GuardedConfig.Proofs.Predicate.Writing
import GuardedConfig.Proofs.Session.Tokens
import GuardedConfig.Proofs.Overlay.Entries
import GuardedConfig.Proofs.Tree.Pairs
import GuardedConfig.Proofs.Session.StoredOrder
import GuardedConfig.Proofs.Tree.Document
import GuardedConfig.Proofs.Overlay.DeclaredRules
import GuardedConfig.Proofs.Tree.Scalars
import GuardedConfig.Proofs.Overlay.Documents
import GuardedConfig.Proofs.Overlay.Polls
import GuardedConfig.Proofs.Predicate.Answers
import GuardedConfig.Proofs.Overlay.Errors
import GuardedConfig.Proofs.Overlay.RuleEdits
import GuardedConfig.Proofs.Session.RuleEdits
import GuardedConfig.Proofs.Session.Navigation
import GuardedConfig.Proofs.Session.Polls
import GuardedConfig.Proofs.Overlay.Recursion
import GuardedConfig.Proofs.Overlay.Returns
import GuardedConfig.Proofs.Overlay.Calls
import GuardedConfig.Proofs.Predicate.Typing
import GuardedConfig.Proofs.Session.Artifacts
import GuardedConfig.Proofs.Context.Listing
import GuardedConfig.Proofs.Context.Levels
import GuardedConfig.Proofs.Context.Settings
import GuardedConfig.Proofs.Context.Shapes
import GuardedConfig.Proofs.Value.Order
import GuardedConfig.Proofs.Value.Numbers
import GuardedConfig.Proofs.Json.Rows
import GuardedConfig.Proofs.Tree.Loading
import GuardedConfig.Proofs.Context.Documents
import GuardedConfig.Proofs.Predicate.Connectives
import GuardedConfig.Proofs.Predicate.Quotes
import GuardedConfig.Proofs.Predicate.Parens
import GuardedConfig.Proofs.Predicate.Operands
import GuardedConfig.Proofs.Predicate.Unfinished
import GuardedConfig.Proofs.Predicate.Faults
