import StyleEngine.Color.Parser
import StyleEngine.DebugMode
import StyleEngine.Description.Text
import StyleEngine.MediaQuery.Reader
import StyleEngine.IndexedRegistry
import StyleEngine.World
import StyleEngine.Proofs.Text.Chars
import StyleEngine.Proofs.Text.Braces
import StyleEngine.Proofs.Declaration.Group
import StyleEngine.Proofs.Selector.Compose
import StyleEngine.Proofs.Selector.Root
import StyleEngine.Proofs.Selector.Parts
import StyleEngine.Proofs.Selector.Rejoin
import StyleEngine.Proofs.Selector.Pairwise
import StyleEngine.Proofs.Style.Texts
import StyleEngine.Proofs.Style.Rename
import StyleEngine.Proofs.RuleSet.Key
import StyleEngine.Proofs.RuleSet.Deposit
import StyleEngine.Proofs.RuleSet.Merge
import StyleEngine.Proofs.RuleSet.Content
import StyleEngine.Proofs.RuleSet.Unchanged
import StyleEngine.Proofs.RuleSet.Onto
import StyleEngine.Proofs.RuleSet.Outline
import StyleEngine.Proofs.RuleSet.Reading
import StyleEngine.Proofs.RuleSet.Rename
import StyleEngine.Proofs.RuleSet.Solitary
import StyleEngine.Proofs.Registry.Attempt
import StyleEngine.Proofs.Registry.Change
import StyleEngine.Proofs.Registry.Run
import StyleEngine.Proofs.Registry.Kept
import StyleEngine.Proofs.Registry.Hash
import StyleEngine.Proofs.Registry.Addressing
import StyleEngine.Proofs.Registry.Trace
import StyleEngine.Proofs.Registry.Scope
import StyleEngine.Proofs.Registry.Ownership
import StyleEngine.Proofs.Registry.Unique
import StyleEngine.Proofs.Registry.Repeat
import StyleEngine.Proofs.Sheet.Coalescing
import StyleEngine.Proofs.Sheet.Detached
import StyleEngine.Proofs.Sheet.Effect
import StyleEngine.Proofs.Sheet.Failure
import StyleEngine.Proofs.Sheet.Renewal
import StyleEngine.Proofs.Sheet.Independence
import StyleEngine.Proofs.Sheet.Content
import StyleEngine.Proofs.Sheet.Frame
import StyleEngine.Proofs.Sheet.Synchrony
import StyleEngine.Proofs.Sheet.Token
import StyleEngine.Proofs.RuleSet.Literal
import StyleEngine.Proofs.RuleSet.Growth
import StyleEngine.Proofs.RuleTable.Refinement
import StyleEngine.Proofs.RuleTable.Soundness
import StyleEngine.Proofs.Registry.Literal
import StyleEngine.Proofs.Registry.AtRule
import StyleEngine.Proofs.Registry.Version
import StyleEngine.Proofs.Registry.Indexed
import StyleEngine.Proofs.Registry.Represented
import StyleEngine.Proofs.Number.Equal
import StyleEngine.Proofs.Style.Same
import StyleEngine.Proofs.Style.Anonymous
import StyleEngine.Proofs.Registry.Animation
import StyleEngine.Proofs.Text.Tokens
import StyleEngine.Proofs.Keyed.Storing
import StyleEngine.Proofs.Style.Acceptance
import StyleEngine.Proofs.Style.Distinct
import StyleEngine.Proofs.Style.Overlay
import StyleEngine.Proofs.Style.Grouping
import StyleEngine.Proofs.Sheet.ClassToken
import StyleEngine.Proofs.Selector.Ampersands
import StyleEngine.Proofs.Style.Specificity
import StyleEngine.Proofs.Style.LastWriter
import StyleEngine.Proofs.Style.Spelling
import StyleEngine.Proofs.Style.Rearranged
import StyleEngine.Proofs.Style.Youngest
import StyleEngine.Proofs.RuleSet.Grouping
import StyleEngine.Proofs.RuleSet.Unambiguous
import StyleEngine.Proofs.Registry.Wrapping
import StyleEngine.Proofs.Sheet.Single
import StyleEngine.Proofs.Style.Faults
import StyleEngine.Proofs.Scheduler.Order
import StyleEngine.Proofs.Color.Hex
import StyleEngine.Proofs.RuleSet.Separator
import StyleEngine.Proofs.Text.Identifier
import StyleEngine.Proofs.Registry.Header
import StyleEngine.Proofs.RuleSet.Incoming
import StyleEngine.Proofs.Text.Base36
import StyleEngine.Proofs.Registry.Naming
import StyleEngine.Proofs.Style.Built
