import RotaryTrie.Bucket.Layout
import RotaryTrie.Catalog.Forced
import RotaryTrie.Catalog.Strings
import RotaryTrie.Catalog.Words
import RotaryTrie.Text.Description
import RotaryTrie.Workspace
import RotaryTrie.Proofs.Popcount
import RotaryTrie.Proofs.Slots
import RotaryTrie.Proofs.Separation
import RotaryTrie.Proofs.InStep
import RotaryTrie.Proofs.Sound
import RotaryTrie.Proofs.Splitting
import RotaryTrie.Proofs.Row
import RotaryTrie.Proofs.Insertion
import RotaryTrie.Proofs.Erasure
import RotaryTrie.Proofs.Dictionary
import RotaryTrie.Proofs.Invariant
import RotaryTrie.Proofs.Table
import RotaryTrie.Proofs.Pruning
import RotaryTrie.Proofs.Visit
import RotaryTrie.Proofs.Depth
import RotaryTrie.Proofs.Contents
import RotaryTrie.Proofs.Effects
import RotaryTrie.Proofs.Sequence
import RotaryTrie.Proofs.Reordering
import RotaryTrie.Proofs.Sharing
import RotaryTrie.Proofs.Guards
import RotaryTrie.Proofs.GuardedTrie
import RotaryTrie.Proofs.Enumeration
import RotaryTrie.Proofs.GuardedMap
import RotaryTrie.Proofs.Distinct
import RotaryTrie.Proofs.Transfer
import RotaryTrie.Proofs.Rebuilding
import RotaryTrie.Proofs.Clock
import RotaryTrie.Proofs.ById
import RotaryTrie.Proofs.Identity
import RotaryTrie.Proofs.Calls
import RotaryTrie.Proofs.Order
import RotaryTrie.Proofs.Batch
import RotaryTrie.Proofs.Repetition
import RotaryTrie.Proofs.Renumbering
import RotaryTrie.Proofs.Policies
import RotaryTrie.Proofs.Succession
