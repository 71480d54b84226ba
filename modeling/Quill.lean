import Quill.Main
import Quill.Files.Directory
import Quill.Tree.Depth
import Quill.Walk.Selection
import Quill.Path.Writing
import Quill.Proofs.Navigation.Session
import Quill.Proofs.Reading.Scanning
import Quill.Proofs.Reading.Derivation
import Quill.Proofs.Reading.Slicing
import Quill.Proofs.Reading.Rendering
import Quill.Proofs.Walk.Frame
import Quill.Proofs.Walk.Unreached
import Quill.Proofs.Walk.Removal
import Quill.Proofs.Walk.Removed
import Quill.Proofs.Walk.Lens
import Quill.Proofs.Navigation.Answers
import Quill.Proofs.Navigation.Without
import Quill.Proofs.Navigation.LiteralKey
import Quill.Proofs.Walk.Pruning
import Quill.Proofs.Navigation.Recency
import Quill.Proofs.Tree.Appending
import Quill.Proofs.Tree.KeyText
import Quill.Proofs.Text.Joining
import Quill.Proofs.Tree.Leaves
import Quill.Proofs.Tree.Flattening
import Quill.Proofs.Walk.Planting
import Quill.Proofs.Navigation.Unflattening
import Quill.Proofs.Navigation.Presence
import Quill.Proofs.Reading.Structured
import Quill.Proofs.Json.Values
import Quill.Proofs.Json.Tokens
import Quill.Proofs.Json.RoundTrip
import Quill.Proofs.Files.Operations
import Quill.Proofs.Command.Sparing
import Quill.Proofs.Walk.Calls
import Quill.Proofs.Walk.Gathering
import Quill.Proofs.Reading.Concatenation
import Quill.Proofs.Reading.PlainKey
import Quill.Proofs.Walk.Composing
import Quill.Proofs.Walk.Replacing
import Quill.Proofs.Tree.Union
import Quill.Proofs.Tree.Removing
import Quill.Proofs.Listing.Keyless
import Quill.Proofs.Text.Splitting
import Quill.Proofs.Tree.Mapping
import Quill.Proofs.Tree.Attaching
