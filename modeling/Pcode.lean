import Pcode.Architecture.Mini
import Pcode.Architecture.Relay
import Pcode.Architecture.Sweep
import Pcode.Proofs.Architecture.Agreement
import Pcode.Proofs.Architecture.Retry
import Pcode.Proofs.Config.Attribute
import Pcode.Proofs.Context.Defaults
import Pcode.Proofs.FloatLayout
import Pcode.Proofs.Joined
import Pcode.Proofs.Ordered
import Pcode.Proofs.Processor.Overflow
import Pcode.Proofs.Processor.Reflection
import Pcode.Proofs.Registry.Concatenation
import Pcode.Proofs.Registry.Layout
import Pcode.Proofs.Registry.Numbering
import Pcode.Proofs.Registry.Rebasing
import Pcode.Proofs.Registry.Refusal
import Pcode.Proofs.Registry.Reordering
import Pcode.Proofs.Registry.Resolution
import Pcode.Proofs.Registry.Shortcuts
import Pcode.Proofs.Spaces.Limits
import Pcode.Proofs.Wire.Atomic
import Pcode.Proofs.Wire.Delimiting
import Pcode.Proofs.Wire.Exactness
import Pcode.Proofs.Wire.Offsets
import Pcode.Proofs.Wire.Streams
import Pcode.Registry.Joining
import Pcode.Serial.Model
