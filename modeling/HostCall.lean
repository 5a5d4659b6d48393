import HostCall.Catalogue
import HostCall.HostError
import HostCall.Proofs.Adapter
import HostCall.Proofs.Exactness
import HostCall.Proofs.Footprint
import HostCall.Proofs.Forwarding
import HostCall.Proofs.HandleOwnership
import HostCall.Proofs.Intact
import HostCall.Proofs.SlotWidth
import HostCall.Text.Utf8.RoundTrip
import HostCall.Proofs.ResultTag
import HostCall.Proofs.Underflow
import HostCall.Proofs.Oblivious
import HostCall.Proofs.Nesting
import HostCall.Proofs.Linking
import HostCall.Proofs.PartialWrites
import HostCall.Proofs.ListLifting
import HostCall.Proofs.Timestamps
import HostCall.Proofs.ListRewriting
import HostCall.Proofs.TextDecoding
import HostCall.Proofs.MemoryHistory
import HostCall.Proofs.Headers
