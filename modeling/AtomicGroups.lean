import AtomicGroups.Sha512.Hasher
import AtomicGroups.Wire.Descent
import AtomicGroups.Record.Grammar
import AtomicGroups.Record.Lemmas
import AtomicGroups.Segment.Partition
import AtomicGroups.Segment.Shape
import AtomicGroups.Service
import AtomicGroups.Config.Environment
import AtomicGroups.Json.Forms
import AtomicGroups.Proofs.Group.Binding
import AtomicGroups.Proofs.Record.Acceptance
import AtomicGroups.Proofs.Segment.Faults
import AtomicGroups.Proofs.Group.Agreement
import AtomicGroups.Proofs.Group.Blocks
import AtomicGroups.Proofs.Wire.Shortest
import AtomicGroups.Record.Layout
import AtomicGroups.Proofs.Record.Layout
import AtomicGroups.Proofs.Record.Canonical
import AtomicGroups.Proofs.Group.Rewriting
import AtomicGroups.Proofs.Service
import AtomicGroups.Proofs.Sha512.Session
import AtomicGroups.Proofs.Record.Session
import AtomicGroups.Proofs.Group.Restamping
import AtomicGroups.Proofs.Wire.Spans
import AtomicGroups.Proofs.Record.Limits
import AtomicGroups.Proofs.Record.Extension
import AtomicGroups.Proofs.Record.Evidence
import AtomicGroups.Proofs.Segment.Concatenation
import AtomicGroups.Proofs.Segment.Shape
import AtomicGroups.Proofs.Record.Edits
import AtomicGroups.Proofs.Wire.Session
import AtomicGroups.Proofs.Record.Binaries
import AtomicGroups.Proofs.Config
import AtomicGroups.Proofs.Segment.Checks
import AtomicGroups.Proofs.Record.ReadBack
import AtomicGroups.Proofs.Group.DigestList
import AtomicGroups.Proofs.Json.Forms
