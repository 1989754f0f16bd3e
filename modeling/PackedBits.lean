import PackedBits.BitList
import PackedBits.FieldList
import PackedBits.PositionSet
import PackedBits.Record
import PackedBits.Sample
import PackedBits.Source.Compare
import PackedBits.Source.Digest
import PackedBits.Space
import PackedBits.Store.Plain
import PackedBits.Uniform
import PackedBits.Proofs.Listed
import PackedBits.Proofs.Outcome
import PackedBits.Proofs.StoreLaw
import PackedBits.Proofs.SegmentLaw
import PackedBits.Proofs.StoreTwin
import PackedBits.Proofs.Meaning
import PackedBits.Proofs.Lawful
import PackedBits.Proofs.BitListLaw
import PackedBits.Proofs.WordRead
import PackedBits.Proofs.WordMutableLaw
import PackedBits.Proofs.WordResizableLaw
import PackedBits.Proofs.PartLaw
import PackedBits.Proofs.Change
import PackedBits.Proofs.Kept
import PackedBits.Proofs.WordSound
import PackedBits.Proofs.Reach
import PackedBits.Proofs.Lockstep
import PackedBits.Proofs.Nesting
import PackedBits.Proofs.Search
import PackedBits.Proofs.Scan
import PackedBits.Proofs.Readable
import PackedBits.Proofs.Order
import PackedBits.Proofs.Encoding
import PackedBits.Proofs.StreamRead
import PackedBits.Proofs.Digest
import PackedBits.Proofs.WalkLaw
import PackedBits.Proofs.PositionSetLaw
import PackedBits.Proofs.FieldListLaw
import PackedBits.Proofs.StoreRoom
import PackedBits.Proofs.SegmentRoom
import PackedBits.Proofs.WordRoom
import PackedBits.Proofs.Growth
import PackedBits.Proofs.Lasting
import PackedBits.Proofs.FieldListResize
import PackedBits.Proofs.PartRefusal
import PackedBits.Proofs.Replacement
import PackedBits.Proofs.Guarded
import PackedBits.Proofs.StoreGuard
import PackedBits.Proofs.WordRefines
import PackedBits.Proofs.GuardedViews
import PackedBits.Proofs.Safe
import PackedBits.Proofs.Secure
import PackedBits.Proofs.WordSecure
import PackedBits.Proofs.PartSecure
import PackedBits.Proofs.ViewSecure
import PackedBits.Proofs.Operation
import PackedBits.Proofs.Faultless
import PackedBits.Proofs.Inverse
import PackedBits.Proofs.Concatenation
import PackedBits.Proofs.Rewriting
import PackedBits.Proofs.Combination
import PackedBits.Proofs.AdoptionLaw
import PackedBits.Proofs.RecordLaw
import PackedBits.Proofs.Interleaving
import PackedBits.Proofs.StoreCapacity
import PackedBits.Proofs.CapacityLaw
import PackedBits.Proofs.Gathering
import PackedBits.Proofs.Complement
import PackedBits.Proofs.TornStream
import PackedBits.Proofs.Flattening
