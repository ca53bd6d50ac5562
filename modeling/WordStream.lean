import WordStream.Bits
import WordStream.Main
import WordStream.Proofs.Addresses
import WordStream.Proofs.AnySchema
import WordStream.Proofs.Buffer.Capacity
import WordStream.Proofs.Buffer.Doubling
import WordStream.Proofs.Buffer.Footprint
import WordStream.Proofs.Buffer.Memory
import WordStream.Proofs.Buffer.Splice
import WordStream.Proofs.ByteList
import WordStream.Proofs.Chain.Canonical
import WordStream.Proofs.Containment
import WordStream.Proofs.Exhaustion
import WordStream.Proofs.Growth
import WordStream.Proofs.Locality
import WordStream.Proofs.Reencoding
import WordStream.Proofs.RefusedMoves
import WordStream.Proofs.RoundTrip
import WordStream.Proofs.SelfChecks
import WordStream.Proofs.ShortOutput
import WordStream.Proofs.Sizes
import WordStream.Proofs.Sparse.AnyCapacity
import WordStream.Proofs.Sparse.BitString
import WordStream.Proofs.Sparse.Footprint
import WordStream.Proofs.Sparse.Patch
import WordStream.Proofs.Sparse.RandomAccess
import WordStream.Proofs.Standard.Block
import WordStream.Proofs.Standard.Patch
import WordStream.Proofs.Stream.Extent
import WordStream.Proofs.Truncation
import WordStream.Proofs.WidthCost
import WordStream.Report.Comparison
import WordStream.Report.Dump
import WordStream.Sparse.Reader
import WordStream.Sparse.Writer
import WordStream.Standard.Reader
import WordStream.Standard.Writer
import WordStream.Stream.WordQueue
import WordStream.Proofs.ShortValues
import WordStream.Proofs.AnyStream
import WordStream.Proofs.Sparse.Lockstep
