import LoveRuntime.Library.Loop
import LoveRuntime.Library.Radix
import LoveRuntime.Library.TrialQuotient
import LoveRuntime.Library.Carry
import LoveRuntime.Library.Resumable
import LoveRuntime.Model.Num.Tower
import LoveRuntime.Model.Num.Division
import LoveRuntime.Model.Num.Multiplication
import LoveRuntime.Model.Num.Arithmetic
import LoveRuntime.Verification.Num.Tower
import LoveRuntime.Verification.Num.Normalize
import LoveRuntime.Verification.Num.DivStep
import LoveRuntime.Verification.Num.Division
import LoveRuntime.Verification.Num.Bmul
import LoveRuntime.Verification.Num.DivLanes
import LoveRuntime.Verification.Num.Limbs
import LoveRuntime.Verification.Num.Karatsuba
import LoveRuntime.Verification.Num.Kmul
import LoveRuntime.Verification.Num.KmulDriver
import LoveRuntime.Verification.Num.MulLanes
import LoveRuntime.Verification.Num.Bits
import LoveRuntime.Verification.Num.Shifts
import LoveRuntime.Verification.Num.JoinDec
import LoveRuntime.Verification.Num.Reading
import LoveRuntime.Verification.Num.Arithmetic
import LoveRuntime.Model.Bigdigits
import LoveRuntime.Verification.Bigdigits.Numerals
import LoveRuntime.Verification.Bigdigits.Correctness
import LoveRuntime.Library.Probing
import LoveRuntime.Model.Tablet
import LoveRuntime.Verification.Tablet.Probe
import LoveRuntime.Verification.Tablet.Delete
import LoveRuntime.Verification.Tablet.Refinement
import LoveRuntime.Verification.Tablet.Interrupt
import LoveRuntime.Verification.Tablet.Resume
import LoveRuntime.Library.Outcome
import LoveRuntime.Model.Equality
import LoveRuntime.Verification.Equality.Walk
import LoveRuntime.Verification.Equality.Hash
import LoveRuntime.Verification.Equality.Zeros
import LoveRuntime.Library.Dialogue
import LoveRuntime.Model.Call
import LoveRuntime.Verification.Call.Dialogue
import LoveRuntime.Verification.Call.Lanes
import LoveRuntime.Library.MsbBits
import LoveRuntime.Library.BitParser
import LoveRuntime.Library.PrefixReads
import LoveRuntime.Library.CountingSort
import LoveRuntime.Library.Rotation
import LoveRuntime.Library.CanonicalCode
import LoveRuntime.Library.JoinForest
import LoveRuntime.Model.Compress.Bzip2
import LoveRuntime.Verification.Bzip2.Stream
import LoveRuntime.Verification.Bzip2.Sort
import LoveRuntime.Verification.Bzip2.Runs
import LoveRuntime.Verification.Bzip2.Head
import LoveRuntime.Verification.Bzip2.Lens
import LoveRuntime.Verification.Bzip2.Codes
import LoveRuntime.Verification.Bzip2.Block
import LoveRuntime.Verification.Bzip2.Written
import LoveRuntime.Verification.Bzip2.Steps
import LoveRuntime.Verification.Bzip2.InStep
import LoveRuntime.Verification.Bzip2.Stepwise
import LoveRuntime.Verification.Bzip2.StepWhole
import LoveRuntime.Verification.Arena.Runs
import LoveRuntime.Model.Lr
import LoveRuntime.Verification.Lr.Compose
import LoveRuntime.Model.Ports
import LoveRuntime.Verification.Ports.Runs
import LoveRuntime.Model.Inports
import LoveRuntime.Model.Fused
import LoveRuntime.Model.Compress.Lzfind
import LoveRuntime.Verification.Inports.Order
import LoveRuntime.Library.LimbBits
import LoveRuntime.Library.Listing
import LoveRuntime.Verification.Order.Preorder
import LoveRuntime.Library.MergeRuns
import LoveRuntime.Model.Sort
import LoveRuntime.Verification.Sort.Radix
import LoveRuntime.Verification.Sort.Sortby
import LoveRuntime.Verification.Sort.Correctness
import LoveRuntime.Verification.Symbols.Runs
import LoveRuntime.Verification.Tasks.Runs
import LoveRuntime.Verification.Tasks.Deadlock
import LoveRuntime.Verification.Tasks.Pauses
import LoveRuntime.Verification.Trays.Lanes
import LoveRuntime.Verification.Fused.Correctness
import LoveRuntime.Verification.Lzfind.Runs
import LoveRuntime.Library.Scanner
import LoveRuntime.Model.Dfa
import LoveRuntime.Verification.Dfa.Correctness
import LoveRuntime.Verification.Lr.InBounds
import LoveRuntime.Library.Cells
import LoveRuntime.Model.Compress.PrefixCode
import LoveRuntime.Model.Compress.Zstd
import LoveRuntime.Verification.PrefixCode.Lengths
import LoveRuntime.Verification.PrefixCode.Merge
import LoveRuntime.Verification.PrefixCode.Tables
import LoveRuntime.Verification.Zstd.Tree
import LoveRuntime.Library.Checked
import LoveRuntime.Model.Quay.Png
import LoveRuntime.Verification.Png.Correctness
import LoveRuntime.Model.Crypto.Poly1305
import LoveRuntime.Verification.Crypto.Poly1305
import LoveRuntime.Model.Crypto.Digest
import LoveRuntime.Verification.Crypto.Memory
import LoveRuntime.Verification.Crypto.Cask
import LoveRuntime.Library.Blockwise
import LoveRuntime.Verification.Crypto.BlockDigests
import LoveRuntime.Verification.Crypto.Blake2b
import LoveRuntime.Verification.Crypto.Sponge
import LoveRuntime.Verification.Crypto.Cksum
import LoveRuntime.Model.Snap.Walk
import LoveRuntime.Verification.Snap.Walk
import LoveRuntime.Verification.Snap.Seats
import LoveRuntime.Verification.Snap.Stream
import LoveRuntime.Library.Nearest
import LoveRuntime.Library.FloatFormat
import LoveRuntime.Model.Rt.Double
import LoveRuntime.Model.Hornring
import LoveRuntime.Verification.Horn.Fifo
import LoveRuntime.Model.Libc.Tsearch
import LoveRuntime.Verification.Libc.Tsearch
import LoveRuntime.Library.Calendar
import LoveRuntime.Model.Libc.Time
import LoveRuntime.Verification.Libc.Time
import LoveRuntime.Model.Picture.Qoi
import LoveRuntime.Verification.Picture.Qoi
import LoveRuntime.Library.FloatArith
import LoveRuntime.Model.Libc.Fp
import LoveRuntime.Verification.Libc.Remainder
import LoveRuntime.Model.Picture.Gif
import LoveRuntime.Model.Libc.Fnmatch
import LoveRuntime.Verification.Picture.Gif
import LoveRuntime.Verification.Libc.Fnmatch
import LoveRuntime.Library.TwoSum
import LoveRuntime.Verification.Libc.Fma
import LoveRuntime.Library.Cnf
import LoveRuntime.Library.Labelled
import LoveRuntime.Library.LittleEndian
import LoveRuntime.Model.Sat.Drat
import LoveRuntime.Verification.Sat.Drat
import LoveRuntime.Model.Holo.Layout
import LoveRuntime.Model.Holo.X86
import LoveRuntime.Verification.Holo.Layout
import LoveRuntime.Verification.Holo.Relax
import LoveRuntime.Verification.Holo.Resolve
import LoveRuntime.Verification.Holo.Flags
import LoveRuntime.Model.Sat.Kernels
import LoveRuntime.Verification.Sat.Kernels
import LoveRuntime.Verification.Sat.Decide
import LoveRuntime.Model.Mem
import LoveRuntime.Verification.Mem.Slots
import LoveRuntime.Library.ReflectedCrc
import LoveRuntime.Library.TwoPass
import LoveRuntime.Model.Crypto.Checksum
import LoveRuntime.Verification.Crypto.Checksum
import LoveRuntime.Model.Reader
import LoveRuntime.Verification.Reader.Passes
import LoveRuntime.Library.EditGraph
import LoveRuntime.Model.Diff
import LoveRuntime.Verification.Diff.Myers
import LoveRuntime.Model.Patch
import LoveRuntime.Verification.Diff.Patience
import LoveRuntime.Verification.Diff.Reading
import LoveRuntime.Verification.Diff.Hunks
import LoveRuntime.Verification.Diff.Patch
import LoveRuntime.Verification.Diff.Texts
