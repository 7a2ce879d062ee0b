import ExrCodecs.Word
import ExrCodecs.Pxr24.Float24
import ExrCodecs.Pxr24.Compressor
import ExrCodecs.Pxr24.Samples
import ExrCodecs.Pxr24.RoundTrip
import ExrCodecs.Pxr24.Uncompress
import ExrCodecs.FastHuf.Basic
import ExrCodecs.FastHuf.Bits
import ExrCodecs.FastHuf.Constructor
import ExrCodecs.FastHuf.Decode
import ExrCodecs.FastHuf.Refill
import ExrCodecs.FastHuf.Scan
import ExrCodecs.FastHuf.Tables
import ExrCodecs.FastHuf.DecodeSafety
import ExrCodecs.FastHuf.ConstructorSafety
import ExrCodecs.FastHuf.Wire
import ExrCodecs.FastHuf.WireSoundness
import ExrCodecs.FastHuf.Acceptance
import ExrCodecs.FastHuf.Lookup
import ExrCodecs.FastHuf.Output
import ExrCodecs.FastHuf.Canonical
import ExrCodecs.FastHuf.CodeSpace
import ExrCodecs.FastHuf.ExactTables
import ExrCodecs.FastHuf.CodeLookup
import ExrCodecs.FastHuf.Completeness
import ExrCodecs.FastHuf.RoundTrip
import ExrCodecs.FastHuf.TrailingData
import ExrCodecs.FastHuf.DecodeSoundness
