import Phrasebook.FileTree

/-! The CRC-32 checksum of archives. -/
namespace Phrasebook

namespace Checksum

/-- The remainder after one more bit. -/
def shift (r : UInt32) : UInt32 := if r &&& 1 = 1 then (r >>> 1) ^^^ 0xEDB88320 else r >>> 1

/-- The remainder after one more byte. -/
def next (r : UInt32) (b : UInt8) : UInt32 := Nat.repeat shift 8 (r ^^^ b.toUInt32)

def ofBytes (bytes : Bytes) : UInt32 := ~~~ bytes.foldl next 0xFFFFFFFF

end Checksum

end Phrasebook
