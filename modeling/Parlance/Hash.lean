/-
  The hash of a text: FNV-1a on 32 bits.
-/

namespace Parlance

def hashStep (h : UInt32) (b : UInt8) : UInt32 := (h ^^^ b.toUInt32) * 16777619

/-- Each byte is mixed in by exclusive or and then by a product modulo `2 ^ 32`. -/
def hashBytes (bytes : ByteArray) : UInt32 := bytes.foldl hashStep 2166136261

/-- The hash of a text in UTF-8. -/
def hashText (s : String) : UInt32 := hashBytes s.toUTF8

end Parlance
