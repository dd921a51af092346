import SeaClaw.Lib.Bytes

/-!
# Key streams

A text with a stream of octets added to it. Adding the stream again gives the text back.
-/

namespace SeaClaw.Lib

/-- The text with octet `i` of the stream added to its octet `i`. -/
def xorStream (stream : ℕ → UInt8) (s : Bytes) : Bytes := s.mapIdx fun i b => b ^^^ stream i

@[simp] theorem length_xorStream (stream : ℕ → UInt8) (s : Bytes) :
    (xorStream stream s).length = s.length := List.length_mapIdx

theorem xorStream_involutive (stream : ℕ → UInt8) : Function.Involutive (xorStream stream) := by
  intro s
  apply List.ext_getElem
  · simp
  · intro i h h'
    simp [xorStream, UInt8.xor_assoc]

end SeaClaw.Lib
