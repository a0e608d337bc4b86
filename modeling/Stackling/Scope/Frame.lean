/-!
# Frame offsets

A frame holds the parameters of a call at the offsets from 1 upwards and its local declarations at
the offsets from -2 downwards. A thing of two cells is found at the higher one of them.
-/

namespace Stackling

/-- The next free offsets of a frame. -/
structure Frame where
  nextLocal : Int32 := -2
  nextParam : Int32 := 1
  deriving DecidableEq, Repr, Inhabited

namespace Frame

def allotLocal (f : Frame) (cells : Int32) : Int32 × Frame :=
  (f.nextLocal, { f with nextLocal := f.nextLocal - cells })

def allotParam (f : Frame) (cells : Int32) : Int32 × Frame :=
  let offset := f.nextParam + (cells - 1)
  (offset, { f with nextParam := offset + 1 })

end Frame

end Stackling
