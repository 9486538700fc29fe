import KeyedVM.Blob
import KeyedVM.ByteTable
import KeyedVM.Export

set_option relaxedAutoImplicit false
set_option autoImplicit false

/-!
# Images

Everything that was recovered of a protected program.

## Main definitions

* `KeyedVM.Image` — code, byte table, functions and references of a program.
-/

namespace KeyedVM

/-- Everything that was recovered of a protected program. -/
structure Image where
  blob : Blob
  table : ByteTable
  exports : ExportTable
  references : ReferenceTable

end KeyedVM
