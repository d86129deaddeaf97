import SmallLisp.Proofs.Reader.Grammar
import SmallLisp.Proofs.Session.Objects
import SmallLisp.Proofs.Value.Congruence
import SmallLisp.Proofs.Value.Hash

/-!
# Equality of values and what rests on it

Equality is an equivalence, whatever is identical is equal, equal values hash alike, and they are one key to
every collection (`equality_congruent`). A map that is made by a call or read from a text holds under each key
what the last pair with an equal key has.
-/

namespace SmallLisp

variable {here : Site} {w : World}

end SmallLisp
