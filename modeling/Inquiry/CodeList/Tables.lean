import Inquiry.CodeList.Basic
import Inquiry.Model.CrimeCodes
import Inquiry.Model.Municipalities

/-!
The code lists of the statistics: crimes and municipalities.
-/

namespace Inquiry
namespace CodeList

def crimes : List Entry :=
  Model.crimeCodes.map fun (code, label) => ⟨some label, some code⟩

def municipalities : List Entry :=
  Model.municipalities.map (fun m => ⟨some m, some m⟩) ++ [⟨some "Onbekend", some "GM0999"⟩]

end CodeList
end Inquiry
