import AutomationLint.Proofs.Number.Numerals
import AutomationLint.Proofs.Number.Shortest
import AutomationLint.Tree.JsonReader

namespace AutomationLint.Tree.Json

variable {whole places text : List Char}

end AutomationLint.Tree.Json
