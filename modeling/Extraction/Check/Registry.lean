import Extraction.Check.Extractability

/-!
# The registry of checks

Checks are found by short names.  A name is given once: `Registry.add` refuses a second check of the
same name.
-/

namespace Extraction

structure Description where
  name : String
  synopsis : String := ""
  usage : String := ""
  multifile : Bool := false
  isHidden : Bool := false
deriving DecidableEq, Repr

structure Check where
  description : Description
  run : Host → Request → Except Fault Outcome

abbrev Registry := List (String × Check)

/-- A short name is taken by the check of the given name. -/
structure NameTaken where
  shortName : String
  holder : String
deriving DecidableEq, Repr

namespace NameTaken

def message (e : NameTaken) : String :=
  s!"The short name \"{e.shortName}\" is already associated with a check ({e.holder})"

end NameTaken

namespace Registry

def version : String := "0.4"

def title : String := "extractcheck " ++ version

def extractFunction : Check where
  description :=
    { name := "Extract Function",
      synopsis := "Checks whether statements can be extracted to a new function" }
  run host request := .ok (Extractability.run host request)

def standard : Registry :=
  [("extract", extractFunction)]

def find? (r : Registry) (shortName : String) : Option Check :=
  r.lookup shortName

def add (r : Registry) (shortName : String) (check : Check) : Except NameTaken Registry :=
  match r.find? shortName with
  | some holder => .error ⟨shortName, holder.description.name⟩
  | none => .ok (r ++ [(shortName, check)])

def names (r : Registry) : List String :=
  (r.map (·.1)).mergeSort fun a b => !decide (b < a)

end Registry

end Extraction
