import Extraction.GoCode.PackageClause
import Extraction.GoCode.Tree
import Extraction.Text.SourceFile

/-!
# Loaded programs

What is known of a program once its packages are loaded: the errors met, the files, their
type-checked syntax, and the syntax nodes around any extent of a file with the types a report names.
-/

namespace Extraction

/-- A syntax node around an extent, as far as a report depends on it.  Types are written relative to
the package; a type that is not known is absent. -/
inductive Enclosing where
  | function (name : String) (results : Option String)
  | literal (type results : Option String)
  | expression (type : Option String)
  | other
deriving DecidableEq, Repr

namespace Enclosing

def functionName? : Enclosing → Option String
  | function name _ => some name
  | _ => none

def valueType? : Enclosing → Option (Option String)
  | literal type _ => some type
  | expression type => some type
  | _ => none

/-- What a function returns: the type of its single result, or all of them in parentheses. -/
def results? : Enclosing → Option (Option String)
  | function _ results => some results
  | literal _ results => some results
  | _ => none

end Enclosing

structure LoadedFile where
  source : SourceFile
  /-- Absent if the file could not be parsed or type checked. -/
  code : Option GoCode.File := none
  enclosing : Extent → List Enclosing := fun _ => []

namespace LoadedFile

/-- The declared function that an extent is in.  Function literals have no name. -/
def functionAt (f : LoadedFile) (extent : Extent) : Option String :=
  (f.enclosing extent).findSome? Enclosing.functionName?

def expressionTypeAt (f : LoadedFile) (extent : Extent) : Option String :=
  ((f.enclosing extent).findSome? Enclosing.valueType?).join

def resultsAt (f : LoadedFile) (extent : Extent) : Option String :=
  ((f.enclosing extent).findSome? Enclosing.results?).join

end LoadedFile

structure Program where
  errors : List String := []
  files : List LoadedFile := []

namespace Program

def sources (p : Program) : FileSet :=
  p.files.map (·.source)

/-- A package that consists of one file without a package clause.  The file counts as read only as
far as the search for the clause went, and so it declares no package. -/
def ofClauselessFile? (package name : String) (bytes : List UInt8) : Option Program :=
  let clause := GoCode.PackageClause.ofSource bytes
  let whole : SourceFile :=
    { SourceFile.ofContents name bytes with lines := 0 :: SourceFile.lineStartsAfter 0 bytes }
  if clause.complaints.isEmpty then none
  else
    let report (complaint : Nat × String) : String :=
      let (line, column) := whole.position complaint.1
      s!"{name}:{line}:{column}: {complaint.2}"
    some
      { errors := clause.complaints.map report ++ [s!"-: package ; expected package {package}"]
        files := [{ source := { whole with lines := whole.lines.filter (· ≤ clause.reached) } }] }

end Program

end Extraction
