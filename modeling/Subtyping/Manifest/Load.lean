import Subtyping.Failure
import Subtyping.Manifest.Decode

/-!
# Manifests from files

A manifest is read from the text of a file. What can go wrong before there is a text is part of
`FileText`, so that the outcome of loading is a function of what the file system answered.
-/

namespace Subtyping

/-- What reading a file gave. -/
inductive FileText where
  | missing
  | directory
  /-- The bytes of the file are no text. -/
  | notText
  | text (contents : String)
deriving DecidableEq, Repr

namespace Manifest

/-- The manifest in the text of a file. -/
def read (text : String) : Except Failure Manifest :=
  (ofText text).mapError fun error =>
    { contexts := [.parsingFile], cause := .notDecoded error }

/-- The manifest in a file. -/
def load (path : String) : FileText → Except Failure Manifest
  | .missing => .error { contexts := [.readingFile path], cause := .fileMissing }
  | .directory => .error { contexts := [.readingFile path], cause := .fileIsDirectory }
  | .notText => .error { contexts := [.readingFile path], cause := .fileNotText }
  | .text contents => (read contents).mapError (·.within (.inFile path))

end Manifest

end Subtyping
