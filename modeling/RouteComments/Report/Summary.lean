import RouteComments.Path
import RouteComments.Plan.Block

set_option autoImplicit false

namespace RouteComments

/-- What happened to one document. -/
structure Report where
  path : Path
  blocks : Plan
  /-- Whether the regenerated text differs and was accepted. -/
  changed : Bool
  /-- Why the document could not be read or written. -/
  error : Option Text
  deriving DecidableEq, Repr

/-- The outcome of one regeneration. -/
structure Summary where
  baseUrl : Text
  /-- Whether edits were only checked and not kept. -/
  dryRun : Bool
  /-- The reports in the order of discovery. -/
  documents : List Report
  deriving DecidableEq, Repr

/-- The number of endpoints of a document. -/
def Report.endpointCount (report : Report) : Nat :=
  report.blocks.endpointCount

namespace Summary

/-- The number of endpoints of all documents. -/
def endpointCount (summary : Summary) : Nat :=
  (summary.documents.flatMap (·.blocks.endpoints)).length

def changes (summary : Summary) : List Report :=
  summary.documents.filter (·.changed)

/-- The number of changed documents. -/
def changedCount (summary : Summary) : Nat :=
  summary.changes.length

def failures (summary : Summary) : List Report :=
  summary.documents.filter (·.error.isSome)

def message (summary : Summary) : Text :=
  if summary.endpointCount = 0 then "No endpoints found".toList
  else
    let verb := if summary.dryRun then "Would update" else "Updated"
    verb.toList ++ " endpoint comments in ".toList ++ Text.ofNat summary.changedCount ++
      (if summary.changedCount = 1 then " document" else " documents").toList

end Summary

end RouteComments
