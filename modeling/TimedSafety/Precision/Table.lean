import TimedSafety.Precision

/-!
A precision for each location: entries for some locations, and perhaps a fallback for all others.
Updating a table overrides what its lookups say. An update that only repeats the fallback at a
location without an entry is dropped, so a table does not fill up with copies of its fallback.
-/

set_option autoImplicit false

namespace TimedSafety

/-- Precisions by location, sorted by location, with a fallback for the locations without one. -/
structure PrecisionTable (π : Type) where
  entries : List (Location × π)
  fallback : Option π
deriving DecidableEq

namespace PrecisionTable

variable {π : Type}

/-- Writes the entry of a location in a list sorted by location. -/
def insertEntry (location : Location) (precision : π) :
    List (Location × π) → List (Location × π)
  | [] => [(location, precision)]
  | (head, current) :: rest =>
    if location.index < head.index then (location, precision) :: (head, current) :: rest
    else if location = head then (location, precision) :: rest
    else (head, current) :: insertEntry location precision rest

/-- The table of the given entries; a later entry of a location wins. -/
def ofEntries (entries : List (Location × π)) (fallback : Option π) : PrecisionTable π :=
  ⟨entries.foldl (fun sorted (location, precision) ↦ insertEntry location precision sorted) [],
    fallback⟩

/-- One precision for all locations. -/
def uniform (fallback : π) : PrecisionTable π := ⟨[], some fallback⟩

/-- The entry of a location. -/
def explicit? (entries : List (Location × π)) (location : Location) : Option π :=
  (entries.find? fun entry ↦ entry.1 = location).map (·.2)

/-- The precision at a location, if it has one. -/
def precision? (table : PrecisionTable π) (location : Location) : Option π :=
  (explicit? table.entries location).or table.fallback

/-- The precision at a location. -/
def precision (table : PrecisionTable π) (location : Location) : Except Fault π :=
  match table.precision? location with
  | some found => .ok found
  | none => .error (.noPrecision location)

/-- Writes one entry, unless it only repeats the fallback. -/
def updateAt [DecidableEq π] (table : PrecisionTable π) (location : Location) (precision : π) :
    PrecisionTable π :=
  if explicit? table.entries location = none ∧ table.fallback = some precision then table
  else { table with entries := insertEntry location precision table.entries }

/-- Writes entries one after the other. -/
def update [DecidableEq π] (table : PrecisionTable π) (updates : List (Location × π)) :
    PrecisionTable π :=
  updates.foldl (fun table (location, precision) ↦ table.updateAt location precision) table

def text (precisionText : π → String) (table : PrecisionTable π) : String :=
  let fallback := match table.fallback with
    | some precision => precisionText precision
    | none => "none"
  s!"GenericLocPrec(precs: {table.entries.length}, default: {fallback})"

end PrecisionTable

end TimedSafety
