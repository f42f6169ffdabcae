/-!
# Writing tables

A table is written as records of fields that are separated by commas, one
record a line.  A field is put in quotes only where it could be misread, and
quotes inside it are doubled.
-/

namespace ExactSpend.Table

/-- Whether a field could be misread without quotes. -/
def needsQuotes (field : List Char) : Bool :=
  field.any fun c => c = ',' ∨ c = '"' ∨ c = '\n' ∨ c = '\r'

/-- A field between quotes, the quotes inside it doubled. -/
def quoted (field : List Char) : List Char :=
  '"' :: field.flatMap (fun c => if c = '"' then ['"', '"'] else [c]) ++ ['"']

/-- A field as it stands in a record of several fields. -/
def encode (field : String) : String :=
  if needsQuotes field.toList then
    String.ofList (quoted field.toList) else field

/-- One record with its line end.  A record of one empty field is written as a
pair of quotes, since an empty line is no record. -/
def line (fields : List String) : String :=
  let text := match fields with
    | [""] => "\"\""
    | fields => ",".intercalate (fields.map encode)
  text ++ "\n"

/-- A column has a name and tells its text for each value. -/
structure Column (α : Type) where
  name : String
  text : α → String

/-- The record of column names. -/
def header (columns : List (Column α)) : String :=
  line (columns.map (·.name))

/-- The record of a value. -/
def record (columns : List (Column α)) (value : α) : String :=
  line (columns.map fun c => c.text value)

/-- The records of some values under the column names.  Without values there
are no column names either. -/
def withHeader (columns : List (Column α)) (values : List α) : String :=
  match values with
  | [] => ""
  | values => header columns ++ String.join (values.map (record columns))

/-- The text of an absent value is empty. -/
def optional (text : α → String) : Option α → String
  | some a => text a
  | none => ""

end ExactSpend.Table
