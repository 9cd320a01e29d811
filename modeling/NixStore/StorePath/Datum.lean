import NixStore.StorePath.Basic
import NixStore.Text.Decimal

/-!
# Store paths in structured data

A store path is written into structured data as a string, and read back from a string only. The
other kinds of values are told apart for the message that refuses them.
-/

namespace NixStore

/-- A value of a structured data format, as far as its kind matters. -/
inductive Datum where
  | null
  | boolean (value : Bool)
  | integer (value : Int)
  | float (value : Float)
  | string (value : Text)
  | sequence
  | map

/-- The kind of a value, with the value itself if it is short. -/
def Datum.describe : Datum → String
  | null => "null"
  | boolean b => "boolean `" ++ (if b then "true" else "false") ++ "`"
  | integer n => "integer `" ++ toString n ++ "`"
  | float x => "floating point `" ++ String.ofList (Text.decimal x) ++ "`"
  | string t => "string " ++ Text.quote t
  | sequence => "sequence"
  | map => "map"

/-- Why a value is not a store path. -/
inductive DatumError where
  | notString (found : Datum)
  | malformed (cause : StorePathError)

def DatumError.message : DatumError → String
  | notString d => s!"invalid type: {d.describe}, expected a string"
  | malformed e => e.message

namespace StorePath

def toDatum (p : StorePath) : Datum := .string p.text

def ofDatum : Datum → Except DatumError StorePath
  | .string t => (ofUtf8 t).mapError .malformed
  | d => .error (.notString d)

end StorePath

end NixStore
