/-
Why a value that is well formed does not stand for anything in the model.
-/
import ApiSurface.Text.Quoted
import ApiSurface.Number

namespace ApiSurface

/-- What was found in place of the expected value. -/
inductive Found where
  | nothing
  | boolean (value : Bool)
  | number (value : Number)
  /-- An integer of more than 64 bits. -/
  | wide (value : Int)
  | infinity (negative : Bool)
  | notANumber
  | text (value : String)
  | sequence
  | map
  /-- A value under the name of an alternative. -/
  | alternative
  /-- The bare name of an alternative that needs a value. -/
  | bareName

/-- The reasons for which a value is refused. -/
inductive Mismatch where
  | wrongType (found : Found) (expected : String)
  | wrongValue (found : Found) (expected : String)
  | wrongLength (length : Nat) (expected : String)
  | missingField (name : String)
  | duplicateField (name : String)
  | unknownVariant (name : String) (known : List String)
  /-- A value of several forms has none of them. -/
  | noForm (label : String)
  /-- A value of several forms stands under the name of an alternative. -/
  | taggedForm

/-- How a document language names an absent value and writes doubles in messages. -/
structure Wording where
  nothing : String
  double : Notation

namespace Found

/-- A text between backticks. -/
def ticked (s : String) : String := "`" ++ s ++ "`"

/-- The words for what was found. -/
def describe (w : Wording) : Found → String
  | .nothing => w.nothing
  | .boolean b => "boolean " ++ ticked (if b then "true" else "false")
  | .number (.integer i) => "integer " ++ ticked (String.ofList i.write)
  | .number (.double x) => "floating point " ++ ticked (String.ofList (w.double.write x))
  | .wide i => "integer `" ++ toString i ++ "` as " ++ if i < 0 then "i128" else "u128"
  | .infinity negative => "floating point " ++ ticked (if negative then "-inf" else "inf")
  | .notANumber => "floating point " ++ ticked "NaN"
  | .text s => "string " ++ Text.quoted s
  | .sequence => "sequence"
  | .map => "map"
  | .alternative => "enum"
  | .bareName => "unit variant"

end Found

namespace Mismatch

/-- A choice between names. -/
def oneOf : List String → String
  | [] => "there are no variants"
  | [a] => "expected " ++ Found.ticked a
  | [a, b] => "expected " ++ Found.ticked a ++ " or " ++ Found.ticked b
  | names => "expected one of " ++ String.intercalate ", " (names.map Found.ticked)

/-- The message for a reason. -/
def message (w : Wording) : Mismatch → String
  | .wrongType found expected =>
    "invalid type: " ++ found.describe w ++ ", expected " ++ expected
  | .wrongValue found expected =>
    "invalid value: " ++ found.describe w ++ ", expected " ++ expected
  | .wrongLength length expected =>
    "invalid length " ++ toString length ++ ", expected " ++ expected
  | .missingField name => "missing field " ++ Found.ticked name
  | .duplicateField name => "duplicate field " ++ Found.ticked name
  | .unknownVariant name known => "unknown variant " ++ Found.ticked name ++ ", " ++ oneOf known
  | .noForm label => "data did not match any variant of untagged enum " ++ label
  | .taggedForm => "untagged and internally tagged enums do not support enum input"

end Mismatch

end ApiSurface
