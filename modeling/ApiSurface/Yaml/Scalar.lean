/-
What the scalars of a YAML document stand for.

A plain scalar may be an absent value, a flag, an integer in one of four bases, a decimal number or
a text. Digits with a leading zero are a text.
-/
import ApiSurface.Decimal.Literal
import ApiSurface.Wire.Content
import ApiSurface.Wire.Mismatch
import ApiSurface.Yaml.Document

namespace ApiSurface.Yaml

/-- The meaning of a scalar. -/
inductive Scalar where
  | null
  | bool (value : Bool)
  | number (value : Number)
  /-- An integer of more than 64 bits. -/
  | wide (value : Int)
  | infinity (negative : Bool)
  | notANumber
  | text (value : String)

namespace Scalar

/-- Whether a text is a name of the absent value. -/
def isNull (s : String) : Bool := ["null", "Null", "NULL", "~"].contains s

/-- The flag that a text names. -/
def flag? (s : String) : Option Bool :=
  if ["true", "True", "TRUE"].contains s then some true
  else if ["false", "False", "FALSE"].contains s then some false
  else none

/-- Whether a text is digits with a leading zero, after an optional sign. -/
def hasLeadingZero (cs : List Char) : Bool :=
  let digits := match cs with
    | '-' :: r => r
    | '+' :: r => r
    | r => r
  match digits with
  | '0' :: d :: r => (d :: r).all Char.isDigit
  | _ => false

/-- The number that at least one digit of a base spells. -/
def digits? (base : Nat) (cs : List Char) : Option Nat :=
  if cs.isEmpty then none else Text.number? base cs

/-- The digits after the mark of a base, and the base. -/
def based? : List Char → Option (Nat × List Char)
  | '0' :: 'x' :: r => some (16, r)
  | '0' :: 'o' :: r => some (8, r)
  | '0' :: 'b' :: r => some (2, r)
  | _ => none

/-- An unsigned integer in decimal digits or in a marked base. -/
def magnitude? (cs : List Char) : Option Nat :=
  match based? cs with
  | some (base, digits) => digits? base digits
  | none => if hasLeadingZero cs then none else digits? 10 cs

/-- An integer, of any size. -/
def integer? (cs : List Char) : Option Int :=
  match cs with
  | '-' :: r => (magnitude? r).map fun n => -(n : Int)
  | '+' :: r => (magnitude? r).map fun n => (n : Int)
  | r => (magnitude? r).map fun n => (n : Int)

/-- Whether an integer fits 128 bits, signed or unsigned: one from `-2 ^ 127` to `2 ^ 128 - 1`. -/
def isWide (i : Int) : Bool :=
  -170141183460469231731687303715884105728 ≤ i && i < 340282366920938463463374607431768211456

/-- An integer of at most 128 bits. -/
def ofInteger? (cs : List Char) : Option Scalar :=
  (integer? cs).bind fun i =>
    match WordInt.ofInt? i with
    | some w => some (.number (.integer w))
    | none => if isWide i then some (.wide i) else none

/-- A decimal number, or a name of a value that is not finite. -/
def ofDecimal? (s : String) : Option Scalar :=
  if [".inf", ".Inf", ".INF", "+.inf", "+.Inf", "+.INF"].contains s then some (.infinity false)
  else if ["-.inf", "-.Inf", "-.INF"].contains s then some (.infinity true)
  else if [".nan", ".NaN", ".NAN"].contains s then some .notANumber
  else (Literal.toDouble? s.toList).map fun x => .number (.double x)

/-- The meaning of a plain scalar without a tag. -/
def ofPlain (s : String) : Scalar :=
  if s.isEmpty || isNull s then .null
  else match flag? s, ofInteger? s.toList with
    | some b, _ => .bool b
    | none, some i => i
    | none, none =>
      if hasLeadingZero s.toList then .text s else (ofDecimal? s).getD (.text s)

/-- What a scalar is called when it is refused. -/
def found : Scalar → Found
  | .null => .nothing
  | .bool b => .boolean b
  | .number n => .number n
  | .wide i => .wide i
  | .infinity negative => .infinity negative
  | .notANumber => .notANumber
  | .text s => .text s

/-- The scalar as a content; an integer of more than 64 bits is none. -/
def content : Scalar → Except Mismatch Content
  | .null => .ok .null
  | .bool b => .ok (.bool b)
  | .number n => .ok (.number n)
  | .wide i => .error (.wrongType (.wide i) "any value")
  | .infinity _ => .ok .nonfinite
  | .notANumber => .ok .nonfinite
  | .text s => .ok (.text s)

end Scalar

/-- The tags that give a scalar its type. -/
def coreTag (name : String) : String := "tag:yaml.org,2002:" ++ name

/-- The name of the alternative that a tag stands for: the text after an exclamation mark, or the
mark alone. -/
def alternativeTag? (tag : Option String) : Option String :=
  match tag.map String.toList with
  | some ['!'] => some "!"
  | some ('!' :: name) => some (String.ofList name)
  | _ => none

namespace Scalar

/-- The meaning of a text that a tag says has a type. -/
def typed (s : String) (value : Option Scalar) (expected : String) : Except Mismatch Scalar :=
  match value with
  | some v => .ok v
  | none => .error (.wrongValue (.text s) expected)

/-- The meaning of a scalar. -/
def ofEvent (s : String) (style : ScalarStyle) (tag : Option String) : Except Mismatch Scalar :=
  let untyped : Scalar := if style = .plain then ofPlain s else .text s
  match tag with
  | none => .ok untyped
  | some t =>
    if t = coreTag "bool" then typed s ((flag? s).map .bool) "a boolean"
    else if t = coreTag "int" then typed s (ofInteger? s.toList) "an integer"
    else if t = coreTag "float" then typed s (ofDecimal? s) "a float"
    else if t = coreTag "null" then typed s (if isNull s then some .null else none) "null"
    else if (alternativeTag? tag).isSome then .ok untyped
    else .ok (.text s)

end Scalar

end ApiSurface.Yaml
