/-
The grammar of JSON texts.

A `Syntax` is a value with its spelling, blanks apart: numbers and the insides of strings are kept
as they are written. `Syntax.Spells t cs` says that the text `cs` spells `t`, with any blanks
between the tokens, and `Syntax.Document t cs` that blanks may stand around it as well. Nothing
here refers to a reader; what the readers make of a spelled text is said in terms of its `Syntax`.
-/
import ApiSurface.Json.Text

namespace ApiSurface.Json

/-! ### Numbers and strings -/

/-- Whether a text is blanks. -/
abbrev Blanks (cs : List Char) : Prop := ∀ c ∈ cs, Reader.isBlank c = true

theorem blanks_nil : Blanks [] := nofun

/-- Whether a text is one decimal digit or more. -/
structure IsDigits (cs : List Char) : Prop where
  nonempty : cs ≠ []
  digits : ∀ c ∈ cs, c.isDigit = true

/-- Whether a text is the integer part of a number: digits without a leading zero. -/
inductive IsWhole : List Char → Prop
  | zero : IsWhole ['0']
  | digits {c : Char} {cs : List Char} (h : IsDigits (c :: cs)) (first : c ≠ '0') :
      IsWhole (c :: cs)

/-- Whether a text is a fraction, or nothing. -/
inductive IsFraction : List Char → Prop
  | none : IsFraction []
  | digits {cs : List Char} (h : IsDigits cs) : IsFraction ('.' :: cs)

/-- Whether a text is an exponent, or nothing. -/
inductive IsExponent : List Char → Prop
  | none : IsExponent []
  | digits {e : Char} {sign cs : List Char} (letter : e = 'e' ∨ e = 'E')
      (hs : sign = [] ∨ sign = ['+'] ∨ sign = ['-']) (h : IsDigits cs) :
      IsExponent (e :: (sign ++ cs))

/-- Whether a text is a number without its sign. -/
inductive IsMagnitude : List Char → Prop
  | parts {whole fraction exponent : List Char} (hw : IsWhole whole) (hf : IsFraction fraction)
      (he : IsExponent exponent) : IsMagnitude (whole ++ (fraction ++ exponent))

/-- Whether a text is a number. -/
inductive IsNumber : List Char → Prop
  | positive {cs : List Char} (h : IsMagnitude cs) : IsNumber cs
  | negative {cs : List Char} (h : IsMagnitude cs) : IsNumber ('-' :: cs)

/-- Whether a text is the inside of a string. -/
inductive IsBody : List Char → Prop
  | nil : IsBody []
  | char {c : Char} {cs : List Char} (quote : c ≠ '"') (backslash : c ≠ '\\')
      (control : ¬ c.toNat < 0x20) (h : IsBody cs) : IsBody (c :: cs)
  | short {c : Char} {cs : List Char} (hc : (shortEscape? c).isSome = true) (h : IsBody cs) :
      IsBody ('\\' :: c :: cs)
  | unit {a b c d : Char} {cs : List Char} (hex : (Text.number? 16 [a, b, c, d]).isSome = true)
      (h : IsBody cs) : IsBody ('\\' :: 'u' :: a :: b :: c :: d :: cs)

/-! ### Values -/

/-- A JSON value as it is spelled, blanks apart. -/
inductive Syntax where
  | null
  | bool (value : Bool)
  | number (spelling : List Char)
  /-- A string by what stands between its quotes. -/
  | text (body : List Char)
  | list (items : List Syntax)
  | object (members : List (List Char × Syntax))

/-- Whether a text separates an item or a member from what is before it: a comma, unless it is the
first one, and blanks. -/
inductive Separates : Bool → List Char → Prop
  | first {bs : List Char} (h : Blanks bs) : Separates true bs
  | comma {bs cs : List Char} (h : Blanks bs) (h' : Blanks cs) : Separates false (bs ++ ',' :: cs)

mutual

/-- Whether a text spells a value. -/
def Syntax.Spells : Syntax → List Char → Prop
  | .null, cs => cs = ['n', 'u', 'l', 'l']
  | .bool true, cs => cs = ['t', 'r', 'u', 'e']
  | .bool false, cs => cs = ['f', 'a', 'l', 's', 'e']
  | .number spelling, cs => cs = spelling ∧ IsNumber spelling
  | .text body, cs => cs = '"' :: (body ++ ['"']) ∧ IsBody body
  | .list items, cs => ∃ inside, cs = '[' :: (inside ++ [']']) ∧ SpellsItems true items inside
  | .object members, cs =>
    ∃ inside, cs = '\x7b' :: (inside ++ ['\x7d']) ∧ SpellsMembers true members inside

/-- Whether a text spells items up to the end of their list; the flag says whether they are the
first ones. -/
def SpellsItems : Bool → List Syntax → List Char → Prop
  | _, [], inside => Blanks inside
  | first, t :: ts, inside => ∃ sep cs more, inside = sep ++ (cs ++ more) ∧ Separates first sep ∧
      t.Spells cs ∧ SpellsItems false ts more

/-- Whether a text spells members up to the end of their object. -/
def SpellsMembers : Bool → List (List Char × Syntax) → List Char → Prop
  | _, [], inside => Blanks inside
  | first, (key, t) :: ms, inside => ∃ sep bs bs' cs more,
      inside = sep ++ ('"' :: (key ++ '"' :: (bs ++ ':' :: (bs' ++ (cs ++ more))))) ∧
      Separates first sep ∧ IsBody key ∧ Blanks bs ∧ Blanks bs' ∧ t.Spells cs ∧
      SpellsMembers false ms more

end

/-- Whether a whole text spells a value, blanks around it or not. -/
def Syntax.Document (t : Syntax) (text : String) : Prop :=
  ∃ before cs after, text.toList = before ++ (cs ++ after) ∧ Blanks before ∧ t.Spells cs ∧
    Blanks after

end ApiSurface.Json
