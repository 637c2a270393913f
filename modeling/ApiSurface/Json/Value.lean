/-
JSON values of any kind.
-/
import ApiSurface.Json.Number
import ApiSurface.Json.Text
import ApiSurface.Wire.Content

namespace ApiSurface.Json.Reader

/-- Reads any value, nested at most to the given depth. -/
def value : Nat → Reader Content
  | 0 => failAhead .nestedTooDeep
  | depth + 1 => do
    match ← peekToken? with
    | none => failAhead .endInValue
    | some c =>
      if c = 'n' then
        skip
        word ['u', 'l', 'l']
        return .null
      else if c = 't' then
        skip
        word ['r', 'u', 'e']
        return .bool true
      else if c = 'f' then
        skip
        word ['a', 'l', 's', 'e']
        return .bool false
      else if c = '-' then
        skip
        return .number (← number true)
      else if c.isDigit then return .number (← number false)
      else if c = '"' then return .text (← string)
      else if depth = 0 ∧ (c = '[' ∨ c = '{') then failAhead .nestedTooDeep
      else if c = '[' then
        skip
        return .list (← closing (do items (value depth) (← rest) true) endList)
      else if c = '{' then
        skip
        return .map (← closing (do
          let entries ← members (fun entries key => do
            colon
            return (.text key, ← value depth) :: entries) (← rest) true []
          return entries.reverse) endObject)
      else failAhead .expectedValue

end ApiSurface.Json.Reader
