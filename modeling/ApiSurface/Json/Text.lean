/-
Strings in JSON text.
-/
import ApiSurface.Json.Reader
import ApiSurface.Text.Digits

namespace ApiSurface.Json

/-- A failure inside a string: the fault, and the place. -/
structure TextFault where
  fault : Fault
  place : Place

/-- Reads four hexadecimal digits. -/
def hexUnit (cs : List Char) : Except TextFault (Nat × List Char) :=
  let bad : Except TextFault (Nat × List Char) :=
    if byteLength (cs.take 4) < 4 then .error ⟨.endInString, ⟨[], 0⟩⟩
    else .error ⟨.invalidEscape, ⟨cs, 4⟩⟩
  match cs with
  | a :: b :: c :: d :: rest =>
    match Text.number? 16 [a, b, c, d] with
    | some n => .ok (n, rest)
    | none => bad
  | _ => bad

/-- Reads the second half of a surrogate pair. -/
def pairWith (high : Nat) (cs : List Char) : Except TextFault (Char × List Char) :=
  match cs with
  | [] => .error ⟨.endInString, ⟨[], 0⟩⟩
  | c :: cs' =>
    if c ≠ '\\' then .error ⟨.brokenSurrogatePair, ⟨cs, 1⟩⟩
    else match cs' with
      | [] => .error ⟨.endInString, ⟨[], 0⟩⟩
      | d :: cs'' =>
        if d ≠ 'u' then .error ⟨.brokenSurrogatePair, ⟨cs', 1⟩⟩
        else do
          let (low, rest) ← hexUnit cs''
          if low < 0xdc00 ∨ 0xdfff < low then .error ⟨.loneSurrogate, ⟨rest, 0⟩⟩
          else return (Char.ofNat ((high - 0xd800) * 0x400 + (low - 0xdc00) + 0x10000), rest)

/-- Reads an escape after its backslash and the letter `u`. -/
def unicodeEscape (cs : List Char) : Except TextFault (Char × List Char) := do
  let (n, rest) ← hexUnit cs
  if 0xdc00 ≤ n ∧ n ≤ 0xdfff then .error ⟨.loneSurrogate, ⟨rest, 0⟩⟩
  else if n < 0xd800 ∨ 0xdbff < n then return (Char.ofNat n, rest)
  else pairWith n rest

/-- The character that a letter stands for after a backslash. -/
def shortEscape? (c : Char) : Option Char :=
  if c = '"' ∨ c = '\\' ∨ c = '/' then some c
  else if c = 'b' then some '\x08'
  else if c = 'f' then some '\x0c'
  else if c = 'n' then some '\n'
  else if c = 'r' then some '\r'
  else if c = 't' then some '\t'
  else none

/-- Reads an escape after its backslash. -/
def escape (cs : List Char) : Except TextFault (Char × List Char) :=
  match cs with
  | [] => .error ⟨.endInString, ⟨[], 0⟩⟩
  | c :: rest =>
    if c = 'u' then unicodeEscape rest
    else match shortEscape? c with
      | some d => .ok (d, rest)
      | none => .error ⟨.invalidEscape, ⟨cs, 1⟩⟩

/-- Reads a string after its first quote; `read` holds what was read, last character first. -/
def stringBody : List Char → List Char → List Char → Except TextFault (List Char × List Char)
  | [], _, _ => .error ⟨.endInString, ⟨[], 0⟩⟩
  | _ :: fuel, read, cs =>
    match cs with
    | [] => .error ⟨.endInString, ⟨[], 0⟩⟩
    | c :: rest =>
      if c = '"' then .ok (read.reverse, rest)
      else if c = '\\' then
        match escape rest with
        | .ok (d, rest') => stringBody fuel (d :: read) rest'
        | .error e => .error e
      else if c.toNat < 0x20 then .error ⟨.controlCharacter, ⟨cs, 1⟩⟩
      else stringBody fuel (c :: read) rest

/-- Steps over an escape after its backslash; surrogates are not paired up. -/
def skipEscape (cs : List Char) : Except TextFault (List Char) :=
  match cs with
  | [] => .error ⟨.endInString, ⟨[], 0⟩⟩
  | c :: rest =>
    if c = 'u' then (hexUnit rest).map (·.2)
    else if (shortEscape? c).isSome then .ok rest
    else .error ⟨.invalidEscape, ⟨cs, 1⟩⟩

/-- Steps over a string after its first quote. -/
def skipStringBody : List Char → List Char → Except TextFault (List Char)
  | [], _ => .error ⟨.endInString, ⟨[], 0⟩⟩
  | _ :: fuel, cs =>
    match cs with
    | [] => .error ⟨.endInString, ⟨[], 0⟩⟩
    | c :: rest =>
      if c = '"' then .ok rest
      else if c = '\\' then
        match skipEscape rest with
        | .ok rest' => skipStringBody fuel rest'
        | .error e => .error e
      else if c.toNat < 0x20 then .error ⟨.controlCharacter, ⟨cs, 0⟩⟩
      else skipStringBody fuel rest

namespace Reader

/-- Reads a string; its first quote is next. -/
def string : Reader String := fun s =>
  match stringBody s.rest [] s.rest.tail with
  | .ok (cs, rest) => .ok (String.ofList cs) { s with rest }
  | .error e => .error ⟨.fault e.fault, some e.place⟩ { s with rest := e.place.rest }

/-- Steps over a string; its first quote is next. -/
def skipString : Reader Unit := fun s =>
  match skipStringBody s.rest s.rest.tail with
  | .ok rest => .ok () { s with rest }
  | .error e => .error ⟨.fault e.fault, some e.place⟩ { s with rest := e.place.rest }

/-- Reads the members of an object up to its end; `step` reads the colon and the value, and `fuel`
is the text that was left at the start. -/
def members {σ : Type} (step : σ → String → Reader σ) : List Char → Bool → σ → Reader σ
  | [], _, _ => failAhead .endInObject
  | _ :: fuel, first, acc => do
    if ← anotherMember first then
      let key ← string
      members step fuel false (← step acc key)
    else return acc

end Reader

end ApiSurface.Json
