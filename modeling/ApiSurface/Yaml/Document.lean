/-
Reading the first document of a YAML text from its tokens.
-/
import ApiSurface.Yaml.Event

namespace ApiSurface.Yaml

namespace EventReader

/-- The anchor, the tag and the start of a node. -/
structure Properties where
  anchor : Option String := none
  tag : Option String := none
  start : Mark

/-- Reads an anchor, if there is one. -/
def anchor? : EventReader (Option String) := do
  match (← peek).kind with
  | .anchor name =>
    skip
    return some name
  | _ => return none

/-- Reads a tag, if there is one: its handle, its suffix and its start. -/
def tag? : EventReader (Option (String × String × Mark)) := do
  let t ← peek
  match t.kind with
  | .tag handle suffix =>
    skip
    return some (handle, suffix, t.start)
  | _ => return none

/-- Puts in what the handle of a tag stands for. -/
def resolveTag (start : Mark) : Option (String × String × Mark) → EventReader (Option String)
  | none => pure none
  | some (handle, suffix, m) => do
    if handle.isEmpty then return some suffix
    else match (← get).handles.lookup handle with
      | some leading => return some (leading ++ suffix)
      | none => fail .unknownTagHandle m (some (.node, start))

/-- Reads an anchor and a tag in either order. -/
def properties : EventReader Properties := do
  let start := (← peek).start
  let before ← anchor?
  let tag ← tag?
  let anchor ← match before with
    | some name => pure (some name)
    | none => anchor?
  let _ ← peek
  return ⟨anchor, ← resolveTag start tag, start⟩

mutual

/-- Reads a node. In a block a sequence may stand at the indentation of the mapping around it. -/
def node : Nat → Bool → Bool → EventReader Unit
  | 0, _, _ => do fail .missingNode (← peek).start none
  | fuel + 1, inBlock, flush => do
    let first ← peek
    match first.kind with
    | .alias name =>
      skip
      emitAlias name first.start
    | _ =>
      let p ← properties
      let t ← peek
      match t.kind with
      | .scalar text style =>
        skip
        emitNode (.scalar text style p.tag) p.anchor p.start
      | .flowSequenceStart =>
        emitNode (.sequenceStart p.tag) p.anchor p.start
        skip
        flowItems fuel true t.start
      | .flowMappingStart =>
        emitNode (.mappingStart p.tag) p.anchor p.start
        skip
        flowMembers fuel true t.start
      | kind =>
        if flush && kind == .blockEntry then
          emitNode (.sequenceStart p.tag) p.anchor p.start
          flushItems fuel
        else if inBlock && kind == .blockSequenceStart then
          emitNode (.sequenceStart p.tag) p.anchor p.start
          skip
          blockItems fuel t.start
        else if inBlock && kind == .blockMappingStart then
          emitNode (.mappingStart p.tag) p.anchor p.start
          skip
          blockMembers fuel t.start
        else if p.anchor.isSome || p.tag.isSome then
          emitNode (.scalar "" .plain p.tag) p.anchor p.start
        else fail .missingNode t.start (some (if inBlock then .blockNode else .flowNode, p.start))

/-- Reads the items of a block sequence and its end. -/
def blockItems : Nat → Mark → EventReader Unit
  | 0, _ => do fail .missingNode (← peek).start none
  | fuel + 1, opened => do
    let t ← peek
    match t.kind with
    | .blockEntry =>
      skip
      if isOneOf (← peek) [.blockEntry, .blockEnd] then emitEmpty t.stop
      else node fuel true false
      blockItems fuel opened
    | .blockEnd =>
      skip
      emit .sequenceEnd t.start
    | _ => fail .missingEntry t.start (some (.blockCollection, opened))

/-- Reads the items of a sequence that ends where they end. -/
def flushItems : Nat → EventReader Unit
  | 0 => do fail .missingNode (← peek).start none
  | fuel + 1 => do
    let t ← peek
    match t.kind with
    | .blockEntry =>
      skip
      if isOneOf (← peek) [.blockEntry, .key, .value, .blockEnd] then emitEmpty t.stop
      else node fuel true false
      flushItems fuel
    | _ => emit .sequenceEnd t.start

/-- Reads the members of a block mapping and its end. -/
def blockMembers : Nat → Mark → EventReader Unit
  | 0, _ => do fail .missingNode (← peek).start none
  | fuel + 1, opened => do
    let t ← peek
    match t.kind with
    | .key =>
      skip
      if isOneOf (← peek) [.key, .value, .blockEnd] then emitEmpty t.stop
      else node fuel true true
      let v ← peek
      match v.kind with
      | .value =>
        skip
        if isOneOf (← peek) [.key, .value, .blockEnd] then emitEmpty v.stop
        else node fuel true true
      | _ => emitEmpty v.start
      blockMembers fuel opened
    | .blockEnd =>
      skip
      emit .mappingEnd t.start
    | _ => fail .missingKey t.start (some (.blockMapping, opened))

/-- Reads the items of a flow sequence and its end. -/
def flowItems : Nat → Bool → Mark → EventReader Unit
  | 0, _, _ => do fail .missingNode (← peek).start none
  | fuel + 1, first, opened => do
    let t ← peek
    if !first && t.kind != .flowSequenceEnd then
      if t.kind == .flowEntry then skip
      else fail .missingListCommaOrEnd t.start (some (.flowSequence, opened))
    let t ← peek
    match t.kind with
    | .flowSequenceEnd =>
      skip
      emit .sequenceEnd t.start
    | .key =>
      skip
      emit (.mappingStart none) t.start
      flowPair fuel
      flowItems fuel false opened
    | _ =>
      node fuel false false
      flowItems fuel false opened

/-- Reads a mapping of one member inside a flow sequence, after the indicator of its key. -/
def flowPair : Nat → EventReader Unit
  | 0 => do fail .missingNode (← peek).start none
  | fuel + 1 => do
    let t ← peek
    if isOneOf t [.value, .flowEntry, .flowSequenceEnd] then
      skip
      emitEmpty t.stop
    else node fuel false false
    if (← peek).kind == .value then
      skip
      let v ← peek
      if isOneOf v [.flowEntry, .flowSequenceEnd] then emitEmpty v.start
      else node fuel false false
    else emitEmpty (← peek).start
    emit .mappingEnd (← peek).start

/-- Reads the members of a flow mapping and its end. -/
def flowMembers : Nat → Bool → Mark → EventReader Unit
  | 0, _, _ => do fail .missingNode (← peek).start none
  | fuel + 1, first, opened => do
    let t ← peek
    if !first && t.kind != .flowMappingEnd then
      if t.kind == .flowEntry then skip
      else fail .missingMapCommaOrEnd t.start (some (.flowMapping, opened))
    let t ← peek
    match t.kind with
    | .flowMappingEnd =>
      skip
      emit .mappingEnd t.start
    | .key =>
      skip
      let k ← peek
      if isOneOf k [.value, .flowEntry, .flowMappingEnd] then emitEmpty k.start
      else node fuel false false
      if (← peek).kind == .value then
        skip
        let v ← peek
        if isOneOf v [.flowEntry, .flowMappingEnd] then emitEmpty v.start
        else node fuel false false
      else emitEmpty (← peek).start
      flowMembers fuel false opened
    | _ =>
      node fuel false false
      emitEmpty (← peek).start
      flowMembers fuel false opened

end

/-- What the two handles that need no directive stand for. -/
def defaultHandles : List (String × String) := [("!", "!"), ("!!", "tag:yaml.org,2002:")]

/-- Reads the directives before a document; `version` says whether one gave the version. -/
def directives : Nat → Bool → List (String × String) → EventReader Unit
  | 0, _, _ => pure ()
  | fuel + 1, version, handles => do
    let t ← peek
    match t.kind with
    | .versionDirective major minor =>
      if version then fail .repeatedVersion t.start none
      if major ≠ 1 ∨ minor ≠ 1 ∧ minor ≠ 2 then fail .otherVersion t.start none
      skip
      directives fuel true handles
    | .tagDirective handle leading =>
      if (handles.lookup handle).isSome then fail .repeatedTagHandle t.start none
      skip
      directives fuel version ((handle, leading) :: handles)
    | _ => modify fun s => { s with handles := handles ++ defaultHandles }

/-- Whether a token can only stand before or after a document's content. -/
def isBoundary (t : Token) : Bool :=
  match t.kind with
  | .versionDirective .. | .tagDirective .. | .documentStart | .streamEnd => true
  | _ => false

/-- Reads the first document with its end. -/
def document : EventReader Unit := do
  let fuel := 3 * (← get).tokens.length + 10
  skip
  let t ← peek
  if t.kind == .streamEnd then emit .void t.start
  else
    directives fuel false []
    if !isBoundary t then node fuel true false
    else
      let start ← peek
      if start.kind != .documentStart then fail .missingDocumentStart start.start none
      skip
      let content ← peek
      if isBoundary content || content.kind == .documentEnd then emitEmpty content.start
      else node fuel true false
    if (← peek).kind == .documentEnd then skip

end EventReader

namespace Document

/-- Whether tokens hold more than the end of the text. -/
def continues (tokens : List Token) : Bool :=
  match tokens.dropWhile fun t => t.kind == .documentEnd with
  | t :: _ => t.kind != .streamEnd
  | [] => true

/-- The first document of a text that was divided into tokens. -/
def ofTokens (ts : TokenStream) : Document :=
  let fault := ts.fault.getD ⟨.tokens, .endOfText, {}, none⟩
  match EventReader.document { tokens := ts.tokens, fault } with
  | .ok () s => ⟨s.events.reverse, s.anchors, none, continues s.tokens⟩
  | .error d s => ⟨s.events.reverse, s.anchors, some d, true⟩

/-- The first document of a text. -/
def ofText (text : String) : Document := ofTokens (TokenStream.ofText text.toList)

end Document

end ApiSurface.Yaml
