import UnusedImports.Yaml.Decode
import UnusedImports.Yaml.Scanner

/-! Builds the first document of a text from its tokens. -/

namespace UnusedImports.Yaml

/-- What is left to read, and what can be referred to. -/
structure Reader where
  tokens : List Token
  handles : List (Bytes × Bytes)
  /-- The named forms, last first; one that is still being read is not there yet. -/
  anchors : List (Bytes × Option Form)

namespace Reader

def peek (r : Reader) : Token := r.tokens.head?.getD .invalid

def skip (r : Reader) : Reader := { r with tokens := r.tokens.tail }

/-! ## Properties -/

/-- The name and the type in front of a value. -/
structure Properties where
  anchor : Option Bytes
  tag : Option Bytes

def Properties.isSome (p : Properties) : Bool := p.anchor.isSome || p.tag.isSome

/-- The whole name of a type, unless its abbreviation is not known. -/
def tag? (r : Reader) (handle suffix : Bytes) : Option Bytes :=
  if handle.isEmpty then some suffix else (r.handles.lookup handle).map (· ++ suffix)

/-- Reads the properties of a value, in either order. -/
def properties? (r : Reader) : Option (Properties × Reader) :=
  match r.tokens with
  | .anchor a :: .tag h t :: rest =>
    (r.tag? h t).map fun t => (⟨some a, some t⟩, { r with tokens := rest })
  | .tag h t :: .anchor a :: rest =>
    (r.tag? h t).map fun t => (⟨some a, some t⟩, { r with tokens := rest })
  | .anchor a :: rest => some (⟨some a, none⟩, { r with tokens := rest })
  | .tag h t :: rest => (r.tag? h t).map fun t => (⟨none, some t⟩, { r with tokens := rest })
  | _ => some (⟨none, none⟩, r)

/-- The reader that has met a name whose form is not there yet. -/
def announce (r : Reader) (p : Properties) : Reader :=
  match p.anchor with
  | some a => { r with anchors := (a, none) :: r.anchors }
  | none => r

/-- The reader that knows a form by its name, unless the name has been given to a part of it. -/
def remember (r : Reader) (p : Properties) (f : Form) : Reader :=
  match p.anchor with
  | some a =>
    match r.anchors.lookup a with
    | some none => { r with anchors := (a, some f) :: r.anchors }
    | _ => r
  | none => r

def scalar (p : Properties) (text : Bytes) (plain : Bool) (r : Reader) : Form × Reader :=
  let form := .scalar (p.tag.bind Tag.shorten?) plain text
  (form, (r.announce p).remember p form)

/-! ## Forms -/

mutual

/-- Reads a form. Indented lists and maps are allowed if `block` is set, and a list that stands as
far left as its map if `indentless` is. -/
def form? (fuel : Nat) (block indentless : Bool) (r : Reader) : Option (Form × Reader) :=
  match fuel with
  | 0 => none
  | fuel + 1 =>
    match r.peek with
    | .alias name => (r.anchors.lookup name).map fun target => (.alias name target, r.skip)
    | _ =>
      match r.properties? with
      | none => none
      | some (p, r) =>
        let known (f : Option (Form × Reader)) : Option (Form × Reader) :=
          f.map fun (f, r) => (f, r.remember p f)
        let inner := (r.skip).announce p
        let otherwise := if p.isSome then some (scalar p [] true r) else none
        match r.peek with
        | .scalar text plain => some (scalar p text plain r.skip)
        | .flowSequenceStart => known (flowItems? fuel true inner [])
        | .flowMappingStart => known (flowEntries? fuel true inner [])
        | .blockSequenceStart => if block then known (blockItems? fuel inner []) else otherwise
        | .blockMappingStart => if block then known (blockEntries? fuel inner []) else otherwise
        | .blockEntry =>
          if indentless then known (indentlessItems? fuel (r.announce p) []) else otherwise
        | _ => otherwise

/-- Reads a form that may be left out before some tokens. -/
def optional? (fuel : Nat) (block : Bool) (stops : List Token) (r : Reader) :
    Option (Form × Reader) :=
  match fuel with
  | 0 => none
  | fuel + 1 => if stops.contains r.peek then some (.empty, r) else form? fuel block block r

def blockItems? (fuel : Nat) (r : Reader) (items : List Form) : Option (Form × Reader) :=
  match fuel with
  | 0 => none
  | fuel + 1 =>
    match r.peek with
    | .blockEntry =>
      match item? fuel [.blockEntry, .blockEnd] r.skip with
      | some (f, r) => blockItems? fuel r (f :: items)
      | none => none
    | .blockEnd => some (.sequence items.reverse, r.skip)
    | _ => none

def indentlessItems? (fuel : Nat) (r : Reader) (items : List Form) : Option (Form × Reader) :=
  match fuel with
  | 0 => none
  | fuel + 1 =>
    match r.peek with
    | .blockEntry =>
      match item? fuel [.blockEntry, .key, .value, .blockEnd] r.skip with
      | some (f, r) => indentlessItems? fuel r (f :: items)
      | none => none
    | _ => some (.sequence items.reverse, r)

/-- Reads an item of an indented list, which may be left out before some tokens. -/
def item? (fuel : Nat) (stops : List Token) (r : Reader) : Option (Form × Reader) :=
  match fuel with
  | 0 => none
  | fuel + 1 => if stops.contains r.peek then some (.empty, r) else form? fuel true false r

/-- Reads what follows a name if a value does. -/
def value? (fuel : Nat) (block : Bool) (stops : List Token) (r : Reader) :
    Option (Form × Reader) :=
  match fuel with
  | 0 => none
  | fuel + 1 => if r.peek = .value then optional? fuel block stops r.skip else some (.empty, r)

def blockEntries? (fuel : Nat) (r : Reader) (entries : List (Form × Form)) :
    Option (Form × Reader) :=
  match fuel with
  | 0 => none
  | fuel + 1 =>
    match r.peek with
    | .key =>
      let stops : List Token := [.key, .value, .blockEnd]
      match optional? fuel true stops r.skip with
      | none => none
      | some (k, r) =>
        match value? fuel true stops r with
        | some (v, r) => blockEntries? fuel r ((k, v) :: entries)
        | none => none
    | .blockEnd => some (.mapping entries.reverse, r.skip)
    | _ => none

/-- Reads the items of a list in brackets. An item may be a single entry of a map; if its name is
left out, the token in its place is lost. -/
def flowItems? (fuel : Nat) (first : Bool) (r : Reader) (items : List Form) :
    Option (Form × Reader) :=
  match fuel with
  | 0 => none
  | fuel + 1 =>
    if r.peek = .flowSequenceEnd then some (.sequence items.reverse, r.skip)
    else if !first && r.peek ≠ .flowEntry then none
    else
      let r := if first then r else r.skip
      match r.peek with
      | .flowSequenceEnd => some (.sequence items.reverse, r.skip)
      | .key =>
        let r := r.skip
        let stops : List Token := [.flowEntry, .flowSequenceEnd]
        match (if (Token.value :: stops).contains r.peek then some (.empty, r.skip)
          else form? fuel false false r) with
        | none => none
        | some (k, r) =>
          match value? fuel false stops r with
          | some (v, r) => flowItems? fuel false r (.mapping [(k, v)] :: items)
          | none => none
      | _ =>
        match form? fuel false false r with
        | some (f, r) => flowItems? fuel false r (f :: items)
        | none => none

def flowEntries? (fuel : Nat) (first : Bool) (r : Reader) (entries : List (Form × Form)) :
    Option (Form × Reader) :=
  match fuel with
  | 0 => none
  | fuel + 1 =>
    if r.peek = .flowMappingEnd then some (.mapping entries.reverse, r.skip)
    else if !first && r.peek ≠ .flowEntry then none
    else
      let r := if first then r else r.skip
      match r.peek with
      | .flowMappingEnd => some (.mapping entries.reverse, r.skip)
      | .key =>
        let stops : List Token := [.flowEntry, .flowMappingEnd]
        match optional? fuel false (.value :: stops) r.skip with
        | none => none
        | some (k, r) =>
          match value? fuel false stops r with
          | some (v, r) => flowEntries? fuel false r ((k, v) :: entries)
          | none => none
      | _ =>
        match form? fuel false false r with
        | some (k, r) => flowEntries? fuel false r ((k, .empty) :: entries)
        | none => none

end

/-! ## Documents -/

/-- Reads the instructions in front of a document: the version, once and the one that is known, and
abbreviations, each for another handle. -/
def directives? : Bool → List (Bytes × Bytes) → List Token →
    Option (List (Bytes × Bytes) × List Token)
  | versioned, handles, .version major minor :: rest =>
    if versioned || major != 1 || minor != 1 then none else directives? true handles rest
  | versioned, handles, .abbreviation handle long :: rest =>
    if handles.any (·.1 == handle) then none
    else directives? versioned ((handle, long) :: handles) rest
  | _, handles, rest => some (handles ++ Tag.usualHandles, rest)

/-- Reads the content of a document, up to a token that can be read. -/
def content? (handles : List (Bytes × Bytes)) (tokens : List Token) : Option Form :=
  match form? (4 * tokens.length + 4) true false ⟨tokens, handles, []⟩ with
  | some (f, r) => if r.peek = .invalid then none else some f
  | none => none

/-- Reads the first document. Only one that is announced can be empty, apart from a text without
any. -/
def document? (tokens : List Token) : Option Form :=
  match directives? false [] tokens with
  | none => none
  | some (handles, .documentStart :: rest) =>
    if rest.head?.any Token.isOutside then some .empty else content? handles rest
  | some (handles, rest) =>
    if rest.length < tokens.length then none
    else if rest.head? = some .streamEnd then some .empty
    else content? handles rest

end Reader

/-- The entries of the first document of a text; a text without any has none. -/
def entries? (s : Bytes) : Option (List (Bytes × Value)) :=
  (Reader.document? (tokens s)).bind Form.entries?

end UnusedImports.Yaml
