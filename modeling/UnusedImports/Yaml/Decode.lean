import UnusedImports.Number.Wrap
import UnusedImports.Yaml.Base64
import UnusedImports.Yaml.Form
import UnusedImports.Yaml.Value

/-! Texts are taken for what they stand for, references are followed, and maps take over the entries
of the maps that they refer to. -/

namespace UnusedImports.Yaml

/-! ## Scalars -/

/-- The value of a text under a given type. The types of numbers, truth values, dates and of nothing
want a text that stands for such a value, and a whole number with a sign is also a decimal. Under a
type that is not known a text stands for itself. -/
def Value.ofTagged? (tag s : Bytes) : Option Value :=
  let v := ofPlain s
  if tag == utf8 "!!binary" then (Base64.decode? s).map .text
  else if tag == utf8 "!!null" then if v.isNull then some v else none
  else if tag == utf8 "!!bool" then
    match v with
    | .bool _ => some v
    | _ => none
  else if tag == utf8 "!!int" then
    match v with
    | .int _ => some v
    | _ => none
  else if tag == utf8 "!!float" then
    match v with
    | .int n => if n ≤ Integer.greatest then some (.decimal n 0) else none
    | .decimal _ _ | .special _ => some v
    | _ => none
  else if tag == utf8 "!!timestamp" then
    match v with
    | .timestamp => some v
    | _ => none
  else some (.text s)

def Value.ofScalar? (tag : Option Bytes) (plain : Bool) (text : Bytes) : Option Value :=
  match tag with
  | some t => ofTagged? t text
  | none => some (if plain then .ofPlain text else .text text)

/-! ## Names -/

namespace Form

def isTextual : Form → Bool
  | .scalar none plain text => !plain || resolve text == .text
  | .scalar (some t) _ _ => t == utf8 "!!str" || t == utf8 "!!merge"
  | .alias _ (some target) => target.isTextual
  | _ => false

/-- The text of a scalar, also through a reference. -/
def text? : Form → Option Bytes
  | .scalar _ _ text => some text
  | .alias _ (some target) => target.text?
  | _ => none

/-- The name of an entry, written in a form with a value: a text is a name itself, other scalars are
as they are written. -/
def name? (key : Form) : Value → Option Bytes
  | .text t => some t
  | .list _ | .map _ => none
  | _ => key.text?

end Form

/-! ## References -/

/-- How much has been decoded. -/
structure Tally where
  decoded : Nat
  referred : Nat
  depth : Nat

/-- Tests whether too much comes from references: more than 99 of 100 in a small document, falling
to more than one of ten in a large one. -/
def Tally.isExcessive (t : Tally) : Bool :=
  100 < t.referred && 1000 < t.decoded &&
    if t.decoded ≤ 400000 then 99 * t.decoded < 100 * t.referred
    else if 4000000 ≤ t.decoded then t.decoded < 10 * t.referred
    else t.decoded * (99 * 3600000 - 89 * (t.decoded - 400000)) < 360000000 * t.referred

/-- A computation that counts what it decodes and may fail. -/
abbrev Decoding := StateT Tally Option

def visit : Decoding Unit := fun t =>
  let t := { t with decoded := t.decoded + 1,
                    referred := t.referred + if t.depth = 0 then 0 else 1 }
  if t.isExcessive then none else some ((), t)

def referring {α : Type} (d : Decoding α) : Decoding α := fun t =>
  (d { t with depth := t.depth + 1 }).map fun (a, u) => (a, { u with depth := t.depth })

/-! ## Maps -/

/-- The entries of a map so far. -/
structure Gathered where
  /-- The names that other maps do not contribute any more, once they are asked. -/
  taken : Option (List Bytes)
  entries : List (Bytes × Value)

namespace Gathered

/-- Tests whether an entry of a name comes too late. -/
def isTaken (g : Gathered) (name : Bytes) : Bool := g.taken.any (·.contains name)

def insert (g : Gathered) (name : Bytes) (v : Value) : Gathered :=
  { taken := g.taken.map (name :: ·)
    entries :=
      if g.entries.any (·.1 == name) then
        g.entries.map fun e => if e.1 == name then (name, v) else e
      else g.entries ++ [(name, v)] }

end Gathered

mutual

/-- The value of a form. In the outermost map, and in one of which all names are texts, an entry
whose name is nothing is left out. -/
def value (outermost : Bool) : Form → Decoding Value
  | .scalar tag plain text => do
    visit
    StateT.lift (Value.ofScalar? tag plain text)
  | .sequence items => do
    visit
    return .list (← values items)
  | .mapping entries => do
    visit
    guard !(Form.hasDuplicate (entries.map (·.1)))
    let textual := outermost || entries.all (·.1.isTextual)
    let g ← own textual entries ⟨none, []⟩
    if entries.any (·.1.isMerge) then
      let g ← merged textual entries { g with taken := some (← names entries) }
      return .map g.entries
    else return .map g.entries
  | .alias _ (some target) => do
    visit
    referring (value outermost target)
  | .alias _ none => failure

def values : List Form → Decoding (List Value)
  | [] => pure []
  | form :: forms => do
    let v ← value false form
    return v :: (← values forms)

def names : List (Form × Form) → Decoding (List Bytes)
  | [] => pure []
  | (key, _) :: rest => do
    let v ← value false key
    return (key.name? v).toList ++ (← names rest)

def own (textual : Bool) : List (Form × Form) → Gathered → Decoding Gathered
  | [], g => pure g
  | (key, form) :: rest, g =>
    if key.isMerge then own textual rest g
    else do
      let v ← value false key
      let name ← StateT.lift (key.name? v)
      if (textual && v.isNull) || g.isTaken name then own textual rest g
      else own textual rest (g.insert name (← value false form))

def merged (textual : Bool) : List (Form × Form) → Gathered → Decoding Gathered
  | [], g => pure g
  | (key, form) :: rest, g =>
    if key.isMerge then merge textual true form g else merged textual rest g

/-- Gathers the entries of a map to be taken over, or of several in a list. -/
def merge (textual listed : Bool) : Form → Gathered → Decoding Gathered
  | .mapping entries, g => do
    visit
    guard !(Form.hasDuplicate (entries.map (·.1)))
    merged textual entries (← own textual entries g)
  | .alias _ (some target), g => do
    guard target.isMapping
    visit
    referring (merge textual false target g)
  | .sequence items, g => if listed then mergeAll textual items g else failure
  | _, _ => failure

/-- Gathers the entries of maps to be taken over, the first ones first. -/
def mergeAll (textual : Bool) : List Form → Gathered → Decoding Gathered
  | [], g => pure g
  | form :: forms, g => do
    mergeAll textual forms (← merge textual false form g)

end

/-- The entries of a document; an empty one has none. -/
def Form.entries? (f : Form) : Option (List (Bytes × Value)) :=
  match value true f ⟨1, 0, 0⟩ with
  | some (.map es, _) => some es
  | some (.null, _) => some []
  | _ => none

end UnusedImports.Yaml
