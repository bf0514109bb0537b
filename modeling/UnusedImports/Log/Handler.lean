import UnusedImports.Json.Printer
import UnusedImports.Log.Level
import UnusedImports.Text.Quoted

/-! A record becomes one line, as text or as JSON, if its level is high enough. -/

namespace UnusedImports.Log

/-- How log lines are written. -/
structure Handler where
  level : Level
  json : Bool
  /-- Name of the service; an empty one stands for the usual name. -/
  service : Bytes
  mode : Bytes
  trace : Option (Bytes × Bytes)

def defaultService : Bytes := utf8 "importsweep"

/-- Where a record is written: values that go with every record, and the group of its own values,
of which an empty name is none. -/
structure Scope where
  attributes : List Attribute
  group : Bytes

/-- No values and no group. -/
def Scope.none : Scope := ⟨[], []⟩

def needsQuotes (c : Nat) : Bool :=
  if c < 0x80 then c ≤ 0x20 || c == 0x22 || c == 0x3d
  else c == CodePoint.replacement || CodePoint.isBlank c || !Quoted.isPrintable c

/-- A text in a line of text: between quotes if it is empty or holds something that needs them. -/
def plainText (s : Bytes) : Bytes :=
  if s.isEmpty || (Utf8.codePoints s).any needsQuotes then Quoted.quote s else s

/-- A text in a line of JSON. Of the controls only those that end lines or words have short
escapes. -/
def jsonText (s : Bytes) : Bytes :=
  let body := (Utf8.units s).flatMap fun u =>
    if (u.1 == CodePoint.replacement && u.2.length == 1) || u.1 == 0x08 || u.1 == 0x0c then
      Json.unicodeEscape u.1
    else Json.quotePoint false u.1
  [Bytes.doubleQuote] ++ body ++ [Bytes.doubleQuote]

def Value.plain : Value → Bytes
  | .text s => plainText s
  | .int n => Bytes.ofInt n
  | .duration d => plainText d.render

def Value.json : Value → Bytes
  | .text s => jsonText s
  | .int n => Bytes.ofInt n
  | .duration d => Bytes.ofInt d.nanoseconds

namespace Handler

/-- The values that every line starts with, after level and message. -/
def leading (h : Handler) : List Attribute :=
  attr "service" (.text (if h.service.isEmpty then defaultService else h.service)) ::
    (if h.mode.isEmpty then [] else [attr "mode" (.text h.mode)])

def trailing (h : Handler) : List Attribute :=
  match h.trace with
  | some (trace, span) => [attr "trace_id" (.text trace), attr "span_id" (.text span)]
  | none => []

def plainLine (h : Handler) (s : Scope) (r : Record) : Bytes :=
  let pair (place : Bytes) (a : Attribute) : Bytes :=
    plainText (place ++ a.1) ++ utf8 "=" ++ a.2.plain
  let place := if s.group.isEmpty then [] else s.group ++ utf8 "."
  Bytes.join (utf8 " ")
    ([utf8 "level=" ++ plainText r.level.render, utf8 "msg=" ++ plainText r.message] ++
      (h.leading ++ s.attributes).map (pair []) ++ (r.attributes ++ h.trailing).map (pair place))

/-- A line of JSON. A group without values is left out. -/
def jsonLine (h : Handler) (s : Scope) (r : Record) : Bytes :=
  let pair (a : Attribute) : Bytes := jsonText a.1 ++ utf8 ":" ++ a.2.json
  let own := Bytes.join (utf8 ",") ((r.attributes ++ h.trailing).map pair)
  let group :=
    if own.isEmpty then []
    else if s.group.isEmpty then [own]
    else [jsonText s.group ++ utf8 ":\x7b" ++ own ++ utf8 "\x7d"]
  utf8 "\x7b" ++ Bytes.join (utf8 ",")
    ([utf8 "\"level\":" ++ jsonText r.level.render, utf8 "\"msg\":" ++ jsonText r.message] ++
      (h.leading ++ s.attributes).map pair ++ group) ++ utf8 "\x7d"

/-- The line of a record, if its level is high enough. -/
def line? (h : Handler) (s : Scope) (r : Record) : Option Bytes :=
  if r.level.value < h.level.value then none
  else some (if h.json then h.jsonLine s r else h.plainLine s r)

def lines (h : Handler) (rs : List Record) : List Bytes := rs.filterMap (h.line? .none)

end Handler

end UnusedImports.Log
