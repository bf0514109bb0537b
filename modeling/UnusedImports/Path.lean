import UnusedImports.Text.Bytes

/-! Paths are texts whose elements are separated by slashes. All operations are lexical. -/

namespace UnusedImports.Path

def isAbsolute (p : Bytes) : Bool := p.head? == some Bytes.slash

/-- One step of cleaning: the elements kept so far in reverse and the next element. Empty elements
and `.` vanish; `..` takes the element before it along, unless there is none, which at the file
system's root leaves nothing and elsewhere leaves the `..`. -/
def cleanStep (absolute : Bool) (kept : List Bytes) (element : Bytes) : List Bytes :=
  if element.isEmpty || element == utf8 "." then kept
  else if element == utf8 ".." then
    match kept with
    | [] => if absolute then [] else [element]
    | last :: rest => if last == utf8 ".." then element :: kept else rest
  else element :: kept

/-- The elements of the shortest path with the same meaning. -/
def cleanElements (p : Bytes) : List Bytes :=
  ((p.splitOn Bytes.slash).foldl (cleanStep (isAbsolute p)) []).reverse

/-- The absolute path with the given elements. -/
def rooted (elements : List Bytes) : Bytes := Bytes.slash :: Bytes.join (utf8 "/") elements

/-- The shortest path with the same meaning; `.` if nothing is left. -/
def clean (p : Bytes) : Bytes :=
  if isAbsolute p then rooted (cleanElements p)
  else
    let body := Bytes.join (utf8 "/") (cleanElements p)
    if body.isEmpty then utf8 "." else body

/-- One path below another, cleaned. Empty paths do not count. -/
def join (p q : Bytes) : Bytes :=
  if p.isEmpty then (if q.isEmpty then [] else clean q)
  else clean (p ++ utf8 "/" ++ q)

def absolute (directory path : Bytes) : Bytes :=
  if isAbsolute path then clean path else join directory path

/-- Two lists without their longest common beginning. -/
def dropCommon : List Bytes → List Bytes → List Bytes × List Bytes
  | a :: as, b :: bs => if a == b then dropCommon as bs else (a :: as, b :: bs)
  | as, bs => (as, bs)

/-- The elements of a cleaned path; an absolute path starts with an empty one. -/
def elements (p : Bytes) : List Bytes :=
  if p == utf8 "/" then [[]] else p.splitOn Bytes.slash

/-- The path that leads from a base to a target. There is none between an absolute and a relative
path, nor if it would have to leave a `..` of the base. -/
def relative? (base target : Bytes) : Option Bytes :=
  let base := clean base
  let target := clean target
  if base == target then some (utf8 ".")
  else if isAbsolute base != isAbsolute target then none
  else
    let baseElements := if base == utf8 "." then [] else elements base
    match dropCommon baseElements (elements target) with
    | ([], down) => some (Bytes.join (utf8 "/") down)
    | (up, []) => some (Bytes.join (utf8 "/") (up.map fun _ => utf8 ".."))
    | (b :: up, down) =>
      if b == utf8 ".." then none
      else some (Bytes.join (utf8 "/") ((b :: up).map (fun _ => utf8 "..") ++ down))

/-- Tests whether a relative path leads out of the directory it is taken from. -/
def isOutward (rel : Bytes) : Bool := rel == utf8 ".." || (utf8 "../").isPrefixOf rel

/-- The path of a file as it is reported: relative to the root if it lies there, else absolute;
always cleaned. A relative path is taken from the root. An empty root reports every path as it
is. -/
def report (root path : Bytes) : Bytes :=
  if root.isEmpty then clean path
  else
    let path := if isAbsolute path then path else join root path
    match relative? root path with
    | some rel => if isOutward rel then clean path else rel
    | none => clean path

/-- The last element of a path, with what stands before it. -/
def splitName (p : Bytes) : Bytes × Bytes :=
  let name := (p.reverse.takeWhile (· != Bytes.slash)).reverse
  (p.take (p.length - name.length), name)

/-- The extension of the last element: its text from the last dot on. -/
def extension (p : Bytes) : Bytes :=
  let name := (splitName p).2
  let after := (name.reverse.takeWhile (· != '.'.toUInt8)).reverse
  if after.length < name.length then '.'.toUInt8 :: after else []

end UnusedImports.Path
