import UnusedImports.Text.Utf8

namespace UnusedImports.Bytes

/-- Tests whether a text holds nothing but white space. -/
def isBlank (s : Bytes) : Bool := (Utf8.codePoints s).all CodePoint.isBlank

/-- A text without the white space around it. -/
def trim (s : Bytes) : Bytes :=
  let blank (u : Nat × Bytes) : Bool := CodePoint.isBlank u.1
  let front := (Utf8.units s).dropWhile blank
  ((front.reverse.dropWhile blank).reverse).flatMap (·.2)

end UnusedImports.Bytes
