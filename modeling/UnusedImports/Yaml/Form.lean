import UnusedImports.Text.Bytes

/-! A document is a tree of texts, lists and maps. Nothing is said yet about what a text stands for.
-/

namespace UnusedImports.Yaml

inductive Form where
  /-- A text, with its type if that is given, written plainly or otherwise. -/
  | scalar (tag : Option Bytes) (plain : Bool) (text : Bytes)
  | sequence (items : List Form)
  | mapping (entries : List (Form × Form))
  /-- A reference by name. There is no target if the reference is a part of what it refers to. -/
  | alias (name : Bytes) (target : Option Form)

namespace Form

/-- What stands where nothing is written. -/
def empty : Form := .scalar none true []

def isMapping : Form → Bool
  | .mapping _ => true
  | _ => false

/-- Tests whether two names of entries are written alike. Lists are, and so are maps. -/
def isLike : Form → Form → Bool
  | .scalar _ _ a, .scalar _ _ b => a == b
  | .sequence _, .sequence _ => true
  | .mapping _, .mapping _ => true
  | .alias a _, .alias b _ => a == b
  | _, _ => false

def hasDuplicate : List Form → Bool
  | [] => false
  | k :: ks => ks.any k.isLike || hasDuplicate ks

/-- Tests for the name of an entry that stands for the entries of its value. -/
def isMerge : Form → Bool
  | .scalar tag plain text =>
    text == utf8 "<<" && ((tag.isNone && plain) || tag == some (utf8 "!!merge"))
  | _ => false

end Form

end UnusedImports.Yaml
