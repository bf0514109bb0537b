import UnusedImports.Text.Bytes

namespace UnusedImports

/-- Version, commit and date of a build. -/
structure Version where
  version : Bytes
  commit : Bytes
  date : Bytes

namespace Version

def unknown : Version := ⟨utf8 "dev", utf8 "none", utf8 "unknown"⟩

/-- Takes over a setting of the build's record if it is not known yet. -/
def takeSetting (v : Version) (setting : Bytes × Bytes) : Version :=
  if setting.1 == utf8 "vcs.revision" && v.commit == unknown.commit then
    { v with commit := setting.2 }
  else if setting.1 == utf8 "vcs.time" && v.date == unknown.date then { v with date := setting.2 }
  else v

/-- Takes over what the build's record tells and is not known yet. -/
def complete (v : Version) (main : Bytes) (settings : List (Bytes × Bytes)) : Version :=
  let named := v.version == unknown.version && !main.isEmpty && main != utf8 "(devel)"
  settings.foldl takeSetting (if named then { v with version := main } else v)

def render (v : Version) : Bytes :=
  v.version ++ utf8 " (commit: " ++ v.commit ++ utf8 ", built: " ++ v.date ++ utf8 ")"

end Version

end UnusedImports
