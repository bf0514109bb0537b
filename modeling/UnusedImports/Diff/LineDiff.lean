import UnusedImports.Diff.Script
import UnusedImports.Text.Color
import UnusedImports.Text.Lines

namespace UnusedImports.Diff

/-- A line without the carriage returns and line feeds at its end. -/
def bare (line : Bytes) : Bytes :=
  (line.reverse.dropWhile fun b => b == Bytes.newline || b == Bytes.carriageReturn).reverse

/-- The lines of a text without their ends. -/
def bareLines (s : Bytes) : List Bytes := (Lines.splitAfter s).map bare

/-- What a diff consists of below its head: hunks in order. -/
structure Hunk where
  oldLine : Nat
  newLine : Nat
  changes : List (Operation × Bytes)

abbrev Piece := Operation × Bytes

/-- The hunks of a script, given the present line numbers and the open hunk, whose changes come in
reverse. -/
def hunks : List Piece → Nat → Nat → Option Hunk → List Hunk
  | [], _, _, pending => close pending
  | (.equal, text) :: script, o, n, pending =>
    let lines := bareLines text
    close pending ++ hunks script (o + lines.length) (n + lines.length) none
  | (.delete, text) :: script, o, n, pending =>
    let lines := bareLines text
    hunks script (o + lines.length) n (add pending o n .delete lines)
  | (.insert, text) :: script, o, n, pending =>
    let lines := bareLines text
    hunks script o (n + lines.length) (add pending o n .insert lines)
where
  /-- The finished hunk, if one is open. -/
  close (pending : Option Hunk) : List Hunk :=
    pending.toList.map fun h => { h with changes := h.changes.reverse }
  /-- The open hunk with more changes. -/
  add (pending : Option Hunk) (o n : Nat) (op : Operation) (lines : List Bytes) : Option Hunk :=
    let h := pending.getD ⟨o, n, []⟩
    some { h with changes := (lines.map fun l => (op, l)).reverse ++ h.changes }

def Hunk.render (h : Hunk) : Bytes :=
  utf8 "@@ -" ++ Bytes.ofNat h.oldLine ++ utf8 " +" ++ Bytes.ofNat h.newLine ++ utf8 " @@\n" ++
    h.changes.flatMap fun c =>
      (if c.1 = .delete then utf8 "-" else utf8 "+") ++ c.2 ++ utf8 "\n"

/-- The diff of two texts of the given name by the script that a search finds; empty if they are the
same. -/
def lineDiffBy (search : Bytes → Bytes → List Piece) (name before after : Bytes) : Bytes :=
  if before == after then []
  else
    utf8 "--- a/" ++ name ++ utf8 "\n+++ b/" ++ name ++ utf8 "\n" ++
      (hunks (search before after) 1 1 none).flatMap Hunk.render

/-- A script between two texts, with the texts of its runs of lines. -/
def pieces (before after : Bytes) : List Piece :=
  (compare (Lines.splitAfter before) (Lines.splitAfter after)).map fun s => (s.1, s.2.flatten)

/-- The diff of two texts of the given name; empty if they are the same. -/
def lineDiff : Bytes → Bytes → Bytes → Bytes := lineDiffBy pieces

/-- A line of a diff in its color: hunk heads, deletions and insertions have one each. -/
def paintLine (colors : Bool) (line : Bytes) : Bytes :=
  let starts (s : String) : Bool := (utf8 s).isPrefixOf line
  if starts "---" || starts "+++" then line
  else if starts "@@" then Style.cyan.paint colors line
  else if starts "-" then Style.red.paint colors line
  else if starts "+" then Style.green.paint colors line
  else line

/-- Diffs for the terminal, under a title; nothing if there are none. -/
def render (colors : Bool) (diffs : List Bytes) : Bytes :=
  if diffs.isEmpty then []
  else utf8 "Suggested import cleanup\n\n" ++ diffs.flatMap fun d =>
    ((bareLines d).flatMap fun l => paintLine colors l ++ utf8 "\n") ++ utf8 "\n"

end UnusedImports.Diff
