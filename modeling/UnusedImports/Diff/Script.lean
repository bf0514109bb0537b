import UnusedImports.Text.Bytes

/-! Edit scripts over lines. The search sets common ends aside, looks for one list inside the other,
then for a common run of half the longer list, last for a middle point of a shortest path. -/

namespace UnusedImports.Diff

/-- What a script does with a run of lines. -/
inductive Operation where
  | equal
  | delete
  | insert
  deriving DecidableEq, Repr

abbrev Step := Operation × List Bytes

/-- The length of the longest common beginning. -/
def commonLength : List Bytes → List Bytes → Nat → Nat
  | a :: as, b :: bs, n => if a == b then commonLength as bs (n + 1) else n
  | _, _, n => n

/-- The offset of the first occurrence of one list in another. -/
def findRun? (part : List Bytes) : List Bytes → Nat → Option Nat
  | [], n => if part.isEmpty then some n else none
  | a :: as, n => if part.isPrefixOf (a :: as) then some n else findRun? part as (n + 1)

/-! ### Tidying -/

/-- Appends kept lines to the steps done, which come in reverse. -/
def keep (lines : List Bytes) (done : List Step) : List Step :=
  match done with
  | (.equal, before) :: rest => (.equal, before ++ lines) :: rest
  | _ => (.equal, lines) :: done

/-- Closes a run of edits before kept lines: deletions and insertions are gathered, deletions first,
and lines at the beginning or the end of both join the kept lines around them. A run of one edit
stays as it is. -/
def closeRun (run : List Step) (lines : List Bytes) (done : List Step) : List Step :=
  match run with
  | [] => keep lines done
  | [edit] => (.equal, lines) :: edit :: done
  | _ =>
    let gather (op : Operation) : List Bytes :=
      (run.reverse.filter fun s => s.1 == op).flatMap (·.2)
    let has (op : Operation) : Bool := run.any fun s => s.1 == op
    let deleted := gather .delete
    let inserted := gather .insert
    if has .delete && has .insert then
      let front := commonLength inserted deleted 0
      let done := if front == 0 then done else keep (inserted.take front) done
      let deleted := deleted.drop front
      let inserted := inserted.drop front
      let back := commonLength inserted.reverse deleted.reverse 0
      let lines := inserted.drop (inserted.length - back) ++ lines
      (.equal, lines) :: (.insert, inserted.take (inserted.length - back)) ::
        (.delete, deleted.take (deleted.length - back)) :: done
    else if has .insert then (.equal, lines) :: (.insert, inserted) :: done
    else (.equal, lines) :: (.delete, deleted) :: done

/-- Gathers runs of edits between kept lines, given the open run and the steps done, both in
reverse. -/
def mergeRuns : List Step → List Step → List Step → List Step
  | [], run, done =>
    match closeRun run [] done with
    | (.equal, []) :: done => done.reverse
    | done => done.reverse
  | (.equal, lines) :: steps, run, done => mergeRuns steps [] (closeRun run lines done)
  | (.delete, lines) :: steps, run, done => mergeRuns steps ((.delete, lines) :: run) done
  | (.insert, lines) :: steps, run, done => mergeRuns steps ((.insert, lines) :: run) done

/-- Shifts single edits between kept lines over them where that makes the kept lines on one side
vanish, and tells whether any was shifted. The steps done come in reverse. -/
def shiftEdits : List Step → List Step → Bool → List Step × Bool
  | (.equal, before) :: (op, lines) :: (.equal, after) :: rest, done, shifted =>
    if before.isSuffixOf lines then
      shiftEdits ((.equal, before ++ after) :: rest)
        ((op, before ++ lines.take (lines.length - before.length)) :: done) true
    else if after.isPrefixOf lines then
      shiftEdits ((op, lines.drop after.length ++ after) :: rest)
        ((.equal, before ++ after) :: done) true
    else shiftEdits ((op, lines) :: (.equal, after) :: rest) ((.equal, before) :: done) shifted
  | s :: rest, done, shifted => shiftEdits rest (s :: done) shifted
  | [], done, shifted => (done.reverse, shifted)
termination_by steps => steps.length

/-- Gathers and shifts edits until nothing moves, at most the given number of times. -/
def tidyFor : Nat → List Step → List Step
  | 0, steps => steps
  | n + 1, steps =>
    let (steps, shifted) := shiftEdits (mergeRuns steps [] []) [] false
    if shifted then tidyFor n steps else steps

/-- Gathers and shifts edits until nothing moves. Each round of shifts joins kept lines or lowers
the number of edited ones, so that there are fewer rounds than steps and lines. -/
def tidy (steps : List Step) : List Step :=
  tidyFor (steps.length + 2 * steps.foldl (fun n s => n + s.2.length) 0 + 1) steps

/-! ### Half matches -/

/-- A common run of two lists with what stands before and after it in each. -/
structure Match where
  longBefore : List Bytes
  longAfter : List Bytes
  shortBefore : List Bytes
  shortAfter : List Bytes
  common : List Bytes

/-- The longest common run around a seed of a quarter of the longer list, among the occurrences of
the seed in the rest of the shorter list; the first of equally long ones. The arguments are the
longer list's part before the seed and its part from the seed on, the seed, and the shorter list's
part before the search in reverse and its part from there. -/
def extendSeed (long longSeed seed : List Bytes) :
    List Bytes → List Bytes → Option Match → Option Match
  | _, [], best => best
  | shortRev, b :: short, best =>
    let best :=
      if seed.isPrefixOf (b :: short) then
        let after := commonLength longSeed (b :: short) 0
        let before := commonLength long.reverse shortRev 0
        if (best.map (·.common.length)).getD 0 < before + after then
          some ⟨long.take (long.length - before), longSeed.drop after,
            (shortRev.drop before).reverse, (b :: short).drop after,
            (shortRev.take before).reverse ++ (b :: short).take after⟩
        else best
      else best
    extendSeed long longSeed seed (b :: shortRev) short best

/-- The common run around the seed at an offset of the longer list, if it is at least half as long
as that list. -/
def seedMatch? (long short : List Bytes) (offset : Nat) : Option Match :=
  let seed := (long.drop offset).take (long.length / 4)
  match extendSeed (long.take offset) (long.drop offset) seed [] short none with
  | some m => if 2 * m.common.length < long.length then none else some m
  | none => none

/-- A common run of at least half the longer list, searched from its second and its third quarter;
the second search wins a tie. -/
def halfMatch? (long short : List Bytes) : Option Match :=
  if long.length < 4 || short.length * 2 < long.length then none
  else
    match seedMatch? long short ((long.length + 3) / 4),
      seedMatch? long short ((long.length + 1) / 2) with
    | some m, some m' => if m'.common.length < m.common.length then some m else some m'
    | some m, none => some m
    | none, m' => m'

/-! ### Middle points -/

/-- How far the paths from one corner of the edit graph reach: for each diagonal, by its index, the
furthest old line, and how many diagonals at each end have left the graph. -/
structure Reach where
  /-- The furthest old line on each diagonal, minus one if it was not reached. -/
  furthest : Array Int
  lowCut : Int
  highCut : Int

/-- The entry of a diagonal, minus one outside. -/
def Reach.at (r : Reach) (i : Int) : Int :=
  if i < 0 then -1 else r.furthest.getD i.toNat (-1)

/-- Follows equal lines from a point of the edit graph. -/
def slide (old new : Array Bytes) (x y : Nat) : Nat :=
  if h : x < old.size ∧ y < new.size then
    if old[x] == new[y] then slide old new (x + 1) (y + 1) else x
  else x
termination_by old.size - x

/-- Walks one step on every second diagonal from `k` on, with the number of edits `d`. A point at
which the path meets the opposite one ends the walk; `meets` finds it, given the diagonal and the
line reached there. The first argument bounds the number of diagonals. -/
def walk (old new : Array Bytes) (middle d : Int) (meets : Int → Int → Option (Nat × Nat)) :
    Nat → Int → Reach → Reach × Option (Nat × Nat)
  | 0, _, r => (r, none)
  | n + 1, k, r =>
    if d - r.highCut < k then (r, none)
    else
      let i := middle + k
      let x := if k == -d || (k != d && r.at (i - 1) < r.at (i + 1)) then r.at (i + 1)
        else r.at (i - 1) + 1
      let y := x - k
      let x := if x < 0 || y < 0 then x else Int.ofNat (slide old new x.toNat y.toNat)
      let y := x - k
      let r := { r with furthest := r.furthest.setIfInBounds i.toNat x }
      if old.size < x then
        walk old new middle d meets n (k + 2) { r with highCut := r.highCut + 2 }
      else if new.size < y then
        walk old new middle d meets n (k + 2) { r with lowCut := r.lowCut + 2 }
      else match meets k x with
        | some p => (r, some p)
        | none => walk old new middle d meets n (k + 2) r

/-- Searches for the point where a path from the front meets one from the back, with more and more
edits on each side. The first argument counts the rounds left. -/
def meet (old new : Array Bytes) (middle : Int) : Nat → Int → Reach → Reach → Option (Nat × Nat)
  | 0, _, _, _ => none
  | n + 1, d, front, back =>
    let size : Int := old.size
    let delta : Int := old.size - new.size
    let odd := delta % 2 != 0
    let meetsBack (k x : Int) : Option (Nat × Nat) :=
      let x' := back.at (middle + delta - k)
      if odd && x' != -1 && size - x' ≤ x then some (x.toNat, (x - k).toNat) else none
    match walk old new middle d meetsBack (d.toNat + 1) (-d + front.lowCut) front with
    | (_, some p) => some p
    | (front, none) =>
      let meetsFront (k x : Int) : Option (Nat × Nat) :=
        let i := middle + delta - k
        let x' := front.at i
        if !odd && x' != -1 && size - x ≤ x' then some (x'.toNat, (middle + x' - i).toNat)
        else none
      match walk old.reverse new.reverse middle d meetsFront (d.toNat + 1) (-d + back.lowCut) back
        with
      | (_, some p) => some p
      | (back, none) => meet old new middle n (d + 1) front back

/-- A point on a shortest path through the edit graph of two lists, about half way. -/
def middlePoint? (old new : List Bytes) : Option (Nat × Nat) :=
  let rounds := (old.length + new.length + 1) / 2
  let fresh : Reach :=
    ⟨(Array.replicate (2 * rounds) (-1 : Int)).setIfInBounds (rounds + 1) 0, 0, 0⟩
  meet old.toArray new.toArray rounds rounds 0 fresh fresh

/-! ### The search -/

mutual

/-- A script between two lists. The first argument bounds the depth of splits. -/
def compareFor (fuel : Nat) (old new : List Bytes) : List Step :=
  if old == new then (if old.isEmpty then [] else [(.equal, old)])
  else
    let front := commonLength old new 0
    let old' := old.drop front
    let new' := new.drop front
    let back := commonLength old'.reverse new'.reverse 0
    let middle := compareMiddleFor fuel (old'.take (old'.length - back))
      (new'.take (new'.length - back))
    let first : List Step := if front == 0 then [] else [(.equal, old.take front)]
    let last : List Step := if back == 0 then [] else [(.equal, old'.drop (old'.length - back))]
    tidy (first ++ middle ++ last)
termination_by (fuel, 1)

/-- A script between two lists that neither begin nor end alike. -/
def compareMiddleFor (fuel : Nat) (old new : List Bytes) : List Step :=
  if old.isEmpty then [(.insert, new)]
  else if new.isEmpty then [(.delete, old)]
  else
    let shrinks := new.length < old.length
    let long := if shrinks then old else new
    let short := if shrinks then new else old
    match findRun? short long 0 with
    | some i =>
      let op : Operation := if shrinks then .delete else .insert
      [(op, long.take i), (.equal, short), (op, long.drop (i + short.length))]
    | none =>
      if short.length == 1 then [(.delete, old), (.insert, new)]
      else match fuel with
        | 0 => [(.delete, old), (.insert, new)]
        | fuel + 1 =>
          match halfMatch? long short with
          | some m =>
            let (oldBefore, oldAfter, newBefore, newAfter) :=
              if shrinks then (m.longBefore, m.longAfter, m.shortBefore, m.shortAfter)
              else (m.shortBefore, m.shortAfter, m.longBefore, m.longAfter)
            compareFor fuel oldBefore newBefore ++ [(.equal, m.common)] ++
              compareFor fuel oldAfter newAfter
          | none =>
            match middlePoint? old new with
            | some (x, y) =>
              compareFor fuel (old.take x) (new.take y) ++ compareFor fuel (old.drop x) (new.drop y)
            | none => [(.delete, old), (.insert, new)]
termination_by (fuel, 0)

end

/-- A script that turns one list of lines into another. Every split leaves fewer lines on each
side, so that the number of lines bounds the depth. -/
def compare (old new : List Bytes) : List Step :=
  tidy (compareFor (old.length + new.length) old new)

end UnusedImports.Diff
