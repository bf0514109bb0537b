import UnusedImports.Project.Scan

/-! One task scans one file. Tasks are handed out in the order of the files, never more at a time
than a limit; they start and finish in any order. -/

namespace UnusedImports

/-- Where the task of a file stands. -/
inductive Phase where
  | waiting
  | ready
  | running
  | done
  /-- It has ended because the work was called off before it started. -/
  | refused
  deriving DecidableEq, Repr

namespace Phase

def isActive : Phase → Bool
  | ready | running => true
  | _ => false

def isOver : Phase → Bool
  | done | refused => true
  | _ => false

end Phase

/-- The tasks of a scan and what they have written. -/
structure Pool where
  phases : List Phase
  slots : List (Option FileScan)
  canceled : Bool

namespace Pool

/-- How many tasks may be under way: as many as workers are wanted or, if none are, as there are
processors; no more than there are files, and at least one. -/
def limit (workers : Int) (processors files : Nat) : Nat :=
  max (min (if workers ≤ 0 then processors else workers.toNat) files) 1

/-- A pool of which no task is handed out. -/
def start (files : Nat) : Pool :=
  ⟨List.replicate files .waiting, List.replicate files none, false⟩

def active (p : Pool) : Nat := p.phases.countP Phase.isActive

/-- Something that happens to a pool. -/
inductive Event where
  | handOut
  | start (i : Nat)
  | finish (i : Nat)
  | cancel
  deriving DecidableEq, Repr

/-- The pool after an event, if the event can happen, given what each task finds. -/
def step? (scan : Nat → Option FileScan) (limit : Nat) (p : Pool) : Event → Option Pool
  | .handOut =>
    if p.active < limit then
      (p.phases.idxOf? .waiting).map fun i => { p with phases := p.phases.set i .ready }
    else none
  | .start i =>
    if p.phases[i]? = some .ready then
      some { p with phases := p.phases.set i (if p.canceled then .refused else .running) }
    else none
  | .finish i =>
    if p.phases[i]? = some .running then
      some { p with phases := p.phases.set i .done, slots := p.slots.set i (scan i) }
    else none
  | .cancel => some { p with canceled := true }

/-- The pool after events, if they can happen one after another. -/
def run? (scan : Nat → Option FileScan) (limit : Nat) (p : Pool) (events : List Event) :
    Option Pool :=
  events.foldlM (step? scan limit) p

def isFinished (p : Pool) : Bool := p.phases.all Phase.isOver

/-- What the scan returns once all tasks have ended: nothing if one of them was refused. -/
def result? (p : Pool) : Option ProjectScan :=
  if p.phases.contains .refused then none else some (.ofSlots p.slots)

def tasks (tree : Tree) (s : ScanSettings) (paths : List Bytes) (i : Nat) : Option FileScan :=
  paths[i]?.bind (s.scanPath? tree)

/-- The pool that scans files, after events. -/
def scan? (tree : Tree) (s : ScanSettings) (workers : Int) (processors : Nat) (paths : List Bytes)
    (events : List Event) : Option Pool :=
  run? (tasks tree s paths) (limit workers processors paths.length) (start paths.length) events

end Pool

end UnusedImports
