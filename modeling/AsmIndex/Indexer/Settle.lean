import AsmIndex.Indexer

/-!
Running an indexer until nothing can move. A walk may register each file that exists under each
set of names that it can come to know; it knows the names that are active at the imports it has in
hand or may take over, and those that lines define. Between two files that it registers, it
follows imports and goes back towards the entry file. This bounds the steps that it has before it.
-/

namespace AsmIndex

/-- The sum of a number over a list. -/
def total {α : Type} (f : α → Nat) (l : List α) : Nat := l.foldr (fun a n => f a + n) 0

/-- The number of lines of a text. -/
def lineCount (text : String) : Nat := (Text.lines text.toList).length

/-- The number of references and of the names that are active at them. -/
def weightOf (references : List Reference) : Nat := total (fun r => r.active.size + 1) references

/-- The number of references of variants and of the names that are active at them. -/
def Index.weight (ix : Index) : Nat := total (fun v => weightOf v.references) ix.variants

namespace Walk

/-- The imports of open files that are left. -/
def pending (w : Walk) : List Reference :=
  (match w.stage with
    | .follow frame => frame.pending
    | .probe frame _ _ => frame.pending
    | _ => []) ++ w.stack.flatMap fun x => x.1.pending

/-- The symbols under which a walk comes to a file or looks for one. -/
def symbolsHere (w : Walk) : Symbols :=
  match w.stage with
  | .enter _ symbols => symbols
  | .stamp _ symbols => symbols
  | .read _ symbols _ => symbols
  | .probe _ r _ => r.active
  | _ => Symbols.empty

/-- How far a walk is from the end if no file is registered and no import is left: it looks at the
candidates of an import, at the file that it comes to, and at the files that lie on its way back. -/
def distance (w : Walk) : Nat :=
  match w.stage with
  | .enter _ _ => 2 * w.stack.length + 4
  | .stamp _ _ => 2 * w.stack.length + 3
  | .read _ _ _ => 2 * w.stack.length + 2
  | .follow _ => 2 * w.stack.length + 2
  | .probe _ _ candidates => 2 * w.stack.length + 7 + candidates.length
  | .leave _ => 2 * w.stack.length + 1
  | .ended _ => 0

/-- A bound on the steps that it takes to follow one import, up to the file that it leads to. -/
def importCost (plan : Plan) : Nat := plan.libraries.length + 7

/-- A bound on the names that a walk comes to know, and on the imports of a file that it registers,
where `texts` are those of the stored files. -/
def weight (plan : Plan) (texts : List String) (w : Walk) : Nat :=
  total lineCount (texts ++ plan.live.values.map LiveBuffer.content) + plan.previous.weight
    + weightOf w.pending + w.symbolsHere.size

/-- A bound on the steps of a walk, where `files` bounds the paths of stored files and `texts` are
their texts. -/
def budget (plan : Plan) (files : Nat) (texts : List String) (w : Walk) : Nat :=
  (files + 1) * Nat.pow 2 (w.weight plan texts) * (w.weight plan texts * importCost plan + 1)
    + w.pending.length * importCost plan + w.distance

end Walk

namespace Indexer

/-- A bound on the steps until the running pass is over or waits. After its walk, it publishes, does
the tasks that nothing holds back, and ends. -/
def budget (ix : Indexer) : Nat :=
  match ix.running with
  | some { plan, phase := .walking walk, .. } =>
    walk.budget plan ix.files.files.size (ix.files.files.values.map MemoryFile.content) + 3
  | _ => 2

/-- Steps until nothing can move or `fuel` steps are done. -/
def drive : Nat → Indexer → Indexer
  | 0, ix => ix
  | fuel + 1, ix =>
    match ix.advance? with
    | none => ix
    | some ix => drive fuel ix

/-- Steps with `count` bounds, each of which is taken when those of the one before are done. -/
def settleIn : Nat → Indexer → Indexer
  | 0, ix => ix
  | count + 1, ix => settleIn count (drive ix.budget ix)

/-- Steps until nothing can move. Each call that waits takes two bounds: one to get its turn, and
one to be over. -/
def settle (ix : Indexer) : Indexer := settleIn (2 * ix.queue.length + 2) ix

end Indexer

end AsmIndex
