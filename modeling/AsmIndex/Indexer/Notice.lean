import AsmIndex.Index.Changes

/-!
Notices of new indexes. Each subscriber is told in turn; it may cancel the pass that tells it, and
it may attach tasks, which the pass waits for.
-/

namespace AsmIndex

/-- The life of the latest pass. -/
inductive PassState
  | idle
  | running
  | completed
  | cancelled
  | failed
deriving DecidableEq, Repr, Inhabited

/-- A published index, named by the pass that published it. -/
structure Snapshot where
  pass : Nat := 0
  index : Index := {}

/-- What a subscriber is told: the changes, the new index, whether the pass is cancelled by now,
whether the new index is the published one, and the state of the indexer. -/
structure Notice where
  changes : Changes
  snapshot : Snapshot
  cancelled : Bool
  published : Bool
  state : PassState

/-- Work attached to a notice. It may wait for a read of the file `hold`, and it may fail. -/
structure Task where
  owner : String
  hold : Option Path := none
  fails : Bool := false
deriving DecidableEq

/-- What a subscriber does when told. -/
structure Reaction where
  cancels : Bool := false
  tasks : List Task := []

/-- A subscriber: a name and its reaction to notices. -/
structure Subscriber where
  name : String
  react : Notice → Reaction

/-- What came of telling subscribers: what each was told, the tasks attached, and whether the pass
is cancelled now. -/
structure Told where
  notices : List (String × Notice) := []
  tasks : List Task := []
  cancelled : Bool

/-- Tell subscribers in order. Each sees whether one before it cancelled the pass. -/
def tell (notice : Notice) : List Subscriber → Told
  | [] => { cancelled := notice.cancelled }
  | s :: rest =>
    let reaction := s.react notice
    let told := tell { notice with cancelled := notice.cancelled || reaction.cancels } rest
    { told with
      notices := (s.name, notice) :: told.notices
      tasks := reaction.tasks ++ told.tasks }

end AsmIndex
