/-!
# Options of an analysis
-/

namespace StageScript

structure Options where
  /-- The routines that the host starts, whether or not the script calls them. -/
  entryRoutines : List String
  /-- Whether variables that are never read are reported. -/
  reportUnused : Bool
  deriving DecidableEq, Inhabited

namespace Options

/-- The routines that the host looks for in every script. -/
def defaultEntryRoutines : List String :=
  ["Initialize", "MainLoop", "Finalize", "Event", "Loading"]

/-- The options of an analysis that asks for nothing else. -/
def standard : Options := ⟨defaultEntryRoutines, false⟩

end Options

end StageScript
