import Whittle.Command.Actions
import Whittle.Disk

/-!
# Sessions

A command carried out on a disk in memory, from the words of the command line to the status that it
ends with.
-/

namespace Whittle

/-- What the user sees of a command. -/
structure Session where
  /-- The disk afterwards. -/
  disk : Disk
  /-- What was printed. -/
  printed : String
  /-- How it ended. -/
  ending : Except Error Unit

namespace Session

/-- Carries out one action.  One that fails leaves the disk as it is. -/
def perform (s : Session) : Action → Session
  | .print text => { s with printed := s.printed ++ text }
  | .write path contents =>
    match s.disk.save path contents with
    | .ok disk => { s with disk }
    | .error fault => { s with ending := .error (.unreadable path fault.text) }

/-- Carries out actions until one fails. -/
def performAll (s : Session) : List Action → Session
  | [] => s
  | action :: actions =>
    let s := s.perform action
    match s.ending with
    | .ok () => s.performAll actions
    | .error _ => s

end Session

/-- Carries out a command on a disk.  Nothing happens if the words make no sense or the entry is no
file. -/
def Disk.run (d : Disk) (words : List String) : Option Session := do
  let c ← Command.ofWords? words
  let _ ← d.file? c.entry
  match c.plan d.resolver with
  | .ok actions => return Session.performAll ⟨d, "", .ok ()⟩ actions
  | .error e => return ⟨d, "", .error e⟩

end Whittle
