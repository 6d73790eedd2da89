import ScriptExport.Text.Quoted

/-!
# Traversal events

What an analysis reports while it walks a unit, and the text of one event in an event log. A trace is
the sequence of these events and of the types that were rendered, in the order in which they happened.
-/

namespace ScriptExport

/-- Something that happened while a unit was analyzed. -/
inductive Event where
  | unitStarted (file : String)
  | visited (kind name : String)
  | skipped (name reason : String)
  | emitted (kind qualifiedName : String)
  | inherited (owner base member : String)
  | diagnosed (kind message : String)
  | unitFinished (file : String) (records diagnostics : Nat)
deriving DecidableEq, Repr

/-- The event on one line. Messages of diagnostics are quoted, since they hold names from the source. -/
def Event.text : Event → String
  | unitStarted file => "UNIT_START file=" ++ file
  | visited kind name => "VISIT kind=" ++ kind ++ " name=" ++ name
  | skipped name reason => "SKIP name=" ++ name ++ " reason=" ++ reason
  | emitted kind qualifiedName => "EMIT kind=" ++ kind ++ " qualified_name=" ++ qualifiedName
  | inherited owner base member => "INHERIT owner=" ++ owner ++ " base=" ++ base ++ " member=" ++ member
  | diagnosed kind message => "DIAGNOSTIC kind=" ++ kind ++ " message=" ++ Text.quoted message
  | unitFinished file records diagnostics =>
    "UNIT_END file=" ++ file ++ " records=" ++ toString records ++ " diagnostics=" ++
      toString diagnostics

/-- One step of a trace. -/
inductive TraceStep where
  | event (e : Event)
  /-- A type was rendered with this canonical text. -/
  | typeSeen (text : String)
deriving DecidableEq, Repr

/-- The event of a step that is one. -/
def TraceStep.event? : TraceStep → Option Event
  | event e => some e
  | typeSeen _ => none

end ScriptExport
