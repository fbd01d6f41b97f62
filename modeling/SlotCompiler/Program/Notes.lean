import SlotCompiler.Diagnostic
import SlotCompiler.Log

/-!
Contract: what the passes over a program collect beside their results.

Owns: the faults found and the events noted, each in order.
-/

namespace SlotCompiler

/-- Faults and events so far. -/
structure Notes where
  faults : Array Diagnostic
  events : Array Event

instance : Inhabited Notes := ⟨⟨#[], #[]⟩⟩

/-- A step that collects faults and events and goes on. -/
abbrev Pass := StateM Notes

namespace Pass

def note (event : Event) : Pass Unit :=
  modify fun notes => { notes with events := notes.events.push event }

def fault (cause : Cause) (position : Position) : Pass Unit :=
  modify fun notes => { notes with faults := notes.faults.push ⟨cause, position⟩ }

end Pass

end SlotCompiler
