import TextLisp.Table
import TextLisp.Value.Basic

namespace TextLisp

/-- Everything an evaluation can change. Frames are the tables that calls create. They are never
removed, so a place among them names a table for good. -/
structure Store (β : Type := String) where
  globals : Table (Value β)
  frames : Array (Table (Value β))
  /-- The identity of the next closure. -/
  nextClosure : Nat

/-- Where a binding lives: in one frame, or among the globals. -/
inductive Owner where
  | frame (index : Nat)
  | globals
  deriving DecidableEq, Repr

namespace Store

variable {β : Type}

def ofGlobals (globals : Table (Value β)) : Store β :=
  ⟨globals, #[], 0⟩

/-- The frame at a place. A place beyond the store holds no bindings. -/
def frame (s : Store β) (index : Nat) : Table (Value β) :=
  s.frames.getD index Table.empty

def addFrame (s : Store β) (table : Table (Value β)) : Store β :=
  { s with frames := s.frames.push table }

def assign (s : Store β) (owner : Owner) (name : String) (value : Value β) :
    Except Error (Store β) :=
  match owner with
  | .frame index => .ok { s with frames := s.frames.modify index (·.insert name value) }
  | .globals => (s.globals.set name value).map fun globals => { s with globals }

def define (s : Store β) (name : String) (value : Value β) : Except Error (Store β) :=
  (s.globals.define name value).map fun globals => { s with globals }

@[simp, grind =]
theorem frame_addFrame (s : Store β) (table : Table (Value β)) (index : Nat) :
    (s.addFrame table).frame index = if index = s.frames.size then table else s.frame index := by
  simp only [frame, addFrame, Array.getD_eq_getD_getElem?, Array.getElem?_push]
  split <;> rfl

end Store

end TextLisp
