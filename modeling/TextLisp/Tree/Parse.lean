import TextLisp.Tree.Evaluator

namespace TextLisp

variable {α α' β γ : Type}

namespace Value

mutual

def mapProcedures (f : Procedure β → Procedure γ) : Value β → Value γ
  | number x => number x
  | symbol text => symbol text
  | list items => list (mapItems f items)
  | bool b => bool b
  | nil => nil
  | procedure p => procedure (f p)
  | aliasTo target => aliasTo target
  | unspecified => unspecified

def mapItems (f : Procedure β → Procedure γ) : List (Value β) → List (Value γ)
  | [] => []
  | v :: vs => mapProcedures f v :: mapItems f vs

end

end Value

def mapBindings (f : α → α') (entries : List (String × α)) : List (String × α') :=
  entries.map fun entry => (entry.1, f entry.2)

theorem bindingNames_mapBindings (f : α → α') (entries : List (String × α)) :
    bindingNames (mapBindings f entries) = bindingNames entries := by
  unfold bindingNames mapBindings
  rw [List.map_map]
  rfl

def Table.map (f : α → α') (t : Table α) : Table α' :=
  ⟨mapBindings f t.entries, by rw [bindingNames_mapBindings]; exact t.nodup⟩

def Store.mapProcedures (f : Procedure β → Procedure γ) (s : Store β) : Store γ :=
  ⟨s.globals.map (Value.mapProcedures f), s.frames.map (Table.map (Value.mapProcedures f)),
    s.nextClosure⟩

/-- Reads the parameters and the body of a closure. What cannot be read has no meaning. -/
def Code.read (params body : String) : Code :=
  match parameterNames params, Tree.read body with
  | .ok names, .ok tree => ⟨names, body, tree⟩
  | _, _ => ⟨[], body, .atom body⟩

def Procedure.parse : Procedure → Procedure Code
  | .primitive p => .primitive p
  | .closure c => .closure ⟨c.identity, c.params, Code.read c.params c.body, c.env⟩

def Procedure.unparse : Procedure Code → Procedure
  | .primitive p => .primitive p
  | .closure c => .closure ⟨c.identity, c.params, c.body.text, c.env⟩

def Value.parse (v : Value) : Value Code :=
  v.mapProcedures Procedure.parse

def Store.parse (s : Store) : Store Code :=
  s.mapProcedures Procedure.parse

def Host.parse (host : Host) : Host Code := fun name args =>
  (host name (args.map (Value.mapProcedures Procedure.unparse))).map Value.parse

end TextLisp
