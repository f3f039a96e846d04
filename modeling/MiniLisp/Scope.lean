import MiniLisp.Fault

namespace MiniLisp

/-- Bindings of names, inside another scope unless it is an outermost one. -/
structure Scope where
  bindings : Entries String Value
  outer : Option ScopeId

/-- All scopes in order of creation. A scope is created after the scope around it, so every chain of scopes
is finite. -/
structure Scopes where
  all : Array Scope
  outer_older : ∀ (i : Nat) (s : Scope) (o : ScopeId), all[i]? = some s → s.outer = some o → o.index < i

namespace Scopes

def empty : Scopes :=
  ⟨#[], by simp⟩

def get? (scopes : Scopes) (id : ScopeId) : Option Scope :=
  scopes.all[id.index]?

theorem outer_lt {scopes : Scopes} {id o : ScopeId} {s : Scope} (h : scopes.get? id = some s)
    (ho : s.outer = some o) : o.index < id.index :=
  scopes.outer_older id.index s o h ho

/-- A new scope inside `outer`; it is outermost if there is no such scope. -/
def enter (scopes : Scopes) (outer : Option ScopeId) (bindings : Entries String Value) :
    Scopes × ScopeId :=
  let id : ScopeId := ⟨scopes.all.size⟩
  let known := outer.filter fun o => o.index < id.index
  (⟨scopes.all.push ⟨bindings, known⟩, by
    intro i s o hs ho
    rw [Array.getElem?_push] at hs
    split at hs
    · cases hs
      simp only [known, id, Option.filter_eq_some_iff, decide_eq_true_eq] at ho
      omega
    · exact scopes.outer_older i s o hs ho⟩,
   id)

/-- Binds the name in this scope, over any binding it has there. -/
def set (scopes : Scopes) (id : ScopeId) (name : String) (value : Value) : Scopes :=
  ⟨scopes.all.modify id.index fun s => { s with bindings := Entries.insert name value s.bindings },
   by
    intro i s o hs ho
    rw [Array.getElem?_modify] at hs
    split at hs
    · obtain ⟨s', h', rfl⟩ := Option.map_eq_some_iff.1 hs
      exact scopes.outer_older i s' o h' ho
    · exact scopes.outer_older i s o hs ho⟩

/-- The value of the name in the innermost scope that binds it. -/
def lookup (scopes : Scopes) (id : ScopeId) (name : String) : Option Value :=
  match h : scopes.get? id with
  | none => none
  | some s =>
    match Entries.find? name s.bindings with
    | some v => some v
    | none =>
      match ho : s.outer with
      | none => none
      | some o =>
        have := outer_lt h ho
        scopes.lookup o name
termination_by id.index

/-- The innermost scope that binds the name. -/
def find? (scopes : Scopes) (id : ScopeId) (name : String) : Option ScopeId :=
  match h : scopes.get? id with
  | none => none
  | some s =>
    if (Entries.find? name s.bindings).isSome then some id
    else
      match ho : s.outer with
      | none => none
      | some o =>
        have := outer_lt h ho
        scopes.find? o name
termination_by id.index

/-- The outermost scope around this one. -/
def root (scopes : Scopes) (id : ScopeId) : ScopeId :=
  match h : scopes.get? id with
  | none => id
  | some s =>
    match ho : s.outer with
    | none => id
    | some o =>
      have := outer_lt h ho
      scopes.root o
termination_by id.index

/-- All names that can be resolved here with their values, in ascending order. -/
def visible (scopes : Scopes) (id : ScopeId) : Entries String Value :=
  match h : scopes.get? id with
  | none => []
  | some s =>
    match ho : s.outer with
    | none => s.bindings
    | some o =>
      have := outer_lt h ho
      Entries.overlay (scopes.visible o) s.bindings
termination_by id.index

/-- The value of the name, which has to be bound. -/
def resolve (scopes : Scopes) (id : ScopeId) (name : String) : Except Fault Value :=
  match scopes.lookup id name with
  | some v => .ok v
  | none => (Cause.unbound name).raise

end Scopes

/-- The parameter in front of the one that takes all remaining arguments. -/
def restMark : String := "&"

/-- Binds parameters to arguments, from the left. A parameter without argument is `nil`, an argument
without parameter is dropped, and of equal parameters the last one wins. -/
def bindParams (bindings : Entries String Value) :
    List String → List Value → Entries String Value
  | [], _ => bindings
  | p :: ps, args =>
    if p = restMark then
      match ps with
      | [] => bindings
      | rest :: _ => Entries.insert rest (.ofList args) bindings
    else bindParams (Entries.insert p (args.headD .nil) bindings) ps args.tail

end MiniLisp
