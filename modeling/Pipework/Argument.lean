/-! What the apps of streams and tasks have in common: labels and arguments. -/

namespace Pipework

structure Label where
  name : String
  start : Nat
  stop : Nat
  deriving DecidableEq, Repr

/-- One `--name=value`. -/
structure Argument where
  name : String
  value : String
  start : Nat
  stop : Nat
  deriving DecidableEq, Repr

namespace Label

def withoutPosition (l : Label) : Label := ⟨l.name, 0, 0⟩

end Label

namespace Argument

def withoutPosition (a : Argument) : Argument := ⟨a.name, a.value, 0, 0⟩

def value? (arguments : List Argument) (name : String) : Option String :=
  (arguments.find? fun a => a.name == name).map Argument.value

def properties (arguments : List Argument) : List (String × String) :=
  arguments.map fun a => (a.name, a.value)

/-- A name that is there already keeps its place and takes the new value. -/
def insert (arguments : List Argument) (new : Argument) : List Argument :=
  match arguments with
  | [] => [new]
  | a :: rest =>
    if a.name = new.name then { a with value := new.value, stop := new.stop } :: rest
    else a :: insert rest new

theorem names_insert (arguments : List Argument) (new : Argument) :
    (insert arguments new).map Argument.name =
      if new.name ∈ arguments.map Argument.name then arguments.map Argument.name
      else arguments.map Argument.name ++ [new.name] := by
  induction arguments with
  | nil => simp [insert]
  | cons a rest ih =>
    by_cases h : a.name = new.name
    · simp [insert, h]
    · have h' : ¬ new.name = a.name := fun e => h e.symm
      simp only [insert, h, if_false, List.map_cons, List.mem_cons, h', false_or, ih]
      split <;> simp

end Argument

end Pipework
