/-! # A cache in order of use

Entries are kept with the one that was used longest ago first. Using an entry moves it to the end, and so
does putting one in.
-/

namespace PineEngine

structure Cache (α : Type) where
  entries : List (String × α) := []

namespace Cache

variable {α : Type}

def size (c : Cache α) : Nat :=
  c.entries.length

def names (c : Cache α) : List String :=
  c.entries.map (·.1)

def get? (c : Cache α) (name : String) : Option α :=
  c.entries.lookup name

def erase (c : Cache α) (name : String) : Cache α :=
  ⟨c.entries.filter (·.1 != name)⟩

def put (c : Cache α) (name : String) (a : α) : Cache α :=
  ⟨(c.erase name).entries ++ [(name, a)]⟩

end Cache

end PineEngine
