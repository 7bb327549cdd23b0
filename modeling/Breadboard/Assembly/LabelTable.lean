/-! Tables of labels. Every name has at most one entry, and the entries stand in the order in which
they were last bound. -/

set_option autoImplicit false

namespace Breadboard

structure LabelTable where
  entries : List (String × UInt8)
  deriving Repr, DecidableEq

namespace LabelTable

def empty : LabelTable := ⟨[]⟩

def find? (t : LabelTable) (name : String) : Option UInt8 :=
  (t.entries.find? fun e => e.1 = name).map Prod.snd

/-- Binds a name, in place of any older binding. -/
def insert (t : LabelTable) (name : String) (address : UInt8) : LabelTable :=
  ⟨t.entries.filter (fun e => e.1 ≠ name) ++ [(name, address)]⟩

def size (t : LabelTable) : Nat := t.entries.length

@[simp] theorem find?_empty (name : String) : empty.find? name = none := rfl

theorem find?_insert (t : LabelTable) (name other : String) (address : UInt8) :
    (t.insert name address).find? other = if other = name then some address else t.find? other := by
  obtain ⟨entries⟩ := t
  simp only [find?, insert]
  induction entries with
  | nil => by_cases h : name = other <;> simp [h, eq_comm]
  | cons e rest ih =>
    obtain ⟨n, a⟩ := e
    by_cases hn : n = name <;> by_cases ho : n = other <;> grind

end LabelTable

end Breadboard
