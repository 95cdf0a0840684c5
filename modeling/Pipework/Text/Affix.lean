import Pipework.Text.Blank

/-! What a text starts and ends with. -/

namespace Pipework.Text

def startsWith (s lead : String) : Bool := lead.toList.isPrefixOf s.toList

/-- What is left of a text when its end is taken off. -/
def dropEnd? (s tail : String) : Option String :=
  let cs := s.toList
  let n := cs.length - tail.toList.length
  if cs.drop n = tail.toList then some (String.ofList (cs.take n)) else none

def withoutTrailingBlanks (s : String) : String := String.ofList (trimEnd s.toList)

def withoutOuterBlanks (s : String) : String := String.ofList (trim s.toList)

theorem dropEnd?_eq_some {s tail lead : String} (h : dropEnd? s tail = some lead) :
    s = lead ++ tail := by
  simp only [dropEnd?] at h
  split at h
  · rename_i ht
    obtain rfl := Option.some.inj h
    apply String.toList_injective
    rw [String.toList_append, String.toList_ofList]
    conv => rhs; arg 2; rw [← ht]
    exact (List.take_append_drop _ _).symm
  · contradiction

theorem dropEnd?_append (lead tail : String) : dropEnd? (lead ++ tail) tail = some lead := by
  simp [dropEnd?]

end Pipework.Text
