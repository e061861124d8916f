/-!
# Named values in order

`Pairs` is a list of names with values that keeps the order in which the names came. Setting a
name that is there changes its value in place; a new name comes last.
-/

namespace TreeCode

/-- Names with their values, in the order the names came. -/
abbrev Pairs := List (String × String)

namespace Pairs

def get? (pairs : Pairs) (name : String) : Option String := List.lookup name pairs

def set (name value : String) : Pairs → Pairs
  | [] => [(name, value)]
  | (n, v) :: rest => if n = name then (n, value) :: rest else (n, v) :: set name value rest

def erase (pairs : Pairs) (name : String) : Pairs := pairs.filter fun (n, _) => n ≠ name

end Pairs

end TreeCode
