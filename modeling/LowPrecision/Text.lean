namespace LowPrecision.Text

def bracketed (items : List String) : String :=
  "[" ++ ", ".intercalate items ++ "]"

def dimensions (shape : List Nat) : String := bracketed (shape.map Nat.repr)

def flag (b : Bool) : String := if b then "true" else "false"

end LowPrecision.Text
