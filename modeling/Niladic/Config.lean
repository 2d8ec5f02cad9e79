namespace Niladic

structure Config where
  name : String := "MainModule"
  entry : String := "run"
  result : String := "ret"
  depth : Nat := 100000
deriving DecidableEq, Repr

end Niladic
