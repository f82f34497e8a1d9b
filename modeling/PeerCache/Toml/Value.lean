/-!
# Values of a settings file

What a settings file comes to. Decimals and moments can stand in a file, under keys that
nobody reads; no setting is made of them.
-/

namespace PeerCache.Toml

structure Date where
  year : Nat
  month : Nat
  day : Nat
  deriving DecidableEq, Repr

structure Time where
  hour : Nat
  minute : Nat
  second : Nat
  /-- The digits of a part of a second. -/
  part : List Char := []
  deriving DecidableEq, Repr

/-- A date, a time of the day, or both with or without the distance to universal time. -/
structure Moment where
  date : Option Date := none
  time : Option Time := none
  /-- Minutes ahead of universal time. -/
  offset : Option Int := none
  deriving DecidableEq, Repr

inductive Value where
  | text (content : String)
  | integer (n : Int)
  | decimal (spelling : String)
  | boolean (b : Bool)
  | moment (m : Moment)
  | array (items : List Value)
  | table (entries : List (String × Value))

end PeerCache.Toml
