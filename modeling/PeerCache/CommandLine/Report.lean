/-!
# Reports of failures

A failure is told from the outside in: what could not be done, and below it the causes, which
are numbered when there is more than one.
-/

namespace PeerCache.CommandLine

structure Failure where
  message : String
  causes : List String := []
  deriving DecidableEq, Repr

/-- A cause behind its mark, with its further lines indented as far. -/
def indented (mark : String) (cause : String) : String :=
  mark ++ cause.replace "\n" ("\n" ++ "".pushn ' ' mark.length)

/-- The number of a cause, which takes five places, and a colon. -/
def numberMark (i : Nat) : String :=
  let digits := Nat.repr i
  "".pushn ' ' (5 - digits.length) ++ digits ++ ": "

def Failure.report (f : Failure) : String :=
  let causes :=
    match f.causes with
    | [] => ""
    | [cause] => "\n\nCaused by:\n" ++ indented "    " cause
    | causes =>
      "\n\nCaused by:" ++ String.join (causes.zipIdx.map fun (cause, i) =>
        "\n" ++ indented (numberMark i) cause)
  "Error: " ++ f.message ++ causes ++ "\n"

end PeerCache.CommandLine
