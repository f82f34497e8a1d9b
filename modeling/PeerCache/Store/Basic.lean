import PeerCache.Text.Utf8

/-!
# Byte stores

A store holds byte strings under text keys. An operation answers with a value or an error
and leaves a store behind, also when it fails: a layer may have noted something before the
layer below refused. `ByteStore` is what the layers and the cache above them build on.
-/

namespace PeerCache

/-- Why a file operation was refused. -/
inductive IoError where
  | notFound
  | alreadyExists
  | notDirectory
  | isDirectory
  deriving DecidableEq, Repr

namespace IoError

def code : IoError → Nat
  | notFound => 2
  | alreadyExists => 17
  | notDirectory => 20
  | isDirectory => 21

def text : IoError → String
  | notFound => "No such file or directory"
  | alreadyExists => "File exists"
  | notDirectory => "Not a directory"
  | isDirectory => "Is a directory"

def message (e : IoError) : String :=
  e.text ++ " (os error " ++ Nat.repr e.code ++ ")"

end IoError

inductive StoreError where
  | io (cause : IoError)
  | task (reason : String)
  deriving DecidableEq, Repr

def StoreError.message : StoreError → String
  | io cause => "io error: " ++ cause.message
  | task reason => "storage task failed: " ++ reason

/-- What an operation answers and the store it leaves. -/
structure Reply (σ α : Type) where
  answer : Except StoreError α
  after : σ

/-- The same answer over a store that contains the one that gave it. -/
def Reply.within {σ τ α : Type} (wrap : σ → τ) (r : Reply σ α) : Reply τ α :=
  { answer := r.answer, after := wrap r.after }

class ByteStore (σ : Type) where
  get : σ → String → Reply σ (Option Bytes)
  set : σ → String → Bytes → Reply σ Unit
  delete : σ → String → Reply σ Unit

@[simp] theorem Reply.answer_within {σ τ α : Type} (wrap : σ → τ) (r : Reply σ α) :
    (r.within wrap).answer = r.answer := rfl

@[simp] theorem Reply.after_within {σ τ α : Type} (wrap : σ → τ) (r : Reply σ α) :
    (r.within wrap).after = wrap r.after := rfl

end PeerCache
