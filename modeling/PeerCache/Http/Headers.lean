import PeerCache.Http.Token
import PeerCache.Text.Utf8

/-!
# Header fields

A header map lists each name once, with its values in the order they came. A new name goes
to the end; setting a present one keeps its place; removing one moves the last name into the
gap. The list of lines, name by name, is the view that everything else is stated in.
-/

namespace PeerCache

def isValueByte (b : UInt8) : Bool :=
  (b ≥ 32 && b ≠ 127) || b = 9

structure HeaderValue where
  bytes : Bytes
  valid : bytes.all isValueByte = true
  deriving DecidableEq

namespace HeaderValue

def ofBytes? (bytes : Bytes) : Option HeaderValue :=
  if h : bytes.all isValueByte = true then some ⟨bytes, h⟩ else none

def isPlainByte (b : UInt8) : Bool :=
  (b ≥ 32 && b < 127) || b = 9

/-- A value from a text of printable ASCII characters and tabs. -/
def ofChars? (text : List Char) : Option HeaderValue :=
  if text.all fun c => (32 ≤ c.toNat && c.toNat < 127) || c == '\t' then
    ofBytes? (Utf8.encode text)
  else none

/-- The value as text, if all its bytes are printable ASCII characters or tabs. -/
def text? (v : HeaderValue) : Option (List Char) :=
  if v.bytes.all isPlainByte then some (v.bytes.map fun b => Char.ofNat b.toNat) else none

/-- The value `1`. -/
def one : HeaderValue := ⟨[49], by decide⟩

end HeaderValue

/-- A name with its first value and those that follow. -/
structure Field where
  name : HeaderName
  first : HeaderValue
  more : List HeaderValue
  deriving DecidableEq

def Field.values (f : Field) : List HeaderValue :=
  f.first :: f.more

/-- Take the field of a name out of a list and put the last field into its place. -/
def removeField (name : HeaderName) : List Field → List Field
  | [] => []
  | f :: rest =>
    if f.name = name then
      match rest.getLast? with
      | some last => last :: rest.dropLast
      | none => []
    else f :: removeField name rest

theorem removeField_perm (name : HeaderName) (fields : List Field) :
    (removeField name fields).Perm (fields.eraseP fun f => f.name = name) := by
  induction fields with
  | nil => exact .nil
  | cons f rest ih =>
    by_cases h : f.name = name
    · simp only [removeField, h, if_true, List.eraseP_cons, decide_true, cond_true]
      cases hl : rest.getLast? with
      | none => simp [List.getLast?_eq_none_iff.mp hl]
      | some last =>
        obtain ⟨front, rfl⟩ := List.getLast?_eq_some_iff.mp hl
        simpa using (List.perm_append_singleton last front).symm
    · simpa [removeField, h, List.eraseP_cons] using ih.cons f

structure Headers where
  fields : List Field := []
  distinct : (fields.map Field.name).Nodup := by simp
  deriving DecidableEq

namespace Headers

def empty : Headers := {}

def find? (h : Headers) (name : HeaderName) : Option Field :=
  h.fields.find? fun f => f.name = name

/-- The first value of a name. -/
def get? (h : Headers) (name : HeaderName) : Option HeaderValue :=
  (h.find? name).map Field.first

/-- All values of a name in order. -/
def values (h : Headers) (name : HeaderName) : List HeaderValue :=
  match h.find? name with
  | some f => f.values
  | none => []

def contains (h : Headers) (name : HeaderName) : Bool :=
  (h.find? name).isSome

def names (h : Headers) : List HeaderName :=
  h.fields.map Field.name

/-- One line per value, name by name. -/
def lines (h : Headers) : List (HeaderName × HeaderValue) :=
  h.fields.flatMap fun f => f.values.map fun v => (f.name, v)

/-- Change the field of a name, keeping its name and its place. -/
def update (h : Headers) (name : HeaderName) (change : Field → HeaderValue × List HeaderValue) :
    Headers where
  fields := h.fields.map fun f =>
    if f.name = name then ⟨f.name, (change f).1, (change f).2⟩ else f
  distinct := by
    have : (h.fields.map fun f =>
        if f.name = name then ⟨f.name, (change f).1, (change f).2⟩ else f).map Field.name =
        h.fields.map Field.name := by
      rw [List.map_map]
      exact List.map_congr_left fun f _ => by simp only [Function.comp]; split <;> rfl
    rw [this]
    exact h.distinct

/-- Add a field for a name that has none. -/
def addField (h : Headers) (name : HeaderName) (v : HeaderValue) (fresh : h.contains name = false) :
    Headers where
  fields := h.fields ++ [⟨name, v, []⟩]
  distinct := by
    rw [List.map_append, List.nodup_append]
    refine ⟨h.distinct, by simp, ?_⟩
    intro a ha b hb
    obtain ⟨f, hf, rfl⟩ := List.mem_map.mp ha
    have hn : b = name := by simpa using hb
    intro he
    have present : h.contains name = true := by
      simp only [contains, find?, List.find?_isSome]
      exact ⟨f, hf, by simpa using he.trans hn⟩
    simp [fresh] at present

/-- Add a value behind those that the name has. -/
def append (h : Headers) (name : HeaderName) (v : HeaderValue) : Headers :=
  if fresh : h.contains name = false then h.addField name v fresh
  else h.update name fun f => (f.first, f.more ++ [v])

/-- Make a value the only one of its name. -/
def insert (h : Headers) (name : HeaderName) (v : HeaderValue) : Headers :=
  if fresh : h.contains name = false then h.addField name v fresh
  else h.update name fun _ => (v, [])

def remove (h : Headers) (name : HeaderName) : Headers where
  fields := removeField name h.fields
  distinct := by
    rw [((removeField_perm name h.fields).map Field.name).nodup_iff]
    exact (List.eraseP_sublist.map Field.name).nodup h.distinct

def removeAll (h : Headers) (names : List HeaderName) : Headers :=
  names.foldl remove h

/-- Add lines one after another. -/
def appendAll (h : Headers) (lines : List (HeaderName × HeaderValue)) : Headers :=
  lines.foldl (fun h line => h.append line.1 line.2) h

def ofLines (lines : List (HeaderName × HeaderValue)) : Headers :=
  empty.appendAll lines

/-- The most names that a map has room for. -/
def mostNames : Nat := 24576

/-- Add a value behind those that the name has, if the map has room. A place for the name is made
before the map is searched for it, so a full map takes no value at all. -/
def append? (h : Headers) (name : HeaderName) (v : HeaderValue) : Option Headers :=
  if h.names.length < mostNames then some (h.append name v) else none

/-- Add lines one after another, if there is room for each of them. -/
def appendAll? (h : Headers) (lines : List (HeaderName × HeaderValue)) : Option Headers :=
  lines.foldlM (fun h line => h.append? line.1 line.2) h

/-- The elements of a list header: the parts between commas of its readable values. -/
def elements (h : Headers) (name : HeaderName) : List (List Char) :=
  ((h.values name).filterMap HeaderValue.text?).flatMap fun text => text.splitOn ','

@[simp] theorem names_empty : empty.names = [] := rfl

@[simp] theorem lines_empty : empty.lines = [] := rfl

theorem nodup_names (h : Headers) : h.names.Nodup := h.distinct

end Headers

end PeerCache
