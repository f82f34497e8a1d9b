import Mathlib.Logic.Relation
import PeerCache.Proofs.ExchangeCourses

/-!
# The layout of directives

A `Cache-Control` field may be written in many ways that say the same. Its lines may be joined with
commas or split at them, and blanks, empty elements, capitals in names and repeated directives make
no difference. Each of these is one step, and what a reader of the directives learns is the same
after any number of steps.
-/

namespace PeerCache.Directives

open Text

/-! ## Elements -/

/-- What may follow the name in an element: nothing, or an `=` and an argument. -/
def IsAssignment (rest : List Char) : Prop :=
  rest = [] ∨ ∃ argument, rest = '=' :: argument

/-- The argument in what follows a name. -/
def argumentOf (rest : List Char) : List Char :=
  trimBy (· == '"') (trim rest.tail)

theorem ofPart?_of_trim {part text : List Char} (h : trim part = text) (hne : text ≠ []) :
    ofPart? part = some (String.ofList (lower (trim (cut (· == '=') text).1)),
      String.ofList (trimBy (· == '"') (trim ((cut (· == '=') text).2.getD [])))) := by
  rw [ofPart?, h]
  cases text with
  | nil => exact absurd rfl hne
  | cons c text => rfl

section Element

variable {written rest : List Char}

theorem ofPart?_blank (h : trim written = []) : ofPart? written = none := by
  rw [ofPart?, h]

theorem ofPart?_bare (hw : '=' ∉ written) (h : trim written ≠ []) :
    ofPart? written = some (String.ofList (lower (trim written)), "") := by
  have hplain : ∀ c ∈ trim written, (c == '=') = false := by
    intro c hc
    obtain ⟨left, right, htext, -⟩ := exists_padding written
    rw [beq_eq_false_iff_ne]
    rintro rfl
    exact hw (by rw [htext]; simp [hc])
  rw [ofPart?_of_trim rfl h, cut_of_not hplain, trim_trim]
  rfl

theorem ofPart?_pair (hw : '=' ∉ written) (argument : List Char) :
    ofPart? (written ++ '=' :: argument) =
      some (String.ofList (lower (trim written)),
        String.ofList (trimBy (· == '"') (trim argument))) := by
  have hplain : ∀ c ∈ written.dropWhile isBlank, (c == '=') = false := by
    intro c hc
    rw [beq_eq_false_iff_ne]
    rintro rfl
    exact hw ((List.dropWhile_suffix isBlank).mem hc)
  have hne : written.dropWhile isBlank ++ '=' :: dropEnd isBlank argument ≠ [] := by simp
  rw [ofPart?_of_trim (trim_around (by decide) written argument) hne, cut_append hplain rfl,
    trim_dropWhile, Option.getD_some, trim_dropEnd]

/-- What an element says hangs on its trimmed name in lower case and on its argument. -/
theorem ofPart?_assignment (hw : '=' ∉ written) (hrest : IsAssignment rest) :
    ofPart? (written ++ rest) =
      if trim written = [] ∧ rest = [] then none
      else some (String.ofList (lower (trim written)), String.ofList (argumentOf rest)) := by
  obtain rfl | ⟨argument, rfl⟩ := hrest
  · rw [List.append_nil]
    by_cases hblank : trim written = []
    · rw [if_pos ⟨hblank, rfl⟩, ofPart?_blank hblank]
    · rw [if_neg (fun h => hblank h.1), ofPart?_bare hw hblank]
      rfl
  · rw [if_neg (by simp), ofPart?_pair hw]
    rfl

theorem trim_eq_nil_iff (hrest : IsAssignment rest) :
    trim (written ++ rest) = [] ↔ trim written = [] ∧ rest = [] := by
  obtain rfl | ⟨argument, rfl⟩ := hrest
  · simp
  · rw [trim_around (by decide)]
    simp

end Element

/-- An element is a directive: its name in any case, and an argument that loses the quotes around
it. -/
structure Says (element : List Char) (name argument : String) : Prop where
  some_text : trim element ≠ []
  parts : ∃ written rest, element = written ++ rest ∧ '=' ∉ written ∧ IsAssignment rest ∧
    lower (trim written) = name.toList ∧ argumentOf rest = argument.toList

section Says

variable {element : List Char} {name argument : String}

/-- Every element has a name, up to the first `=`. -/
theorem exists_parts (element : List Char) :
    ∃ written rest, element = written ++ rest ∧ '=' ∉ written ∧ IsAssignment rest := by
  obtain ⟨hfront, ⟨-, htext⟩ | ⟨mark, back, -, hmark, htext⟩⟩ := cut_parts (· == '=') element
  · refine ⟨(cut (· == '=') element).1, [], by rwa [List.append_nil], ?_, .inl rfl⟩
    exact fun hmem => absurd (hfront _ hmem) (by decide)
  · obtain rfl : mark = '=' := eq_of_beq hmark
    refine ⟨(cut (· == '=') element).1, '=' :: back, htext, ?_, .inr ⟨back, rfl⟩⟩
    exact fun hmem => absurd (hfront _ hmem) (by decide)

theorem ofPart?_of_says (h : Says element name argument) :
    ofPart? element = some (name, argument) := by
  obtain ⟨hsome, written, rest, rfl, hw, hrest, hname, hargument⟩ := h
  rw [Ne, trim_eq_nil_iff hrest] at hsome
  rw [ofPart?_assignment hw hrest, if_neg hsome, hname, hargument, String.ofList_toList,
    String.ofList_toList]

theorem ofPart?_eq_some_iff :
    ofPart? element = some (name, argument) ↔ Says element name argument := by
  constructor
  · intro h
    obtain ⟨written, rest, rfl, hw, hrest⟩ := exists_parts element
    rw [ofPart?_assignment hw hrest] at h
    split at h
    · cases h
    · next hsome =>
      rw [← trim_eq_nil_iff hrest] at hsome
      obtain ⟨rfl, rfl⟩ := Prod.mk.inj (Option.some.inj h)
      exact ⟨hsome, written, rest, rfl, hw, hrest, String.toList_ofList.symm,
        String.toList_ofList.symm⟩
  · exact ofPart?_of_says

end Says

/-! ## Rewriting -/

def IsPadding (text : List Char) : Prop :=
  ∀ c ∈ text, c = ' ' ∨ c = '\t'

instance (text : List Char) : Decidable (IsPadding text) :=
  List.decidableBAll (fun c => c = ' ' ∨ c = '\t') text

/-- The elements of a line are written in another way. -/
inductive Rewritten : List (List Char) → List (List Char) → Prop
  /-- Spaces and tabs around an element, and so around the commas beside it. -/
  | padded (front back : List (List Char)) (left element right : List Char)
    (hl : IsPadding left) (hr : IsPadding right) :
    Rewritten (front ++ element :: back) (front ++ (left ++ element ++ right) :: back)
  /-- Spaces and tabs around the first `=` of an element. -/
  | spaced (front back : List (List Char)) (written left right argument : List Char)
    (hw : '=' ∉ written) (hl : IsPadding left) (hr : IsPadding right) :
    Rewritten (front ++ (written ++ '=' :: argument) :: back)
      (front ++ (written ++ left ++ '=' :: (right ++ argument)) :: back)
  /-- Another element, which is empty. -/
  | emptied (front back : List (List Char)) : Rewritten (front ++ back) (front ++ [] :: back)
  /-- The letters of a name in another case. -/
  | respelled (front back : List (List Char)) (written written' rest : List Char)
    (hw : '=' ∉ written) (hrest : IsAssignment rest) (hcase : lower written' = lower written) :
    Rewritten (front ++ (written ++ rest) :: back) (front ++ (written' ++ rest) :: back)

/-- The lines of a field are laid out in another way. -/
inductive Relaid : List (List Char) → List (List Char) → Prop
  /-- All lines are joined to one with commas. -/
  | joined (lines : List (List Char)) : Relaid lines [[','].intercalate lines]
  /-- A line is split at a comma. -/
  | split (front back : List (List Char)) (a b : List Char) :
    Relaid (front ++ (a ++ ',' :: b) :: back) (front ++ a :: b :: back)
  /-- A line of some elements becomes a line of others. -/
  | rewritten (front back : List (List Char)) {elements elements' : List (List Char)}
    (hmarks : ∀ element ∈ elements ++ elements', ',' ∉ element) (h : Rewritten elements elements') :
    Relaid (front ++ [','].intercalate elements :: back)
      (front ++ [','].intercalate elements' :: back)
  /-- A directive is given again, behind lines that have one of its name. -/
  | repeated (front back : List (List Char)) {line first again : List Char}
    {name argument other : String} (hline : line ∈ front) (hmem : first ∈ line.splitOn ',')
    (hfirst : Says first name argument) (hmarks : ',' ∉ again) (hagain : Says again name other) :
    Relaid (front ++ back) (front ++ again :: back)

/-! ## What is read -/

theorem IsPadding.isBlank {text : List Char} (h : IsPadding text) :
    ∀ c ∈ text, Text.isBlank c = true := by
  intro c hc
  obtain rfl | rfl := h c hc <;> rfl

theorem IsPadding.not_mem {text : List Char} (h : IsPadding text) (mark : Char)
    (hm : Text.isBlank mark = false) : mark ∉ text := by
  intro hmem
  rw [h.isBlank mark hmem] at hm
  cases hm

theorem ofPart?_congr {element element' : List Char} (h : trim element = trim element') :
    ofPart? element = ofPart? element' := by
  rw [ofPart?, h]
  rfl

theorem ofPart?_padded (left element right : List Char) (hl : IsPadding left)
    (hr : IsPadding right) : ofPart? (left ++ element ++ right) = ofPart? element :=
  ofPart?_congr (trim_padded left element right hl.isBlank hr.isBlank)

theorem ofPart?_spaced (written left right argument : List Char) (hw : '=' ∉ written)
    (hl : IsPadding left) (hr : IsPadding right) :
    ofPart? (written ++ left ++ '=' :: (right ++ argument)) =
      ofPart? (written ++ '=' :: argument) := by
  have hname : trim (written ++ left) = trim written := by
    simpa using trim_padded [] written left (by simp) hl.isBlank
  have hargument : trim (right ++ argument) = trim argument := by
    simpa using trim_padded right argument [] hr.isBlank (by simp)
  have hw' : '=' ∉ written ++ left := by simp [hw, hl.not_mem '=' rfl]
  rw [ofPart?_pair hw', ofPart?_pair hw, hname, hargument]

/-- Capitals bring no mark into a name. -/
theorem not_mem_of_lower_eq {written written' : List Char} (hcase : lower written' = lower written)
    (hw : '=' ∉ written) : '=' ∉ written' := by
  intro hmem
  have hlower : '=' ∈ lower written := hcase ▸ List.mem_map_of_mem hmem (f := Char.toLower)
  obtain ⟨c, hc, hmark⟩ := List.mem_map.mp hlower
  exact hw (eq_of_toLower rfl hmark ▸ hc)

theorem lower_eq_nil_iff {text : List Char} : lower text = [] ↔ text = [] :=
  List.map_eq_nil_iff

theorem ofPart?_respelled (written written' rest : List Char) (hw : '=' ∉ written)
    (hrest : IsAssignment rest) (hcase : lower written' = lower written) :
    ofPart? (written' ++ rest) = ofPart? (written ++ rest) := by
  have hname : lower (trim written') = lower (trim written) := by
    rw [lower_trim, hcase, lower_trim]
  have hblank : trim written' = [] ↔ trim written = [] := by
    rw [← lower_eq_nil_iff, hname, lower_eq_nil_iff]
  rw [ofPart?_assignment (not_mem_of_lower_eq hcase hw) hrest, ofPart?_assignment hw hrest, hname]
  simp only [hblank]

/-- Elements that are written in another way say the same. -/
theorem Rewritten.says {elements elements' : List (List Char)} (h : Rewritten elements elements') :
    elements'.filterMap ofPart? = elements.filterMap ofPart? := by
  cases h with
  | padded front back left element right hl hr =>
    simp only [List.filterMap_append, List.filterMap_cons, ofPart?_padded left element right hl hr]
  | spaced front back written left right argument hw hl hr =>
    simp only [List.filterMap_append, List.filterMap_cons,
      ofPart?_spaced written left right argument hw hl hr]
  | emptied front back =>
    simp only [List.filterMap_append, List.filterMap_cons, ofPart?_blank trim_nil]
  | respelled front back written written' rest hw hrest hcase =>
    simp only [List.filterMap_append, List.filterMap_cons,
      ofPart?_respelled written written' rest hw hrest hcase]

/-- The directives that the lines of a field list. -/
def ofTexts (lines : List (List Char)) : Directives :=
  ofParts (lines.flatMap fun line => line.splitOn ',')

theorem entries_append (a b : List (List Char)) :
    (ofTexts (a ++ b)).entries = (ofTexts a).entries ++ (ofTexts b).entries := by
  simp [ofTexts, ofParts]

theorem entries_cons (line : List Char) (lines : List (List Char)) :
    (ofTexts (line :: lines)).entries =
      (line.splitOn ',').filterMap ofPart? ++ (ofTexts lines).entries := by
  simp [ofTexts, ofParts]

theorem splitOn_joined {lines : List (List Char)} (h : lines ≠ []) :
    ([','].intercalate lines).splitOn ',' = lines.flatMap fun line => line.splitOn ',' := by
  induction lines with
  | nil => exact absurd rfl h
  | cons line lines ih =>
    cases lines with
    | nil => simp
    | cons next lines =>
      rw [List.intercalate_cons_of_ne_nil (List.cons_ne_nil next lines), List.append_assoc,
        List.singleton_append, List.splitOn_append_cons_self, ih (List.cons_ne_nil next lines)]
      rfl

/-- A line says what its elements say. -/
theorem filterMap_line {elements : List (List Char)} (h : ∀ element ∈ elements, ',' ∉ element) :
    (([','].intercalate elements).splitOn ',').filterMap ofPart? =
      elements.filterMap ofPart? := by
  cases elements with
  | nil => simp [ofPart?_blank trim_nil]
  | cons element elements => rw [List.splitOn_intercalate ',' h (List.cons_ne_nil _ _)]

/-- Once a name is listed, later entries of that name are not looked at. -/
theorem lookup_repeated {front back : List (String × String)} {listed argument other : String}
    (hlisted : (listed, argument) ∈ front) (name : String) :
    (front ++ (listed, other) :: back).lookup name = (front ++ back).lookup name := by
  rw [List.lookup_append, List.lookup_append]
  by_cases hsame : name = listed
  · have hfound : front.lookup name ≠ none := by
      rw [Ne, List.lookup_eq_none_iff]
      intro hnone
      simpa [hsame] using hnone _ hlisted
    obtain ⟨value, hvalue⟩ := Option.ne_none_iff_exists'.mp hfound
    rw [hvalue, Option.some_or, Option.some_or]
  · rw [List.lookup_cons, beq_false_of_ne hsame]

theorem Relaid.value? {lines lines' : List (List Char)} (h : Relaid lines lines') (name : String) :
    (ofTexts lines').value? name = (ofTexts lines).value? name := by
  rw [Directives.value?, Directives.value?]
  cases h with
  | joined lines =>
    cases lines with
    | nil => rfl
    | cons line lines => simp [ofTexts, splitOn_joined (List.cons_ne_nil line lines)]
  | split front back a b => simp [entries_append, entries_cons, List.splitOn_append_cons_self]
  | rewritten front back hmarks h =>
    obtain ⟨hmarks, hmarks'⟩ := List.forall_mem_append.mp hmarks
    rw [entries_append, entries_append, entries_cons, entries_cons, filterMap_line hmarks,
      filterMap_line hmarks', h.says]
  | @repeated front back line first again listed argument other hline hmem hfirst hmarks hagain =>
    -- what is given again stands behind an entry of its name, so no lookup gets to it
    have hlisted : (listed, argument) ∈ (ofTexts front).entries :=
      List.mem_filterMap.mpr ⟨first, List.mem_flatMap.mpr ⟨line, hline, hmem⟩,
        ofPart?_of_says hfirst⟩
    rw [entries_append, entries_append, entries_cons, List.splitOn_eq_singleton hmarks,
      List.filterMap_cons, ofPart?_of_says hagain]
    exact lookup_repeated hlisted _

/-- What the elements of some lines say first for a name. -/
def SaysFirst (lines : List (List Char)) (name argument : String) : Prop :=
  ∃ before element after,
    (lines.flatMap fun line => line.splitOn ',') = before ++ element :: after ∧
      Says element name argument ∧ ∀ other ∈ before, ∀ given, ¬Says other name given

/-- The argument of an element that is a directive of a name. -/
def argumentFor? (name : String) (element : List Char) : Option String :=
  (ofPart? element).bind fun entry => if name == entry.1 then some entry.2 else none

theorem argumentFor?_eq_some_iff {name argument : String} {element : List Char} :
    argumentFor? name element = some argument ↔ Says element name argument := by
  rw [← ofPart?_eq_some_iff, argumentFor?]
  cases ofPart? element with
  | none => simp
  | some entry =>
    obtain ⟨listed, given⟩ := entry
    by_cases hsame : name = listed
    · simp [hsame]
    · simp [hsame, Ne.symm hsame]

theorem lookup_filterMap (elements : List (List Char)) (name : String) :
    (elements.filterMap ofPart?).lookup name = elements.findSome? (argumentFor? name) := by
  induction elements with
  | nil => rfl
  | cons element elements ih =>
    rw [List.filterMap_cons, List.findSome?_cons, argumentFor?, ← ih]
    cases ofPart? element with
    | none => rfl
    | some entry =>
      rw [Option.bind_some, List.lookup_cons]
      cases name == entry.1 <;> rfl

/-- What is read under a name is what the lines say for it first. -/
theorem value?_eq_some_iff {lines : List (List Char)} {name argument : String} :
    (ofTexts lines).value? name = some argument ↔ SaysFirst lines name argument := by
  have hnone : ∀ element, argumentFor? name element = none ↔ ∀ given, ¬Says element name given := by
    intro element
    simp only [← argumentFor?_eq_some_iff, Option.eq_none_iff_forall_ne_some, Ne]
  have hvalue : (ofTexts lines).value? name =
      (lines.flatMap fun line => line.splitOn ',').findSome? (argumentFor? name) :=
    lookup_filterMap _ name
  rw [hvalue, List.findSome?_eq_some_iff, SaysFirst]
  simp only [argumentFor?_eq_some_iff, hnone]

/-- Two layouts of a field say the same, if steps in either direction lead from one to the other. -/
theorem value?_of_relaid {lines lines' : List (List Char)}
    (h : Relation.EqvGen Relaid lines lines') (name : String) :
    (ofTexts lines).value? name = (ofTexts lines').value? name := by
  induction h with
  | rel lines lines' h => exact (h.value? name).symm
  | refl lines => rfl
  | symm lines lines' _ ih => exact ih.symm
  | trans lines between lines' _ _ ih ih' => exact ih.trans ih'

/-- The `Cache-Control` values of some headers can all be read as text, and are these lines. -/
def Lists (h : Headers) (lines : List (List Char)) : Prop :=
  (h.values HeaderName.cacheControl).map HeaderValue.text? = lines.map some

instance (h : Headers) (lines : List (List Char)) : Decidable (Lists h lines) :=
  inferInstanceAs
    (Decidable ((h.values HeaderName.cacheControl).map HeaderValue.text? = lines.map some))

theorem ofHeaders_of_lists {h : Headers} {lines : List (List Char)} (hl : Lists h lines) :
    ofHeaders h = ofTexts lines := by
  have htexts : (h.values HeaderName.cacheControl).filterMap HeaderValue.text? = lines := by
    calc (h.values HeaderName.cacheControl).filterMap HeaderValue.text?
      _ = ((h.values HeaderName.cacheControl).map HeaderValue.text?).filterMap id := by
        rw [List.filterMap_map, Function.id_comp]
      _ = (lines.map some).filterMap id := congrArg (List.filterMap id) hl
      _ = lines := by simp
  rw [ofHeaders, Headers.elements, htexts, ofTexts]

/-- **The layout of directives.** Headers whose readable `Cache-Control` lines are laid out in
different ways have the same directives, with the same arguments and seconds: under each name what
the lines say for it first. -/
theorem layout_does_not_matter {h k : Headers} {lines lines' : List (List Char)}
    (hh : Lists h lines) (hk : Lists k lines') (hsame : Relation.EqvGen Relaid lines lines')
    (name : String) :
    (ofHeaders h).has name = (ofHeaders k).has name ∧
      (ofHeaders h).value? name = (ofHeaders k).value? name ∧
      (ofHeaders h).seconds? name = (ofHeaders k).seconds? name ∧
      ∀ argument, (ofHeaders h).value? name = some argument ↔ SaysFirst lines name argument := by
  have hvalue : (ofHeaders h).value? name = (ofHeaders k).value? name := by
    rw [ofHeaders_of_lists hh, ofHeaders_of_lists hk]
    exact value?_of_relaid hsame name
  refine ⟨?_, hvalue, ?_, fun argument => ?_⟩
  · rw [has, has, hvalue]
  · rw [seconds?, seconds?, hvalue]
  · rw [ofHeaders_of_lists hh]
    exact value?_eq_some_iff

/-! ## Every step once -/

namespace Layouts

open Sample

def line (elements : List String) : List Char :=
  [','].intercalate (elements.map String.toList)

/-- A comma between quotes divides elements as any other does. -/
def quoted : List Char :=
  "private=\"a,b\"".toList

def plain : List (List Char) :=
  [line ["max-age=60", "no-cache"], quoted]

/-- All in one line, with each kind of change. -/
def spread : List (List Char) :=
  ["MAX-AGE \t= 60,, no-cache,private=\"a,b\",Max-Age=1".toList]

def first : Headers :=
  Headers.ofLines [(.cacheControl, value "max-age=60,no-cache"),
    (.cacheControl, value "private=\"a,b\"")]

def second : Headers :=
  Headers.ofLines [(.cacheControl,
    value "MAX-AGE \t= 60,, no-cache,private=\"a,b\",Max-Age=1")]

/-- One change to the elements of the first line. -/
theorem first_line_step {elements elements' : List String}
    (hmarks : ∀ element ∈ elements.map String.toList ++ elements'.map String.toList, ',' ∉ element)
    (h : Rewritten (elements.map String.toList) (elements'.map String.toList)) :
    Relation.EqvGen Relaid [line elements, quoted] [line elements', quoted] :=
  .rel _ _ (.rewritten [] [quoted] hmarks h)

theorem first_line_changes : Relation.EqvGen Relaid plain
    [line ["MAX-AGE \t= 60", "", " no-cache"], quoted] := by
  have hrespelled : Relation.EqvGen Relaid plain [line ["MAX-AGE=60", "no-cache"], quoted] :=
    first_line_step (by decide)
      (.respelled [] ["no-cache".toList] "max-age".toList "MAX-AGE".toList "=60".toList
        (by decide) (.inr ⟨_, rfl⟩) (by decide))
  have hspaced : Relation.EqvGen Relaid [line ["MAX-AGE=60", "no-cache"], quoted]
      [line ["MAX-AGE \t= 60", "no-cache"], quoted] :=
    first_line_step (by decide)
      (.spaced [] ["no-cache".toList] "MAX-AGE".toList " \t".toList " ".toList "60".toList
        (by decide) (by decide) (by decide))
  have hemptied : Relation.EqvGen Relaid [line ["MAX-AGE \t= 60", "no-cache"], quoted]
      [line ["MAX-AGE \t= 60", "", "no-cache"], quoted] :=
    first_line_step (by decide) (.emptied ["MAX-AGE \t= 60".toList] ["no-cache".toList])
  have hpadded : Relation.EqvGen Relaid [line ["MAX-AGE \t= 60", "", "no-cache"], quoted]
      [line ["MAX-AGE \t= 60", "", " no-cache"], quoted] :=
    first_line_step (by decide)
      (.padded ["MAX-AGE \t= 60".toList, []] [] " ".toList "no-cache".toList []
        (by decide) (by decide))
  exact (hrespelled.trans _ _ _ hspaced).trans _ _ _ (hemptied.trans _ _ _ hpadded)

theorem plain_spread : Relation.EqvGen Relaid plain spread := by
  have hage : Says "MAX-AGE \t= 60".toList "max-age" "60" :=
    ofPart?_eq_some_iff.mp (by decide +kernel)
  have hagain : Says "Max-Age=1".toList "max-age" "1" :=
    ofPart?_eq_some_iff.mp (by decide +kernel)
  have hrepeated : Relation.EqvGen Relaid [line ["MAX-AGE \t= 60", "", " no-cache"], quoted]
      [line ["MAX-AGE \t= 60", "", " no-cache"], quoted, "Max-Age=1".toList] :=
    .rel _ _ (.repeated [_, quoted] [] (List.mem_cons_self) (by decide) hage (by decide) hagain)
  have hjoined : Relation.EqvGen Relaid
      [line ["MAX-AGE \t= 60", "", " no-cache"], quoted, "Max-Age=1".toList] spread :=
    .rel _ _ (.joined _)
  exact first_line_changes.trans _ _ _ (hrepeated.trans _ _ _ hjoined)

end Layouts

open Layouts in
theorem spread_lines_say_the_same :
    Lists first plain ∧ Lists second spread ∧ Relation.EqvGen Relaid plain spread ∧
      (ofHeaders second).has "no-cache" = true ∧
      (ofHeaders second).seconds? "max-age" = some 60 ∧
      (ofHeaders second).value? "private" = some "a" ∧ SaysFirst plain "private" "a" := by
  have hfirst : Lists first plain := by decide +kernel
  have hsecond : Lists second spread := by decide +kernel
  obtain ⟨hcache, -⟩ := layout_does_not_matter hfirst hsecond plain_spread "no-cache"
  obtain ⟨-, -, hage, -⟩ := layout_does_not_matter hfirst hsecond plain_spread "max-age"
  obtain ⟨-, hprivate, -, hreads⟩ := layout_does_not_matter hfirst hsecond plain_spread "private"
  have hread : (ofHeaders first).value? "private" = some "a" := by decide +kernel
  refine ⟨hfirst, hsecond, plain_spread, hcache.symm.trans ?_, hage.symm.trans ?_,
    hprivate.symm.trans hread, (hreads _).mp hread⟩
  · decide +kernel
  · decide +kernel

end PeerCache.Directives
