import PeerCache.Proofs.NamedResource

/-!
# The grammar of targets

What a query asks a boundary for, told as a grammar. The first part of the query whose name is
read as `q` decides, and it decides alone. Its value is refused if it holds a `%` that two digits
do not follow. Otherwise it is read, and what it is read as must be an address of the web.
-/

namespace PeerCache

/-! ## Broken escapes -/

namespace Percent

def hexDigits : List Char :=
  "0123456789abcdefABCDEF".toList

/-- A text begins with the two digits of an escape. -/
def BeginsWithDigits (text : List Char) : Prop :=
  ∃ a b rest, text = a :: b :: rest ∧ a ∈ hexDigits ∧ b ∈ hexDigits

/-- Somewhere in a text there is a `%` that two digits do not follow. -/
def Broken (text : List Char) : Prop :=
  ∃ before after, text = before ++ '%' :: after ∧ ¬BeginsWithDigits after

theorem lt_of_isDigit {c : Char} (h : Hex.isDigit c = true) : c.toNat < 128 := by
  rw [Hex.isDigit, Hex.digitValue?] at h
  split at h
  · next hrange => exact Text.lt_of_le hrange.2 (by decide)
  split at h
  · next hrange => exact Text.lt_of_le hrange.2 (by decide)
  split at h
  · next hrange => exact Text.lt_of_le hrange.2 (by decide)
  · cases h

theorem mem_hexDigits {c : Char} : c ∈ hexDigits ↔ Hex.isDigit c = true := by
  by_cases hlt : c.toNat < 128
  · have hall : ∀ n < 128, Char.ofNat n ∈ hexDigits ↔ Hex.isDigit (Char.ofNat n) = true := by
      decide +kernel
    exact Text.of_ascii (p := fun c => c ∈ hexDigits ↔ Hex.isDigit c = true) hall hlt
  · have hlist : hexDigits.all (fun d => d.toNat < 128) = true := by decide
    have hascii : c ∈ hexDigits → c.toNat < 128 :=
      fun hc => of_decide_eq_true (List.all_eq_true.mp hlist c hc)
    exact iff_of_false (fun hc => hlt (hascii hc)) (fun hc => hlt (lt_of_isDigit hc))

theorem not_broken_nil : ¬Broken [] := by
  rintro ⟨before, after, hsplit, -⟩
  cases before <;> cases hsplit

/-- A text is broken at its front or further on. -/
theorem broken_cons {c : Char} {text : List Char} :
    Broken (c :: text) ↔ c = '%' ∧ ¬BeginsWithDigits text ∨ Broken text := by
  constructor
  · rintro ⟨before, after, hsplit, hdigits⟩
    cases before with
    | nil =>
      obtain ⟨rfl, rfl⟩ := List.cons.inj hsplit
      exact .inl ⟨rfl, hdigits⟩
    | cons d before =>
      obtain ⟨rfl, rfl⟩ := List.cons.inj hsplit
      exact .inr ⟨before, after, rfl, hdigits⟩
  · rintro (⟨rfl, hdigits⟩ | ⟨before, after, rfl, hdigits⟩)
    · exact ⟨[], text, rfl, hdigits⟩
    · exact ⟨c :: before, after, rfl, hdigits⟩

theorem broken_cons_of_ne {c : Char} {text : List Char} (h : c ≠ '%') :
    Broken (c :: text) ↔ Broken text := by
  rw [broken_cons]
  exact or_iff_right fun hmark => h hmark.1

theorem ne_of_mem_hexDigits {c : Char} (h : c ∈ hexDigits) : c ≠ '%' := by
  rintro rfl
  exact absurd h (by decide)

theorem beginsWithDigits_cons_cons {a b : Char} {rest : List Char} :
    BeginsWithDigits (a :: b :: rest) ↔ a ∈ hexDigits ∧ b ∈ hexDigits := by
  constructor
  · rintro ⟨a', b', rest', hsplit, ha, hb⟩
    cases hsplit
    exact ⟨ha, hb⟩
  · rintro ⟨ha, hb⟩
    exact ⟨a, b, rest, rfl, ha, hb⟩

/-- The scan finds every broken escape. After an escape it goes on behind the two digits, and no
digit is a `%` that it could miss. -/
theorem wellFormed_eq_false_iff (text : List Char) : wellFormed text = false ↔ Broken text := by
  induction text using wellFormed.induct with
  | case1 => exact iff_of_false Bool.false_ne_true.symm not_broken_nil
  | case2 a b rest ih =>
    rw [wellFormed, Bool.and_eq_false_iff, ih, broken_cons, beginsWithDigits_cons_cons,
      mem_hexDigits, mem_hexDigits, ← Bool.and_eq_true, Bool.not_eq_true]
    by_cases hdigits : (Hex.isDigit a && Hex.isDigit b) = true
    · obtain ⟨ha, hb⟩ := Bool.and_eq_true_iff.mp hdigits
      rw [broken_cons_of_ne (ne_of_mem_hexDigits (mem_hexDigits.mpr ha)),
        broken_cons_of_ne (ne_of_mem_hexDigits (mem_hexDigits.mpr hb))]
      simp
    · simp only [Bool.not_eq_true] at hdigits
      simp [hdigits]
  | case3 rest hshort =>
    have hdigits : ¬BeginsWithDigits rest := by
      rintro ⟨a, b, more, rfl, -⟩
      exact hshort a b more rfl
    rw [broken_cons]
    exact iff_of_true (by rw [wellFormed]; exact hshort) (.inl ⟨rfl, hdigits⟩)
  | case4 c rest hc ih => rw [wellFormed_of_ne hc, ih, broken_cons_of_ne hc]

end Percent

/-! ## Parts of a query -/

namespace Form

/-- What stands before the first `=` of a part. -/
def rawName (part : List Char) : List Char :=
  part.takeWhile fun c => !(c == '=')

/-- What stands behind the first `=` of a part. -/
def rawValue (part : List Char) : List Char :=
  (part.dropWhile fun c => !(c == '=')).tail

theorem splitPair_eq (part : List Char) : splitPair part = (rawName part, rawValue part) := by
  rw [splitPair, Text.cut, rawName, rawValue]
  cases hrest : part.dropWhile fun c => !(c == '=') with
  | nil =>
    have hwhole := List.takeWhile_append_dropWhile (p := fun c => !(c == '=')) (l := part)
    rw [hrest, List.append_nil] at hwhole
    rw [hwhole]
    rfl
  | cons mark rest => rfl

end Form

namespace Boundary

section Grammar

variable {query : Option (List Char)} {part : List Char} {resource : String}

/-- The parts of a query, which is empty if there is none. -/
def parts (query : Option (List Char)) : List (List Char) :=
  (query.getD []).splitOn '&'

def NamesTarget (part : List Char) : Prop :=
  Form.decode (Form.rawName part) = ['q']

instance (part : List Char) : Decidable (NamesTarget part) :=
  inferInstanceAs (Decidable (_ = _))

/-- The part of a query that decides: the first one that names the target. -/
def Decides (query : Option (List Char)) (part : List Char) : Prop :=
  ∃ before after, parts query = before ++ part :: after ∧ NamesTarget part ∧
    ∀ other ∈ before, ¬NamesTarget other

/-- What the value of a part is read as. -/
def resourceOf (part : List Char) : String :=
  String.ofList (Form.decode (Form.rawValue part))

theorem rawTarget?_eq (query : Option (List Char)) :
    rawTarget? (query.getD []) =
      ((parts query).find? fun part => NamesTarget part).map Form.rawValue := by
  have hempty : ¬NamesTarget [] := by decide
  have hsame : (fun part : List Char =>
      decide (part ≠ [] ∧ Form.decode (Form.splitPair part).1 = ['q'])) =
      fun part => decide (NamesTarget part) := by
    funext part
    rw [decide_eq_decide, Form.splitPair_eq]
    exact and_iff_right_of_imp fun hnames hnil => hempty (hnil ▸ hnames)
  rw [rawTarget?, hsame, parts]
  simp only [Form.splitPair_eq]

theorem rawTarget?_of_unnamed (h : ∀ part ∈ parts query, ¬NamesTarget part) :
    rawTarget? (query.getD []) = none := by
  have hnone : ((parts query).find? fun part => NamesTarget part) = none := by simpa using h
  rw [rawTarget?_eq, hnone]
  rfl

theorem rawTarget?_of_decides (h : Decides query part) :
    rawTarget? (query.getD []) = some (Form.rawValue part) := by
  obtain ⟨before, after, hsplit, hnames, hbefore⟩ := h
  have hfound : ((parts query).find? fun part => NamesTarget part) = some part := by
    rw [List.find?_eq_some_iff_append]
    exact ⟨decide_eq_true hnames, before, after, hsplit, by simpa using hbefore⟩
  rw [rawTarget?_eq, hfound]
  rfl

/-- Either no part names the target, or one of them decides. -/
theorem exists_decides (h : ∃ part ∈ parts query, NamesTarget part) :
    ∃ part, Decides query part := by
  obtain ⟨named, hmem, hnamed⟩ := h
  cases hfound : (parts query).find? fun part => NamesTarget part with
  | none => simp_all
  | some part =>
    obtain ⟨hnames, before, after, hsplit, hbefore⟩ := List.find?_eq_some_iff_append.mp hfound
    exact ⟨part, before, after, hsplit, of_decide_eq_true hnames, by simpa using hbefore⟩

/-! ## What a query comes to -/

/-- What a query asks for. -/
inductive Asks (query : Option (List Char)) : Except BoundaryError Url → Prop
  | unnamed (h : ∀ part ∈ parts query, ¬NamesTarget part) : Asks query (.error .missingTarget)
  | broken {part : List Char} (hpart : Decides query part)
    (h : Percent.Broken (Form.rawValue part)) : Asks query (.error .malformedEscape)
  | nothing {part : List Char} (hpart : Decides query part)
    (hwhole : ¬Percent.Broken (Form.rawValue part)) (h : resourceOf part = "") :
    Asks query (.error .missingTarget)
  | served {part : List Char} (hpart : Decides query part)
    (hwhole : ¬Percent.Broken (Form.rawValue part)) {url : Url}
    (h : IsServed (resourceOf part) url) : Asks query (.ok url)
  | refused {part : List Char} (hpart : Decides query part)
    (hwhole : ¬Percent.Broken (Form.rawValue part)) (hsome : resourceOf part ≠ "")
    (hnone : ∀ url, ¬IsServed (resourceOf part) url) {reason : String}
    (h : Refuses (resourceOf part) reason) :
    Asks query (.error (.invalidTarget (resourceOf part) reason))

/-- The empty text is no address. -/
theorem ne_empty_of_served {url : Url} (h : IsServed resource url) : resource ≠ "" := by
  rintro rfl
  have hempty : Url.ofText "" = .error .relative := rfl
  cases hempty.symm.trans h.1

theorem parseTarget_of_broken (h : Decides query part)
    (hbroken : Percent.Broken (Form.rawValue part)) :
    parseTarget query = .error .malformedEscape := by
  rw [parseTarget, rawTarget?_of_decides h]
  exact if_pos ((Percent.wellFormed_eq_false_iff _).mpr hbroken)

/-- A query whose deciding part is whole comes to the check of the resource. -/
theorem parseTarget_of_whole (h : Decides query part)
    (hwhole : ¬Percent.Broken (Form.rawValue part)) :
    parseTarget query =
      if resourceOf part = "" then .error .missingTarget
      else checkTarget (resourceOf part).toList := by
  rw [parseTarget, rawTarget?_of_decides h]
  dsimp only
  rw [if_neg (mt (Percent.wellFormed_eq_false_iff _).mp hwhole), resourceOf, String.toList_ofList]
  cases hread : Form.decode (Form.rawValue part) with
  | nil => rfl
  | cons c rest =>
    have hsome : String.ofList (c :: rest) ≠ "" := by
      rw [Ne, ← String.toList_eq_nil_iff, String.toList_ofList]
      exact List.cons_ne_nil c rest
    rw [if_neg hsome]

theorem parseTarget_eq_iff (query : Option (List Char)) (answer : Except BoundaryError Url) :
    parseTarget query = answer ↔ Asks query answer := by
  constructor
  · rintro rfl
    by_cases hnamed : ∃ part ∈ parts query, NamesTarget part
    · obtain ⟨part, hpart⟩ := exists_decides hnamed
      by_cases hbroken : Percent.Broken (Form.rawValue part)
      · rw [parseTarget_of_broken hpart hbroken]
        exact .broken hpart hbroken
      rw [parseTarget_of_whole hpart hbroken]
      split
      · next hnothing => exact .nothing hpart hbroken hnothing
      · next hsome =>
        obtain ⟨url, hserved⟩ | ⟨hnone, reason, hrefuses⟩ := served_or_refuses (resourceOf part)
        · rw [checkTarget_of_served hserved]
          exact .served hpart hbroken hserved
        · rw [checkTarget_of_refuses hrefuses]
          exact .refused hpart hbroken hsome hnone hrefuses
    · have hunnamed : ∀ part ∈ parts query, ¬NamesTarget part :=
        fun part hmem hnames => hnamed ⟨part, hmem, hnames⟩
      rw [parseTarget, rawTarget?_of_unnamed hunnamed]
      exact .unnamed hunnamed
  · intro hasks
    cases hasks with
    | unnamed h => rw [parseTarget, rawTarget?_of_unnamed h]
    | broken hpart h => exact parseTarget_of_broken hpart h
    | nothing hpart hwhole h => rw [parseTarget_of_whole hpart hwhole, if_pos h]
    | served hpart hwhole h =>
      rw [parseTarget_of_whole hpart hwhole, if_neg (ne_empty_of_served h), checkTarget_of_served h]
    | refused hpart hwhole hsome hnone h =>
      rw [parseTarget_of_whole hpart hwhole, if_neg hsome, checkTarget_of_refuses h]

/-- Queries with the same deciding part come to the same. -/
theorem parseTarget_congr {other : Option (List Char)} (h : Decides query part)
    (h' : Decides other part) : parseTarget query = parseTarget other := by
  by_cases hbroken : Percent.Broken (Form.rawValue part)
  · rw [parseTarget_of_broken h hbroken, parseTarget_of_broken h' hbroken]
  · rw [parseTarget_of_whole h hbroken, parseTarget_of_whole h' hbroken]

/-- **The grammar of targets.** A query comes to what the grammar says and to nothing else. No part
but the deciding one makes a difference, whatever marks, escapes and names the others hold. -/
theorem target_grammar_exact :
    (∀ (query : Option (List Char)) (answer : Except BoundaryError Url),
      parseTarget query = answer ↔ Asks query answer) ∧
    ∀ (query other : Option (List Char)) (part : List Char),
      Decides query part → Decides other part → parseTarget query = parseTarget other :=
  ⟨parseTarget_eq_iff, fun _ _ _ h h' => parseTarget_congr h h'⟩

end Grammar

/-! ## A query full of other parts -/

namespace EscapedName

/-- A part whose name is escaped and whose value holds a `;` and a `+`. -/
def part : List Char :=
  "%71=http%3A%2F%2Fo.test%2Fa;b+c".toList

/-- Parts in front of it, with `q` behind a `;`, with a broken escape, and with one in the name. -/
def before : List (List Char) :=
  ["x=1;q=http://p.test/".toList, "%zz".toList, "q%=http://p.test/".toList]

/-- Parts behind it, with another target and with a broken escape. -/
def after : List (List Char) :=
  ["q=http://p.test/".toList, "q=%".toList]

def query : List Char :=
  ['&'].intercalate (before ++ part :: after)

def served : Url where
  scheme := "http"
  userinfo := ""
  host := "o.test"
  port := none
  path := "/a;b%20c"
  query := none
  fragment := none

end EscapedName

open EscapedName in
theorem escaped_name_decides :
    Decides (some query) part ∧ Decides (some part) part ∧
      parseTarget (some query) = parseTarget (some part) ∧ Asks (some query) (.ok served) := by
  have hquery : Decides (some query) part :=
    ⟨before, after, by decide +kernel, by decide +kernel, by decide +kernel⟩
  have hpart : Decides (some part) part :=
    ⟨[], [], by decide +kernel, by decide +kernel, by simp⟩
  have hsame := target_grammar_exact.2 _ _ _ hquery hpart
  have hserved : parseTarget (some part) = .ok served := by decide +kernel
  exact ⟨hquery, hpart, hsame, (target_grammar_exact.1 _ _).mp (hsame.trans hserved)⟩

end Boundary

end PeerCache
