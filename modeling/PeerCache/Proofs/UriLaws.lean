import PeerCache.Proofs.TextLaws
import PeerCache.Uri

/-!
# Laws of request targets

An absolute target is a scheme, an authority and the rest, which starts with the path. Reading
one cuts it where it was joined, so a target that has no fragment prints as the text that it was
read from, and what a target prints as is read again as the same.
-/

namespace PeerCache.Uri

/-- The text of an absolute target. -/
def absolute (name authority rest : List Char) : List Char :=
  name ++ ':' :: '/' :: '/' :: (authority ++ rest)

variable {name authority rest text : List Char} {u : Uri}

/-! ## Schemes -/

/-- Two texts that agree in lower case have their first colon at one place. -/
theorem lower_of_take {u v : List Char} {n : Nat} (hu : ':' ∉ u) (hn : ':' ∉ name)
    (h : Text.lower ((name ++ ':' :: rest).take n) = u ++ ':' :: v) : Text.lower name = u := by
  induction name generalizing u n with
  | nil =>
    cases n with
    | zero => simp [Text.lower] at h
    | succ n =>
      cases u with
      | nil => rfl
      | cons d u =>
        have hd : ':' = d := (List.cons.inj h).1
        exact absurd (hd ▸ List.mem_cons_self) hu
  | cons c name ih =>
    cases n with
    | zero => simp [Text.lower] at h
    | succ n =>
      cases u with
      | nil =>
        have hc : c = ':' := Text.eq_of_toLower rfl (List.cons.inj h).1
        exact absurd (hc ▸ List.mem_cons_self) hn
      | cons d u =>
        obtain ⟨hd, htail⟩ := List.cons.inj h
        have hrest := ih (fun hm => hu (List.mem_cons_of_mem d hm))
          (fun hm => hn (List.mem_cons_of_mem c hm)) htail
        show c.toLower :: Text.lower name = d :: u
        rw [hrest, hd]

theorem drop_absolute {n : Nat} (h : name.length = n) (authority rest : List Char) :
    (absolute name authority rest).drop (n + 3) = authority ++ rest := by
  rw [absolute]
  rw [← h, ← List.drop_drop, List.drop_left]
  rfl

/-- A scheme as it is found in a text: the usual ones are in lower case. -/
structure IsScheme (name : List Char) : Prop where
  chars : ∀ c ∈ name, isSchemeChar c = true
  http : Text.lower name = "http".toList → name = "http".toList
  https : Text.lower name = "https".toList → name = "https".toList

theorem isScheme_web (hname : name = "http".toList ∨ name = "https".toList) : IsScheme name := by
  obtain rfl | rfl := hname
  · exact ⟨List.all_eq_true.mp (by decide), fun _ => rfl, by decide⟩
  · exact ⟨List.all_eq_true.mp (by decide), by decide, fun _ => rfl⟩

theorem length_of_lower {usual : List Char} (h : Text.lower name = usual) :
    name.length = usual.length := by
  rw [← h, Text.lower, List.length_map]

theorem lower_take_absolute {usual : List Char} {n : Nat} (h : Text.lower name = usual)
    (hn : usual.length + 3 = n) (rest : List Char) :
    Text.lower ((name ++ ':' :: '/' :: '/' :: rest).take n) = usual ++ "://".toList := by
  have hlength := length_of_lower h
  have htake : (name ++ ':' :: '/' :: '/' :: rest).take n = name ++ "://".toList := by
    rw [← hn, ← hlength, List.take_length_add_append]
    rfl
  rw [htake, Text.lower, List.map_append, ← Text.lower, h]
  rfl

theorem splitScheme_inv (h : splitScheme text = .ok (some name, rest)) : IsScheme name := by
  unfold splitScheme at h
  split at h
  · obtain ⟨hname, -⟩ := Prod.mk.inj (Except.ok.inj h)
    exact isScheme_web (.inl (Option.some.inj hname).symm)
  split at h
  · obtain ⟨hname, -⟩ := Prod.mk.inj (Except.ok.inj h)
    exact isScheme_web (.inr (Option.some.inj hname).symm)
  next hhttp hhttps =>
  dsimp only at h
  split at h
  · next after hafter =>
    split at h
    · cases h
    · obtain ⟨hname, rfl⟩ := Prod.mk.inj (Except.ok.inj h)
      obtain rfl := Option.some.inj hname
      -- a usual scheme would have been found before
      have htext := List.takeWhile_append_dropWhile (p := isSchemeChar) (l := text)
      rw [hafter] at htext
      refine ⟨fun c hc => List.mem_takeWhile_imp hc, ?_, ?_⟩
      · intro hlower
        rw [← htext] at hhttp
        exact absurd (lower_take_absolute hlower rfl _) hhttp
      · intro hlower
        rw [← htext] at hhttps
        exact absurd (lower_take_absolute hlower rfl _) hhttps
  · cases h

theorem splitScheme_none (h : splitScheme text = .ok (none, rest)) : rest = text := by
  unfold splitScheme at h
  split at h
  · cases h
  split at h
  · cases h
  dsimp only at h
  split at h
  · split at h <;> cases h
  · exact (Prod.mk.inj (Except.ok.inj h)).2.symm

/-- A scheme is found where it was put. -/
theorem splitScheme_absolute (authority rest : List Char)
    (hname : ∀ c ∈ name, isSchemeChar c = true) :
    splitScheme (absolute name authority rest) = .error .schemeTooLong ∨
      ∃ name', splitScheme (absolute name authority rest) = .ok (some name', authority ++ rest) ∧
        (IsScheme name → name' = name) := by
  have hcolon : ':' ∉ name := by
    intro h
    exact absurd (hname ':' h) (by decide)
  rw [splitScheme]
  split
  · next h =>
    have hlower : Text.lower name = "http".toList :=
      lower_of_take (by decide) hcolon (v := ['/', '/']) h
    have hlength : name.length = 4 := length_of_lower hlower
    refine .inr ⟨"http".toList, ?_, fun hscheme => (hscheme.http hlower).symm⟩
    rw [drop_absolute hlength]
  split
  · next h =>
    have hlower : Text.lower name = "https".toList :=
      lower_of_take (by decide) hcolon (v := ['/', '/']) h
    have hlength : name.length = 5 := length_of_lower hlower
    refine .inr ⟨"https".toList, ?_, fun hscheme => (hscheme.https hlower).symm⟩
    rw [drop_absolute hlength]
  · have hmark : ∀ c ∈ (':' :: '/' :: '/' :: (authority ++ rest)).head?, isSchemeChar c = false := by
      rintro c hc
      obtain rfl := Option.some.inj hc
      decide
    have htake := Text.takeWhile_split hname hmark
    have hdrop := Text.dropWhile_split hname hmark
    rw [absolute]
    simp only [htake, hdrop]
    split
    · exact .inl rfl
    · exact .inr ⟨name, rfl, fun _ => rfl⟩

theorem splitScheme_usual (hname : name = "http".toList ∨ name = "https".toList)
    (authority rest : List Char) :
    splitScheme (absolute name authority rest) = .ok (some name, authority ++ rest) := by
  obtain rfl | rfl := hname <;> rfl

/-! ## Parts -/

theorem not_endsAuthority {c : Char} (h : isAuthorityChar c = true) : endsAuthority c = false := by
  simp only [endsAuthority, Bool.or_eq_false_iff, beq_eq_false_iff_ne]
  refine ⟨⟨?_, ?_⟩, ?_⟩ <;>
  · rintro rfl
    exact absurd h (by decide)

theorem not_endsAuthority_of_check (h : checkAuthority authority = .ok ()) :
    ∀ c ∈ authority, endsAuthority c = false := by
  intro c hc
  exact not_endsAuthority (List.all_eq_true.mp (all_of_checkAuthority h) c hc)

theorem endsAuthority_slash {path : List Char} (hrest : rest = '/' :: path) :
    ∀ c ∈ rest.head?, endsAuthority c = true := by
  rw [hrest]
  intro c hc
  obtain rfl := Option.some.inj hc
  rfl

theorem takeWhile_of_no_fragment (hf : '#' ∉ rest) : rest.takeWhile (· != '#') = rest := by
  apply List.takeWhile_eq_self_iff.mpr
  intro c hc
  rw [bne_iff_ne]
  rintro rfl
  exact hf hc

/-- The path in front of a query; an empty one becomes a slash. -/
def pathOf (rest : List Char) : List Char :=
  if (splitQuery rest).1.isEmpty then ['/'] else (splitQuery rest).1

/-- What is assembled has the parts that it was made of. -/
theorem assemble_inv {scheme authority : Option (List Char)}
    {hs : scheme.all (·.all isSchemeChar) = true}
    {ha : authority.all (·.all isAuthorityChar) = true}
    (h : assemble scheme authority rest hs ha = .ok u) :
    u.scheme = scheme.map String.ofList ∧ u.authority = authority.map String.ofList ∧
      u.path = String.ofList (pathOf rest) ∧ u.query = (splitQuery rest).2.map String.ofList := by
  by_cases hv : (pathOf rest).all isPathChar = true ∧
      (splitQuery rest).2.all (·.all isQueryChar) = true
  · have hu := (dif_pos hv).symm.trans h
    obtain rfl := Except.ok.inj hu
    exact ⟨rfl, rfl, rfl, rfl⟩
  · have hu := (dif_neg hv).symm.trans h
    cases hu

theorem exists_assemble {scheme authority : Option (List Char)}
    (hs : scheme.all (·.all isSchemeChar) = true)
    (ha : authority.all (·.all isAuthorityChar) = true)
    (hp : (pathOf rest).all isPathChar = true)
    (hq : (splitQuery rest).2.all (·.all isQueryChar) = true) :
    ∃ u, assemble scheme authority rest hs ha = .ok u :=
  ⟨_, dif_pos ⟨hp, hq⟩⟩

theorem split_authority (hauth : ∀ c ∈ authority, endsAuthority c = false)
    (hrest : ∀ c ∈ rest.head?, endsAuthority c = true) :
    (authority ++ rest).takeWhile (fun c => !endsAuthority c) = authority ∧
      (authority ++ rest).dropWhile (fun c => !endsAuthority c) = rest := by
  have hfront : ∀ c ∈ authority, (!endsAuthority c) = true := by simpa using hauth
  have hhead : ∀ c ∈ rest.head?, (!endsAuthority c) = false := by simpa using hrest
  exact ⟨Text.takeWhile_split hfront hhead, Text.dropWhile_split hfront hhead⟩

theorem parseFull_inv (hs : splitScheme text = .ok (some name, authority ++ rest))
    (hauth : ∀ c ∈ authority, endsAuthority c = false)
    (hrest : ∀ c ∈ rest.head?, endsAuthority c = true) (h : parseFull text = .ok u) :
    checkAuthority authority = .ok () ∧ authority ≠ [] ∧
      ∃ hs ha, assemble (some name) (some authority) rest hs ha = .ok u := by
  obtain ⟨htake, hdrop⟩ := split_authority hauth hrest
  unfold parseFull at h
  split at h
  · next e he => rw [hs] at he; cases he
  · next scheme after hafter =>
    have hpair := Except.ok.inj (hafter.symm.trans hs)
    obtain ⟨rfl, rfl⟩ := Prod.mk.inj hpair
    dsimp only at h
    split at h
    · cases h
    · next hcheck =>
      split at h
      · cases h
      · next hne =>
        rw [htake] at hcheck hne
        simp only [htake, hdrop] at h
        exact ⟨hcheck, by simpa using hne, _, _, h⟩

theorem exists_parseFull (hs : splitScheme text = .ok (some name, authority ++ rest))
    (hauth : ∀ c ∈ authority, endsAuthority c = false)
    (hrest : ∀ c ∈ rest.head?, endsAuthority c = true)
    (hcheck : checkAuthority authority = .ok ()) (hne : authority ≠ [])
    (hp : (pathOf rest).all isPathChar = true)
    (hq : (splitQuery rest).2.all (·.all isQueryChar) = true) :
    ∃ u, parseFull text = .ok u := by
  obtain ⟨htake, hdrop⟩ := split_authority hauth hrest
  rw [parseFull]
  split
  · next e he => rw [hs] at he; cases he
  · next scheme after hafter =>
    obtain ⟨rfl, rfl⟩ := Prod.mk.inj (Except.ok.inj (hafter.symm.trans hs))
    dsimp only
    split
    · next e he =>
      rw [htake, hcheck] at he
      cases he
    · split
      · next hempty =>
        rw [htake, List.isEmpty_iff] at hempty
        exact absurd hempty hne
      · simp only [htake, hdrop]
        exact exists_assemble _ _ hp hq

/-- A fragment is not read. -/
theorem splitQuery_fragment {fragment : List Char} (hrest : '#' ∉ rest)
    (hf : ∀ c ∈ fragment.head?, c = '#') : splitQuery (rest ++ fragment) = splitQuery rest := by
  have hfront : ∀ c ∈ rest, (c != '#') = true := by
    intro c hc
    rw [bne_iff_ne]
    rintro rfl
    exact hrest hc
  have hfragment : ∀ c ∈ fragment.head?, (c != '#') = false := by
    intro c hc
    rw [hf c hc]
    rfl
  rw [splitQuery, splitQuery, Text.takeWhile_split hfront hfragment, takeWhile_of_no_fragment hrest]

theorem pathOf_fragment {fragment : List Char} (hrest : '#' ∉ rest)
    (hf : ∀ c ∈ fragment.head?, c = '#') : pathOf (rest ++ fragment) = pathOf rest := by
  rw [pathOf, splitQuery_fragment hrest hf, pathOf]

/-- A path and a query in front of a fragment. -/
theorem splitQuery_append {path query fragment : List Char} (hp : ∀ c ∈ path, c ≠ '?' ∧ c ≠ '#')
    (hq : '#' ∉ query) (hf : ∀ c ∈ fragment.head?, c = '#') :
    splitQuery (path ++ '?' :: query ++ fragment) = (path, some query) := by
  have hfront : '#' ∉ path ++ '?' :: query := by
    rw [List.mem_append, List.mem_cons, not_or, not_or]
    exact ⟨fun hmem => (hp _ hmem).2 rfl, by decide, hq⟩
  rw [splitQuery_fragment hfront hf, splitQuery, takeWhile_of_no_fragment hfront]
  exact Text.cut_append (fun c hc => beq_eq_false_iff_ne.mpr (hp c hc).1) rfl

/-- The path in front of a query is the one that was given, or a slash when that is empty. -/
theorem pathOf_append {path query fragment : List Char} (hp : ∀ c ∈ path, c ≠ '?' ∧ c ≠ '#')
    (hq : '#' ∉ query) (hf : ∀ c ∈ fragment.head?, c = '#') :
    pathOf (path ++ '?' :: query ++ fragment) = if path = [] then ['/'] else path := by
  rw [pathOf, splitQuery_append hp hq hf]
  simp only [List.isEmpty_iff]

/-! ## Reading -/

/-- An absolute target is neither a path nor the star. -/
theorem parse_absolute (hname : ∀ c ∈ name, isSchemeChar c = true) (authority rest : List Char) :
    parse (absolute name authority rest) =
      if (Utf8.encode (absolute name authority rest)).length > maxLength then .error .tooLong
      else parseFull (absolute name authority rest) := by
  simp only [parse]
  split
  · rfl
  · split
    · next h =>
      have hlength := congrArg List.length h
      simp [absolute] at hlength
    · next h =>
      have hlength := congrArg List.length h
      simp only [absolute, List.length_append, List.length_cons, List.length_nil] at hlength
      omega
    · next h =>
      cases name with
      | nil => cases h
      | cons c name =>
        obtain rfl := (List.cons.inj h).1
        exact absurd (hname '/' List.mem_cons_self) (by decide)
    · rfl

theorem parse_absolute_inv (hname : ∀ c ∈ name, isSchemeChar c = true)
    (hauth : ∀ c ∈ authority, endsAuthority c = false)
    (hrest : ∀ c ∈ rest.head?, endsAuthority c = true)
    (h : parse (absolute name authority rest) = .ok u) :
    (Utf8.encode (absolute name authority rest)).length ≤ maxLength ∧
      (IsScheme name → u.scheme = some (String.ofList name)) ∧
      u.authority = some (String.ofList authority) ∧ u.path = String.ofList (pathOf rest) ∧
      u.query = (splitQuery rest).2.map String.ofList := by
  rw [parse_absolute hname] at h
  split at h
  · cases h
  · next hlength =>
    refine ⟨Nat.le_of_not_lt hlength, ?_⟩
    obtain herror | ⟨name', hsplit, hsame⟩ := splitScheme_absolute authority rest hname
    · unfold parseFull at h
      split at h
      · cases h
      · next hok =>
        rw [herror] at hok
        cases hok
    · obtain ⟨-, -, _, _, hassemble⟩ := parseFull_inv hsplit hauth hrest h
      obtain ⟨hscheme, hparts⟩ := assemble_inv hassemble
      exact ⟨fun hn => hsame hn ▸ hscheme, hparts⟩

/-- A rest without a fragment that starts with a path is that path and its query. -/
theorem splitQuery_parts {path : List Char} (hrest : rest = '/' :: path) (hf : '#' ∉ rest) :
    pathOf rest = (splitQuery rest).1 ∧
      rest = (splitQuery rest).1 ++ (splitQuery rest).2.elim [] fun q => '?' :: q := by
  have hsplit : splitQuery rest = Text.cut (· == '?') rest := by
    rw [splitQuery, takeWhile_of_no_fragment hf]
  obtain ⟨-, ⟨hnone, hparts⟩ | ⟨mark, back, hsome, hmark, hparts⟩⟩ :=
    Text.cut_parts (· == '?') rest
  · rw [pathOf, hsplit, hnone]
    refine ⟨if_neg ?_, by rw [← hparts]; simp⟩
    rw [← hparts, hrest]
    simp
  · rw [pathOf, hsplit, hsome]
    obtain rfl : mark = '?' := by simpa using hmark
    refine ⟨if_neg ?_, hparts⟩
    intro hempty
    rw [List.isEmpty_iff.mp hempty, hrest] at hparts
    cases hparts

/-- Path and query as they are printed behind an authority. -/
def printedRest (u : Uri) : List Char :=
  u.path.toList ++ u.query.elim [] fun q => '?' :: q.toList

theorem printedRest_of_path {path : List Char} (h : u.path.toList = '/' :: path) :
    u.printedRest = '/' :: (path ++ u.query.elim [] fun q => '?' :: q.toList) := by
  rw [printedRest, h, List.cons_append]

theorem text_eq_absolute {scheme : String} (hs : u.scheme = some scheme)
    (ha : u.authority = some (String.ofList authority)) :
    u.text.toList = absolute scheme.toList authority u.printedRest := by
  rw [text, absolute, printedRest]
  rw [hs, ha]
  cases u.query <;> simp [String.toList_append]

theorem text_eq_printedRest (hs : u.scheme = none) (ha : u.authority = none) :
    u.text.toList = u.printedRest := by
  rw [text, printedRest]
  rw [hs, ha]
  cases u.query <;> simp [String.toList_append]

theorem printedRest_eq {path : List Char} (hrest : rest = '/' :: path) (hf : '#' ∉ rest)
    (hp : u.path = String.ofList (pathOf rest))
    (hq : u.query = (splitQuery rest).2.map String.ofList) : u.printedRest = rest := by
  obtain ⟨hpath, hparts⟩ := splitQuery_parts hrest hf
  rw [printedRest, hp, hq, hpath, String.toList_ofList]
  generalize splitQuery rest = parts at hparts
  obtain ⟨front, query⟩ := parts
  rw [hparts]
  cases query <;> simp

/-- An absolute target prints as the text that it was read from, up to a fragment. -/
theorem text_of_parse_fragment {path fragment : List Char} (hname : IsScheme name)
    (hauth : ∀ c ∈ authority, endsAuthority c = false) (hrest : rest = '/' :: path)
    (hf : '#' ∉ rest) (hfragment : ∀ c ∈ fragment.head?, c = '#')
    (h : parse (absolute name authority (rest ++ fragment)) = .ok u) :
    u.text.toList = absolute name authority rest := by
  have hhead : rest ++ fragment = '/' :: (path ++ fragment) := by rw [hrest, List.cons_append]
  obtain ⟨-, hscheme, ha, hp, hq⟩ :=
    parse_absolute_inv hname.chars hauth (endsAuthority_slash hhead) h
  rw [pathOf_fragment hf hfragment] at hp
  rw [splitQuery_fragment hf hfragment] at hq
  rw [text_eq_absolute (hscheme hname) ha, printedRest_eq hrest hf hp hq, String.toList_ofList]

theorem text_of_parse {path : List Char} (hname : IsScheme name)
    (hauth : ∀ c ∈ authority, endsAuthority c = false) (hrest : rest = '/' :: path)
    (hf : '#' ∉ rest) (h : parse (absolute name authority rest) = .ok u) :
    u.text.toList = absolute name authority rest := by
  rw [← List.append_nil rest] at h
  exact text_of_parse_fragment hname hauth hrest hf (by simp) h

/-- So does a path with its query. -/
theorem text_of_parse_path {path : List Char} (hrest : rest = '/' :: path) (hf : '#' ∉ rest)
    (h : parse rest = .ok u) : u.text.toList = rest := by
  have hassemble : assemble none none rest rfl rfl = .ok u := by
    subst hrest
    simp only [parse] at h
    split at h
    · cases h
    · exact h
  obtain ⟨hs, ha, hp, hq⟩ := assemble_inv hassemble
  rw [text_eq_printedRest hs ha, printedRest_eq hrest hf hp hq]

/-! ## Characters -/

/-- Whether a character may stand anywhere in a target. -/
def isTextChar (c : Char) : Bool :=
  isSchemeChar c || isAuthorityChar c || isPathChar c || isQueryChar c

theorem isTextChar_text (u : Uri) : ∀ c ∈ u.text.toList, isTextChar c = true := by
  obtain ⟨scheme, authority, path, query, hs, ha, hp, hq⟩ := u
  have hclass : ∀ {test : Char → Bool} {text : String}, text.toList.all test = true →
      (∀ c, test c = true → isTextChar c = true) → ∀ c ∈ text.toList, isTextChar c = true :=
    fun h htest c hc => htest c (List.all_eq_true.mp h c hc)
  have hpath : ∀ c ∈ path.toList, isTextChar c = true :=
    hclass hp fun c hc => by simp [isTextChar, hc]
  have hscheme : ∀ c ∈ (scheme.elim "" fun s => s ++ "://").toList, isTextChar c = true := by
    cases scheme with
    | none => simp
    | some s =>
      show ∀ c ∈ (s ++ "://").toList, isTextChar c = true
      rw [String.toList_append, List.forall_mem_append]
      exact ⟨hclass hs fun c hc => by simp [isTextChar, hc], List.all_eq_true.mp (by decide)⟩
  have hauthority : ∀ c ∈ (authority.getD "").toList, isTextChar c = true := by
    cases authority with
    | none => simp
    | some a =>
      show ∀ c ∈ a.toList, isTextChar c = true
      exact hclass ha fun c hc => by simp [isTextChar, hc]
  have hquery : ∀ c ∈ (query.elim "" fun q => "?" ++ q).toList, isTextChar c = true := by
    cases query with
    | none => simp
    | some q =>
      show ∀ c ∈ ("?" ++ q).toList, isTextChar c = true
      rw [String.toList_append, List.forall_mem_append]
      exact ⟨List.all_eq_true.mp (by decide), hclass hq fun c hc => by simp [isTextChar, hc]⟩
  rw [text]
  simp only [String.toList_append, List.forall_mem_append]
  exact ⟨⟨⟨hscheme, hauthority⟩, hpath⟩, hquery⟩

theorem not_mem_text (u : Uri) {mark : Char} (hm : isTextChar mark = false) :
    mark ∉ u.text.toList := by
  intro h
  exact Bool.false_ne_true (hm.symm.trans (u.isTextChar_text mark h))

/-- A target holds neither blanks nor controls. -/
theorem visible_text (u : Uri) : ∀ c ∈ u.text.toList, 32 < c.toNat := by
  intro c hc
  apply Nat.lt_of_not_le
  intro hle
  have hall : ∀ n < 33, isTextChar (Char.ofNat n) = false := by decide
  have hclass := hall c.toNat (Nat.lt_succ_of_le hle)
  rw [Char.ofNat_toNat, u.isTextChar_text c hc] at hclass
  cases hclass

/-! ## Printing -/

/-- What follows an authority starts a path, a query or a fragment, and the last two leave a
slash for the path. -/
theorem slash_of_rest {rest : List Char} (hrest : ∀ c ∈ rest.head?, endsAuthority c = true) :
    ∃ path, pathOf rest = '/' :: path := by
  cases rest with
  | nil => exact ⟨[], rfl⟩
  | cons c rest =>
    have hc : (c = '/' ∨ c = '?') ∨ c = '#' := by
      simpa [endsAuthority] using hrest c rfl
    obtain (rfl | rfl) | rfl := hc
    · refine ⟨(Text.cut (· == '?') (rest.takeWhile (· != '#'))).1, ?_⟩
      have hsplit : splitQuery ('/' :: rest) = Text.cut (· == '?')
          ('/' :: rest.takeWhile (· != '#')) := rfl
      rw [pathOf, hsplit, Text.cut_cons_of_not (by decide)]
      rfl
    · have hsplit : splitQuery ('?' :: rest) = Text.cut (· == '?')
          ('?' :: rest.takeWhile (· != '#')) := rfl
      rw [pathOf, hsplit, Text.cut_cons_of_mark (by decide)]
      exact ⟨[], rfl⟩
    · exact ⟨[], rfl⟩

/-- The shapes of a target that was read from a text. -/
inductive Shape (text : List Char) (u : Uri) : Prop
  | star (h : u = star)
  | path {path : List Char} (hs : u.scheme = none) (ha : u.authority = none)
    (hp : u.path.toList = '/' :: path)
  | authority (hs : u.scheme = none) (h : u.text.toList = text)
  | absolute {name authority path : List Char} (hname : IsScheme name)
    (hs : u.scheme = some (String.ofList name)) (ha : u.authority = some (String.ofList authority))
    (hcheck : checkAuthority authority = .ok ()) (hne : authority ≠ [])
    (hp : u.path.toList = '/' :: path)

theorem shape_parseFull (h : parseFull text = .ok u) : Shape text u := by
  unfold parseFull at h
  split at h
  · cases h
  · next scheme after hafter =>
    dsimp only at h
    split at h
    · cases h
    · next hcheck =>
      split at h
      · split at h
        · next hall =>
          have hwhole : after.takeWhile (fun c => !endsAuthority c) = text := by
            rw [(List.takeWhile_prefix _).eq_of_length hall, splitScheme_none hafter]
          obtain rfl := Except.ok.inj h
          refine .authority rfl ?_
          simp [Uri.text, ofAuthority, hwhole]
        · cases h
      · split at h
        · cases h
        · next hne =>
          obtain ⟨hs, ha, hp, -⟩ := assemble_inv h
          obtain ⟨path, hpath⟩ := slash_of_rest fun c hc => by
            simpa using (Text.split_parts (fun c => !endsAuthority c) after).2.1 c hc
          have hbehind : u.path.toList = '/' :: path := by
            rw [hp, hpath, String.toList_ofList]
          exact .absolute (splitScheme_inv hafter) hs ha hcheck (by simpa using hne) hbehind

theorem shape_parse (h : parse text = .ok u) : Shape text u := by
  unfold parse at h
  split at h
  · cases h
  split at h
  · cases h
  · exact .star (Except.ok.inj h).symm
  · next path hlist =>
    obtain ⟨hs, ha, hp, -⟩ := assemble_inv h
    obtain ⟨behind, hpath⟩ : ∃ behind, pathOf ('/' :: path) = '/' :: behind :=
      slash_of_rest (endsAuthority_slash rfl)
    have hbehind : u.path.toList = '/' :: behind := by
      rw [hp, hpath, String.toList_ofList]
    exact .path hs ha hbehind
  · exact shape_parseFull h

/-- A target that has a scheme has an authority that was checked, and a path behind it. -/
theorem parts_of_parse {scheme : String} (h : parse text = .ok u) (hs : u.scheme = some scheme) :
    ∃ authority path, u.authority = some (String.ofList authority) ∧
      checkAuthority authority = .ok () ∧ authority ≠ [] ∧ u.path.toList = '/' :: path := by
  cases shape_parse h with
  | star h =>
    rw [h] at hs
    cases hs
  | path hnone =>
    rw [hnone] at hs
    cases hs
  | authority hnone =>
    rw [hnone] at hs
    cases hs
  | @absolute name authority path hname hsome ha hcheck hne hp =>
    exact ⟨authority, path, ha, hcheck, hne, hp⟩

theorem not_mem_path (u : Uri) {mark : Char} (hm : isPathChar mark = false) :
    mark ∉ u.path.toList := by
  intro h
  exact Bool.false_ne_true (hm.symm.trans (List.all_eq_true.mp u.path_valid mark h))

theorem not_mem_query {query : String} (hq : u.query = some query) {mark : Char}
    (hm : isQueryChar mark = false) : mark ∉ query.toList := by
  intro h
  have hvalid := u.query_valid
  rw [hq] at hvalid
  exact Bool.false_ne_true (hm.symm.trans (List.all_eq_true.mp hvalid mark h))

theorem fragment_not_mem_printedRest (u : Uri) : '#' ∉ u.printedRest := by
  rw [printedRest]
  rw [List.mem_append, not_or]
  refine ⟨u.not_mem_path (by decide), ?_⟩
  cases hq : u.query with
  | none => simp
  | some query =>
    have hquery : '#' ∉ query.toList := not_mem_query hq (by decide)
    simpa using hquery

/-- What a target prints as is read, if at all, as a target that prints in the same way. -/
theorem text_parse_text {u' : Uri} (h : parse text = .ok u) (h' : parse u.text.toList = .ok u') :
    u'.text = u.text := by
  rw [← String.toList_inj]
  have hf := u.fragment_not_mem_printedRest
  cases shape_parse h with
  | star hstar =>
    subst hstar
    obtain rfl : star = u' := Except.ok.inj h'
    rfl
  | @path path hs ha hp =>
    rw [text_eq_printedRest hs ha] at h' ⊢
    have hrest := printedRest_of_path hp
    exact text_of_parse_path hrest hf h'
  | authority hs htext =>
    rw [htext] at h'
    rw [Except.ok.inj (h'.symm.trans h)]
  | @absolute name authority path hname hs ha hcheck hne hp =>
    have hauth := not_endsAuthority_of_check hcheck
    have hrest := printedRest_of_path hp
    rw [text_eq_absolute hs ha, String.toList_ofList] at h' ⊢
    exact text_of_parse hname hauth hrest hf h'

end PeerCache.Uri
