import PeerCache.Proofs.PathLaws
import PeerCache.Url.Basic

/-!
# Laws of addresses

What the parts of an address that was read can hold. Name, password, host and port hold no
character that ends an authority, a path starts with a slash and holds no mark of a query or a
fragment, and nothing holds a blank or a control. So an address prints as an absolute target
whose parts can be told apart again.
-/

namespace PeerCache

namespace Url

variable {rules : PathRules} {text scheme : List Char}

/-! ## Parts of the authority -/

theorem isHostChar_userinfoText (raw : List Char) :
    ∀ c ∈ userinfoText raw, isHostChar c = true := by
  have hpart : ∀ t, ∀ c ∈ Percent.encodeText plainInUserinfo t, isHostChar c = true :=
    fun t c h => isHostChar_of_encodeText (by decide) h
  have hpassword : ∀ t : List Char, (∀ c ∈ t, isHostChar c = true) →
      ∀ c ∈ (if t.isEmpty then [] else ':' :: t), isHostChar c = true := by
    intro t ht
    split
    · simp
    · rw [List.forall_mem_cons]
      exact ⟨by decide, ht⟩
  have hjoined : ∀ name password : List Char, (∀ c ∈ name, isHostChar c = true) →
      (∀ c ∈ password, isHostChar c = true) →
      ∀ c ∈ (if name.isEmpty && password.isEmpty then [] else name ++ password ++ ['@']),
        isHostChar c = true := by
    intro name password hname hword
    split
    · simp
    · rw [List.forall_mem_append, List.forall_mem_append]
      exact ⟨⟨hname, hword⟩, List.all_eq_true.mp (by decide)⟩
  exact hjoined _ _ (hpart _) (hpassword _ (hpart _))

theorem splitUserinfo_suffix (rules : PathRules) (text : List Char) :
    (splitUserinfo rules text).2 <:+ text := by
  unfold splitUserinfo
  dsimp only
  split
  · exact List.suffix_rfl
  · exact List.drop_suffix _ _

theorem splitHost_append (rules : PathRules) (inside : Bool) (text : List Char) :
    (splitHost rules inside text).1 ++ (splitHost rules inside text).2 = text := by
  induction text generalizing inside with
  | nil => rfl
  | cons c rest ih =>
    rw [splitHost]
    split
    · rfl
    · exact congrArg (c :: ·) (ih _)

theorem readPort_suffix {r : Option Nat × List Char} (h : readPort text = .ok r) :
    r.2 <:+ text := by
  unfold readPort at h
  split at h
  · dsimp only at h
    split at h
    · cases h
    split at h
    · obtain rfl := Except.ok.inj h
      exact (List.dropWhile_suffix _).trans (List.suffix_cons _ _)
    · cases h
  · obtain rfl := Except.ok.inj h
    exact List.suffix_rfl

/-! ## Reading -/

/-- An address that was assembled from parts that may stand in an authority, and from the end
of the text that was read. -/
def AssembledFrom (text scheme : List Char) (url : Url) : Prop :=
  ∃ userinfo host port rest, url = assemble (rulesOf scheme) scheme userinfo host port rest ∧
    (∀ c ∈ userinfo, isHostChar c = true) ∧ (∀ c ∈ host, isHostChar c = true) ∧ host ≠ [] ∧
    rest <:+ text

theorem AssembledFrom.of_port {userinfo host after : List Char} {url : Url}
    (hu : ∀ c ∈ userinfo, isHostChar c = true) (hh : ∀ c ∈ host, isHostChar c = true)
    (hne : host ≠ []) (hs : after <:+ text)
    (h : ((readPort after).bind fun r =>
      .ok (Address.hosted (assemble (rulesOf scheme) scheme userinfo host r.1 r.2))) =
        .ok (Address.hosted url)) :
    AssembledFrom text scheme url := by
  cases hr : readPort after with
  | error e =>
    rw [hr] at h
    cases h
  | ok r =>
    rw [hr] at h
    obtain rfl := Address.hosted.inj (Except.ok.inj h)
    exact ⟨userinfo, host, r.1, r.2, rfl, hu, hh, hne, (readPort_suffix hr).trans hs⟩

theorem readAuthority_inv {url : Url} (h : readAuthority scheme text = .ok (.hosted url)) :
    AssembledFrom text scheme url := by
  have huser : ∀ c ∈ ((splitUserinfo (rulesOf scheme) text).1.map userinfoText).getD [],
      isHostChar c = true := by
    cases (splitUserinfo (rulesOf scheme) text).1 with
    | none => simp
    | some raw => exact isHostChar_userinfoText raw
  have hsuffix : (splitHost (rulesOf scheme) false
      (splitUserinfo (rulesOf scheme) text).2).2 <:+ text := by
    refine List.IsSuffix.trans ?_ (splitUserinfo_suffix (rulesOf scheme) text)
    exact ⟨_, splitHost_append (rulesOf scheme) false _⟩
  unfold readAuthority at h
  simp only [bind, Except.bind, pure, Except.pure, throw, throwThe, MonadExceptOf.throw] at h
  split at h
  · cases h
  split at h
  · split at h <;> cases h
  next hsome =>
  have hgiven : (splitHost (rulesOf scheme) false (splitUserinfo (rulesOf scheme) text).2).1 ≠ [] := by
    intro hnil
    exact hsome (List.isEmpty_iff.mpr hnil)
  split at h
  · split at h
    · cases h
    · next host hhost =>
      exact .of_port huser (Host.isHostChar_ofText hhost) (Host.ne_nil_ofText hhost) hsuffix h
  · split at h
    · cases h
    · next host hhost =>
      exact .of_port huser (Host.isHostChar_ofOpaque hhost) (Host.ne_nil_ofOpaque hgiven hhost)
        hsuffix h

theorem readFile_inv {url : Url} (h : readFile scheme text = .ok (.hosted url)) :
    AssembledFrom text scheme url := by
  unfold readFile at h
  simp only [bind, Except.bind, pure, Except.pure] at h
  split at h
  · next a b after =>
    split at h
    · cases h
    split at h
    · cases h
    · next host hhost =>
      split at h
      · cases h
      · obtain rfl := Address.hosted.inj (Except.ok.inj h)
        refine ⟨[], host, none, _, rfl, by simp, Host.isHostChar_ofText hhost,
          Host.ne_nil_ofText hhost, ?_⟩
        exact (List.dropWhile_suffix _).trans
          ((List.suffix_cons b after).trans (List.suffix_cons a (b :: after)))
  · cases h

theorem AssembledFrom.of_suffix {url : Url} {after : List Char}
    (h : AssembledFrom after scheme url) (hs : after <:+ text) : AssembledFrom text scheme url := by
  obtain ⟨userinfo, host, port, rest, hurl, hu, hh, hne, hrest⟩ := h
  exact ⟨userinfo, host, port, rest, hurl, hu, hh, hne, hrest.trans hs⟩

theorem splitScheme_inv {rest : List Char} (h : splitScheme text = some (scheme, rest)) :
    (∀ c ∈ scheme, Uri.isSchemeChar c = true) ∧ rest <:+ text := by
  unfold splitScheme at h
  split at h
  · dsimp only at h
    split at h
    · next after hafter =>
      obtain ⟨rfl, rfl⟩ := Prod.mk.inj (Option.some.inj h)
      constructor
      · intro c hc
        obtain ⟨d, hd, rfl⟩ := List.mem_map.mp hc
        have hclass := List.mem_takeWhile_imp hd
        have hlt : d.toNat < 128 := by
          simp only [Bool.or_eq_true, beq_iff_eq] at hclass
          obtain ((halpha | rfl) | rfl) | rfl := hclass
          · exact Text.lt_of_isAlphanum halpha
          all_goals decide
        have hall : ∀ n < 128, ((Char.ofNat n).isAlphanum || Char.ofNat n == '+' ||
            Char.ofNat n == '-' || Char.ofNat n == '.') = true →
            Uri.isSchemeChar (Char.ofNat n).toLower = true := by decide
        exact Text.of_ascii (p := fun c => (c.isAlphanum || c == '+' || c == '-' || c == '.') =
          true → Uri.isSchemeChar c.toLower = true) hall hlt hclass
      · exact (List.suffix_cons ':' after).trans (hafter ▸ List.dropWhile_suffix _)
    · cases h
  · cases h

/-- Every address with a host that is read was assembled from parts of the text. -/
theorem parse_inv {url : Url} (h : parse text = .ok (.hosted url)) :
    ∃ scheme, (∀ c ∈ scheme, Uri.isSchemeChar c = true) ∧
      AssembledFrom (relevant text) scheme url := by
  unfold parse at h
  split at h
  · cases h
  · next scheme rest hsplit =>
    obtain ⟨hchars, hrest⟩ := splitScheme_inv hsplit
    refine ⟨scheme, hchars, ?_⟩
    split at h
    · exact (readFile_inv h).of_suffix hrest
    split at h
    · exact (readAuthority_inv h).of_suffix ((List.dropWhile_suffix _).trans hrest)
    · split at h
      · next after =>
        have hafter : after <:+ '/' :: '/' :: after :=
          (List.suffix_cons '/' after).trans (List.suffix_cons '/' ('/' :: after))
        exact (readAuthority_inv h).of_suffix (hafter.trans hrest)
      · cases h

/-! ## Printing -/

/-- What is printed between the slashes and the path. -/
def authorityText (url : Url) : List Char :=
  (url.userinfo ++ url.hostAndPort).toList

/-- What is printed from the path on. -/
def restText (url : Url) : List Char :=
  (url.path ++ (url.query.elim "" fun q => "?" ++ q) ++
    url.fragment.elim "" fun f => "#" ++ f).toList

theorem text_eq_absolute (url : Url) :
    url.text.toList = Uri.absolute url.scheme.toList url.authorityText url.restText := by
  simp [text, Uri.absolute, authorityText, restText, hostAndPort, String.toList_append]

/-- The address of what a fragment points into. -/
def withoutFragment (url : Url) : Url :=
  { url with fragment := none }

/-- A fragment is printed behind everything else. -/
theorem restText_eq (url : Url) : ∃ fragment,
    url.restText = url.withoutFragment.restText ++ fragment ∧ ∀ c ∈ fragment.head?, c = '#' := by
  refine ⟨(url.fragment.elim "" fun f => "#" ++ f).toList, ?_, ?_⟩
  · simp [restText, withoutFragment, String.toList_append]
  · cases url.fragment with
    | none => simp
    | some f =>
      intro c hc
      rw [Option.elim_some, String.toList_append] at hc
      exact (Option.some.inj hc).symm

theorem withoutFragment_of_none {url : Url} (h : url.fragment = none) :
    url.withoutFragment = url := by
  rw [withoutFragment, ← h]

theorem isHostChar_portText (url : Url) : ∀ c ∈ url.portText.toList, isHostChar c = true := by
  rw [portText]
  cases url.port with
  | none => simp
  | some port =>
    simp only [Option.elim, String.toList_append, Nat.toList_repr, List.forall_mem_append]
    exact ⟨List.all_eq_true.mp (by decide), Host.isHostChar_decimal port⟩

theorem isHostChar_hostAndPort {url : Url} (h : AssembledFrom text scheme url) :
    ∀ c ∈ url.hostAndPort.toList, isHostChar c = true := by
  obtain ⟨userinfo, host, port, rest, hurl, -, hh, -⟩ := h
  have hhost : url.host.toList = host := by
    rw [hurl]
    exact String.toList_ofList
  rw [hostAndPort]
  rw [String.toList_append, List.forall_mem_append, hhost]
  exact ⟨hh, isHostChar_portText url⟩

theorem isHostChar_authorityText {url : Url} (h : AssembledFrom text scheme url) :
    ∀ c ∈ url.authorityText, isHostChar c = true := by
  have hport := isHostChar_hostAndPort h
  obtain ⟨userinfo, host, port, rest, hurl, hu, -, -⟩ := h
  have huser : url.userinfo.toList = userinfo := by
    rw [hurl]
    exact String.toList_ofList
  rw [authorityText]
  rw [String.toList_append, List.forall_mem_append, huser]
  exact ⟨hu, hport⟩

/-- The usual port of a scheme is left out. -/
theorem AssembledFrom.port_ne {url : Url} (h : AssembledFrom text scheme url) :
    ∀ port, url.port = some port → defaultPort? url.scheme.toList ≠ some port := by
  obtain ⟨userinfo, host, given, rest, rfl, -⟩ := h
  intro port hport
  rw [assemble, String.toList_ofList]
  dsimp only [assemble] at hport
  split at hport
  · cases hport
  · next hne =>
    rw [← hport]
    exact Ne.symm hne

/-! ## Another path -/

theorem authorityText_withPath (url : Url) (path : String) (query : Option String) :
    { url.withPath path with query }.authorityText = url.authorityText := by
  simp only [authorityText, hostAndPort, portText, withPath]

theorem hostAndPort_withPath (url : Url) (path : String) (query : Option String) :
    { url.withPath path with query }.hostAndPort = url.hostAndPort := by
  simp only [hostAndPort, portText, withPath]

/-- A path that an address is given holds no mark of what follows a path. -/
theorem isPathText_withPath (url : Url) (path : String) :
    ∀ c ∈ (url.withPath path).path.toList, isPathText c = true := by
  rw [withPath, String.toList_ofList]
  exact isPathText_normalPath _ _

/-- It starts with a slash, or is empty. -/
theorem slash_of_withPath (url : Url) (path : String) :
    ∀ c ∈ (url.withPath path).path.toList.head?, c = '/' := by
  rw [withPath, String.toList_ofList]
  exact head_normalPath _ _

/-- A path of such characters that starts with a slash is read as it is given. -/
theorem toList_withPath {url : Url} {path : String} (hchars : ∀ c ∈ path.toList, isPathText c = true)
    (hhead : ∀ c ∈ path.toList.head?, c = '/') :
    (url.withPath path).path.toList = normalPath (rulesOf url.scheme.toList) path.toList := by
  have hkept : path.toList.filter (fun c => !isIgnored c) = path.toList := by
    rw [List.filter_eq_self]
    intro c hc
    have hall : ∀ n < 128, isPathText (Char.ofNat n) = true → (!isIgnored (Char.ofNat n)) = true := by
      decide
    have htext := hchars c hc
    have hlt : c.toNat < 128 := by
      simp only [isPathText, Bool.and_eq_true, decide_eq_true_eq] at htext
      omega
    exact Text.of_ascii (p := fun c => isPathText c = true → (!isIgnored c) = true) hall hlt htext
  have hmark : path.toList.head?.any (fun c => c == '?' || c == '#') = false := by
    cases hlist : path.toList with
    | nil => rfl
    | cons c rest =>
      rw [hlist] at hhead
      rw [hhead c rfl]
      rfl
  rw [withPath]
  dsimp only
  rw [hkept, hmark, if_neg (by simp), String.toList_ofList]

/-! ## Addresses of the web -/

theorem rulesOf_web (hname : scheme = "http".toList ∨ scheme = "https".toList) :
    (rulesOf scheme).usual = true ∧ (rulesOf scheme).file = false := by
  obtain rfl | rfl := hname <;> decide

theorem fragment_not_mem_encodeText {usual : Bool} {t : List Char} :
    '#' ∉ Percent.encodeText (plainInQuery usual) t := by
  intro h
  obtain ⟨-, -, hkeep⟩ | hmark | halpha := Percent.mem_encodeText h
  · have hmark : ∀ usual, plainInQuery usual '#' = false := by decide
    exact Bool.false_ne_true ((hmark usual).symm.trans hkeep)
  · exact absurd hmark (by decide)
  · exact absurd halpha (by decide)

/-- A query does not bring a fragment mark. -/
theorem query_readTail (rules : PathRules) (t : List Char) :
    ∀ q ∈ (readTail rules t).1, '#' ∉ q.toList := by
  intro q hq
  dsimp only [readTail] at hq
  split at hq
  · obtain rfl := Option.some.inj hq
    rw [String.toList_ofList]
    exact fragment_not_mem_encodeText
  · cases hq

/-- Without a fragment mark there is no fragment. -/
theorem fragment_readTail (rules : PathRules) {t : List Char} (hf : '#' ∉ t) :
    (readTail rules t).2 = none := by
  have hcut : Text.cut (· == '#') t = (t, none) := Text.cut_of_not fun c hc => by
    rw [beq_eq_false_iff_ne]
    rintro rfl
    exact hf hc
  rw [readTail]
  rw [hcut]
  rfl

theorem AssembledFrom.fragment_eq_none {url : Url} (h : AssembledFrom text scheme url)
    (hf : '#' ∉ text) : url.fragment = none := by
  obtain ⟨userinfo, host, port, rest, rfl, -, -, -, hrest⟩ := h
  have hmark : '#' ∉ rest.dropWhile fun c => !(c == '?' || c == '#') := by
    intro hm
    exact hf (((List.dropWhile_suffix _).trans hrest).mem hm)
  exact fragment_readTail (rulesOf scheme) hmark

/-- An address of the web goes on behind its authority with a slash, and holds no fragment mark
in front of its fragment. -/
theorem AssembledFrom.restText_withoutFragment {url : Url} (h : AssembledFrom text scheme url)
    (hname : scheme = "http".toList ∨ scheme = "https".toList) :
    (∃ path, url.withoutFragment.restText = '/' :: path) ∧ '#' ∉ url.withoutFragment.restText := by
  obtain ⟨userinfo, host, port, rest, rfl, -⟩ := h
  obtain ⟨husual, -⟩ := rulesOf_web hname
  obtain ⟨path, hpath⟩ : ∃ path, normalPath (rulesOf scheme)
      (rest.takeWhile fun c => !(c == '?' || c == '#')) = '/' :: path :=
    slash_of_normalPath (.inr husual)
  have hchars := isPathText_normalPath (rulesOf scheme)
    (rest.takeWhile fun c => !(c == '?' || c == '#'))
  have hquery := query_readTail (rulesOf scheme) (rest.dropWhile fun c => !(c == '?' || c == '#'))
  have htext :
      (assemble (rulesOf scheme) scheme userinfo host port rest).withoutFragment.restText =
      normalPath (rulesOf scheme) (rest.takeWhile fun c => !(c == '?' || c == '#')) ++
        ((readTail (rulesOf scheme) (rest.dropWhile fun c => !(c == '?' || c == '#'))).1.elim ""
          fun q => "?" ++ q).toList := by
    simp [restText, withoutFragment, assemble, String.toList_append]
  rw [htext]
  refine ⟨⟨_, by rw [hpath]; rfl⟩, ?_⟩
  rw [List.mem_append, not_or]
  constructor
  · intro hm
    exact absurd (hchars '#' hm) (by decide)
  · cases hq : (readTail (rulesOf scheme) (rest.dropWhile fun c => !(c == '?' || c == '#'))).1 with
    | none => simp
    | some q => simpa [String.toList_append] using hquery q hq

/-- An address of the web that was read from a text without a fragment goes on behind its
authority with a slash, and has no fragment. -/
theorem AssembledFrom.restText {url : Url} (h : AssembledFrom text scheme url)
    (hname : scheme = "http".toList ∨ scheme = "https".toList) (hf : '#' ∉ text) :
    (∃ path, url.restText = '/' :: path) ∧ '#' ∉ url.restText := by
  rw [← withoutFragment_of_none (h.fragment_eq_none hf)]
  exact h.restText_withoutFragment hname

/-- An address that prints as a target of the web. -/
structure IsWeb (url : Url) : Prop where
  scheme : url.scheme.toList = "http".toList ∨ url.scheme.toList = "https".toList
  authority : ∀ c ∈ url.authorityText, isHostChar c = true
  host : ∀ c ∈ url.hostAndPort.toList, isHostChar c = true
  path : ∃ path, url.restText = '/' :: path
  fragment : '#' ∉ url.restText

theorem AssembledFrom.scheme_eq {url : Url} (h : AssembledFrom text scheme url) :
    url.scheme.toList = scheme := by
  obtain ⟨userinfo, host, port, rest, rfl, -⟩ := h
  exact String.toList_ofList

theorem AssembledFrom.host_ne {url : Url} (h : AssembledFrom text scheme url) : url.host ≠ "" := by
  obtain ⟨userinfo, host, port, rest, rfl, -, -, hne, -⟩ := h
  intro hnil
  exact hne (by simpa [assemble] using hnil)

theorem AssembledFrom.isWeb {url : Url} (h : AssembledFrom text scheme url)
    (hname : scheme = "http".toList ∨ scheme = "https".toList) (hf : '#' ∉ text) : url.IsWeb where
  scheme := by rwa [h.scheme_eq]
  authority := isHostChar_authorityText h
  host := isHostChar_hostAndPort h
  path := (h.restText hname hf).1
  fragment := (h.restText hname hf).2

theorem AssembledFrom.isWeb_withoutFragment {url : Url} (h : AssembledFrom text scheme url)
    (hname : scheme = "http".toList ∨ scheme = "https".toList) : url.withoutFragment.IsWeb where
  scheme := by
    change url.scheme.toList = _ ∨ url.scheme.toList = _
    rwa [h.scheme_eq]
  authority := by
    change ∀ c ∈ url.authorityText, isHostChar c = true
    exact isHostChar_authorityText h
  host := by
    change ∀ c ∈ url.hostAndPort.toList, isHostChar c = true
    exact isHostChar_hostAndPort h
  path := (h.restText_withoutFragment hname).1
  fragment := (h.restText_withoutFragment hname).2

/-- The target that an address is read as prints as the address does, without the fragment. -/
theorem text_withoutFragment {url : Url} (h : url.withoutFragment.IsWeb) {uri : Uri}
    (huri : Uri.ofText url.text = .ok uri) : uri.text = url.withoutFragment.text := by
  have hauth : ∀ c ∈ url.authorityText, Uri.endsAuthority c = false := by
    intro c hc
    exact not_endsAuthority_of_isHostChar (h.authority c hc)
  obtain ⟨path, hpath⟩ := h.path
  obtain ⟨fragment, hrest, hfragment⟩ := url.restText_eq
  rw [Uri.ofText, text_eq_absolute, hrest] at huri
  have htext := Uri.text_of_parse_fragment (Uri.isScheme_web h.scheme) hauth hpath h.fragment
    hfragment huri
  rw [← String.toList_inj, text_eq_absolute]
  exact htext

theorem IsWeb.withoutFragment_eq {url : Url} (h : url.IsWeb) : url.withoutFragment = url := by
  apply withoutFragment_of_none
  cases hsome : url.fragment with
  | none => rfl
  | some f =>
    refine absurd ?_ h.fragment
    rw [restText, hsome]
    simp [String.toList_append]

theorem IsWeb.text_of_ofText {url : Url} (h : url.IsWeb) {uri : Uri}
    (huri : Uri.ofText url.text = .ok uri) : uri.text = url.text := by
  have hsame := h.withoutFragment_eq
  rw [← hsame] at h
  rw [text_withoutFragment h huri, hsame]

/-- A text without blanks and controls is read as it is. -/
theorem relevant_of_visible (h : ∀ c ∈ text, 32 < c.toNat) : relevant text = text := by
  have hkeep : ∀ t : List Char, (∀ c ∈ t, 32 < c.toNat) →
      t.dropWhile (fun c => decide (c.toNat ≤ 32)) = t := by
    intro t ht
    apply Text.dropWhile_head
    intro c hc
    exact decide_eq_false (Nat.not_le_of_lt (ht c (List.mem_of_mem_head? hc)))
  have hreverse : ∀ c ∈ text.reverse, 32 < c.toNat := by
    intro c hc
    exact h c (List.mem_reverse.mp hc)
  rw [relevant, Text.trimBy, Text.dropEnd]
  rw [hkeep text h, hkeep text.reverse hreverse, List.reverse_reverse]
  apply List.filter_eq_self.mpr
  intro c hc
  have hvisible := h c hc
  simp only [isIgnored, Bool.not_eq_true', Bool.or_eq_false_iff, beq_eq_false_iff_ne]
  refine ⟨⟨?_, ?_⟩, ?_⟩ <;>
  · rintro rfl
    exact absurd hvisible (by decide)

theorem splitScheme_web (hname : scheme = "http".toList ∨ scheme = "https".toList)
    (authority rest : List Char) :
    splitScheme (Uri.absolute scheme authority rest) =
      some (scheme, '/' :: '/' :: (authority ++ rest)) := by
  obtain rfl | rfl := hname <;> rfl

/-- An address in a usual scheme has a host. -/
theorem readAuthority_hosted {address : Address} (husual : (rulesOf scheme).usual = true)
    (h : readAuthority scheme text = .ok address) : ∃ url, address = .hosted url := by
  simp only [readAuthority, husual, bind, Except.bind, pure, Except.pure, throw, throwThe,
    MonadExceptOf.throw, Bool.true_or, if_true] at h
  split at h
  · cases h
  split at h
  · cases h
  split at h
  · cases h
  split at h
  · cases h
  · exact ⟨_, (Except.ok.inj h).symm⟩

/-- A visible text that starts like an address of the web and has no fragment is read as one,
or refused. -/
theorem parse_web {address : Address} {authority rest : List Char}
    (hname : scheme = "http".toList ∨ scheme = "https".toList)
    (hvisible : ∀ c ∈ Uri.absolute scheme authority rest, 32 < c.toNat)
    (hf : '#' ∉ Uri.absolute scheme authority rest)
    (h : parse (Uri.absolute scheme authority rest) = .ok address) :
    ∃ url, address = .hosted url ∧ url.IsWeb := by
  obtain ⟨husual, hfile⟩ := rulesOf_web hname
  unfold parse at h
  rw [relevant_of_visible hvisible, splitScheme_web hname] at h
  dsimp only at h
  rw [if_neg (by rw [hfile]; exact Bool.false_ne_true), if_pos husual] at h
  obtain ⟨url, rfl⟩ := readAuthority_hosted husual h
  have hassembled := readAuthority_inv h
  refine ⟨url, rfl, (hassembled.of_suffix ?_).isWeb hname hf⟩
  refine (List.dropWhile_suffix _).trans ⟨scheme ++ [':'], ?_⟩
  simp [Uri.absolute]

end Url

end PeerCache