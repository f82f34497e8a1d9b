import PeerCache.Peer.Member
import PeerCache.Proofs.DateLaws
import PeerCache.Proofs.ExceptLaws
import PeerCache.Proofs.UrlLaws

/-!
# Forwarding

What the boundary of a peer makes of a request that a router sent to it. The router writes the
target as a form value, and the boundary reads back the text that was written. It then reads
that text as an address, and asks for the normal form of it.
-/

namespace PeerCache

theorem Utf8.length_le (text : List Char) : text.length ≤ (Utf8.encode text).length := by
  induction text with
  | nil => exact Nat.le_refl 0
  | cons c text ih =>
    show text.length + 1 ≤ (String.utf8EncodeChar c ++ Utf8.encode text).length
    have hpos := Char.utf8Size_pos c
    rw [List.length_append, String.length_utf8EncodeChar]
    omega

/-- Visible ASCII characters make a header value. -/
theorem HeaderValue.exists_ofChars {text : List Char} (h : ∀ c ∈ text, isHostChar c = true) :
    ∃ v, HeaderValue.ofChars? text = some v := by
  have hprintable : text.all isPrintable = true := by
    rw [List.all_eq_true]
    intro c hc
    have hhost := h c hc
    simp only [isHostChar, Bool.and_eq_true, decide_eq_true_eq] at hhost
    exact isPrintable_iff.mpr ⟨Nat.le_of_lt hhost.1.1, hhost.1.2⟩
  obtain ⟨v, hv, -⟩ := HeaderValue.exists_ofChars? hprintable
  exact ⟨v, hv⟩

/-! ## The query -/

theorem Router.toList_queryFor (resource : String) :
    (Router.queryFor resource).toList = 'q' :: '=' :: Form.encode resource.toList := by
  simp [Router.queryFor, String.toList_append]

theorem Router.fragment_not_mem_queryFor (resource : String) :
    '#' ∉ (Router.queryFor resource).toList := by
  have hencode : '#' ∉ Form.encode resource.toList := Form.not_mem_encode (by decide)
  rw [Router.toList_queryFor]
  simpa using hencode

namespace Boundary

theorem splitPair_encode (text : List Char) :
    Form.splitPair ('q' :: '=' :: Form.encode text) = (['q'], Form.encode text) := by
  have hcut : Text.cut (· == '=') (['q'] ++ '=' :: Form.encode text) =
      (['q'], some (Form.encode text)) := Text.cut_append (by simp) rfl
  rw [List.singleton_append] at hcut
  rw [Form.splitPair, hcut]
  rfl

/-- A query made of parts in front of the one that a router writes, and of parts behind it. -/
def queryAmong (before after : List (List Char)) (resource : String) : List Char :=
  ['&'].intercalate (before ++ (Router.queryFor resource).toList :: after)

/-- Parts with other names and parts behind it do not hide what the router wrote. -/
theorem rawTarget?_queryAmong (before after : List (List Char)) (resource : String)
    (hmarks : ∀ part ∈ before ++ after, '&' ∉ part)
    (hnames : ∀ part ∈ before, Form.decode (Form.splitPair part).1 ≠ ['q']) :
    rawTarget? (queryAmong before after resource) = some (Form.encode resource.toList) := by
  have hpair := splitPair_encode resource.toList
  have hname : Form.decode ['q'] = ['q'] := by decide
  have hown : '&' ∉ 'q' :: '=' :: Form.encode resource.toList := by
    have hencode : '&' ∉ Form.encode resource.toList := Form.not_mem_encode (by decide)
    simpa using hencode
  have hparts : (queryAmong before after resource).splitOn '&' =
      before ++ ('q' :: '=' :: Form.encode resource.toList) :: after := by
    rw [queryAmong, Router.toList_queryFor]
    refine List.splitOn_intercalate '&' ?_ (by simp)
    intro part hpart
    rw [List.mem_append, List.mem_cons] at hpart
    obtain hpart | rfl | hpart := hpart
    · exact hmarks part (List.mem_append_left _ hpart)
    · exact hown
    · exact hmarks part (List.mem_append_right _ hpart)
  have hothers : before.find? (fun part =>
      decide (part ≠ [] ∧ Form.decode (Form.splitPair part).1 = ['q'])) = none := by
    rw [List.find?_eq_none]
    intro part hpart hfound
    exact hnames part hpart (of_decide_eq_true hfound).2
  rw [rawTarget?, hparts, List.find?_append, hothers, Option.none_or, List.find?_cons_of_pos]
  · rw [Option.map_some, hpair]
  · rw [hpair, hname]
    exact decide_eq_true ⟨List.cons_ne_nil _ _, rfl⟩

/-- What becomes of a query depends on the resource that it names. -/
theorem parseTarget_queryAmong (before after : List (List Char)) (resource : String)
    (hmarks : ∀ part ∈ before ++ after, '&' ∉ part)
    (hnames : ∀ part ∈ before, Form.decode (Form.splitPair part).1 ≠ ['q']) :
    parseTarget (some (queryAmong before after resource)) =
      if resource = "" then .error .missingTarget else checkTarget resource.toList := by
  rw [parseTarget, Option.getD_some, rawTarget?_queryAmong before after resource hmarks hnames]
  dsimp only
  rw [if_neg (by simp [Form.wellFormed_encode]), Form.decode_encode]
  split
  · next hnil => rw [if_pos (String.toList_eq_nil_iff.mp hnil)]
  · next hsome => rw [if_neg fun hnil => hsome (String.toList_eq_nil_iff.mpr hnil)]

theorem queryAmong_nil (resource : String) :
    queryAmong [] [] resource = (Router.queryFor resource).toList := by
  simp [queryAmong]

/-- The boundary reads back the resource that a router names. -/
theorem parseTarget_queryFor {resource : String} (h : resource.toList ≠ []) :
    parseTarget (some (Router.queryFor resource).toList) = checkTarget resource.toList := by
  have hread := parseTarget_queryAmong [] [] resource (by simp) (by simp)
  rw [queryAmong_nil, if_neg fun hnil => h (String.toList_eq_nil_iff.mpr hnil)] at hread
  exact hread

end Boundary

/-! ## The address of a resource at a boundary -/

namespace Router

variable {config : RouterConfig} {router : Router} {peer owner resource : String}
  {req sent : Request} {url : Url}

theorem boundaryUrl_inv (h : boundaryUrl config peer resource = .ok url) :
    ∃ base, Url.ofText peer = .ok (.hosted base) ∧
      url = { base.withPath config.path with query := some (queryFor resource) } := by
  rw [boundaryUrl] at h
  split at h
  · cases h
  · cases h
  · next base hbase => exact ⟨base, hbase, (Except.ok.inj h).symm⟩

/-- The usual path of a boundary is in normal form under every scheme. -/
theorem path_withPath (base : Url) : (base.withPath "/proxy").path = "/proxy" := by
  have hnormal : ∀ usual file, Url.normalPath ⟨usual, file⟩ "/proxy".toList = "/proxy".toList := by
    decide
  have hhead : ∀ c ∈ "/proxy".toList.head?, c = '/' := by
    intro c hc
    exact (Option.some.inj hc).symm
  rw [← String.toList_inj, Url.toList_withPath (List.all_eq_true.mp (by decide)) hhead]
  exact hnormal _ _

/-- Behind the authority of a peer stand the path of its boundary, the resource, and a fragment
if the peer was given with one. -/
theorem restText_boundaryUrl (h : boundaryUrl config peer resource = .ok url) :
    ∃ fragment, url.restText =
        url.path.toList ++ '?' :: (queryFor resource).toList ++ fragment ∧
      ∀ c ∈ fragment.head?, c = '#' := by
  obtain ⟨base, -, rfl⟩ := boundaryUrl_inv h
  obtain ⟨fragment, hrest, hmark⟩ :=
    { base.withPath config.path with query := some (queryFor resource) }.restText_eq
  refine ⟨fragment, ?_, hmark⟩
  rw [hrest]
  simp [Url.restText, Url.withoutFragment, String.toList_append]

/-- Scheme and authority of the peer stay as they are. -/
theorem boundaryUrl_authority (h : boundaryUrl config peer resource = .ok url) :
    (∀ c ∈ url.scheme.toList, Uri.isSchemeChar c = true) ∧
      (∀ c ∈ url.authorityText, isHostChar c = true) ∧
      ∀ c ∈ url.hostAndPort.toList, isHostChar c = true := by
  obtain ⟨base, hbase, rfl⟩ := boundaryUrl_inv h
  obtain ⟨scheme, hscheme, hassembled⟩ := Url.parse_inv hbase
  refine ⟨?_, ?_, ?_⟩
  · show ∀ c ∈ base.scheme.toList, Uri.isSchemeChar c = true
    rw [hassembled.scheme_eq]
    exact hscheme
  · rw [Url.authorityText_withPath]
    exact Url.isHostChar_authorityText hassembled
  · rw [Url.hostAndPort_withPath]
    exact Url.isHostChar_hostAndPort hassembled

/-- The path of the target that is sent for an address at a boundary; there is no empty one. -/
def sentPath (config : RouterConfig) (base : Url) : String :=
  if (base.withPath config.path).path = "" then "/" else (base.withPath config.path).path

/-- The target that the address of a resource at a boundary is read as. A resource that is
longer than a target may be has none. -/
theorem ofText_boundaryUrl (h : boundaryUrl config peer resource = .ok url) {uri : Uri}
    (huri : Uri.ofText url.text = .ok uri) :
    ∃ base, Url.ofText peer = .ok (.hosted base) ∧
      uri.authority = some (String.ofList base.authorityText) ∧
      uri.path = sentPath config base ∧ uri.query = some (queryFor resource) ∧
      (Utf8.encode resource.toList).length ≤ Uri.maxLength := by
  obtain ⟨base, hbase, hof⟩ := boundaryUrl_inv h
  obtain ⟨fragment, hrest, hfragment⟩ := restText_boundaryUrl h
  obtain ⟨hscheme, hauth, -⟩ := boundaryUrl_authority h
  have hmark := fragment_not_mem_queryFor resource
  have hpath : url.path = (base.withPath config.path).path := by rw [hof]
  have hplain : ∀ c ∈ url.path.toList, c ≠ '?' ∧ c ≠ '#' := by
    intro c hc
    rw [hpath] at hc
    have htext := Url.isPathText_withPath base config.path c hc
    simp only [Url.isPathText, Bool.and_eq_true, decide_eq_true_eq] at htext
    exact ⟨htext.1.2, htext.2⟩
  have hhead : ∀ c ∈ url.restText.head?, Uri.endsAuthority c = true := by
    intro c hc
    rw [hrest, hpath] at hc
    have hslash := Url.slash_of_withPath base config.path
    cases hlist : (base.withPath config.path).path.toList with
    | nil =>
      rw [hlist] at hc
      obtain rfl := Option.some.inj hc
      rfl
    | cons d path =>
      rw [hlist] at hc hslash
      obtain rfl := Option.some.inj hc
      rw [hslash d rfl]
      rfl
  rw [Uri.ofText, Url.text_eq_absolute] at huri
  obtain ⟨hlength, -, ha, hp, hq⟩ := Uri.parse_absolute_inv hscheme
    (fun c hc => not_endsAuthority_of_isHostChar (hauth c hc)) hhead huri
  refine ⟨base, hbase, ?_, ?_, ?_, ?_⟩
  · rw [ha, hof, Url.authorityText_withPath]
  · rw [hp, hrest, Uri.pathOf_append hplain hmark hfragment, hpath, sentPath]
    simp only [← String.toList_eq_nil_iff]
    split
    · rfl
    · exact String.ofList_toList
  · rw [hq, hrest, Uri.splitQuery_append hplain hmark hfragment]
    exact congrArg some String.ofList_toList
  · have hpart : (Form.encode resource.toList).length ≤
        (Uri.absolute url.scheme.toList url.authorityText url.restText).length := by
      rw [Uri.absolute, hrest, toList_queryFor]
      simp only [List.length_append, List.length_cons]
      omega
    calc (Utf8.encode resource.toList).length
      _ ≤ (Form.encode resource.toList).length := Form.length_encode _
      _ ≤ (Uri.absolute url.scheme.toList url.authorityText url.restText).length := hpart
      _ ≤ (Utf8.encode (Uri.absolute url.scheme.toList url.authorityText url.restText)).length :=
        Utf8.length_le _
      _ ≤ Uri.maxLength := hlength

/-- A request is forwarded to the address of its target at the boundary of the peer, with the
host of that peer. -/
theorem forwardTo_eq_ok (h : forwardTo config peer req = .ok sent) :
    ∃ url uri host, boundaryUrl config peer req.uri.text = .ok url ∧
      Uri.ofText url.text = .ok uri ∧ HeaderValue.ofChars? url.hostAndPort.toList = some host ∧
      sent = { req with uri, headers := req.headers.insert .host host } := by
  rw [forwardTo] at h
  split at h
  · cases h
  · next url hurl =>
    split at h
    · cases h
    · next uri huri =>
      split at h
      · cases h
      · next host hhost => exact ⟨url, uri, host, hurl, huri, hhost, (Except.ok.inj h).symm⟩

/-- What a router sends goes to the authority of the peer and names the resource in the query. -/
theorem target_of_forwardTo (h : forwardTo config peer req = .ok sent) :
    ∃ base, Url.ofText peer = .ok (.hosted base) ∧
      sent.uri.authority = some (String.ofList base.authorityText) ∧
      sent.uri.path = sentPath config base ∧ sent.uri.query = some (queryFor req.uri.text) ∧
      (Utf8.encode req.uri.text.toList).length ≤ Uri.maxLength := by
  obtain ⟨url, uri, host, hurl, huri, -, rfl⟩ := forwardTo_eq_ok h
  exact ofText_boundaryUrl hurl huri

theorem route_eq (howner : router.owner? req.uri.text = some owner) :
    router.route req =
      if router.identity = some owner then .ok .here
      else (forwardTo router.config owner req).map (.forward owner) := by
  rw [route, howner]

/-- A router keeps the requests that its own member owns. -/
theorem route_eq_here (h : router.route req = .ok .here) :
    ∃ owner, router.owner? req.uri.text = some owner ∧ router.identity = some owner := by
  cases howner : router.owner? req.uri.text with
  | none =>
    rw [route, howner] at h
    cases h
  | some owner =>
    rw [route_eq howner] at h
    split at h
    · next hown => exact ⟨owner, rfl, hown⟩
    · obtain ⟨sent, -, hroute⟩ := exists_of_map_ok h
      cases hroute

/-- It forwards the others to their owner. -/
theorem route_eq_forward (h : router.route req = .ok (.forward peer sent)) :
    router.owner? req.uri.text = some peer ∧ router.identity ≠ some peer ∧
      forwardTo router.config peer req = .ok sent := by
  cases howner : router.owner? req.uri.text with
  | none =>
    rw [route, howner] at h
    cases h
  | some owner =>
    rw [route_eq howner] at h
    split at h
    · cases h
    · next hother =>
      obtain ⟨sent', hsent, hroute⟩ := exists_of_map_ok h
      obtain ⟨rfl, rfl⟩ := Route.forward.inj hroute
      exact ⟨rfl, hother, hsent⟩

/-- It goes to the usual path, if that is the one of the boundary; only the `Host` field is
another one. -/
theorem forwardTo_inv (hpath : config.path = "/proxy") (h : forwardTo config peer req = .ok sent) :
    sent.uri.path = "/proxy" ∧ sent.uri.query = some (queryFor req.uri.text) ∧
      sent.method = req.method ∧ (∃ host, sent.headers = req.headers.insert .host host) ∧
      (Utf8.encode req.uri.text.toList).length ≤ Uri.maxLength := by
  obtain ⟨base, -, -, hp, hquery, hlength⟩ := target_of_forwardTo h
  obtain ⟨url, uri, host, -, -, -, rfl⟩ := forwardTo_eq_ok h
  refine ⟨?_, hquery, rfl, ⟨host, rfl⟩, hlength⟩
  rw [hp, sentPath, hpath, path_withPath]
  rfl

end Router

/-! ## The request behind a boundary -/

/-- A target in one of the schemes that a boundary serves. -/
def Uri.IsWeb (u : Uri) : Prop :=
  u.scheme = some "http" ∨ u.scheme = some "https"

variable {u : Uri} {text : String} {url : Url} {scheme : List Char}

/-- A target of the web is an absolute one in that scheme. -/
theorem Uri.IsWeb.absolute (h : u.IsWeb) (hread : Uri.ofText text = .ok u) :
    ∃ scheme authority, (scheme = "http".toList ∨ scheme = "https".toList) ∧
      u.text.toList = Uri.absolute scheme authority u.printedRest := by
  obtain hs | hs := h
  · obtain ⟨authority, -, ha, -⟩ := Uri.parts_of_parse hread hs
    exact ⟨_, authority, .inl rfl, Uri.text_eq_absolute hs ha⟩
  · obtain ⟨authority, -, ha, -⟩ := Uri.parts_of_parse hread hs
    exact ⟨_, authority, .inr rfl, Uri.text_eq_absolute hs ha⟩

namespace Boundary

/-- A target of the web that is read as an address at all is one that a boundary serves. -/
theorem checkTarget_of_web (h : u.IsWeb) (hread : Uri.ofText text = .ok u) {address : Address}
    (haddress : Url.ofText u.text = .ok address) :
    ∃ url, address = .hosted url ∧ url.IsWeb ∧ checkTarget u.text.toList = .ok url := by
  obtain ⟨scheme, authority, hscheme, htext⟩ := h.absolute hread
  have hvisible := u.visible_text
  have hfragment : '#' ∉ u.text.toList := u.not_mem_text (by decide)
  rw [Url.ofText, htext] at haddress
  rw [htext] at hvisible hfragment ⊢
  obtain ⟨url, rfl, hweb⟩ := Url.parse_web hscheme hvisible hfragment haddress
  refine ⟨url, rfl, hweb, ?_⟩
  rw [checkTarget, haddress]
  dsimp only
  rw [if_neg]
  rintro ⟨hhttp, hhttps⟩
  obtain hs | hs := hweb.scheme
  · exact hhttp (String.toList_inj.mp hs)
  · exact hhttps (String.toList_inj.mp hs)

theorem originRequest_eq_ok {req seen : Request} (h : originRequest req url = .ok seen) :
    Uri.ofText url.text = .ok seen.uri ∧
      (∃ host, HeaderValue.ofChars? url.hostAndPort.toList = some host ∧
        seen.headers = req.headers.stripHopByHop.insert .host host) ∧
      seen.method = req.method ∧ seen.body = req.body ∧ seen.version = .http11 := by
  rw [originRequest] at h
  split at h
  · cases h
  · next uri huri =>
    split at h
    · cases h
    · next host hhost =>
      obtain rfl := Except.ok.inj h
      refine ⟨huri, ⟨host, hhost, ?_⟩, rfl, rfl, rfl⟩
      dsimp only

theorem originRequest_inv {req seen : Request} (hweb : url.IsWeb)
    (h : originRequest req url = .ok seen) :
    seen.uri.text = url.text ∧ seen.method = req.method ∧
      ∃ host, seen.headers = req.headers.stripHopByHop.insert .host host := by
  obtain ⟨huri, ⟨host, -, hheaders⟩, hmethod, -⟩ := originRequest_eq_ok h
  exact ⟨hweb.text_of_ofText huri, hmethod, host, hheaders⟩

/-- What comes in at the path of a boundary for a resource is the check of the resource. -/
theorem accept_queryFor {req : Request} {resource : String} (hpath : req.uri.path = "/proxy")
    (hquery : req.uri.query = some (Router.queryFor resource)) (hne : resource.toList ≠ []) :
    accept "/proxy" req = (checkTarget resource.toList).bind (originRequest req) := by
  rw [accept, if_neg (fun hne => hne hpath), hquery, Option.map_some, parseTarget_queryFor hne]
  cases checkTarget resource.toList <;> simp only [Except.bind]

/-! ## How handling ends -/

/-- A response goes back for a response of the cache only. -/
theorem answer_conclude_eq_ok_iff {σ : Type} {method : Method} {x : Exchange σ}
    {answer : Response} :
    (conclude method x).answer = .ok answer ↔
      ∃ resp, x.answer = .ok resp ∧ relay method resp = answer := by
  rw [conclude]
  cases x.answer <;> simp

/-- The only error after a request was accepted is that of the origin. -/
theorem answer_conclude_eq_error_iff {σ : Type} {method : Method} {x : Exchange σ}
    {e : BoundaryError} : (conclude method x).answer = .error e ↔
      ∃ cause, x.answer = .error cause ∧ .origin cause = e := by
  rw [conclude]
  cases x.answer <;> simp

section Handling

variable {σ : Type} [ByteStore σ]

/-- How handling a request can end. -/
inductive Ends (path : String) (origin : Origin) (now : Nat) (store : σ) (req : Request) :
    Handling σ → Prop
  | refused {e : BoundaryError} (h : accept path req = .error e) :
    Ends path origin now store req (.done { answer := .error e, store })
  | concluded {sent : Request} (h : accept path req = .ok sent) {x : Exchange σ}
    (hx : PeerCache.attempt origin now store sent = .done x) :
    Ends path origin now store req (.done (conclude req.method x))
  | brokenOff {sent : Request} (h : accept path req = .ok sent) {asked : List Request} {after : σ}
    (hx : PeerCache.attempt origin now store sent = .brokenOff asked after) :
    Ends path origin now store req (.brokenOff asked after)

theorem attempt_ends (path : String) (origin : Origin) (now : Nat) (store : σ) (req : Request) :
    Ends path origin now store req (attempt path origin now store req) := by
  rw [attempt]
  split
  · next e h => exact .refused h
  · next sent h =>
    split
    · next x hx => exact .concluded h hx
    · next asked after hx => exact .brokenOff h hx

/-- A boundary refuses a request and leaves everything as it is, or does with origin and store what
an attempt for the accepted request does. -/
theorem Ends.asked_store {path : String} {origin : Origin} {now : Nat} {store : σ} {req : Request}
    {handling : Handling σ} (h : Ends path origin now store req handling) :
    (handling.asked = [] ∧ handling.store = store) ∨
      ∃ sent, accept path req = .ok sent ∧
        handling.asked = (PeerCache.attempt origin now store sent).asked ∧
        handling.store = (PeerCache.attempt origin now store sent).store := by
  cases h with
  | refused => exact .inl ⟨rfl, rfl⟩
  | @concluded sent h x hx =>
    exact .inr ⟨sent, h, by rw [hx]; rfl, by rw [hx]; rfl⟩
  | @brokenOff sent h asked after hx =>
    exact .inr ⟨sent, h, by rw [hx]; rfl, by rw [hx]; rfl⟩

end Handling

end Boundary

end PeerCache
