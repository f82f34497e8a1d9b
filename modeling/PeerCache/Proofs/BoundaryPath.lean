import PeerCache.Proofs.ExchangeCourses
import PeerCache.Proofs.Forwarding
import PeerCache.Settings
import PeerCache.Store.Memory

/-!
# Paths of boundaries

A router gives the address of a peer the path of the boundary, and the address brings that path
to its normal form. The boundary compares what comes in with the path as it was configured. So
the members of a pool understand each other exactly if the configured path is in normal form;
otherwise each of them refuses whatever another one forwards.
-/

namespace PeerCache

section Paths

variable {config : RouterConfig} {base : Url} {peer path : String} {req sent : Request}

/-! ## What is sent -/

/-- A path is sent as it was configured exactly if it is in normal form. -/
theorem Router.sentPath_eq_iff : sentPath config base = config.path ↔
    Url.IsNormalPath (Url.rulesOf base.scheme.toList) config.path.toList := by
  constructor
  · intro h
    rw [sentPath] at h
    split at h
    · rw [← h]
      exact Url.isNormalPath_slash _
    · next hne =>
      have hchars := Url.isPathText_withPath base config.path
      have hhead := Url.slash_of_withPath base config.path
      rw [h] at hchars hhead hne
      have hread : (base.withPath config.path).path.toList =
          Url.normalPath (Url.rulesOf base.scheme.toList) config.path.toList :=
        Url.toList_withPath hchars hhead
      rw [h] at hread
      have hsome : config.path.toList ≠ [] := fun hnil => hne (String.toList_eq_nil_iff.mp hnil)
      exact (Url.normalPath_eq_self_iff hsome).mp hread.symm
  · intro h
    -- a normal path holds what paths of addresses hold, so it passes through unchanged
    have hsame := h.normalPath_eq
    have hchars := Url.isPathText_normalPath (Url.rulesOf base.scheme.toList) config.path.toList
    have hhead := Url.head_normalPath (Url.rulesOf base.scheme.toList) config.path.toList
    rw [hsame] at hchars hhead
    have hkept : (base.withPath config.path).path = config.path := by
      rw [← String.toList_inj, Url.toList_withPath hchars hhead, hsame]
    rw [sentPath, hkept, if_neg fun hnil => h.ne_nil (String.toList_eq_nil_iff.mpr hnil)]

/-! ## What is refused -/

namespace Boundary

theorem checkTarget_ne_wrongPath (target : List Char) (p : String) :
    checkTarget target ≠ .error (.wrongPath p) := by
  intro h
  rw [checkTarget] at h
  split at h
  · cases h
  split at h
  · cases h
  split at h <;> cases h

theorem parseTarget_ne_wrongPath (query : Option (List Char)) (p : String) :
    parseTarget query ≠ .error (.wrongPath p) := by
  intro h
  rw [parseTarget] at h
  split at h
  · cases h
  split at h
  · cases h
  split at h
  · cases h
  · exact checkTarget_ne_wrongPath _ p h

theorem originRequest_ne_wrongPath (req : Request) (target : Url) (p : String) :
    originRequest req target ≠ .error (.wrongPath p) := by
  intro h
  rw [originRequest] at h
  split at h
  · cases h
  split at h <;> cases h

/-- The path is wrong exactly if it is not the one of the boundary. -/
theorem accept_eq_wrongPath_iff {p : String} :
    accept path req = .error (.wrongPath p) ↔ req.uri.path ≠ path ∧ req.uri.path = p := by
  rw [accept]
  split
  · next hne => simp [hne]
  · next heq =>
    constructor
    · intro h
      split at h
      · next e he =>
        obtain rfl := Except.error.inj h
        exact absurd he (parseTarget_ne_wrongPath _ p)
      · exact absurd h (originRequest_ne_wrongPath req _ p)
    · rintro ⟨hne, -⟩
      exact absurd hne heq

/-- A request for another path is refused with that path, and asks nothing of origin and store. -/
theorem attempt_of_path_ne {σ : Type} [ByteStore σ] (origin : Origin) (now : Nat) (store : σ)
    (h : req.uri.path ≠ path) :
    attempt path origin now store req =
      .done { answer := .error (.wrongPath req.uri.path), store } := by
  have hrefused := accept_eq_wrongPath_iff.mpr ⟨h, rfl⟩
  rw [attempt, hrefused]

theorem attempt_ne_wrongPath {σ : Type} [ByteStore σ] (origin : Origin) (now : Nat) (store : σ)
    (h : req.uri.path = path) (p : String) :
    (attempt path origin now store req).answer? ≠ some (.error (.wrongPath p)) := by
  have hends := attempt_ends path origin now store req
  generalize attempt path origin now store req = handling at hends ⊢
  intro hanswer
  cases hends with
  | refused he =>
    obtain rfl := Except.error.inj (Option.some.inj hanswer)
    exact (accept_eq_wrongPath_iff.mp he).1 h
  | concluded =>
    obtain ⟨_, -, hcause⟩ := answer_conclude_eq_error_iff.mp (Option.some.inj hanswer)
    cases hcause
  | brokenOff => cases hanswer

end Boundary

/-- The boundary of a member takes what a router with the same settings forwards to it exactly if
the configured path is in normal form for the address of that member. Otherwise the request is
refused, whatever it asks for. -/
theorem forwarded_path_served_iff (h : Router.forwardTo config peer req = .ok sent) :
    ∃ base, Url.ofText peer = .ok (.hosted base) ∧
      ∀ (σ : Type) [ByteStore σ] (store : σ) (origin : Origin) (now : Nat),
        ((∀ p, (Boundary.attempt config.path origin now store sent).answer? ≠
            some (.error (.wrongPath p))) ↔
          Url.IsNormalPath (Url.rulesOf base.scheme.toList) config.path.toList) ∧
        (¬Url.IsNormalPath (Url.rulesOf base.scheme.toList) config.path.toList →
          Boundary.attempt config.path origin now store sent =
            .done { answer := .error (.wrongPath (Router.sentPath config base)), store }) := by
  obtain ⟨base, hbase, -, hpath, -⟩ := Router.target_of_forwardTo h
  refine ⟨base, hbase, ?_⟩
  intro σ _ store origin now
  have hrefused : ¬Url.IsNormalPath (Url.rulesOf base.scheme.toList) config.path.toList →
      Boundary.attempt config.path origin now store sent =
        .done { answer := .error (.wrongPath (Router.sentPath config base)), store } := by
    intro hnot
    have hne : sent.uri.path ≠ config.path := by
      rw [hpath]
      exact fun hsame => hnot (Router.sentPath_eq_iff.mp hsame)
    rw [Boundary.attempt_of_path_ne origin now store hne, hpath]
  refine ⟨⟨?_, ?_⟩, hrefused⟩
  · intro hserved
    by_contra hnot
    rw [hrefused hnot] at hserved
    exact hserved _ rfl
  · intro hnormal
    have hsame : sent.uri.path = config.path := hpath.trans (Router.sentPath_eq_iff.mpr hnormal)
    exact Boundary.attempt_ne_wrongPath origin now store hsame

end Paths

/-! ## Two configured paths -/

namespace ConfiguredPath

def peer : String := "HTTP://Q.test:80/base"

/-- The address that the peer is read as. -/
def base : Url where
  scheme := "http"
  userinfo := ""
  host := "q.test"
  port := none
  path := "/base"
  query := none
  fragment := none

/-- A path that is written as an address writes it. -/
def normal : RouterConfig := { path := "/shard/v1;%20x//" }

/-- A settings file whose path does not start with a slash. -/
def bareFile : Bytes :=
  utf8 "[peer]\npath = \"proxy\"\n\n[pool]\nreplicas = 1\n"

def bare : RouterConfig := { path := "proxy", replicas := 1 }

/-- What a router sends to the peer. -/
def sent (config : RouterConfig) : Request :=
  (Router.forwardTo config peer (Sample.request [])).toOption.getD (Sample.request [])

end ConfiguredPath

open ConfiguredPath in
theorem normal_path_is_served :
    Router.forwardTo normal peer (Sample.request []) = .ok (sent normal) ∧
      (sent normal).uri.path = normal.path ∧
      ∀ (origin : Origin) (now : Nat) (p : String),
        (Boundary.attempt normal.path origin now Memory.empty (sent normal)).answer? ≠
          some (.error (.wrongPath p)) := by
  have hsent : Router.forwardTo normal peer (Sample.request []) = .ok (sent normal) := by
    decide +kernel
  have hbase : Url.ofText peer = .ok (.hosted base) := by decide +kernel
  have hnormal : Url.IsNormalPath (Url.rulesOf base.scheme.toList) normal.path.toList :=
    (Url.normalPath_eq_self_iff (by decide)).mp (by decide +kernel)
  obtain ⟨found, hfound, hserved⟩ := forwarded_path_served_iff hsent
  obtain rfl := Address.hosted.inj (Except.ok.inj (hfound.symm.trans hbase))
  refine ⟨hsent, by decide +kernel, ?_⟩
  intro origin now
  exact (hserved Memory Memory.empty origin now).1.mpr hnormal

open ConfiguredPath in
/-- From the settings of the file, the router asks for `/proxy` and the boundary serves `proxy`
only. -/
theorem bare_path_is_refused :
    ((Settings.load "/home" (.ok bareFile)).toOption.map fun s => s.routerConfig.path) =
        some bare.path ∧
      Router.forwardTo bare peer (Sample.request []) = .ok (sent bare) ∧
      ∀ (origin : Origin) (now : Nat),
        (Boundary.attempt bare.path origin now Memory.empty (sent bare)).answer? =
          some (.error (.wrongPath "/proxy")) := by
  refine ⟨by decide +kernel, by decide +kernel, ?_⟩
  have hpath : (sent bare).uri.path = "/proxy" := by decide +kernel
  intro origin now
  have hne : (sent bare).uri.path ≠ bare.path := by
    rw [hpath]
    decide
  rw [Boundary.attempt_of_path_ne origin now Memory.empty hne, hpath]
  rfl

end PeerCache
