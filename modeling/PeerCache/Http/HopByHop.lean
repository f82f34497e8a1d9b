import PeerCache.Http.Headers

/-!
# Hop-by-hop fields

Some header fields describe one connection and go no further: a fixed set, and those that
the `Connection` field lists.
-/

namespace PeerCache

namespace HeaderName

def hopByHop : List HeaderName :=
  [connection, ⟨"keep-alive", by decide⟩, ⟨"proxy-connection", by decide⟩,
    ⟨"proxy-authenticate", by decide⟩, ⟨"proxy-authorization", by decide⟩, ⟨"te", by decide⟩,
    ⟨"trailer", by decide⟩, ⟨"transfer-encoding", by decide⟩, ⟨"upgrade", by decide⟩]

end HeaderName

namespace Headers

/-- The names that the `Connection` field lists; parts that are no names are left out. -/
def connectionNames (h : Headers) : List HeaderName :=
  (h.elements HeaderName.connection).filterMap fun part => HeaderName.ofChars? (Text.trim part)

def stripHopByHop (h : Headers) : Headers :=
  (h.removeAll h.connectionNames).removeAll HeaderName.hopByHop

end Headers

end PeerCache
